import HomeReplication.Journal

/-! What the free-PBA journal reports after a whole history of calls, and how reads over ranges
behave.  At each LSN the latest call that touches it decides: an add there leaves its PBAs, a
truncation at or above it leaves nothing.  So `get_free_pba_records` loses no add and reports
none twice, reads over adjacent ranges add up to the read over their union, and one read visits
at most `end_lsn - start_lsn` records, however many the journal holds. -/

namespace HomeReplication

/-- Whether a journal call decides what the journal holds at `lsn`: an add at `lsn`, or a
truncation at or above it. -/
def JournalOp.Touches (lsn : Int) : JournalOp → Prop
  | .add l _ => l = lsn
  | .removeUpto upto => lsn ≤ upto

instance (lsn : Int) : DecidablePred (JournalOp.Touches lsn)
  | .add l _ => inferInstanceAs (Decidable (l = lsn))
  | .removeUpto upto => inferInstanceAs (Decidable (lsn ≤ upto))

namespace FreePbaJournal

theorem apply_pbasAt_eq_some (j : FreePbaJournal) (op : JournalOp) (lsn : Int) (pbas : PbaList) :
    (j.apply op).pbasAt lsn = some pbas ↔
      op = .add lsn pbas ∨ (¬op.Touches lsn ∧ j.pbasAt lsn = some pbas) := by
  cases op with
  | add l q =>
    by_cases same : l = lsn
    · subst same; simp [apply, add, JournalOp.Touches, eq_comm]
    · simp [apply, add, JournalOp.Touches, same, Ne.symm same]
  | removeUpto upto =>
    by_cases below : lsn ≤ upto <;> simp [apply, removeUpto, JournalOp.Touches, below]

/-- After a sequence of calls, `pbas` is at `lsn` exactly when the latest call that touches
`lsn` adds `pbas` there, or when no call touches `lsn` and `pbas` was there to begin with. -/
theorem run_pbasAt_eq_some (j : FreePbaJournal) (ops : List JournalOp) (lsn : Int)
    (pbas : PbaList) :
    (j.run ops).pbasAt lsn = some pbas ↔
      (∃ pre post, ops = pre ++ .add lsn pbas :: post ∧ ∀ op ∈ post, ¬op.Touches lsn) ∨
        ((∀ op ∈ ops, ¬op.Touches lsn) ∧ j.pbasAt lsn = some pbas) := by
  induction ops generalizing j with
  | nil => simp [run]
  | cons op ops ih =>
    rw [show j.run (op :: ops) = (j.apply op).run ops from rfl, ih, apply_pbasAt_eq_some]
    constructor
    · rintro (⟨pre, post, rfl, untouched⟩ | ⟨untouched, rfl | ⟨other, was⟩⟩)
      · exact .inl ⟨op :: pre, post, rfl, untouched⟩
      · exact .inl ⟨[], ops, rfl, untouched⟩
      · exact .inr ⟨List.forall_mem_cons.mpr ⟨other, untouched⟩, was⟩
    · rintro (⟨pre, post, split, untouched⟩ | ⟨untouched, was⟩)
      · rcases List.cons_eq_append_iff.mp split with ⟨rfl, same⟩ | ⟨pre', rfl, rest⟩
        · obtain ⟨rfl, rfl⟩ := List.cons.inj same
          exact .inr ⟨untouched, .inl rfl⟩
        · exact .inl ⟨pre', post, rest, untouched⟩
      · rw [List.forall_mem_cons] at untouched
        exact .inr ⟨untouched.2, .inr ⟨untouched.1, was⟩⟩

theorem replay_append (j : FreePbaJournal) {startLsn midLsn endLsn : Int}
    (first : startLsn ≤ midLsn) (second : midLsn ≤ endLsn) :
    j.replay startLsn midLsn ++ j.replay midLsn endLsn = j.replay startLsn endLsn := by
  refine eq_of_sorted_of_mem_iff (List.pairwise_append.mpr ⟨replay_sorted _ _ _,
    replay_sorted _ _ _, fun ⟨a, p⟩ mem ⟨b, q⟩ mem' => ?_⟩) (replay_sorted _ _ _)
    fun ⟨lsn, pbas⟩ => ?_
  · rw [mem_replay] at mem mem'
    show a < b
    omega
  · rw [List.mem_append, mem_replay, mem_replay, mem_replay]
    constructor
    · rintro (⟨_, _, found⟩ | ⟨_, _, found⟩) <;> exact ⟨by omega, by omega, found⟩
    · rintro ⟨from_start, before_end, found⟩
      by_cases below : lsn < midLsn
      · exact .inl ⟨from_start, below, found⟩
      · exact .inr ⟨by omega, before_end, found⟩

end FreePbaJournal

theorem length_le_of_sorted_of_bounded :
    ∀ {lsns : List Int} (lo hi : Int), lsns.Pairwise (· < ·) →
      (∀ lsn ∈ lsns, lo ≤ lsn ∧ lsn < hi) → lsns.length ≤ (hi - lo).toNat
  | [], _, _, _, _ => Nat.zero_le _
  | lsn :: rest, lo, hi, sorted, inside => by
    rw [List.pairwise_cons] at sorted
    have first := inside lsn (List.mem_cons_self _ _)
    have later := length_le_of_sorted_of_bounded (lsn + 1) hi sorted.2 fun x mem =>
      ⟨sorted.1 x mem, (inside x (List.mem_cons_of_mem _ mem)).2⟩
    rw [List.length_cons]
    omega

namespace HomeStateMachineStore

/-! ### The latest call decides -/

/-- Over any history of valid journal calls from a new store, `get_free_pba_records(start_lsn,
end_lsn, cb)` calls `cb` in increasing order of LSN, at most once per LSN, and with `(lsn, pbas)`
exactly when `lsn` is in the range and the latest call of the history that touches `lsn` is
`add_free_pba_record(lsn, pbas)`: no add is lost, and none is reported after a later add at its
LSN or a truncation at or above it. -/
theorem getFreePbaRecords_latest_add (ops : List JournalOp) (valid : ∀ op ∈ ops, op.Valid)
    (startLsn endLsn : Lsn) :
    ∃ st trace, create.run ops = some st ∧
      st.getFreePbaRecords startLsn.val endLsn.val = some trace ∧
      (cbCalls trace).Pairwise (fun a b => a.1 < b.1) ∧
      ∀ lsn pbas, (lsn, pbas) ∈ cbCalls trace ↔ startLsn.val ≤ lsn ∧ lsn < endLsn.val ∧
        ∃ pre post, ops = pre ++ .add lsn pbas :: post ∧ ∀ op ∈ post, ¬op.Touches lsn := by
  obtain ⟨st, ran, wf, journal⟩ :=
    run_refines create ops create_wellformed fun op mem => (valid op mem).1
  obtain ⟨trace, got, calls, -⟩ := getFreePbaRecords_replay st wf startLsn.val endLsn.val
  refine ⟨st, trace, ran, got, calls ▸ FreePbaJournal.replay_sorted _ _ _, fun lsn pbas => ?_⟩
  rw [calls, FreePbaJournal.mem_replay, journal, create_journal,
    FreePbaJournal.run_pbasAt_eq_some]
  simp [FreePbaJournal.empty]

theorem getFreePbaRecords_latest_add_overwrite :
    (∀ op ∈ [.add 1 [10], .add 2 [20], .removeUpto 1, .add 2 [21]], JournalOp.Valid op) ∧
      ∃ st trace, create.run [.add 1 [10], .add 2 [20], .removeUpto 1, .add 2 [21]] = some st ∧
        st.getFreePbaRecords 1 3 = some trace ∧
        (cbCalls trace).Pairwise (fun a b => a.1 < b.1) ∧
        (∀ lsn pbas, (lsn, pbas) ∈ cbCalls trace ↔ 1 ≤ lsn ∧ lsn < 3 ∧
          ∃ pre post, ([.add 1 [10], .add 2 [20], .removeUpto 1, .add 2 [21]] : List JournalOp) =
            pre ++ .add lsn pbas :: post ∧ ∀ op ∈ post, ¬op.Touches lsn) ∧
        cbCalls trace = [(2, [21])] := by
  have valid : ∀ op ∈ [JournalOp.add 1 [10], .add 2 [20], .removeUpto 1, .add 2 [21]],
      op.Valid := by decide
  obtain ⟨st, trace, ran, got, sorted, calls⟩ :=
    getFreePbaRecords_latest_add _ valid ⟨1, by decide⟩ ⟨3, by decide⟩
  obtain ⟨st', ran', wf, journal⟩ := run_refines create _ create_wellformed fun op mem =>
    (valid op mem).1
  cases Option.some.inj (ran.symm.trans ran')
  obtain ⟨trace', got', traceCalls, -⟩ := getFreePbaRecords_replay st wf 1 3
  cases Option.some.inj (got.symm.trans got')
  refine ⟨valid, st, trace, ran, got, sorted, calls, ?_⟩
  rw [traceCalls, journal, create_journal]
  decide

/-! ### Reads over ranges -/

/-- On a reachable store, for `start_lsn ≤ mid_lsn ≤ end_lsn`, a read up to `mid_lsn` and then
a read from `mid_lsn` call `cb` exactly as one read from `start_lsn` up to `end_lsn`: draining
the journal in pieces loses and repeats nothing. -/
theorem getFreePbaRecords_append (st : HomeStateMachineStore) (reach : st.Reachable)
    (startLsn midLsn endLsn : Lsn) (first : startLsn.val ≤ midLsn.val)
    (second : midLsn.val ≤ endLsn.val) :
    ∃ lower upper whole, st.getFreePbaRecords startLsn.val midLsn.val = some lower ∧
      st.getFreePbaRecords midLsn.val endLsn.val = some upper ∧
      st.getFreePbaRecords startLsn.val endLsn.val = some whole ∧
      cbCalls lower ++ cbCalls upper = cbCalls whole := by
  have wf := reach.wellformed
  obtain ⟨lower, gotLower, callsLower, -⟩ := getFreePbaRecords_replay st wf startLsn.val midLsn.val
  obtain ⟨upper, gotUpper, callsUpper, -⟩ := getFreePbaRecords_replay st wf midLsn.val endLsn.val
  obtain ⟨whole, gotWhole, callsWhole, -⟩ := getFreePbaRecords_replay st wf startLsn.val endLsn.val
  refine ⟨lower, upper, whole, gotLower, gotUpper, gotWhole, ?_⟩
  rw [callsLower, callsUpper, callsWhole, FreePbaJournal.replay_append _ first second]

theorem getFreePbaRecords_append_five :
    ∃ st, create.run [.add 1 [10], .add 2 [20], .add 3 [30, 31], .add 4 [], .add 5 [50]] =
        some st ∧ st.Reachable ∧ (2 : Int) ≤ 4 ∧ (4 : Int) ≤ 6 ∧
      ∃ lower upper whole, st.getFreePbaRecords 2 4 = some lower ∧
        st.getFreePbaRecords 4 6 = some upper ∧ st.getFreePbaRecords 2 6 = some whole ∧
        cbCalls lower ++ cbCalls upper = cbCalls whole := by
  obtain ⟨st, ran, -, -⟩ := run_refines create
    [.add 1 [10], .add 2 [20], .add 3 [30, 31], .add 4 [], .add 5 [50]] create_wellformed
    (by decide)
  have reach : st.Reachable := ⟨_, by decide, ran⟩
  exact ⟨st, ran, reach, by decide, by decide,
    getFreePbaRecords_append st reach ⟨2, by decide⟩ ⟨4, by decide⟩ ⟨6, by decide⟩ (by decide)
      (by decide)⟩

/-- Whatever bytes the log store holds, as long as each record's LSN fits an `int64_t`,
`get_free_pba_records(start_lsn, end_lsn, cb)` reads past the end of an entry exactly when a
record at an LSN from `start_lsn` up to `end_lsn` is shorter than the `4 + 8 * count` bytes its
count announces: records outside the range are never decoded, corrupt or not. -/
theorem getFreePbaRecords_eq_none (st : HomeStateMachineStore)
    (keys : ∀ r ∈ st.freePbaStore.records, r.1 < 2 ^ 63 - 1) (startLsn endLsn : Lsn) :
    st.getFreePbaRecords startLsn.val endLsn.val = none ↔
      ∃ (lsn : Lsn) (entry : Buffer), (toStoreLsn lsn.val, entry) ∈ st.freePbaStore.records ∧
        startLsn.val ≤ lsn.val ∧ lsn.val < endLsn.val ∧
        entry.length < 4 + 8 * leValue (entry.take 4) := by
  have start := startLsn.valid
  rw [← Option.not_isSome_iff_eq_none, getFreePbaRecords, LogStore.foreach,
    foreachFrom_freePbaVisitor_isSome _ (st.freePbaStore.sorted.filter _)]
  simp only [not_forall, List.mem_filter, decide_eq_true_eq, Option.not_isSome_iff_eq_none,
    decodeFreePbaRecord_eq_none, exists_prop, Prod.exists]
  constructor
  · rintro ⟨k, entry, ⟨mem, fromStart⟩, below, short⟩
    have bounded := keys _ mem
    simp only [ValidLsn, toStoreLsn, toReplLsn] at start fromStart below bounded
    exact ⟨⟨toReplLsn k, by simp only [ValidLsn, toReplLsn]; omega⟩, entry, by simpa using mem,
      by simp only [toReplLsn]; omega, below, short⟩
  · rintro ⟨lsn, entry, mem, fromStart, below, short⟩
    exact ⟨toStoreLsn lsn.val, entry, ⟨mem, by simp only [toStoreLsn]; omega⟩,
      by simpa using below, short⟩

theorem getFreePbaRecords_eq_none_short :
    ∃ st : HomeStateMachineStore, st.freePbaStore.records = [(2, [1, 0, 0, 0])] ∧
      (∀ r ∈ st.freePbaStore.records, r.1 < 2 ^ 63 - 1) ∧
      (st.getFreePbaRecords 1 5 = none ↔
        ∃ (lsn : Lsn) (entry : Buffer), (toStoreLsn lsn.val, entry) ∈ st.freePbaStore.records ∧
          1 ≤ lsn.val ∧ lsn.val < 5 ∧ entry.length < 4 + 8 * leValue (entry.take 4)) ∧
      st.getFreePbaRecords 1 5 = none ∧ (st.getFreePbaRecords 4 6).isSome := by
  refine ⟨⟨LogStore.empty.writeAsync 2 [1, 0, 0, 0], 0, 0⟩, rfl, by decide,
    getFreePbaRecords_eq_none _ (by decide) ⟨1, by decide⟩ ⟨5, by decide⟩, by decide, by decide⟩

/-- On a reachable store, `get_free_pba_records(start_lsn, end_lsn, cb)` visits, and so decodes,
at most `end_lsn - start_lsn` records, and one when the range is empty, however many records the
journal holds. -/
theorem getFreePbaRecords_visits_le (st : HomeStateMachineStore) (reach : st.Reachable)
    (startLsn endLsn : Lsn) :
    ∃ trace, st.getFreePbaRecords startLsn.val endLsn.val = some trace ∧
      trace.length ≤ max (endLsn.val - startLsn.val).toNat 1 := by
  obtain ⟨trace, got, -, visited⟩ :=
    getFreePbaRecords_replay st reach.wellformed startLsn.val endLsn.val
  refine ⟨trace, got, ?_⟩
  have sorted := List.pairwise_map.mpr
    (st.freePbaStore.sorted.filter fun r => decide (toStoreLsn startLsn.val ≤ r.1))
  have inside : ∀ lsn ∈ ((st.freePbaStore.records.filter
      fun r => toStoreLsn startLsn.val ≤ r.1).map Prod.fst).takeWhile
        (fun lsn => toReplLsn lsn < endLsn.val - 1),
      toStoreLsn startLsn.val ≤ lsn ∧ lsn < endLsn.val - 2 := fun lsn mem => by
    have below := List.mem_takeWhile_imp mem
    obtain ⟨r, kept, rfl⟩ := List.mem_map.mp ((List.takeWhile_sublist _).subset mem)
    simp only [List.mem_filter, decide_eq_true_eq, toReplLsn] at kept below
    exact ⟨kept.2, by omega⟩
  have bound := length_le_of_sorted_of_bounded _ _ (sorted.sublist (List.takeWhile_sublist _))
    inside
  calc trace.length = (trace.map Prod.fst).length := (List.length_map _ _).symm
    _ ≤ (endLsn.val - 2 - toStoreLsn startLsn.val).toNat + 1 := by
      rw [visited, visitedWhile, List.length_append]
      exact Nat.add_le_add bound (List.length_take_le _ _)
    _ ≤ max (endLsn.val - startLsn.val).toNat 1 := by simp only [toStoreLsn]; omega

theorem getFreePbaRecords_visits_le_five :
    ∃ st, create.run [.add 1 [10], .add 2 [20], .add 3 [30, 31], .add 4 [], .add 5 [50]] =
        some st ∧ st.Reachable ∧
      ∃ trace, st.getFreePbaRecords 2 4 = some trace ∧
        trace.length ≤ max (4 - 2 : Int).toNat 1 := by
  obtain ⟨st, ran, -, -⟩ := run_refines create
    [.add 1 [10], .add 2 [20], .add 3 [30, 31], .add 4 [], .add 5 [50]] create_wellformed
    (by decide)
  have reach : st.Reachable := ⟨_, by decide, ran⟩
  exact ⟨st, ran, reach, getFreePbaRecords_visits_le st reach ⟨2, by decide⟩ ⟨4, by decide⟩⟩

end HomeStateMachineStore

end HomeReplication
