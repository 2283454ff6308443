import HomeReplication.StateMachineStore
import Mathlib.Data.List.Sort

/-! What the free-PBA journal is for: a map from consensus LSN to the PBAs freed at that LSN, as
last recorded.  `FreePbaJournal.add` records a list at an LSN, `removeUpto` forgets every LSN up
to one, and `replay` lists the LSNs of a range that hold a list, in increasing order, each with
its list.  The state machine store implements this map: its log store, read at the shifted LSN
and through the record decoder, is the journal; every journal call keeps it so; and
`get_free_pba_records` hands exactly `replay` to its callback. -/

namespace HomeReplication

theorem eq_of_sorted_of_mem_iff {l₁ l₂ : List (Int × PbaList)}
    (sorted₁ : l₁.Pairwise fun a b => a.1 < b.1) (sorted₂ : l₂.Pairwise fun a b => a.1 < b.1)
    (same : ∀ x, x ∈ l₁ ↔ x ∈ l₂) : l₁ = l₂ := by
  have : IsAntisymm (Int × PbaList) fun a b => a.1 < b.1 :=
    ⟨fun _ _ lt gt => absurd gt (lt_asymm lt)⟩
  have nodup : ∀ {l : List (Int × PbaList)}, l.Pairwise (fun a b => a.1 < b.1) → l.Nodup :=
    fun sorted => sorted.imp fun lt same => by subst same; exact lt_irrefl _ lt
  exact List.eq_of_perm_of_sorted ((List.perm_ext_iff_of_nodup (nodup sorted₁) (nodup sorted₂)).mpr
    same) sorted₁ sorted₂

/-- The free-PBA journal as a map from LSN to the PBAs recorded there. -/
@[ext] structure FreePbaJournal where
  pbasAt : Int → Option PbaList

namespace FreePbaJournal

/-- The journal with no records. -/
def empty : FreePbaJournal := ⟨fun _ => none⟩

/-- `pbas` recorded at `lsn`, over what was recorded there before. -/
def add (j : FreePbaJournal) (lsn : Int) (pbas : PbaList) : FreePbaJournal :=
  ⟨fun l => if l = lsn then some pbas else j.pbasAt l⟩

/-- Every LSN up to `lsn` forgotten. -/
def removeUpto (j : FreePbaJournal) (lsn : Int) : FreePbaJournal :=
  ⟨fun l => if l ≤ lsn then none else j.pbasAt l⟩

/-- One journal call. -/
def apply (j : FreePbaJournal) : JournalOp → FreePbaJournal
  | .add lsn pbas => j.add lsn pbas
  | .removeUpto lsn => j.removeUpto lsn

/-- A sequence of journal calls, in order. -/
def run (j : FreePbaJournal) (ops : List JournalOp) : FreePbaJournal := ops.foldl apply j

/-- The LSNs from `startLsn` up to `endLsn`, excluded, that hold a list, in increasing order and
each with its list. -/
def replay (j : FreePbaJournal) (startLsn endLsn : Int) : List (Int × PbaList) :=
  (List.range (endLsn - startLsn).toNat).filterMap fun (i : Nat) =>
    (j.pbasAt (startLsn + i)).map (startLsn + i, ·)

theorem mem_replay (j : FreePbaJournal) (startLsn endLsn lsn : Int) (pbas : PbaList) :
    (lsn, pbas) ∈ j.replay startLsn endLsn ↔
      startLsn ≤ lsn ∧ lsn < endLsn ∧ j.pbasAt lsn = some pbas := by
  simp only [replay, List.mem_filterMap, List.mem_range, Option.map_eq_some', Prod.mk.injEq]
  constructor
  · rintro ⟨i, inside, _, found, rfl, rfl⟩
    exact ⟨by omega, by omega, found⟩
  · rintro ⟨from_start, before_end, found⟩
    exact ⟨(lsn - startLsn).toNat, by omega, pbas, by rwa [show startLsn + _ = lsn by omega],
      by omega, rfl⟩

theorem replay_sorted (j : FreePbaJournal) (startLsn endLsn : Int) :
    (j.replay startLsn endLsn).Pairwise fun a b => a.1 < b.1 := by
  unfold replay
  refine (List.pairwise_lt_range _).filterMap _ fun i i' lt a mem a' mem' => ?_
  simp only [Option.mem_def, Option.map_eq_some'] at mem mem'
  obtain ⟨_, _, rfl⟩ := mem
  obtain ⟨_, _, rfl⟩ := mem'
  show startLsn + i < startLsn + i'
  omega

/-- Forgetting the LSNs up to `lsn` drops them from every replay and keeps the rest in order. -/
theorem replay_removeUpto (j : FreePbaJournal) (lsn startLsn endLsn : Int) :
    (j.removeUpto lsn).replay startLsn endLsn =
      (j.replay startLsn endLsn).filter fun c => lsn < c.1 := by
  refine eq_of_sorted_of_mem_iff (replay_sorted _ _ _) ((replay_sorted _ _ _).filter _)
    fun ⟨l, pbas⟩ => ?_
  by_cases below : l ≤ lsn
  · simp [mem_replay, removeUpto, below]
  · simp [mem_replay, removeUpto, below, lt_of_not_le below]

theorem mem_replay_add (j : FreePbaJournal) (lsn : Int) (pbas : PbaList) (startLsn endLsn l : Int)
    (q : PbaList) :
    (l, q) ∈ (j.add lsn pbas).replay startLsn endLsn ↔
      if l = lsn then startLsn ≤ lsn ∧ lsn < endLsn ∧ q = pbas
      else (l, q) ∈ j.replay startLsn endLsn := by
  by_cases same : l = lsn
  · subst same
    simp [mem_replay, add, eq_comm]
  · simp [mem_replay, add, same]

end FreePbaJournal

/-- A journal call that the encoder can carry out: fewer than `2 ^ 29` PBAs to add. -/
def JournalOp.Fits : JournalOp → Prop
  | .add _ pbas => pbas.length < 2 ^ 29
  | .removeUpto _ => True

instance : DecidablePred JournalOp.Fits
  | .add _ pbas => inferInstanceAs (Decidable (pbas.length < 2 ^ 29))
  | .removeUpto _ => inferInstanceAs (Decidable True)

/-- A journal call that the code carries out as the model does: the encoder can carry it out, and
its LSN is valid. -/
def JournalOp.Valid (op : JournalOp) : Prop := op.Fits ∧ ValidLsn op.lsn

instance : DecidablePred JournalOp.Valid :=
  fun op => inferInstanceAs (Decidable (op.Fits ∧ ValidLsn op.lsn))

namespace HomeStateMachineStore

/-- The journal that the log store holds: at each LSN, the record at its store LSN, decoded. -/
def journal (st : HomeStateMachineStore) : FreePbaJournal :=
  ⟨fun lsn => (st.freePbaStore.find (toStoreLsn lsn)).bind decodeFreePbaRecord⟩

/-- Every record of the log store is one that `add_free_pba_record` writes. -/
def Wellformed (st : HomeStateMachineStore) : Prop :=
  ∀ r ∈ st.freePbaStore.records, ∃ pbas, pbas.length < 2 ^ 29 ∧ r.2 = freePbaRecord pbas

theorem create_wellformed : create.Wellformed := fun _ mem => nomatch mem

theorem create_journal : create.journal = FreePbaJournal.empty := rfl

/-- One journal call on a well-formed store: it has a result, which is well formed and holds
the abstract journal after the same call. -/
theorem apply_refines (st : HomeStateMachineStore) (op : JournalOp) (wf : st.Wellformed)
    (fits : op.Fits) :
    ∃ st', st.apply op = some st' ∧ st'.Wellformed ∧ st'.journal = st.journal.apply op := by
  cases op with
  | add lsn pbas =>
    refine ⟨_, addFreePbaRecord_eq st lsn pbas fits, fun r mem => ?_, ?_⟩
    · rcases LogStore.mem_insertRecord mem with rfl | old
      · exact ⟨pbas, fits, rfl⟩
      · exact wf r old
    · refine FreePbaJournal.ext (funext fun l => ?_)
      simp only [journal, FreePbaJournal.apply, FreePbaJournal.add, LogStore.find_writeAsync]
      by_cases same : l = lsn
      · rw [if_pos (by rw [same]), if_pos same, Option.some_bind]
        exact decodeFreePbaRecord_freePbaRecord pbas (by simp only [JournalOp.Fits] at fits; omega)
      · rw [if_neg (by simp only [toStoreLsn]; omega), if_neg same]
  | removeUpto lsn =>
    refine ⟨_, rfl, fun r mem => wf r (List.mem_of_mem_filter mem), ?_⟩
    refine FreePbaJournal.ext (funext fun l => ?_)
    simp only [journal, FreePbaJournal.apply, FreePbaJournal.removeUpto, removeFreePbaRecordsUpto,
      LogStore.find_truncate]
    by_cases below : l ≤ lsn
    · rw [if_pos (by simp only [toStoreLsn]; omega), if_pos below]; rfl
    · rw [if_neg (by simp only [toStoreLsn]; omega), if_neg below]

/-- A sequence of journal calls on a well-formed store: it has a result, which is well formed
and holds the abstract journal after the same calls. -/
theorem run_refines (st : HomeStateMachineStore) (ops : List JournalOp) (wf : st.Wellformed)
    (fits : ∀ op ∈ ops, op.Fits) :
    ∃ st', st.run ops = some st' ∧ st'.Wellformed ∧ st'.journal = st.journal.run ops := by
  induction ops generalizing st with
  | nil => exact ⟨st, rfl, wf, rfl⟩
  | cons op ops ih =>
    obtain ⟨mid, applied, midWf, midJournal⟩ :=
      apply_refines st op wf (fits op (List.mem_cons_self _ _))
    obtain ⟨last, ran, lastWf, lastJournal⟩ :=
      ih mid midWf fun op' mem => fits op' (List.mem_cons_of_mem _ mem)
    refine ⟨last, by rw [run_cons, applied, Option.some_bind, ran], lastWf, ?_⟩
    rw [lastJournal, midJournal]
    rfl

/-- On a well-formed store, `get_free_pba_records(start_lsn, end_lsn, cb)` calls `cb` with
exactly `replay` of the store's journal, and it visits the records from `to_store_lsn(start_lsn)`
on, up to and including the first whose LSN is at or past `end_lsn - 1`. -/
theorem getFreePbaRecords_replay (st : HomeStateMachineStore) (wf : st.Wellformed)
    (startLsn endLsn : Int) :
    ∃ trace, st.getFreePbaRecords startLsn endLsn = some trace ∧
      cbCalls trace = st.journal.replay startLsn endLsn ∧
      trace.map Prod.fst = visitedWhile (fun lsn => toReplLsn lsn < endLsn - 1)
        ((st.freePbaStore.records.filter fun r => toStoreLsn startLsn ≤ r.1).map Prod.fst) := by
  have sorted := st.freePbaStore.sorted.filter fun r => decide (toStoreLsn startLsn ≤ r.1)
  have decodable : ∀ r ∈ st.freePbaStore.records.filter (fun r => toStoreLsn startLsn ≤ r.1),
      (decodeFreePbaRecord r.2).isSome := fun r mem => by
    obtain ⟨pbas, fits, same⟩ := wf r (List.mem_of_mem_filter mem)
    rw [same, decodeFreePbaRecord_freePbaRecord pbas (by omega)]
    rfl
  obtain ⟨trace, iterated, visited, calls⟩ := foreachFrom_freePbaVisitor endLsn sorted decodable
  refine ⟨trace, iterated, ?_, visited⟩
  rw [calls]
  refine eq_of_sorted_of_mem_iff (sorted.filterMap _ fun r r' lt a mem a' mem' => ?_)
    (FreePbaJournal.replay_sorted _ _ _) fun ⟨lsn, pbas⟩ => ?_
  · rw [(call_eq_some.mp mem).2.2, (call_eq_some.mp mem').2.2]
    simp only [toReplLsn]
    omega
  · simp only [FreePbaJournal.mem_replay, List.mem_filterMap, call_eq_some, journal,
      Option.bind_eq_some, LogStore.find_eq_some, List.mem_filter, decide_eq_true_eq]
    constructor
    · rintro ⟨⟨k, b⟩, ⟨mem, from_start⟩, below, decoded, rfl⟩
      exact ⟨by simp only [toStoreLsn, toReplLsn] at *; omega, below, b, by simpa using mem,
        decoded⟩
    · rintro ⟨from_start, before_end, b, found, decoded⟩
      exact ⟨(toStoreLsn lsn, b), ⟨found, by simp only [toStoreLsn]; omega⟩,
        by simpa using before_end, decoded, by simp⟩

/-- The free-PBA journal of a new store refines the abstract journal: after any sequence of
journal calls, each adding fewer than `2 ^ 29` PBAs, `get_free_pba_records(start_lsn, end_lsn,
cb)` calls `cb` with exactly `replay` of the abstract journal after the same calls, and its
iteration ends at the first stored record whose LSN is at or past `end_lsn - 1`. -/
theorem getFreePbaRecords_refines (ops : List JournalOp) (fits : ∀ op ∈ ops, op.Fits)
    (startLsn endLsn : Int) :
    ∃ st trace, create.run ops = some st ∧ st.getFreePbaRecords startLsn endLsn = some trace ∧
      cbCalls trace = (FreePbaJournal.empty.run ops).replay startLsn endLsn ∧
      trace.map Prod.fst = visitedWhile (fun lsn => toReplLsn lsn < endLsn - 1)
        ((st.freePbaStore.records.filter fun r => toStoreLsn startLsn ≤ r.1).map Prod.fst) := by
  obtain ⟨st, ran, wf, journal⟩ := run_refines create ops create_wellformed fits
  obtain ⟨trace, got, calls, visited⟩ := getFreePbaRecords_replay st wf startLsn endLsn
  exact ⟨st, trace, ran, got, by rw [calls, journal, create_journal], visited⟩

theorem getFreePbaRecords_refines_range :
    (∀ op ∈ [.add 1 [10], .add 2 [20], .add 3 [30, 31], .add 4 [], .add 5 [50]],
      JournalOp.Fits op) ∧
      ∃ st trace, create.run [.add 1 [10], .add 2 [20], .add 3 [30, 31], .add 4 [], .add 5 [50]] =
        some st ∧ st.getFreePbaRecords 2 5 = some trace ∧
        cbCalls trace = [(2, [20]), (3, [30, 31]), (4, [])] := by
  have fits : ∀ op ∈ [JournalOp.add 1 [10], .add 2 [20], .add 3 [30, 31], .add 4 [], .add 5 [50]],
      op.Fits := by decide
  obtain ⟨st, trace, ran, got, calls, -⟩ := getFreePbaRecords_refines _ fits 2 5
  exact ⟨fits, st, trace, ran, got, by rw [calls]; decide⟩

/-- A store that a new store reaches through valid journal calls. -/
def Reachable (st : HomeStateMachineStore) : Prop :=
  ∃ ops : List JournalOp, (∀ op ∈ ops, op.Valid) ∧ create.run ops = some st

theorem Reachable.wellformed {st : HomeStateMachineStore} (reach : st.Reachable) :
    st.Wellformed := by
  obtain ⟨ops, valid, ran⟩ := reach
  obtain ⟨st', ran', wf, -⟩ :=
    run_refines create ops create_wellformed fun op mem => (valid op mem).1
  rwa [Option.some.inj (ran.symm.trans ran')]

/-- On a reachable store, after `remove_free_pba_records_upto(lsn)`, `get_free_pba_records`
calls `cb` with what it called it with before, less the LSNs up to `lsn`. -/
theorem getFreePbaRecords_removeFreePbaRecordsUpto (st : HomeStateMachineStore)
    (reach : st.Reachable) (lsn startLsn endLsn : Lsn) :
    ∃ before after, st.getFreePbaRecords startLsn.val endLsn.val = some before ∧
      (st.removeFreePbaRecordsUpto lsn.val).getFreePbaRecords startLsn.val endLsn.val =
        some after ∧
      cbCalls after = (cbCalls before).filter fun c => lsn.val < c.1 := by
  have wf := reach.wellformed
  obtain ⟨st', removed, wf', journal'⟩ := apply_refines st (.removeUpto lsn.val) wf trivial
  cases Option.some.inj removed
  obtain ⟨before, got, calls, -⟩ := getFreePbaRecords_replay st wf startLsn.val endLsn.val
  obtain ⟨after, got', calls', -⟩ := getFreePbaRecords_replay _ wf' startLsn.val endLsn.val
  refine ⟨before, after, got, got', ?_⟩
  rw [calls', journal', calls]
  exact FreePbaJournal.replay_removeUpto _ _ _ _

theorem getFreePbaRecords_removeFreePbaRecordsUpto_five :
    ∃ st, create.run [.add 1 [10], .add 2 [20], .add 3 [30, 31], .add 4 [], .add 5 [50]] =
        some st ∧ st.Reachable ∧
      ∃ before after, st.getFreePbaRecords 1 6 = some before ∧
        (st.removeFreePbaRecordsUpto 3).getFreePbaRecords 1 6 = some after ∧
        cbCalls after = (cbCalls before).filter (fun c => 3 < c.1) ∧
        cbCalls after = [(4, []), (5, [50])] := by
  obtain ⟨st, ran, wf, journal⟩ := run_refines create
    [.add 1 [10], .add 2 [20], .add 3 [30, 31], .add 4 [], .add 5 [50]] create_wellformed
    (by decide)
  have reach : st.Reachable := ⟨_, by decide, ran⟩
  obtain ⟨before, after, got, got', calls⟩ :=
    getFreePbaRecords_removeFreePbaRecordsUpto st reach ⟨3, by decide⟩ ⟨1, by decide⟩ ⟨6, by decide⟩
  obtain ⟨trace, got'', traceCalls, -⟩ := getFreePbaRecords_replay st wf 1 6
  cases Option.some.inj (got.symm.trans got'')
  refine ⟨st, ran, reach, before, after, got, got', calls, ?_⟩
  rw [calls, traceCalls, journal, create_journal]
  decide

/-- On a reachable store, after `add_free_pba_record(lsn, pbas)` with fewer than `2 ^ 29` PBAs,
`get_free_pba_records` calls `cb` at `lsn` with `pbas` when its range covers `lsn`, and at every
other LSN as before. -/
theorem getFreePbaRecords_addFreePbaRecord (st : HomeStateMachineStore) (reach : st.Reachable)
    (lsn : Lsn) (pbas : PbaList) (fits : pbas.length < 2 ^ 29) (startLsn endLsn : Lsn) :
    ∃ st' before after, st.addFreePbaRecord lsn.val pbas = some st' ∧
      st.getFreePbaRecords startLsn.val endLsn.val = some before ∧
      st'.getFreePbaRecords startLsn.val endLsn.val = some after ∧
      ∀ l q, (l, q) ∈ cbCalls after ↔
        if l = lsn.val then startLsn.val ≤ lsn.val ∧ lsn.val < endLsn.val ∧ q = pbas
        else (l, q) ∈ cbCalls before := by
  have wf := reach.wellformed
  obtain ⟨st', added, wf', journal'⟩ := apply_refines st (.add lsn.val pbas) wf fits
  obtain ⟨before, got, calls, -⟩ := getFreePbaRecords_replay st wf startLsn.val endLsn.val
  obtain ⟨after, got', calls', -⟩ := getFreePbaRecords_replay st' wf' startLsn.val endLsn.val
  refine ⟨st', before, after, added, got, got', fun l q => ?_⟩
  rw [calls', journal', calls]
  exact FreePbaJournal.mem_replay_add _ _ _ _ _ _ _

theorem getFreePbaRecords_addFreePbaRecord_five :
    ∃ st, create.run [.add 1 [10], .add 2 [20], .add 3 [30, 31], .add 4 [], .add 5 [50]] =
        some st ∧ st.Reachable ∧ ([33] : PbaList).length < 2 ^ 29 ∧
      ∃ st' before after, st.addFreePbaRecord 3 [33] = some st' ∧
        st.getFreePbaRecords 1 6 = some before ∧ st'.getFreePbaRecords 1 6 = some after ∧
        (∀ l q, (l, q) ∈ cbCalls after ↔
          if l = 3 then (1 : Int) ≤ 3 ∧ (3 : Int) < 6 ∧ q = [33] else (l, q) ∈ cbCalls before) ∧
        cbCalls after = [(1, [10]), (2, [20]), (3, [33]), (4, []), (5, [50])] := by
  obtain ⟨st, ran, wf, journal⟩ := run_refines create
    [.add 1 [10], .add 2 [20], .add 3 [30, 31], .add 4 [], .add 5 [50]] create_wellformed
    (by decide)
  have reach : st.Reachable := ⟨_, by decide, ran⟩
  obtain ⟨st', before, after, added, got, got', frame⟩ := getFreePbaRecords_addFreePbaRecord st
    reach ⟨3, by decide⟩ [33] (by decide) ⟨1, by decide⟩ ⟨6, by decide⟩
  obtain ⟨st'', added', wf', journal'⟩ := apply_refines st (.add 3 [33]) wf (by decide)
  cases Option.some.inj (added.symm.trans added')
  obtain ⟨trace, got'', traceCalls, -⟩ := getFreePbaRecords_replay st' wf' 1 6
  cases Option.some.inj (got'.symm.trans got'')
  refine ⟨st, ran, reach, by decide, st', before, after, added, got, got', frame, ?_⟩
  rw [traceCalls, journal', journal, create_journal]
  decide

end HomeStateMachineStore

end HomeReplication
