import HomeReplication.Journal

/-! The flush frontier of the free-PBA journal.  `flush_free_pba_records` passes `flush_sync` the
store LSN of `m_last_write_lsn`, which `add_free_pba_record` sets to the LSN it writes and
`remove_free_pba_records_upto` sets back to 0, the value read as no write.  So the last journal
call of a history decides the flush.  When the adds come at increasing LSNs and an add follows
every truncation, the last add has the largest LSN ever added, and a flush covers every record
the journal still holds.  A truncation with no add after it leaves records above its bound in the
journal, and the flush then passes `invalid_lsn()`, which covers none of them. -/

namespace HomeReplication

/-- The LSNs of the adds of a history, in order. -/
def addLsns (ops : List JournalOp) : List Int :=
  ops.filterMap fun
    | .add lsn _ => some lsn
    | .removeUpto _ => none

theorem mem_addLsns {ops : List JournalOp} {lsn : Int} {pbas : PbaList}
    (added : JournalOp.add lsn pbas ∈ ops) : lsn ∈ addLsns ops :=
  List.mem_filterMap.mpr ⟨_, added, rfl⟩

namespace HomeStateMachineStore

theorem lastWriteLsn_of_addFreePbaRecord {st st' : HomeStateMachineStore} {lsn : Int}
    {pbas : PbaList} (added : st.addFreePbaRecord lsn pbas = some st') :
    st'.lastWriteLsn = lsn := by
  simp only [addFreePbaRecord, Option.bind_eq_bind, Option.bind_eq_some, Option.pure_def,
    Option.some_inj] at added
  obtain ⟨_, _, rfl⟩ := added
  rfl

/-- After a history, `m_last_write_lsn` is what its last call set it to. -/
theorem lastWriteLsn_of_run_append {st st' : HomeStateMachineStore} {ops : List JournalOp}
    {op : JournalOp} (ran : st.run (ops ++ [op]) = some st') :
    st'.lastWriteLsn = match op with
      | .add lsn _ => lsn
      | .removeUpto _ => 0 := by
  rw [run_append, Option.bind_eq_some] at ran
  obtain ⟨mid, -, ran⟩ := ran
  rw [run_cons, Option.bind_eq_some] at ran
  obtain ⟨last, applied, ran⟩ := ran
  cases Option.some.inj ran
  cases op with
  | add lsn pbas => exact lastWriteLsn_of_addFreePbaRecord applied
  | removeUpto lsn => cases applied; rfl

/-- For a history whose adds come at strictly increasing LSNs from 1 on, each with fewer than
`2 ^ 29` PBAs: when an add follows every truncation, a flush passes `flush_sync` a store LSN at or
past that of every LSN ever added, and so of every record the journal still holds; when a
truncation is followed by no add, it passes `invalid_lsn()`. -/
theorem flushFreePbaRecords_covers_journal (ops : List JournalOp) (fits : ∀ op ∈ ops, op.Fits)
    (ascending : (addLsns ops).Pairwise (· < ·)) (positive : ∀ lsn ∈ addLsns ops, 1 ≤ lsn) :
    ∃ st, create.run ops = some st ∧
      ((∀ pre upto post, ops = pre ++ .removeUpto upto :: post →
          ∃ lsn pbas, JournalOp.add lsn pbas ∈ post) →
        ∀ lsn pbas, JournalOp.add lsn pbas ∈ ops → toStoreLsn lsn ≤ st.flushFreePbaRecords) ∧
      ((∃ pre upto post, ops = pre ++ .removeUpto upto :: post ∧
          ∀ lsn pbas, JournalOp.add lsn pbas ∉ post) →
        st.flushFreePbaRecords = invalidLsn) := by
  obtain ⟨st, ran, -, -⟩ := run_refines create ops create_wellformed fits
  refine ⟨st, ran, fun followed lsn pbas added => ?_, ?_⟩
  · obtain rfl | ⟨pre, last, rfl⟩ := List.eq_nil_or_concat ops
    · cases added
    rw [List.concat_eq_append] at ran added ascending positive followed
    cases last with
    | removeUpto upto =>
      obtain ⟨_, _, mem⟩ := followed pre upto [] rfl
      cases mem
    | add top topPbas =>
      have written : st.lastWriteLsn = top := lastWriteLsn_of_run_append ran
      have lsns : addLsns (pre ++ [.add top topPbas]) = addLsns pre ++ [top] := by
        simp [addLsns]
      rw [lsns] at ascending positive
      have topPositive := positive top (List.mem_append_right _ (List.mem_singleton_self _))
      have below : lsn ≤ top := by
        rcases List.mem_append.mp added with earlier | last
        · exact le_of_lt ((List.pairwise_append.mp ascending).2.2 lsn (mem_addLsns earlier) top
            (List.mem_singleton_self _))
        · cases List.mem_singleton.mp last
          exact le_refl _
      simp only [flushFreePbaRecords, written, toStoreLsn]
      rw [if_neg (by omega)]
      omega
  · rintro ⟨pre, upto, post, rfl, noAdd⟩
    have written : st.lastWriteLsn = 0 := by
      obtain rfl | ⟨post, last, rfl⟩ := List.eq_nil_or_concat post
      · exact lastWriteLsn_of_run_append ran
      rw [List.concat_eq_append] at ran noAdd
      cases last with
      | add lsn pbas =>
        exact absurd (List.mem_append_right _ (List.mem_singleton_self _)) (noAdd lsn pbas)
      | removeUpto later =>
        rw [← List.cons_append, ← List.append_assoc] at ran
        exact lastWriteLsn_of_run_append ran
    simp [flushFreePbaRecords, written]

theorem flushFreePbaRecords_covers_journal_after_truncation :
    (∀ op ∈ [.add 2 [20], .add 5 [50], .removeUpto 3, .add 7 [70]], JournalOp.Fits op) ∧
      (addLsns [.add 2 [20], .add 5 [50], .removeUpto 3, .add 7 [70]]).Pairwise (· < ·) ∧
      (∀ lsn ∈ addLsns [.add 2 [20], .add 5 [50], .removeUpto 3, .add 7 [70]], 1 ≤ lsn) ∧
      ∃ st, create.run [.add 2 [20], .add 5 [50], .removeUpto 3, .add 7 [70]] = some st ∧
        ((∀ pre upto post, ([.add 2 [20], .add 5 [50], .removeUpto 3, .add 7 [70]] :
            List JournalOp) = pre ++ .removeUpto upto :: post →
            ∃ lsn pbas, JournalOp.add lsn pbas ∈ post) →
          ∀ lsn pbas, JournalOp.add lsn pbas ∈
            ([.add 2 [20], .add 5 [50], .removeUpto 3, .add 7 [70]] : List JournalOp) →
            toStoreLsn lsn ≤ st.flushFreePbaRecords) ∧
        ((∃ pre upto post, ([.add 2 [20], .add 5 [50], .removeUpto 3, .add 7 [70]] :
            List JournalOp) = pre ++ .removeUpto upto :: post ∧
            ∀ lsn pbas, JournalOp.add lsn pbas ∉ post) →
          st.flushFreePbaRecords = invalidLsn) ∧
        st.journal.pbasAt 5 = some [50] ∧ st.flushFreePbaRecords = toStoreLsn 7 := by
  have fits : ∀ op ∈ [JournalOp.add 2 [20], .add 5 [50], .removeUpto 3, .add 7 [70]],
      op.Fits := by decide
  obtain ⟨st, ran, covers⟩ := flushFreePbaRecords_covers_journal _ fits (by decide) (by decide)
  obtain ⟨st', ran', -, journal⟩ := run_refines create _ create_wellformed fits
  cases Option.some.inj (ran.symm.trans ran')
  have written : st.lastWriteLsn = 7 := lastWriteLsn_of_run_append (show
    create.run ([.add 2 [20], .add 5 [50], .removeUpto 3] ++ [.add 7 [70]]) = some st from ran)
  refine ⟨fits, by decide, by decide, st, ran, covers.1, covers.2, ?_, ?_⟩
  · rw [journal, create_journal]
    decide
  · simp [flushFreePbaRecords, written]

/-- Records at 5 and 6, then a truncation up to 3: both records stay in the journal, and the
flush passes `invalid_lsn()`, below both. -/
theorem flushFreePbaRecords_after_truncation :
    ∃ st, create.run [.add 5 [], .add 6 [], .removeUpto 3] = some st ∧
      st.journal.pbasAt 5 = some [] ∧ st.journal.pbasAt 6 = some [] ∧
      st.flushFreePbaRecords < toStoreLsn 5 := by
  exact ⟨_, rfl, by decide, by decide, by decide⟩

end HomeStateMachineStore

end HomeReplication
