import HomeReplication.FreePbaRecord
import HomeReplication.LogStore

/-! `HomeStateMachineStore`, the durable state of a replica set's state machine: the free-PBA
journal kept in a log store, the last LSN written to the journal, and the in-memory copy of the
superblock's commit LSN.  The consensus LSN (`repl_lsn_t`) of a journal record is one more than
its LSN in the log store (`store_lsn_t`).  Both are `int64_t` in the source and integers here:
the shifts by one stay inside `int64_t` for every LSN from 1 on, which are the LSNs the journal
is given. -/

namespace HomeReplication

/-- `to_store_lsn`; it agrees with the `int64_t` subtraction on every `ValidLsn`. -/
def toStoreLsn (raftLsn : Int) : Int := raftLsn - 1

/-- `to_repl_lsn`; it agrees with the `int64_t` addition on every store LSN below `INT64_MAX`. -/
def toReplLsn (storeLsn : Int) : Int := storeLsn + 1

@[simp] theorem toReplLsn_toStoreLsn (lsn : Int) : toReplLsn (toStoreLsn lsn) = lsn := by
  simp [toReplLsn, toStoreLsn]

@[simp] theorem toStoreLsn_toReplLsn (lsn : Int) : toStoreLsn (toReplLsn lsn) = lsn := by
  simp [toReplLsn, toStoreLsn]

/-- An LSN as the journal is given them: an `int64_t` from 1 on.  On these, on the store LSNs they
are written at and for `end_lsn - 1`, no `int64_t` operation of the store overflows, so the
integers of the model compute what the code computes. -/
def ValidLsn (lsn : Int) : Prop := 1 ≤ lsn ∧ lsn < 2 ^ 63

instance : DecidablePred ValidLsn := fun lsn => inferInstanceAs (Decidable (1 ≤ lsn ∧ lsn < 2 ^ 63))

/-- A valid LSN, carrying its bound. -/
structure Lsn where
  val : Int
  valid : ValidLsn val

/-- Modelled from the spec: `homestore::invalid_lsn()`, the log store's sentinel LSN, which lies
below every LSN of the store; its definition is not under src/. -/
def invalidLsn : Int := -2 ^ 63

/-- `m_free_pba_store`, `m_last_write_lsn` and the `commit_lsn` of `m_sb_in_mem`. -/
structure HomeStateMachineStore where
  freePbaStore : LogStore
  lastWriteLsn : Int
  sbInMemCommitLsn : Int

namespace HomeStateMachineStore

/-- Modelled from the spec: the constructor for a new replica set creates an empty log store;
the header that declares `m_last_write_lsn` is not under src/, and it starts at 0, the value that
`flush_free_pba_records` reads as no write, as does the new superblock's `commit_lsn`. -/
def create : HomeStateMachineStore := ⟨LogStore.empty, 0, 0⟩

/-- `commit_lsn(lsn)`. -/
def commitLsn (st : HomeStateMachineStore) (lsn : Int) : HomeStateMachineStore :=
  { st with sbInMemCommitLsn := lsn }

/-- `get_last_commit_lsn()`. -/
def getLastCommitLsn (st : HomeStateMachineStore) : Int := st.sbInMemCommitLsn

/-- `add_free_pba_record(lsn, pbas)`: `m_last_write_lsn` becomes `lsn` and the encoded record is
written at `to_store_lsn(lsn)`; `none` when the encoding leaves its buffer. -/
def addFreePbaRecord (st : HomeStateMachineStore) (lsn : Int) (pbas : PbaList) :
    Option HomeStateMachineStore := do
  let b ← serializeFreePbaRecord pbas
  pure { st with lastWriteLsn := lsn,
                 freePbaStore := st.freePbaStore.writeAsync (toStoreLsn lsn) b }

/-- The visitor of `get_free_pba_records`, at the record `entry` of store LSN `lsn`: the call
`cb(rlsn, plist)` it makes, if any, and whether the iteration goes on. -/
def freePbaVisitor (endLsn lsn : Int) (entry : Buffer) : Option (List (Int × PbaList) × Bool) :=
  let rlsn := toReplLsn lsn
  let ret := decide (rlsn < endLsn - 1)
  if rlsn < endLsn then (decodeFreePbaRecord entry).map fun plist => ([(rlsn, plist)], ret)
  else some ([], ret)

/-- `get_free_pba_records(start_lsn, end_lsn, cb)`: the iteration of the log store, with each
visited store LSN and the calls to `cb` made there. -/
def getFreePbaRecords (st : HomeStateMachineStore) (startLsn endLsn : Int) :
    Option (List (Int × List (Int × PbaList))) :=
  st.freePbaStore.foreach (toStoreLsn startLsn) (freePbaVisitor endLsn)

/-- The calls to `cb` in an iteration, in order. -/
def cbCalls (trace : List (Int × List (Int × PbaList))) : List (Int × PbaList) :=
  trace.flatMap Prod.snd

/-- `remove_free_pba_records_upto(lsn)`. -/
def removeFreePbaRecordsUpto (st : HomeStateMachineStore) (lsn : Int) : HomeStateMachineStore :=
  { st with freePbaStore := st.freePbaStore.truncate (toStoreLsn lsn), lastWriteLsn := 0 }

/-- `flush_free_pba_records()`: the LSN it passes to `flush_sync`. -/
def flushFreePbaRecords (st : HomeStateMachineStore) : Int :=
  let lastLsn := st.lastWriteLsn
  if lastLsn = 0 then invalidLsn else toStoreLsn lastLsn

end HomeStateMachineStore

/-- A call that changes the free-PBA journal. -/
inductive JournalOp
  | add (lsn : Int) (pbas : PbaList)
  | removeUpto (lsn : Int)
  deriving DecidableEq, Repr

/-- The LSN a journal call is given. -/
def JournalOp.lsn : JournalOp → Int
  | .add lsn _ => lsn
  | .removeUpto lsn => lsn

namespace HomeStateMachineStore

/-- One journal call. -/
def apply (st : HomeStateMachineStore) : JournalOp → Option HomeStateMachineStore
  | .add lsn pbas => st.addFreePbaRecord lsn pbas
  | .removeUpto lsn => some (st.removeFreePbaRecordsUpto lsn)

/-- A sequence of journal calls, in order; `none` when one of them has no defined result. -/
def run (st : HomeStateMachineStore) : List JournalOp → Option HomeStateMachineStore
  | [] => some st
  | op :: ops => (st.apply op).bind fun st' => st'.run ops

@[simp] theorem run_nil (st : HomeStateMachineStore) : st.run [] = some st := rfl

theorem run_cons (st : HomeStateMachineStore) (op : JournalOp) (ops : List JournalOp) :
    st.run (op :: ops) = (st.apply op).bind fun st' => st'.run ops := rfl

theorem run_append (st : HomeStateMachineStore) (ops ops' : List JournalOp) :
    st.run (ops ++ ops') = (st.run ops).bind fun st' => st'.run ops' := by
  induction ops generalizing st with
  | nil => rfl
  | cons op ops ih =>
    simp only [List.cons_append, run_cons, ih]
    cases st.apply op <;> rfl

theorem addFreePbaRecord_eq (st : HomeStateMachineStore) (lsn : Int) (pbas : PbaList)
    (fits : pbas.length < 2 ^ 29) :
    st.addFreePbaRecord lsn pbas = some { st with
      lastWriteLsn := lsn
      freePbaStore := st.freePbaStore.writeAsync (toStoreLsn lsn) (freePbaRecord pbas) } := by
  simp [addFreePbaRecord, serializeFreePbaRecord_eq pbas fits]

/-- With `2 ^ 29` PBAs, `size_needed` wraps to 4 and `add_free_pba_record` writes past the end of
its buffer. -/
theorem addFreePbaRecord_overflow :
    (sizeNeeded (List.replicate (2 ^ 29) 0)).toNat = 4 ∧
      create.addFreePbaRecord 1 (List.replicate (2 ^ 29) 0) = none := by
  have large : (List.replicate (2 ^ 29) (0 : Pba)).length = 2 ^ 29 := List.length_replicate _ _
  have wraps : (4 + 8 * 2 ^ 29) % 2 ^ 32 = 4 := by decide
  refine ⟨by rw [sizeNeeded_toNat, large, wraps], ?_⟩
  rw [addFreePbaRecord, serializeFreePbaRecord_eq_none _ large.ge]
  rfl

/-- `add_free_pba_record` stays inside its buffer exactly when it is given fewer than `2 ^ 29`
PBAs: from there on `size_needed` wraps and the copy loop writes past the end. -/
theorem addFreePbaRecord_isSome (st : HomeStateMachineStore) (lsn : Int) (pbas : PbaList) :
    (st.addFreePbaRecord lsn pbas).isSome ↔ pbas.length < 2 ^ 29 := by
  by_cases fits : pbas.length < 2 ^ 29
  · exact iff_of_true (by rw [addFreePbaRecord_eq st lsn pbas fits]; rfl) fits
  · refine iff_of_false ?_ fits
    rw [addFreePbaRecord, serializeFreePbaRecord_eq_none pbas (by omega)]
    simp

/-! ### The visitor of `get_free_pba_records` -/

/-- The LSNs that an iteration visits when it goes on while `more` holds: every LSN up to and
including the first for which `more` fails. -/
def visitedWhile (more : Int → Bool) (lsns : List Int) : List Int :=
  lsns.takeWhile more ++ (lsns.dropWhile more).take 1

/-- On an entry that decodes, the visitor calls `cb` when the record lies below `end_lsn` and
goes on while it lies below `end_lsn - 1`. -/
theorem freePbaVisitor_eq (endLsn lsn : Int) {entry : Buffer} {pbas : PbaList}
    (decoded : decodeFreePbaRecord entry = some pbas) :
    freePbaVisitor endLsn lsn entry =
      some (if toReplLsn lsn < endLsn then [(toReplLsn lsn, pbas)] else [],
        decide (toReplLsn lsn < endLsn - 1)) := by
  unfold freePbaVisitor
  split <;> simp [decoded, *]

theorem call_eq_some {endLsn : Int} {r : Int × Buffer} {lsn : Int} {pbas : PbaList} :
    (if toReplLsn r.1 < endLsn then (decodeFreePbaRecord r.2).map (toReplLsn r.1, ·) else none) =
        some (lsn, pbas) ↔
      toReplLsn r.1 < endLsn ∧ decodeFreePbaRecord r.2 = some pbas ∧ lsn = toReplLsn r.1 := by
  split <;> simp [*, eq_comm]

/-- Over records sorted by LSN that all decode, the iteration of `get_free_pba_records` visits
the records up to and including the first at or past `end_lsn - 1`, and calls `cb` once for
each record below `end_lsn`, in order, with its decoded PBAs. -/
theorem foreachFrom_freePbaVisitor (endLsn : Int) :
    ∀ {rs : List (Int × Buffer)}, rs.Pairwise (fun a b => a.1 < b.1) →
      (∀ r ∈ rs, (decodeFreePbaRecord r.2).isSome) →
      ∃ trace, LogStore.foreachFrom (freePbaVisitor endLsn) rs = some trace ∧
        trace.map Prod.fst =
          visitedWhile (fun lsn => toReplLsn lsn < endLsn - 1) (rs.map Prod.fst) ∧
        cbCalls trace = rs.filterMap fun r =>
          if toReplLsn r.1 < endLsn then (decodeFreePbaRecord r.2).map (toReplLsn r.1, ·) else none
  | [], _, _ => ⟨[], rfl, rfl, rfl⟩
  | (lsn, entry) :: rest, sorted, decodable => by
    rw [List.pairwise_cons] at sorted
    obtain ⟨pbas, decoded⟩ := Option.isSome_iff_exists.mp (decodable _ (List.mem_cons_self _ _))
    have later : ∀ r ∈ rest, endLsn - 1 ≤ toReplLsn lsn →
        (if toReplLsn r.1 < endLsn then (decodeFreePbaRecord r.2).map (toReplLsn r.1, ·)
          else none) = none := fun r mem past => by
      have := sorted.1 r mem
      simp only [toReplLsn] at past ⊢
      rw [if_neg (by omega)]
    have step := freePbaVisitor_eq endLsn lsn decoded
    by_cases before : toReplLsn lsn < endLsn - 1
    · obtain ⟨trace, iterated, visited, calls⟩ :=
        foreachFrom_freePbaVisitor endLsn sorted.2 fun r mem =>
          decodable r (List.mem_cons_of_mem _ mem)
      have below : toReplLsn lsn < endLsn := by omega
      refine ⟨(lsn, [(toReplLsn lsn, pbas)]) :: trace, ?_, ?_, ?_⟩
      · simp [LogStore.foreachFrom, step, before, below, iterated]
      · simp [visitedWhile, visited, before]
      · simp [cbCalls, ← calls, decoded, below]
    · refine ⟨[(lsn, if toReplLsn lsn < endLsn then [(toReplLsn lsn, pbas)] else [])], ?_, ?_, ?_⟩
      · simp [LogStore.foreachFrom, step, before]
      · simp [visitedWhile, before]
      · rw [cbCalls, List.filterMap_cons,
          List.filterMap_eq_nil_iff.mpr fun r mem => later r mem (by omega)]
        split <;> simp [decoded]

/-- Over records sorted by LSN, whatever their bytes, the iteration of `get_free_pba_records`
has a defined result exactly when every record below `end_lsn` decodes: the record it stops at,
when past `end_lsn - 1`, and those after it are never read. -/
theorem foreachFrom_freePbaVisitor_isSome (endLsn : Int) :
    ∀ {rs : List (Int × Buffer)}, rs.Pairwise (fun a b => a.1 < b.1) →
      ((LogStore.foreachFrom (freePbaVisitor endLsn) rs).isSome ↔
        ∀ r ∈ rs, toReplLsn r.1 < endLsn → (decodeFreePbaRecord r.2).isSome)
  | [], _ => by simp [LogStore.foreachFrom]
  | (lsn, entry) :: rest, sorted => by
    rw [List.pairwise_cons] at sorted
    have later : endLsn - 1 ≤ toReplLsn lsn → ∀ r ∈ rest, ¬toReplLsn r.1 < endLsn :=
      fun past r mem => by
        have := sorted.1 r mem
        simp only [toReplLsn] at past ⊢
        omega
    rw [List.forall_mem_cons]
    cases decoded : decodeFreePbaRecord entry with
    | none =>
      by_cases below : toReplLsn lsn < endLsn
      · simp [LogStore.foreachFrom, freePbaVisitor, below, decoded]
      · simpa [LogStore.foreachFrom, freePbaVisitor, below, decoded,
          show ¬toReplLsn lsn < endLsn - 1 by omega] using
          fun a b mem below => absurd below (later (by omega) (a, b) mem)
    | some pbas =>
      have step := freePbaVisitor_eq endLsn lsn decoded
      by_cases more : toReplLsn lsn < endLsn - 1
      · rw [← foreachFrom_freePbaVisitor_isSome endLsn sorted.2]
        simp [LogStore.foreachFrom, step, more, Option.isSome_iff_exists, Option.bind_eq_some]
        exact ⟨fun ⟨_, tail, found, _⟩ => ⟨tail, found⟩, fun ⟨tail, found⟩ => ⟨_, tail, found, rfl⟩⟩
      · simpa [LogStore.foreachFrom, step, more] using
          fun a b mem below => absurd below (later (by omega) (a, b) mem)

/-- Below `end_lsn` the visitor checks nothing: it calls `cb` with `pbas` exactly when the entry
begins with the record of `pbas`, whatever bytes follow it, and otherwise reads past the end of
the entry, which happens exactly when the entry is shorter than the record that its first four
bytes announce. -/
theorem freePbaVisitor_below_end (endLsn lsn : Int) (entry : Buffer)
    (below : toReplLsn lsn < endLsn) :
    (∀ pbas, (∃ more, freePbaVisitor endLsn lsn entry = some ([(toReplLsn lsn, pbas)], more)) ↔
        pbas.length < 2 ^ 32 ∧ ∃ rest, entry = freePbaRecord pbas ++ rest) ∧
      (freePbaVisitor endLsn lsn entry = none ↔ entry.length < 4 + 8 * leValue (entry.take 4)) := by
  have visit : freePbaVisitor endLsn lsn entry = (decodeFreePbaRecord entry).map fun plist =>
      ([(toReplLsn lsn, plist)], decide (toReplLsn lsn < endLsn - 1)) := by
    simp [freePbaVisitor, below]
  refine ⟨fun pbas => ?_, ?_⟩
  · rw [visit, ← decodeFreePbaRecord_eq_some]
    cases decodeFreePbaRecord entry <;> simp
  · rw [visit, Option.map_eq_none', decodeFreePbaRecord_eq_none]

theorem freePbaVisitor_below_end_trailing :
    toReplLsn 0 < 2 ∧
      ∃ more, freePbaVisitor 2 0 (freePbaRecord [7] ++ [9]) = some ([(toReplLsn 0, [7])], more) :=
  ⟨by decide, ((freePbaVisitor_below_end 2 0 _ (by decide)).1 [7]).mpr ⟨by decide, [9], rfl⟩⟩

/-- An entry that is no FreePbaRecord, a zero count and one byte more, makes the visitor call
`cb` with no PBAs. -/
theorem freePbaVisitor_accepts_trailing_byte :
    freePbaVisitor 2 0 [0, 0, 0, 0, 7] = some ([(1, [])], false) ∧
      ∀ pbas, freePbaRecord pbas ≠ [0, 0, 0, 0, 7] := by
  refine ⟨by decide, fun pbas same => ?_⟩
  have := congrArg List.length same
  simp [length_freePbaRecord] at this
  omega

end HomeStateMachineStore

end HomeReplication
