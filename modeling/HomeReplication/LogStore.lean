import HomeReplication.Bytes
import Mathlib.Data.Int.Order.Basic

/-! The log store that holds the free-PBA journal, as the state machine store relies on it:
records keyed by store LSN and kept in increasing order of LSN.  `writeAsync` stores a record
over any record at the same LSN, `truncate` drops every record up to an LSN, and `foreach` hands
the records from an LSN on, in increasing order, to a visitor until the visitor answers `false`.
The store itself lives outside this repository; this is the contract the code is written
against. -/

namespace HomeReplication

/-- Modelled from the spec: a log store, homestore's `HomeLogStore`, as its records by store LSN
(`store_lsn_t`, an `int64_t`), strictly increasing in LSN. -/
structure LogStore where
  records : List (Int × Buffer)
  sorted : records.Pairwise fun a b => a.1 < b.1

namespace LogStore

/-- Modelled from the spec: `create_new_log_store`, a store with no records. -/
def empty : LogStore := ⟨[], List.Pairwise.nil⟩

/-- The record at `lsn`, if there is one. -/
def find (s : LogStore) (lsn : Int) : Option Buffer := s.records.lookup lsn

/-- Records sorted by LSN with `lsn ↦ b` put in its place, over the record at `lsn` if any. -/
def insertRecord (lsn : Int) (b : Buffer) :
    List (Int × Buffer) → List (Int × Buffer)
  | [] => [(lsn, b)]
  | r :: rs =>
    if lsn < r.1 then (lsn, b) :: r :: rs
    else if lsn = r.1 then (lsn, b) :: rs
    else r :: insertRecord lsn b rs

theorem mem_insertRecord {lsn : Int} {b : Buffer} {x : Int × Buffer} :
    ∀ {rs : List (Int × Buffer)}, x ∈ insertRecord lsn b rs → x = (lsn, b) ∨ x ∈ rs
  | [], mem => by simp [insertRecord] at mem; exact .inl mem
  | r :: rs, mem => by
    unfold insertRecord at mem
    split at mem
    · simpa using mem
    · split at mem
      · simp only [List.mem_cons] at mem ⊢; tauto
      · simp only [List.mem_cons] at mem ⊢
        rcases mem with rfl | mem
        · exact .inr (.inl rfl)
        · rcases mem_insertRecord mem with h | h <;> simp [h]

theorem insertRecord_sorted (lsn : Int) (b : Buffer) :
    ∀ {rs : List (Int × Buffer)}, rs.Pairwise (fun a b => a.1 < b.1) →
      (insertRecord lsn b rs).Pairwise fun a b => a.1 < b.1
  | [], _ => by simp [insertRecord]
  | r :: rs, sorted => by
    rw [List.pairwise_cons] at sorted
    unfold insertRecord
    by_cases before : lsn < r.1
    · rw [if_pos before]
      refine List.Pairwise.cons (fun x mem => ?_) (List.pairwise_cons.mpr sorted)
      rcases List.mem_cons.mp mem with rfl | mem
      · exact before
      · exact lt_trans before (sorted.1 x mem)
    · rw [if_neg before]
      by_cases same : lsn = r.1
      · rw [if_pos same]; subst same; exact List.pairwise_cons.mpr sorted
      · rw [if_neg same]
        refine List.Pairwise.cons (fun x mem => ?_) (insertRecord_sorted lsn b sorted.2)
        rcases mem_insertRecord mem with rfl | mem
        · show r.1 < lsn; omega
        · exact sorted.1 x mem

/-- Modelled from the spec: `write_async(lsn, b)`, the record `b` at `lsn`, over any record
already there. -/
def writeAsync (s : LogStore) (lsn : Int) (b : Buffer) : LogStore :=
  ⟨insertRecord lsn b s.records, insertRecord_sorted lsn b s.sorted⟩

/-- Modelled from the spec: `truncate(upto_lsn)`, every record at or below `upto_lsn` is gone. -/
def truncate (s : LogStore) (uptoLsn : Int) : LogStore :=
  ⟨s.records.filter fun r => uptoLsn < r.1, s.sorted.filter _⟩

/-- Modelled from the spec: the iteration of `foreach` over `records`.  Each record goes to the
visitor, which says what it did there and whether to go on.  The result is each visited LSN with
what the visitor did, or `none` when the visitor has no defined result. -/
def foreachFrom {α : Type} (visitor : Int → Buffer → Option (List α × Bool)) :
    List (Int × Buffer) → Option (List (Int × List α))
  | [] => some []
  | (lsn, b) :: rest => do
    let (out, more) ← visitor lsn b
    let tail ← if more then foreachFrom visitor rest else pure []
    pure ((lsn, out) :: tail)

/-- Modelled from the spec: `foreach(start_lsn, visitor)`, the records from `start_lsn` on, in
increasing LSN, until the visitor returns `false`. -/
def foreach {α : Type} (s : LogStore) (startLsn : Int)
    (visitor : Int → Buffer → Option (List α × Bool)) : Option (List (Int × List α)) :=
  foreachFrom visitor (s.records.filter fun r => startLsn ≤ r.1)

/-! ### Lookups -/

theorem lookup_cons (r : Int × Buffer) (rs : List (Int × Buffer)) (lsn : Int) :
    (r :: rs).lookup lsn = if lsn = r.1 then some r.2 else rs.lookup lsn := by
  rcases r with ⟨k, v⟩
  rw [List.lookup_cons]
  by_cases same : lsn = k
  · simp [same]
  · simp [beq_eq_false_iff_ne.mpr same, same]

theorem lookup_insertRecord (lsn k : Int) (b : Buffer) (rs : List (Int × Buffer)) :
    (insertRecord lsn b rs).lookup k = if k = lsn then some b else rs.lookup k := by
  induction rs with
  | nil => simp [insertRecord, lookup_cons]
  | cons r rs ih =>
    unfold insertRecord
    by_cases before : lsn < r.1
    · simp [before, lookup_cons]
    · by_cases same : lsn = r.1
      · subst lsn; by_cases k = r.1 <;> simp [*, lookup_cons]
      · by_cases found : k = r.1
        · subst k; simp [before, same, lookup_cons, ih, Ne.symm same]
        · simp [before, same, lookup_cons, ih, found]

theorem lookup_filter (upto k : Int) (rs : List (Int × Buffer)) :
    (rs.filter fun r => upto < r.1).lookup k = if k ≤ upto then none else rs.lookup k := by
  induction rs with
  | nil => simp
  | cons r rs ih =>
    by_cases keep : upto < r.1
    · by_cases found : k = r.1
      · subst k; simp [List.filter_cons, keep, lookup_cons, not_le.mpr keep]
      · simp [List.filter_cons, keep, lookup_cons, found, ih]
    · by_cases found : k = r.1
      · subst k; simp [List.filter_cons, keep, lookup_cons, ih, not_lt.mp keep]
      · simp [List.filter_cons, keep, lookup_cons, found, ih]

/-- In records sorted by LSN, the record found at an LSN is the one record at that LSN. -/
theorem lookup_eq_some_of_sorted {lsn : Int} {b : Buffer} :
    ∀ {rs : List (Int × Buffer)}, rs.Pairwise (fun a b => a.1 < b.1) →
      (rs.lookup lsn = some b ↔ (lsn, b) ∈ rs)
  | [], _ => by simp
  | r :: rs, sorted => by
    rw [List.pairwise_cons] at sorted
    rw [lookup_cons, List.mem_cons]
    by_cases found : lsn = r.1
    · subst lsn
      simp only [if_true]
      constructor
      · rintro ⟨⟩; exact .inl rfl
      · rintro (same | later)
        · rw [← same]
        · exact absurd (sorted.1 _ later) (lt_irrefl _)
    · rw [if_neg found, lookup_eq_some_of_sorted sorted.2]
      constructor
      · exact .inr
      · rintro (rfl | later)
        · exact absurd rfl found
        · exact later

@[simp] theorem find_empty (lsn : Int) : empty.find lsn = none := rfl

theorem find_writeAsync (s : LogStore) (lsn k : Int) (b : Buffer) :
    (s.writeAsync lsn b).find k = if k = lsn then some b else s.find k :=
  lookup_insertRecord lsn k b s.records

theorem find_truncate (s : LogStore) (upto k : Int) :
    (s.truncate upto).find k = if k ≤ upto then none else s.find k :=
  lookup_filter upto k s.records

theorem find_eq_some (s : LogStore) (lsn : Int) (b : Buffer) :
    s.find lsn = some b ↔ (lsn, b) ∈ s.records :=
  lookup_eq_some_of_sorted s.sorted

end LogStore

end HomeReplication
