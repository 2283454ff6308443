import HomeReplication.Bytes

/-! The FreePbaRecord, the log-store entry of the free-PBA journal: a `u32` count `N` and then
`N` PBAs as `u64`, little-endian.  `serializeFreePbaRecord` is how `add_free_pba_record` builds
the entry and `decodeFreePbaRecord` how the visitor of `get_free_pba_records` reads it back.
The encoder produces the format exactly when `4 + 8 * N` fits in the `uint32_t` that holds its
size; the decoder accepts exactly the format followed by any bytes at all, and reads past the
entry otherwise. -/

namespace HomeReplication

/-- `pba_t`. -/
abbrev Pba := UInt64

/-- `pba_list_t`, a `folly::small_vector` of PBAs. -/
abbrev PbaList := List Pba

/-- The PBAs of a record, each as a `u64`. -/
def pbaBytes : PbaList → Buffer
  | [] => []
  | pba :: pbas => leBytes 8 pba.toNat ++ pbaBytes pbas

/-- The FreePbaRecord format: `N` as a `u32`, then the `N` PBAs. -/
def freePbaRecord (pbas : PbaList) : Buffer := leBytes 4 pbas.length ++ pbaBytes pbas

@[simp] theorem pbaBytes_nil : pbaBytes [] = [] := rfl

@[simp] theorem pbaBytes_cons (pba : Pba) (pbas : PbaList) :
    pbaBytes (pba :: pbas) = leBytes 8 pba.toNat ++ pbaBytes pbas := rfl

@[simp] theorem length_pbaBytes (pbas : PbaList) : (pbaBytes pbas).length = 8 * pbas.length := by
  induction pbas with
  | nil => rfl
  | cons pba pbas ih =>
    rw [pbaBytes_cons, List.length_append, length_leBytes, ih, List.length_cons]
    omega

theorem pbaBytes_at (pbas : PbaList) (i : Nat) (h : i < pbas.length) :
    ((pbaBytes pbas).drop (8 * i)).take 8 = leBytes 8 pbas[i].toNat := by
  induction pbas generalizing i with
  | nil => cases h
  | cons pba pbas ih =>
    cases i with
    | zero => simp [List.take_append_eq_append_take]
    | succ i =>
      rw [pbaBytes_cons, show 8 * (i + 1) = 8 + 8 * i by omega, ← List.drop_drop,
        List.drop_left' (length_leBytes _ _)]
      exact ih i (by simpa using h)

theorem length_freePbaRecord (pbas : PbaList) :
    (freePbaRecord pbas).length = 4 + 8 * pbas.length := by
  rw [freePbaRecord, List.length_append, length_leBytes, length_pbaBytes]

/-! ### The encoder of `add_free_pba_record` -/

/-- `uint32_t size_needed = sizeof(uint32_t) + (pbas.size() * sizeof(pba_t))`: the `size_t` sum,
narrowed to 32 bits. -/
def sizeNeeded (pbas : PbaList) : UInt32 := UInt32.ofNat (4 + pbas.length * 8)

/-- The copy loop of `add_free_pba_record`: `*raw_ptr = pba; ++raw_ptr;` for each PBA, with
`raw_ptr` at byte `off`. -/
def copyPbas : Buffer → Nat → PbaList → Option Buffer
  | buf, _, [] => some buf
  | buf, off, pba :: pbas => do
    let buf ← storeU64 buf off pba
    copyPbas buf (off + 8) pbas

/-- The buffer that `add_free_pba_record` hands to `write_async`: `size_needed` fresh bytes, the
count `uint32_cast(pbas.size())` at byte 0 and the copy loop from byte 4.  The fresh bytes are
taken as zero; when the record fits, every one of them is written. -/
def serializeFreePbaRecord (pbas : PbaList) : Option Buffer := do
  let b ← storeU32 (List.replicate (sizeNeeded pbas).toNat 0) 0 (UInt32.ofNat pbas.length)
  copyPbas b 4 pbas

/-- The copy loop over `junk` of the right length leaves the PBAs' bytes in its place. -/
theorem copyPbas_middle (pbas : PbaList) (pre junk post : Buffer) {off : Nat}
    (start : pre.length = off) (room : junk.length = 8 * pbas.length) :
    copyPbas (pre ++ junk ++ post) off pbas =
      some (pre ++ pbaBytes pbas ++ post) := by
  induction pbas generalizing pre junk off with
  | nil =>
    simp only [List.length_nil, Nat.mul_zero, List.length_eq_zero] at room
    simp [copyPbas, room]
  | cons pba pbas ih =>
    have stored : storeU64 (pre ++ junk ++ post) off pba =
        some (pre ++ leBytes 8 pba.toNat ++ (junk.drop 8 ++ post)) := by
      have split : pre ++ junk ++ post = pre ++ junk.take 8 ++ (junk.drop 8 ++ post) := by
        rw [List.append_assoc, List.append_assoc, ← List.append_assoc (junk.take 8),
          List.take_append_drop]
      rw [split, storeU64]
      exact storeBytes_middle pre (junk.take 8) (junk.drop 8 ++ post) (leBytes 8 pba.toNat) start
        (by simp at room ⊢; omega)
    simp only [copyPbas, stored, Option.bind_eq_bind, Option.some_bind]
    rw [← List.append_assoc, ih _ _ (by simp [start]) (by simp at room ⊢; omega)]
    simp

theorem copyPbas_eq_none (pbas : PbaList) (buf : Buffer) (off : Nat) (nonempty : pbas ≠ [])
    (short : buf.length < off + 8 * pbas.length) : copyPbas buf off pbas = none := by
  induction pbas generalizing buf off with
  | nil => contradiction
  | cons pba pbas ih =>
    simp only [copyPbas, Option.bind_eq_bind]
    cases stored : storeU64 buf off pba with
    | none => rfl
    | some buf' =>
      obtain ⟨fits, same⟩ := storeBytes_eq_some stored
      simp only [length_leBytes] at fits
      simp only [List.length_cons] at short
      have more : pbas ≠ [] := by rintro rfl; simp at short; omega
      exact ih buf' (off + 8) more (by omega)

theorem sizeNeeded_toNat (pbas : PbaList) :
    (sizeNeeded pbas).toNat = (4 + 8 * pbas.length) % 2 ^ 32 := by
  simp [sizeNeeded, Nat.mul_comm]

/-- Below `2 ^ 29` PBAs, `add_free_pba_record` writes exactly the FreePbaRecord format, in a
buffer of `4 + 8 * N` bytes, with no access outside it. -/
theorem serializeFreePbaRecord_eq (pbas : PbaList) (fits : pbas.length < 2 ^ 29) :
    serializeFreePbaRecord pbas = some (freePbaRecord pbas) := by
  have fresh : List.replicate (sizeNeeded pbas).toNat (0 : UInt8) =
      [] ++ List.replicate 4 0 ++ List.replicate (8 * pbas.length) 0 := by
    rw [sizeNeeded_toNat, Nat.mod_eq_of_lt (by omega), List.replicate_add]; rfl
  have count : (UInt32.ofNat pbas.length).toNat = pbas.length := by
    rw [toNat_uint32OfNat, Nat.mod_eq_of_lt (by omega)]
  have stored : storeU32 (List.replicate (sizeNeeded pbas).toNat 0) 0 (UInt32.ofNat pbas.length) =
      some (leBytes 4 pbas.length ++ List.replicate (8 * pbas.length) 0) := by
    rw [storeU32, count, fresh]
    exact storeBytes_middle [] _ _ _ rfl (by simp)
  simp only [serializeFreePbaRecord, stored, Option.bind_eq_bind, Option.some_bind]
  rw [← List.append_nil (leBytes 4 pbas.length ++ _), copyPbas_middle _ _ _ _ (by simp) (by simp)]
  simp [freePbaRecord]

/-- Below `2 ^ 29` PBAs, `size_needed` is `4 + 8 * N` and the buffer that `add_free_pba_record`
writes holds `N` in its first four bytes and the `i`-th PBA in the eight bytes from `4 + 8 * i`,
all little-endian. -/
theorem serializeFreePbaRecord_layout (pbas : PbaList) (fits : pbas.length < 2 ^ 29) :
    ∃ b, serializeFreePbaRecord pbas = some b ∧ (sizeNeeded pbas).toNat = 4 + 8 * pbas.length ∧
      b.length = 4 + 8 * pbas.length ∧ b.take 4 = leBytes 4 pbas.length ∧
      ∀ i (h : i < pbas.length), (b.drop (4 + 8 * i)).take 8 = leBytes 8 pbas[i].toNat := by
  refine ⟨_, serializeFreePbaRecord_eq pbas fits,
    by rw [sizeNeeded_toNat, Nat.mod_eq_of_lt (by omega)], length_freePbaRecord pbas,
    by simp [freePbaRecord, List.take_append_eq_append_take], fun i h => ?_⟩
  rw [freePbaRecord, ← List.drop_drop, List.drop_left' (length_leBytes _ _), pbaBytes_at pbas i h]

theorem serializeFreePbaRecord_layout_two :
    ([5, 6] : PbaList).length < 2 ^ 29 ∧
      ∃ b, serializeFreePbaRecord [5, 6] = some b ∧ (sizeNeeded [5, 6]).toNat = 4 + 8 * 2 ∧
        b.length = 4 + 8 * 2 ∧ b.take 4 = leBytes 4 2 ∧
        ∀ i (h : i < ([5, 6] : PbaList).length),
          (b.drop (4 + 8 * i)).take 8 = leBytes 8 ([5, 6] : PbaList)[i].toNat :=
  ⟨by decide, serializeFreePbaRecord_layout [5, 6] (by decide)⟩

/-- From `2 ^ 29` PBAs on, `4 + 8 * N` no longer fits in `size_needed`, and the copy loop writes
past the end of the buffer. -/
theorem serializeFreePbaRecord_eq_none (pbas : PbaList) (large : 2 ^ 29 ≤ pbas.length) :
    serializeFreePbaRecord pbas = none := by
  simp only [serializeFreePbaRecord, Option.bind_eq_bind]
  cases stored :
      storeU32 (List.replicate (sizeNeeded pbas).toNat 0) 0 (UInt32.ofNat pbas.length) with
  | none => rfl
  | some b =>
    have size := sizeNeeded_toNat pbas
    have wraps : (4 + 8 * pbas.length) % 2 ^ 32 < 2 ^ 32 := Nat.mod_lt _ (by decide)
    have same := (storeBytes_eq_some stored).2
    simp only [List.length_replicate] at same
    exact copyPbas_eq_none _ _ _ (by rintro rfl; simp at large) (by omega)

/-! ### The decoder of the `get_free_pba_records` visitor -/

/-- The loop of the visitor: `plist.push_back(*raw_ptr); ++raw_ptr;` `n` times, with `raw_ptr`
at byte `off`. -/
def readPbas (entry : Buffer) : Nat → Nat → Option PbaList
  | 0, _ => some []
  | n + 1, off => do
    let pba ← loadU64 entry off
    let pbas ← readPbas entry n (off + 8)
    pure (pba :: pbas)

/-- How the visitor decodes an entry: `num_pbas` from byte 0, then the loop from byte 4.  No
length is checked. -/
def decodeFreePbaRecord (entry : Buffer) : Option PbaList := do
  let numPbas ← loadU32 entry 0
  readPbas entry numPbas.toNat 4

theorem readPbas_middle (pbas : PbaList) (pre post : Buffer) {off : Nat}
    (start : pre.length = off) :
    readPbas (pre ++ pbaBytes pbas ++ post) pbas.length off =
      some pbas := by
  induction pbas generalizing pre off with
  | nil => rfl
  | cons pba pbas ih =>
    have rest := ih (pre ++ leBytes 8 pba.toNat)
      (show (pre ++ leBytes 8 pba.toNat).length = off + 8 by simp [start])
    have loaded : loadU64 (pre ++ leBytes 8 pba.toNat ++
        (pbaBytes pbas ++ post)) off = some pba := by
      refine loadU64_eq_some.mpr ⟨by simp; omega, ?_⟩
      subst start
      simp [List.drop_append_eq_append_drop, List.take_append_eq_append_take]
    simp only [pbaBytes_cons, List.append_assoc] at rest loaded ⊢
    simp [readPbas, loaded, rest]

theorem readPbas_eq_some {entry : Buffer} {n off : Nat} {pbas : PbaList}
    (start : off ≤ entry.length) (read : readPbas entry n off = some pbas) :
    pbas.length = n ∧ off + 8 * n ≤ entry.length ∧
      (entry.drop off).take (8 * n) = pbaBytes pbas := by
  induction n generalizing off pbas with
  | zero => simp only [readPbas, Option.some_inj] at read; simp [← read, start]
  | succ n ih =>
    simp only [readPbas, Option.bind_eq_bind, Option.bind_eq_some, Option.pure_def,
      Option.some_inj] at read
    obtain ⟨pba, loaded, rest, restRead, rfl⟩ := read
    obtain ⟨fits, bytes⟩ := loadU64_eq_some.mp loaded
    obtain ⟨len, inside, restBytes⟩ := ih fits restRead
    refine ⟨by simp [len], by omega, ?_⟩
    rw [Nat.mul_succ, Nat.add_comm, List.take_add, List.drop_drop, restBytes, bytes,
      pbaBytes_cons]

theorem readPbas_isSome {entry : Buffer} (n : Nat) {off : Nat} (start : off ≤ entry.length) :
    (readPbas entry n off).isSome ↔ off + 8 * n ≤ entry.length := by
  induction n generalizing off with
  | zero => simp [readPbas, start]
  | succ n ih =>
    have step := loadU64_isSome entry off
    simp only [readPbas, Option.bind_eq_bind]
    cases loaded : loadU64 entry off with
    | none => simp [loaded] at step; simp; omega
    | some pba =>
      simp only [loaded, Option.isSome_some, true_iff] at step
      have rest := ih step
      cases read : readPbas entry n (off + 8) <;> simp [read] at rest ⊢ <;> omega

/-- The visitor decodes `pbas` from exactly the entries that begin with the record of `pbas`;
the bytes after the record are never looked at. -/
theorem decodeFreePbaRecord_eq_some {entry : Buffer} {pbas : PbaList} :
    decodeFreePbaRecord entry = some pbas ↔
      pbas.length < 2 ^ 32 ∧ ∃ rest, entry = freePbaRecord pbas ++ rest := by
  constructor
  · intro decoded
    simp only [decodeFreePbaRecord, Option.bind_eq_bind, Option.bind_eq_some] at decoded
    obtain ⟨count, loaded, read⟩ := decoded
    obtain ⟨fits, countBytes⟩ := loadU32_eq_some.mp loaded
    obtain ⟨len, -, bytes⟩ := readPbas_eq_some (by omega) read
    have whole : entry = entry.take 4 ++ ((entry.drop 4).take (8 * count.toNat) ++
        entry.drop (4 + 8 * count.toNat)) := by
      rw [← List.drop_drop, List.take_append_drop, List.take_append_drop]
    refine ⟨len ▸ uint32_toNat_lt count, entry.drop (4 + 8 * count.toNat), ?_⟩
    conv_lhs => rw [whole]
    rw [bytes, freePbaRecord, len, List.append_assoc, ← countBytes, List.drop_zero]
  · rintro ⟨small, rest, rfl⟩
    have loaded : loadU32 (freePbaRecord pbas ++ rest) 0 = some (UInt32.ofNat pbas.length) := by
      refine loadU32_eq_some.mpr ⟨by simp [length_freePbaRecord]; omega, ?_⟩
      rw [toNat_uint32OfNat, Nat.mod_eq_of_lt small]
      simp [freePbaRecord]
    have read := readPbas_middle pbas (leBytes 4 pbas.length) rest
      (show (leBytes 4 pbas.length).length = 4 by simp)
    simp only [decodeFreePbaRecord, loaded, Option.bind_eq_bind, Option.some_bind,
      toNat_uint32OfNat, Nat.mod_eq_of_lt small]
    simpa [freePbaRecord] using read

theorem decodeFreePbaRecord_freePbaRecord (pbas : PbaList) (small : pbas.length < 2 ^ 32) :
    decodeFreePbaRecord (freePbaRecord pbas) = some pbas :=
  decodeFreePbaRecord_eq_some.mpr ⟨small, [], (List.append_nil _).symm⟩

/-- The visitor decodes what `add_free_pba_record` writes back to the same PBAs. -/
theorem decodeFreePbaRecord_serializeFreePbaRecord (pbas : PbaList) (fits : pbas.length < 2 ^ 29) :
    (serializeFreePbaRecord pbas).bind decodeFreePbaRecord = some pbas := by
  rw [serializeFreePbaRecord_eq pbas fits, Option.some_bind,
    decodeFreePbaRecord_freePbaRecord pbas (by omega)]

theorem decodeFreePbaRecord_serializeFreePbaRecord_two :
    ([5, 6] : PbaList).length < 2 ^ 29 ∧
      (serializeFreePbaRecord [5, 6]).bind decodeFreePbaRecord = some [5, 6] :=
  ⟨by decide, decodeFreePbaRecord_serializeFreePbaRecord [5, 6] (by decide)⟩

/-- The visitor reads past the end of an entry exactly when the entry is shorter than the
record that its first four bytes announce. -/
theorem decodeFreePbaRecord_eq_none {entry : Buffer} :
    decodeFreePbaRecord entry = none ↔ entry.length < 4 + 8 * leValue (entry.take 4) := by
  have header := loadU32_isSome entry 0
  simp only [decodeFreePbaRecord, Option.bind_eq_bind]
  cases loaded : loadU32 entry 0 with
  | none => simp [loaded] at header; simp; omega
  | some count =>
    simp only [loaded, Option.isSome_some, true_iff, Nat.zero_add] at header
    have value : leValue (entry.take 4) = count.toNat := by
      have bytes := (loadU32_eq_some.mp loaded).2
      rw [List.drop_zero] at bytes
      rw [bytes, leValue_leBytes, Nat.mod_eq_of_lt (by simpa using uint32_toNat_lt count)]
    have read := readPbas_isSome count.toNat header
    rw [value, Option.some_bind, ← Option.not_isSome_iff_eq_none, read]
    omega

end HomeReplication
