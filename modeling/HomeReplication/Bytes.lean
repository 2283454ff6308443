import Mathlib.Algebra.Group.Int
import Mathlib.Data.List.Basic

/-! Memory as the state machine store touches it: a buffer is its list of bytes, a `w`-byte
integer sits in it least significant byte first, and `*(T*)(buf + off)` reads or writes the
`w` bytes from `off` on.  An access that leaves the buffer has no value in C++; here it is
`none`, so that every theorem about a result also says that no access left its buffer. -/

namespace HomeReplication

/-- A byte buffer: `sisl::io_blob` and `homestore::log_buffer` as the bytes they hold. -/
abbrev Buffer := List UInt8

/-- The `w` bytes of `n`, least significant first; bits above `8 * w` are dropped. -/
def leBytes : Nat → Nat → List UInt8
  | 0, _ => []
  | w + 1, n => UInt8.ofNat (n % 256) :: leBytes w (n / 256)

/-- The integer whose bytes, least significant first, are `bs`. -/
def leValue : List UInt8 → Nat
  | [] => 0
  | b :: bs => b.toNat + 256 * leValue bs

@[simp] theorem leBytes_zero (n : Nat) : leBytes 0 n = [] := rfl

theorem leBytes_succ (w n : Nat) :
    leBytes (w + 1) n = UInt8.ofNat (n % 256) :: leBytes w (n / 256) := rfl

@[simp] theorem leValue_nil : leValue [] = 0 := rfl

@[simp] theorem leValue_cons (b : UInt8) (bs : List UInt8) :
    leValue (b :: bs) = b.toNat + 256 * leValue bs := rfl

theorem uint8_toNat_lt (b : UInt8) : b.toNat < 256 := b.toNat_lt_size

theorem uint32_toNat_lt (v : UInt32) : v.toNat < 2 ^ 32 := v.toNat_lt_size

theorem uint64_toNat_lt (v : UInt64) : v.toNat < 2 ^ 64 := v.toNat_lt_size

@[simp] theorem toNat_uint8OfNat (n : Nat) : (UInt8.ofNat n).toNat = n % 256 := by
  simp [UInt8.toNat, UInt8.ofNat]

@[simp] theorem toNat_uint32OfNat (n : Nat) : (UInt32.ofNat n).toNat = n % 2 ^ 32 := by
  simp [UInt32.toNat, UInt32.ofNat]

@[simp] theorem toNat_uint64OfNat (n : Nat) : (UInt64.ofNat n).toNat = n % 2 ^ 64 := by
  simp [UInt64.toNat, UInt64.ofNat]

@[simp] theorem length_leBytes (w n : Nat) : (leBytes w n).length = w := by
  induction w generalizing n <;> simp [leBytes_succ, *]

theorem leValue_leBytes (w n : Nat) : leValue (leBytes w n) = n % 256 ^ w := by
  induction w generalizing n with
  | zero => simp [Nat.mod_one]
  | succ w ih =>
    rw [leBytes_succ, leValue_cons, ih, toNat_uint8OfNat, Nat.mod_mod, Nat.pow_succ', Nat.mod_mul]

theorem leValue_lt (bs : List UInt8) : leValue bs < 256 ^ bs.length := by
  induction bs with
  | nil => simp
  | cons b bs ih =>
    have := uint8_toNat_lt b
    rw [leValue_cons, List.length_cons, Nat.pow_succ]
    omega

/-- Bytes read back as an integer and written again are the same bytes. -/
theorem leBytes_leValue (bs : List UInt8) : leBytes bs.length (leValue bs) = bs := by
  induction bs with
  | nil => rfl
  | cons b bs ih =>
    have byte := uint8_toNat_lt b
    rw [List.length_cons, leBytes_succ, leValue_cons, Nat.add_mul_mod_self_left,
      Nat.add_mul_div_left _ _ (by decide), Nat.div_eq_of_lt byte, Nat.zero_add, ih,
      Nat.mod_eq_of_lt byte]
    congr
    exact UInt8.toNat.inj (by rw [toNat_uint8OfNat, Nat.mod_eq_of_lt byte])

/-! ### Loads and stores -/

/-- `*(T*)(buf + off)` for a `w`-byte `T`: the `w` bytes from `off` on, `none` when they leave
the buffer. -/
def loadBytes (buf : Buffer) (off w : Nat) : Option (List UInt8) :=
  if off + w ≤ buf.length then some ((buf.drop off).take w) else none

/-- `*(T*)(buf + off) = v` for the bytes `bs` of `v`: `none` when they leave the buffer. -/
def storeBytes (buf : Buffer) (off : Nat) (bs : List UInt8) : Option Buffer :=
  if off + bs.length ≤ buf.length then some (buf.take off ++ bs ++ buf.drop (off + bs.length))
  else none

/-- `*(uint32_t*)(buf + off)`. -/
def loadU32 (buf : Buffer) (off : Nat) : Option UInt32 :=
  (loadBytes buf off 4).map fun bs => UInt32.ofNat (leValue bs)

/-- `*(uint64_t*)(buf + off)`. -/
def loadU64 (buf : Buffer) (off : Nat) : Option UInt64 :=
  (loadBytes buf off 8).map fun bs => UInt64.ofNat (leValue bs)

/-- `*(uint32_t*)(buf + off) = v`. -/
def storeU32 (buf : Buffer) (off : Nat) (v : UInt32) : Option Buffer :=
  storeBytes buf off (leBytes 4 v.toNat)

/-- `*(uint64_t*)(buf + off) = v`. -/
def storeU64 (buf : Buffer) (off : Nat) (v : UInt64) : Option Buffer :=
  storeBytes buf off (leBytes 8 v.toNat)

@[simp] theorem uint32OfNat_toNat (v : UInt32) : UInt32.ofNat v.toNat = v :=
  UInt32.toNat.inj (by rw [toNat_uint32OfNat, Nat.mod_eq_of_lt (uint32_toNat_lt v)])

@[simp] theorem uint64OfNat_toNat (v : UInt64) : UInt64.ofNat v.toNat = v :=
  UInt64.toNat.inj (by rw [toNat_uint64OfNat, Nat.mod_eq_of_lt (uint64_toNat_lt v)])

theorem loadBytes_eq_some {buf bs : List UInt8} {off w : Nat} :
    loadBytes buf off w = some bs ↔ off + w ≤ buf.length ∧ (buf.drop off).take w = bs := by
  unfold loadBytes; split <;> simp [*]

/-- A store over `old`, between `pre` and `post`, puts `bs` in its place. -/
theorem storeBytes_middle (pre old post bs : List UInt8) {off : Nat} (start : pre.length = off)
    (same : old.length = bs.length) :
    storeBytes (pre ++ old ++ post) off bs = some (pre ++ bs ++ post) := by
  subst start
  have drop : (pre ++ old ++ post).drop (pre.length + bs.length) = post := by
    rw [List.append_assoc, List.drop_append_eq_append_drop]; simp [same]
  simp [storeBytes, same, drop]

theorem storeBytes_eq_some {buf bs buf' : List UInt8} {off : Nat}
    (stored : storeBytes buf off bs = some buf') :
    off + bs.length ≤ buf.length ∧ buf'.length = buf.length := by
  unfold storeBytes at stored
  split at stored
  · cases stored; simp; omega
  · cases stored

theorem storeBytes_eq_none {buf bs : List UInt8} {off : Nat}
    (outside : buf.length < off + bs.length) :
    storeBytes buf off bs = none := by
  simp [storeBytes, Nat.not_le.mpr outside]

theorem loadU64_isSome (buf : Buffer) (off : Nat) :
    (loadU64 buf off).isSome ↔ off + 8 ≤ buf.length := by
  unfold loadU64 loadBytes; split <;> simp [*]

theorem loadU32_isSome (buf : Buffer) (off : Nat) :
    (loadU32 buf off).isSome ↔ off + 4 ≤ buf.length := by
  unfold loadU32 loadBytes; split <;> simp [*]

/-- The `w` bytes at `off` are read as `n`, when `n` fits in them, exactly when they are the
bytes of `n`. -/
theorem loadBytes_leValue {buf : Buffer} {off w n : Nat} (small : n < 256 ^ w) :
    (∃ bs, loadBytes buf off w = some bs ∧ leValue bs = n) ↔
      off + w ≤ buf.length ∧ (buf.drop off).take w = leBytes w n := by
  simp only [loadBytes_eq_some]
  constructor
  · rintro ⟨bs, ⟨fits, rfl⟩, rfl⟩
    have len : ((buf.drop off).take w).length = w := by simp; omega
    refine ⟨fits, ?_⟩
    conv_lhs => rw [← leBytes_leValue ((buf.drop off).take w), len]
  · rintro ⟨fits, bytes⟩
    exact ⟨_, ⟨fits, rfl⟩, by rw [bytes, leValue_leBytes, Nat.mod_eq_of_lt small]⟩

theorem length_of_loadBytes {buf bs : List UInt8} {off w : Nat}
    (loaded : loadBytes buf off w = some bs) : bs.length = w := by
  obtain ⟨fits, rfl⟩ := loadBytes_eq_some.mp loaded
  simp; omega

/-- A `u64` load finds `v` exactly where the eight bytes of `v` lie. -/
theorem loadU64_eq_some {buf : Buffer} {off : Nat} {v : UInt64} :
    loadU64 buf off = some v ↔
      off + 8 ≤ buf.length ∧ (buf.drop off).take 8 = leBytes 8 v.toNat := by
  rw [← loadBytes_leValue (by simpa using uint64_toNat_lt v), loadU64, Option.map_eq_some']
  refine exists_congr fun bs => and_congr_right fun loaded => ?_
  have small := leValue_lt bs
  rw [length_of_loadBytes loaded] at small
  constructor
  · rintro rfl; rw [toNat_uint64OfNat, Nat.mod_eq_of_lt (by simpa using small)]
  · intro same; rw [same, uint64OfNat_toNat]

/-- A `u32` load finds `v` exactly where the four bytes of `v` lie. -/
theorem loadU32_eq_some {buf : Buffer} {off : Nat} {v : UInt32} :
    loadU32 buf off = some v ↔
      off + 4 ≤ buf.length ∧ (buf.drop off).take 4 = leBytes 4 v.toNat := by
  rw [← loadBytes_leValue (by simpa using uint32_toNat_lt v), loadU32, Option.map_eq_some']
  refine exists_congr fun bs => and_congr_right fun loaded => ?_
  have small := leValue_lt bs
  rw [length_of_loadBytes loaded] at small
  constructor
  · rintro rfl; rw [toNat_uint32OfNat, Nat.mod_eq_of_lt (by simpa using small)]
  · intro same; rw [same, uint32OfNat_toNat]

end HomeReplication
