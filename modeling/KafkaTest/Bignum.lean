import KafkaTest.Leb128

/-!
# Base-128 groups and zig-zag without a word size

`encodeNat v` is the shortest groups of a number of any size; on a word they are those of
`encodeGroups`.

The zig-zag numbering of the integers is `Equiv.intEquivNat`.  Programs compute it by
`zigzagAt w n = (n << 1) ^ (n >> w)`, a formula for words of `w + 1` bits.  On an unbounded
integer it is the zig-zag number as long as such a word holds the integer, and does not fit
in the word otherwise: `zigzagAt_lt_iff`.
-/

namespace KafkaTest

/-! ## Groups -/

/-- The shortest groups of a number. -/
def encodeNat (v : Nat) : Bytes :=
  if v < 128 then [BitVec.ofNat 8 v]
  else (BitVec.ofNat 8 v ||| 0x80#8) :: encodeNat (v / 128)
termination_by v
decreasing_by omega

theorem encodeNat_of_small {v : Nat} (small : v < 128) : encodeNat v = [BitVec.ofNat 8 v] := by
  rw [encodeNat, if_pos small]

theorem encodeNat_of_large {v : Nat} (large : 128 ≤ v) :
    encodeNat v = (BitVec.ofNat 8 v ||| 0x80#8) :: encodeNat (v / 128) := by
  rw [encodeNat, if_neg (Nat.not_lt.mpr large)]

/-- **Round trip.**  The groups of a number spell the number. -/
theorem groupsNat_encodeNat (v : Nat) : groupsNat (encodeNat v) = v := by
  induction v using encodeNat.induct with
  | case1 v small =>
      rw [encodeNat_of_small small, groupsNat, groupsNat, BitVec.toNat_ofNat]
      omega
  | case2 v large ih =>
      rw [encodeNat_of_large (Nat.le_of_not_lt large), groupsNat, ih, toNat_or_continue,
        BitVec.toNat_ofNat]
      omega

theorem encodeNat_inj {v w : Nat} : encodeNat v = encodeNat w ↔ v = w :=
  (Function.LeftInverse.injective groupsNat_encodeNat).eq_iff

/-- On words the groups are those of the machine loop. -/
theorem encodeNat_toNat (val : Word) : encodeNat val.toNat = encodeGroups val := by
  induction val using encodeGroups.induct with
  | case1 val small =>
      rw [lt_128_iff] at small
      rw [encodeNat_of_small small, encodeGroups_of_small small, BitVec.ofNat_toNat]
  | case2 val large ih =>
      rw [lt_128_iff, Nat.not_lt] at large
      rw [encodeNat_of_large large, encodeGroups_of_large large, BitVec.ofNat_toNat, ← ih,
        toNat_shiftRight_seven]

/-- The number is its lowest payload joined with the others. -/
theorem groupsNat_cons (b : Byte) (bs : Bytes) :
    groupsNat (b :: bs) = b.toNat % 128 ||| groupsNat bs <<< 7 := by
  have joined := Nat.two_pow_add_eq_or_of_lt (i := 7) (b := b.toNat % 128) (by omega)
    (groupsNat bs)
  rw [groupsNat, Nat.or_comm, Nat.shiftLeft_eq, Nat.mul_comm (groupsNat bs), ← joined]
  omega

/-! ## Zig-zag -/

/-- The zig-zag number of an integer: twice the magnitude, less one for a negative one. -/
abbrev zigzagNat : Int ≃ Nat := Equiv.intEquivNat

theorem zigzagNat_ofNat (m : Nat) : zigzagNat (.ofNat m) = 2 * m := rfl

theorem zigzagNat_negSucc (m : Nat) : zigzagNat (.negSucc m) = 2 * m + 1 := rfl

/-- The zig-zag numbers of `w + 1` bits are those of the integers that so many bits hold. -/
theorem zigzagNat_lt_iff (w : Nat) (n : Int) :
    zigzagNat n < 2 ^ (w + 1) ↔ -2 ^ w ≤ n ∧ n < 2 ^ w := by
  have power : (2 : Int) ^ w = ((2 ^ w : Nat) : Int) := by push_cast; rfl
  rw [power, Nat.pow_succ]
  cases n with
  | ofNat m =>
      rw [zigzagNat_ofNat, Int.ofNat_eq_natCast]
      omega
  | negSucc m =>
      rw [zigzagNat_negSucc, Int.negSucc_eq]
      omega

/-- `(n << 1) ^ (n >> w)`. -/
def zigzagAt (w : Nat) (n : Int) : Int := Int.xor (n <<< (1 : Nat)) (n >>> w)

/-- The integer of a zig-zag number, `(z >> 1) ^ -(z & 1)`. -/
def unzigzagNat (z : Nat) : Int := Int.xor (z >>> 1 : Nat) (-(z &&& 1 : Nat))

theorem unzigzagNat_zigzagNat (n : Int) : unzigzagNat (zigzagNat n) = n := by
  unfold unzigzagNat
  rw [Nat.shiftRight_one, Nat.and_one_is_mod]
  cases n with
  | ofNat m =>
      have half : 2 * m / 2 = m := by omega
      have even : 2 * m % 2 = 0 := by omega
      rw [zigzagNat_ofNat, half, even]
      exact congrArg Int.ofNat (Nat.xor_zero m)
  | negSucc m =>
      have half : (2 * m + 1) / 2 = m := by omega
      have odd : (2 * m + 1) % 2 = 1 := by omega
      rw [zigzagNat_negSucc, half, odd]
      exact congrArg Int.negSucc (Nat.xor_zero m)

/-- On words the number is that of the zig-zag word. -/
theorem zigzagNat_toInt (n : Word) : zigzagNat n.toInt = (zigzag n).toNat := by
  have word := toNat_zigzag n
  cases h : n.toInt with
  | ofNat m =>
      rw [h, Int.ofNat_eq_natCast] at word
      rw [zigzagNat_ofNat]
      split at word <;> omega
  | negSucc m =>
      rw [h, Int.negSucc_eq] at word
      rw [zigzagNat_negSucc]
      split at word <;> omega

/-- The high part of a zig-zag number is that of half of it. -/
theorem shiftRight_succ (a w : Nat) : a >>> (w + 1) = (a / 2) >>> w := by
  rw [Nat.add_comm, Nat.shiftRight_add, Nat.shiftRight_one]

/-- The two signs are equal, so the exclusive or is that of the zig-zag number and its high
part. -/
theorem zigzagAt_eq (w : Nat) (n : Int) :
    zigzagAt w n = (zigzagNat n ^^^ zigzagNat n >>> (w + 1) : Nat) := by
  unfold zigzagAt
  cases n with
  | ofNat m =>
      have doubled : Int.ofNat m <<< (1 : Nat) = Int.ofNat (2 * m) := by
        rw [Int.shiftLeft_eq, Int.ofNat_eq_natCast, Int.ofNat_eq_natCast]
        omega
      have half : 2 * m / 2 = m := by omega
      rw [doubled, zigzagNat_ofNat, shiftRight_succ, half]
      rfl
  | negSucc m =>
      have doubled : Int.negSucc m <<< (1 : Nat) = Int.negSucc (2 * m + 1) := by
        rw [Int.shiftLeft_eq, Int.negSucc_eq, Int.negSucc_eq]
        omega
      have half : (2 * m + 1) / 2 = m := by omega
      rw [doubled, zigzagNat_negSucc, shiftRight_succ, half]
      rfl

/-- A number and its own high part differ in the high part, unless there is none. -/
theorem xor_shiftRight_lt_iff (a : Nat) {k : Nat} (positive : 0 < k) :
    a ^^^ a >>> k < 2 ^ k ↔ a < 2 ^ k := by
  constructor
  · intro small
    have top : (a ^^^ a >>> k) >>> k = 0 := Nat.shiftRight_eq_zero _ _ small
    rw [Nat.shiftRight_xor_distrib, Nat.xor_eq_zero_iff, Nat.shiftRight_eq_div_pow,
      Nat.shiftRight_eq_div_pow] at top
    have grows : 1 < 2 ^ k := Nat.one_lt_two_pow (by omega)
    apply by_contra
    intro large
    have high : 0 < a / 2 ^ k := Nat.div_pos (by omega) (by omega)
    have shrinks := Nat.div_lt_self high grows
    omega
  · intro small
    rw [Nat.shiftRight_eq_zero _ _ small, Nat.xor_zero]
    exact small

/-- **Where the fixed shift is right.**  The formula stays within `w + 1` bits exactly for
the integers such a word holds. -/
theorem zigzagAt_lt_iff (w : Nat) (n : Int) :
    zigzagAt w n < 2 ^ (w + 1) ↔ -2 ^ w ≤ n ∧ n < 2 ^ w := by
  have bits := xor_shiftRight_lt_iff (zigzagNat n) (Nat.succ_pos w)
  rw [zigzagNat_lt_iff] at bits
  rw [zigzagAt_eq, ← bits]
  norm_cast

/-- There it is the zig-zag number. -/
theorem zigzagAt_of_fits {w : Nat} {n : Int} (fits : -2 ^ w ≤ n ∧ n < 2 ^ w) :
    zigzagAt w n = zigzagNat n := by
  rw [← zigzagNat_lt_iff] at fits
  rw [zigzagAt_eq, Nat.shiftRight_eq_zero _ _ fits, Nat.xor_zero]

end KafkaTest
