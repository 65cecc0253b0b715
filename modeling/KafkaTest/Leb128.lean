import KafkaTest.Machine

/-!
# Base-128 groups and zig-zag words

The two halves of a zig-zag varint, on 64-bit words and for any program that uses
them.

* `IsGroups bs`: `bs` is one varint, that is, every byte but the last has the
  continuation bit.  `groupsWord bs` is the word its payload bits spell, lowest
  group first; bits shifted past the word are lost.
* `encodeGroups v`: the shortest groups of `v`.  `groupsWord_encodeGroups` is the
  round trip and `length_encodeGroups_le_iff` gives the length.
* `zigzag` and `unzigzag` are inverse bijections of words.  `toNat_zigzag` reads
  the word as twice the magnitude.
-/

namespace KafkaTest

abbrev Byte := BitVec 8

abbrev Bytes := List Byte

abbrev Word := BitVec 64

/-! ## Groups -/

/-- The seven payload bits of a byte. -/
def groupBits (b : Byte) : Word := (b &&& 0x7F#8).setWidth 64

/-- One varint: a nonempty run of bytes whose last one, and only that, lacks the
continuation bit. -/
def IsGroups : Bytes → Prop
  | [] => False
  | b :: bs => if b &&& 0x80#8 = 0#8 then bs = [] else IsGroups bs

/-- The word spelled by the payload bits, lowest group first. -/
def groupsWord : Bytes → Word
  | [] => 0#64
  | b :: bs => groupBits b ||| groupsWord bs <<< 7

/-- The shortest groups of a word. -/
def encodeGroups (val : Word) : Bytes :=
  if val < 0x80#64 then [val.setWidth 8]
  else (val.setWidth 8 ||| 0x80#8) :: encodeGroups (val >>> 7)
termination_by val.toNat
decreasing_by
  rename_i large
  rw [BitVec.lt_def, BitVec.toNat_ofNat] at large
  rw [BitVec.toNat_ushiftRight, Nat.shiftRight_eq_div_pow]
  omega

instance decidableIsGroups : DecidablePred IsGroups
  | [] => inferInstanceAs (Decidable False)
  | b :: bs =>
    match decEq (b &&& 0x80#8) 0#8 with
    | isTrue h => decidable_of_iff (bs = []) (by simp [IsGroups, h])
    | isFalse h =>
      match decidableIsGroups bs with
      | isTrue hbs => isTrue (by simpa [IsGroups, h] using hbs)
      | isFalse hbs => isFalse (by simpa [IsGroups, h] using hbs)

/-- The continuation bit is the top bit. -/
theorem and_continue_eq_zero_iff (b : Byte) : b &&& 0x80#8 = 0#8 ↔ b.toNat < 128 := by
  revert b
  decide +kernel

theorem IsGroups.ne_nil {bs : Bytes} (h : IsGroups bs) : bs ≠ [] := by
  rintro rfl
  exact h

theorem IsGroups.length_pos {bs : Bytes} (h : IsGroups bs) : 0 < bs.length :=
  List.length_pos_of_ne_nil h.ne_nil

theorem toNat_shiftRight_seven (val : Word) : (val >>> 7).toNat = val.toNat / 128 := by
  rw [BitVec.toNat_ushiftRight, Nat.shiftRight_eq_div_pow]

theorem lt_128_iff (val : Word) : val < 0x80#64 ↔ val.toNat < 128 := by
  rw [BitVec.lt_def, BitVec.toNat_ofNat]

theorem encodeGroups_of_small {val : Word} (small : val.toNat < 128) :
    encodeGroups val = [val.setWidth 8] := by
  rw [encodeGroups, if_pos ((lt_128_iff val).mpr small)]

theorem encodeGroups_of_large {val : Word} (large : 128 ≤ val.toNat) :
    encodeGroups val = (val.setWidth 8 ||| 0x80#8) :: encodeGroups (val >>> 7) := by
  rw [encodeGroups, if_neg fun h => Nat.not_le.mpr ((lt_128_iff val).mp h) large]

/-- The last byte of an encoding ends it. -/
theorem last_and_continue {val : Word} (small : val.toNat < 128) :
    val.setWidth 8 &&& 0x80#8 = 0#8 := by
  rw [and_continue_eq_zero_iff, BitVec.toNat_setWidth]
  omega

/-- Every other byte of an encoding continues it. -/
theorem or_continue_and_continue (b : Byte) : (b ||| 0x80#8) &&& 0x80#8 ≠ 0#8 := by
  revert b
  decide +kernel

/-- The continuation bit is no payload. -/
theorem groupBits_or_continue (b : Byte) : groupBits (b ||| 0x80#8) = groupBits b := by
  revert b
  decide +kernel

theorem isGroups_encodeGroups (val : Word) : IsGroups (encodeGroups val) := by
  induction val using encodeGroups.induct with
  | case1 val small =>
      rw [encodeGroups, if_pos small]
      have ends := last_and_continue ((lt_128_iff val).mp small)
      simp [IsGroups, ends]
  | case2 val large ih =>
      rw [encodeGroups, if_neg large]
      simp only [IsGroups, if_neg (or_continue_and_continue _)]
      exact ih

/-- The low payload of a word: its lowest seven bits. -/
theorem toNat_groupBits_setWidth (val : Word) :
    (groupBits (val.setWidth 8)).toNat = val.toNat % 128 := by
  have mask : (0x7F#8).toNat = 2 ^ 7 - 1 := rfl
  rw [groupBits, BitVec.toNat_setWidth, BitVec.toNat_and, mask,
    Nat.and_two_pow_sub_one_eq_mod, BitVec.toNat_setWidth]
  omega

/-- A word is its lowest group together with the rest. -/
theorem groupBits_or_shift (val : Word) :
    groupBits (val.setWidth 8) ||| (val >>> 7) <<< 7 = val := by
  apply BitVec.eq_of_toNat_eq
  have low := toNat_groupBits_setWidth val
  have high : ((val >>> 7) <<< 7).toNat = val.toNat / 128 * 128 := by
    rw [BitVec.toNat_shiftLeft, toNat_shiftRight_seven, Nat.shiftLeft_eq]
    have := val.isLt
    omega
  rw [BitVec.toNat_or, low, high, Nat.or_comm, Nat.mul_comm]
  have := Nat.two_pow_add_eq_or_of_lt (i := 7) (b := val.toNat % 128) (by omega)
    (val.toNat / 128)
  rw [show (128 : Nat) = 2 ^ 7 from rfl] at *
  rw [← this]
  omega

/-- **Round trip.**  The groups of a word spell the word. -/
theorem groupsWord_encodeGroups (val : Word) : groupsWord (encodeGroups val) = val := by
  induction val using encodeGroups.induct with
  | case1 val small =>
      rw [encodeGroups, if_pos small, groupsWord, groupsWord]
      apply BitVec.eq_of_toNat_eq
      have low := toNat_groupBits_setWidth val
      rw [lt_128_iff] at small
      simp only [BitVec.zero_shiftLeft, BitVec.or_zero, low]
      omega
  | case2 val large ih =>
      rw [encodeGroups, if_neg large, groupsWord, ih, groupBits_or_continue]
      exact groupBits_or_shift val

/-- The length of an encoding: one byte for each seven bits. -/
theorem length_encodeGroups_le_iff (k : Nat) (val : Word) :
    (encodeGroups val).length ≤ k + 1 ↔ val.toNat < 128 ^ (k + 1) := by
  induction k generalizing val with
  | zero =>
      rw [encodeGroups]
      split
      · rename_i small
        simpa using (lt_128_iff val).mp small
      · rename_i large
        rw [lt_128_iff] at large
        have := (isGroups_encodeGroups (val >>> 7)).length_pos
        simp only [List.length_cons, zero_add, pow_one]
        omega
  | succ k ih =>
      rw [encodeGroups]
      split
      · rename_i small
        rw [lt_128_iff] at small
        have grows : 128 ^ 1 ≤ 128 ^ (k + 1 + 1) := Nat.pow_le_pow_right (by omega) (by omega)
        simp only [List.length_singleton]
        omega
      · rw [List.length_cons, Nat.succ_le_succ_iff, ih, toNat_shiftRight_seven,
          Nat.div_lt_iff_lt_mul (by omega), ← Nat.pow_succ]

theorem length_encodeGroups_le (val : Word) : (encodeGroups val).length ≤ 10 := by
  rw [length_encodeGroups_le_iff 9]
  have := val.isLt
  omega

/-! ## Where a varint ends -/

/-- Every byte has the continuation bit. -/
def Continues (bs : Bytes) : Prop := ∀ b ∈ bs, b &&& 0x80#8 ≠ 0#8

theorem continues_cons {b : Byte} {bs : Bytes} :
    Continues (b :: bs) ↔ b &&& 0x80#8 ≠ 0#8 ∧ Continues bs := List.forall_mem_cons

theorem isGroups_cons_of_continues {b : Byte} {bs : Bytes} (continues : b &&& 0x80#8 ≠ 0#8) :
    IsGroups (b :: bs) ↔ IsGroups bs := by
  rw [IsGroups, if_neg continues]

/-- A varint is bytes that continue and a last one that does not. -/
theorem isGroups_append_singleton {init : Bytes} {last : Byte} :
    IsGroups (init ++ [last]) ↔ Continues init ∧ last.toNat < 128 := by
  induction init with
  | nil =>
      rw [List.nil_append, IsGroups, ← and_continue_eq_zero_iff]
      split
      · rename_i ends
        simp [Continues, ends]
      · rename_i goesOn
        simp [IsGroups, goesOn]
  | cons b init ih =>
      by_cases continues : b &&& 0x80#8 = 0#8
      · refine iff_of_false (fun groups => ?_) fun h => h.1 b List.mem_cons_self continues
        rw [List.cons_append, IsGroups, if_pos continues] at groups
        simp at groups
      · rw [List.cons_append, isGroups_cons_of_continues continues, ih, continues_cons, and_assoc]
        simp [continues]

/-- Bytes either all continue, or start with a varint. -/
theorem continues_or_isGroups (s : Bytes) :
    Continues s ∨ ∃ init last rest, s = init ++ last :: rest ∧ Continues init ∧
      last.toNat < 128 := by
  induction s with
  | nil => exact .inl (by simp [Continues])
  | cons b s ih =>
      by_cases ends : b &&& 0x80#8 = 0#8
      · exact .inr ⟨[], b, s, rfl, by simp [Continues], (and_continue_eq_zero_iff b).mp ends⟩
      · rcases ih with continues | ⟨init, last, rest, rfl, continues, ends'⟩
        · exact .inl (continues_cons.mpr ⟨ends, continues⟩)
        · exact .inr ⟨b :: init, last, rest, rfl, continues_cons.mpr ⟨ends, continues⟩, ends'⟩

theorem Continues.take {s : Bytes} (h : Continues s) (n : Nat) : Continues (s.take n) :=
  fun b member => h b (List.mem_of_mem_take member)

/-- All bytes of a varint but its last one continue. -/
theorem IsGroups.continues_take {bs : Bytes} (h : IsGroups bs) {n : Nat}
    (short : n < bs.length) : Continues (bs.take n) := by
  obtain ⟨init, last, rfl⟩ := (List.eq_nil_or_concat' bs).resolve_left h.ne_nil
  rw [List.length_append, List.length_singleton] at short
  rw [List.take_append_of_le_length (by omega)]
  exact (isGroups_append_singleton.mp h).1.take n

/-! ## The number spelled -/

/-- The number spelled by the payload bits, none of them lost. -/
def groupsNat : Bytes → Nat
  | [] => 0
  | b :: bs => b.toNat % 128 + 128 * groupsNat bs

theorem groupsNat_lt (bs : Bytes) : groupsNat bs < 128 ^ bs.length := by
  induction bs with
  | nil => simp [groupsNat]
  | cons b bs ih =>
      rw [groupsNat, List.length_cons, Nat.pow_succ]
      omega

theorem groupsNat_append_singleton (bs : Bytes) (b : Byte) :
    groupsNat (bs ++ [b]) = groupsNat bs + 128 ^ bs.length * (b.toNat % 128) := by
  induction bs with
  | nil => simp [groupsNat]
  | cons c bs ih =>
      rw [List.cons_append, groupsNat, ih, groupsNat, List.length_cons, Nat.pow_succ]
      ring

theorem toNat_groupBits (b : Byte) : (groupBits b).toNat = b.toNat % 128 := by
  revert b
  decide +kernel

/-- The word is the number modulo 2^64. -/
theorem toNat_groupsWord (bs : Bytes) : (groupsWord bs).toNat = groupsNat bs % 2 ^ 64 := by
  induction bs with
  | nil => rfl
  | cons b bs ih =>
      have low := toNat_groupBits b
      have high : (groupsWord bs <<< 7).toNat = 2 ^ 7 * (groupsNat bs % 2 ^ 57) := by
        rw [BitVec.toNat_shiftLeft, ih, Nat.shiftLeft_eq]
        omega
      have joined := Nat.two_pow_add_eq_or_of_lt (i := 7) (b := b.toNat % 128) (by omega)
        (groupsNat bs % 2 ^ 57)
      rw [groupsWord, BitVec.toNat_or, low, high, Nat.or_comm, ← joined, groupsNat]
      omega

theorem IsGroups.cons {b : Byte} {bs : Bytes} (h : IsGroups (b :: bs)) :
    (b.toNat < 128 ∧ bs = []) ∨ (128 ≤ b.toNat ∧ IsGroups bs) := by
  rw [IsGroups] at h
  split at h
  · rename_i last
    exact .inl ⟨(and_continue_eq_zero_iff b).mp last, h⟩
  · rename_i continues
    rw [and_continue_eq_zero_iff] at continues
    exact .inr ⟨by omega, h⟩

/-- Without payload bits the last byte is zero. -/
theorem IsGroups.getLast_of_groupsNat {bs : Bytes} (groups : IsGroups bs)
    (zero : groupsNat bs = 0) : bs.getLast? = some 0#8 := by
  induction bs with
  | nil => exact groups.elim
  | cons b bs ih =>
      rw [groupsNat] at zero
      rcases groups.cons with ⟨last, rfl⟩ | ⟨-, rest⟩
      · have : b = 0#8 := by
          apply BitVec.eq_of_toNat_eq
          rw [BitVec.toNat_ofNat]
          omega
        rw [this, List.getLast?_singleton]
      · rw [List.getLast?_cons_of_ne_nil rest.ne_nil]
        exact ih rest (by omega)

theorem toNat_or_continue (b : Byte) : (b ||| 0x80#8).toNat = 128 + b.toNat % 128 := by
  revert b
  decide +kernel

/-- A byte that continues is known by its payload. -/
theorem or_continue_eq_iff {val : Word} {b : Byte} (continues : 128 ≤ b.toNat) :
    val.setWidth 8 ||| 0x80#8 = b ↔ val.toNat % 128 = b.toNat % 128 := by
  have bound := b.isLt
  rw [← BitVec.toNat_inj, toNat_or_continue, BitVec.toNat_setWidth]
  omega

/-- **Shortest groups.**  A varint is the encoding of a word exactly if it spells it, and
has no zero to leave out at its end. -/
theorem encodeGroups_eq_iff {bs : Bytes} (groups : IsGroups bs) (val : Word) :
    encodeGroups val = bs ↔
      groupsNat bs = val.toNat ∧ (bs.length = 1 ∨ bs.getLast? ≠ some 0#8) := by
  induction bs generalizing val with
  | nil => exact groups.elim
  | cons b bs ih =>
      rcases groups.cons with ⟨last, rfl⟩ | ⟨continues, rest⟩
      · by_cases small : val.toNat < 128
        · rw [encodeGroups_of_small small, List.cons.injEq, ← BitVec.toNat_inj,
            BitVec.toNat_setWidth]
          simp only [groupsNat, List.length_singleton, true_or, and_true]
          omega
        · have longer := (isGroups_encodeGroups (val >>> 7)).ne_nil
          refine iff_of_false (fun same => ?_) (fun spells => ?_)
          · rw [encodeGroups_of_large (Nat.le_of_not_lt small)] at same
            exact longer (List.cons.inj same).2
          · have number := spells.1
            rw [groupsNat, groupsNat] at number
            omega
      · have several : (b :: bs).length ≠ 1 := by simpa using rest.ne_nil
        rw [List.getLast?_cons_of_ne_nil rest.ne_nil, groupsNat]
        by_cases small : val.toNat < 128
        · constructor
          · intro same
            rw [encodeGroups_of_small small] at same
            exact (rest.ne_nil (List.cons.inj same).2.symm).elim
          · intro spells
            rcases spells with ⟨number, single | nonzero⟩
            · exact (several single).elim
            · exact (nonzero (rest.getLast_of_groupsNat (by omega))).elim
        · rw [encodeGroups_of_large (Nat.le_of_not_lt small), List.cons.injEq,
            or_continue_eq_iff continues, ih rest, toNat_shiftRight_seven]
          have single : bs.length = 1 → groupsNat bs ≠ 0 → bs.getLast? ≠ some 0#8 := by
            intro one nonzero zero
            obtain ⟨c, rfl⟩ := List.length_eq_one_iff.mp one
            rw [List.getLast?_singleton, Option.some.injEq] at zero
            exact nonzero (by rw [zero]; rfl)
          constructor
          · intro spells
            rcases spells with ⟨low, high, shortest⟩
            exact ⟨by omega, .inr (shortest.elim (fun one => single one (by omega)) id)⟩
          · intro spells
            rcases spells with ⟨number, shortest⟩
            exact ⟨by omega, by omega, .inr (shortest.resolve_left several)⟩

/-- An encoding is no longer than any bytes that spell its word. -/
theorem length_encodeGroups_groupsWord_le {bs : Bytes} (nonempty : bs ≠ []) :
    (encodeGroups (groupsWord bs)).length ≤ bs.length := by
  obtain ⟨k, hk⟩ := Nat.exists_eq_succ_of_ne_zero (List.length_pos_of_ne_nil nonempty).ne'
  rw [hk, Nat.succ_eq_add_one, length_encodeGroups_le_iff, toNat_groupsWord, ← Nat.succ_eq_add_one,
    ← hk]
  exact (Nat.mod_le _ _).trans_lt (groupsNat_lt bs)

/-! ## Zig-zag words -/

/-- The zig-zag word of a signed word. -/
def zigzag (n : Word) : Word := n <<< 1 ^^^ n.sshiftRight 63

/-- The signed word of a zig-zag word. -/
def unzigzag (z : Word) : Word := z >>> 1 ^^^ -(z &&& 1#64)

/-- The arithmetic shift by 63 spreads the sign. -/
theorem sshiftRight_63 (n : Word) :
    n.sshiftRight 63 = if n.toInt < 0 then BitVec.allOnes 64 else 0#64 := by
  apply BitVec.eq_of_toInt_eq
  have lower := BitVec.le_toInt n
  have upper := BitVec.toInt_lt (x := n)
  rw [BitVec.toInt_sshiftRight, Int.shiftRight_eq_div_pow]
  split
  · rw [BitVec.toInt_allOnes]
    omega
  · rw [BitVec.toInt_zero]
    omega

theorem zigzag_of_nonneg {n : Word} (h : 0 ≤ n.toInt) : zigzag n = n <<< 1 := by
  rw [zigzag, sshiftRight_63, if_neg (by omega), BitVec.xor_zero]

theorem zigzag_of_neg {n : Word} (h : n.toInt < 0) : zigzag n = ~~~(n <<< 1) := by
  rw [zigzag, sshiftRight_63, if_pos h, BitVec.xor_allOnes]

theorem toNat_shiftLeft_one (n : Word) : (n <<< 1).toNat = 2 * n.toNat % 2 ^ 64 := by
  rw [BitVec.toNat_shiftLeft, Nat.shiftLeft_eq, Nat.mul_comm]

/-- The zig-zag word is twice the magnitude, less one for a negative number. -/
theorem toNat_zigzag (n : Word) :
    ((zigzag n).toNat : Int) = if n.toInt < 0 then -2 * n.toInt - 1 else 2 * n.toInt := by
  have bound := n.isLt
  have signed := BitVec.toInt_eq_toNat_cond n
  split
  · rename_i h
    rw [zigzag_of_neg h, BitVec.toNat_not, toNat_shiftLeft_one]
    split at signed <;> omega
  · rename_i h
    rw [zigzag_of_nonneg (by omega), toNat_shiftLeft_one]
    split at signed <;> omega

theorem toNat_and_one (z : Word) : (z &&& 1#64).toNat = z.toNat % 2 := by
  have mask : (1#64).toNat = 2 ^ 1 - 1 := rfl
  rw [BitVec.toNat_and, mask, Nat.and_two_pow_sub_one_eq_mod]

theorem toNat_shiftRight_one (z : Word) : (z >>> 1).toNat = z.toNat / 2 := by
  rw [BitVec.toNat_ushiftRight, Nat.shiftRight_eq_div_pow]

theorem unzigzag_of_even {z : Word} (h : z.toNat % 2 = 0) : unzigzag z = z >>> 1 := by
  have low : z &&& 1#64 = 0#64 := by
    apply BitVec.eq_of_toNat_eq
    rw [toNat_and_one, h, BitVec.toNat_ofNat]
  rw [unzigzag, low, BitVec.neg_zero, BitVec.xor_zero]

theorem unzigzag_of_odd {z : Word} (h : z.toNat % 2 = 1) : unzigzag z = ~~~(z >>> 1) := by
  have low : z &&& 1#64 = 1#64 := by
    apply BitVec.eq_of_toNat_eq
    rw [toNat_and_one, h, BitVec.toNat_ofNat]
  rw [unzigzag, low, BitVec.neg_one_eq_allOnes, BitVec.xor_allOnes]

/-- The signed word of an even zig-zag word is its half, of an odd one the
complement of its half. -/
theorem toInt_unzigzag (z : Word) :
    (unzigzag z).toInt = if z.toNat % 2 = 0 then (z.toNat / 2 : Int) else -(z.toNat / 2) - 1 := by
  have bound := z.isLt
  split
  · rename_i h
    have signed := BitVec.toInt_eq_toNat_cond (z >>> 1)
    rw [toNat_shiftRight_one] at signed
    rw [unzigzag_of_even h, signed]
    split <;> omega
  · rename_i h
    have signed := BitVec.toInt_eq_toNat_cond (~~~(z >>> 1))
    rw [BitVec.toNat_not, toNat_shiftRight_one] at signed
    rw [unzigzag_of_odd (by omega), signed]
    split <;> omega

/-- **Round trip.**  Every signed word is restored. -/
theorem unzigzag_zigzag (n : Word) : unzigzag (zigzag n) = n := by
  apply BitVec.eq_of_toInt_eq
  have word := toNat_zigzag n
  rw [toInt_unzigzag]
  split at word <;> split <;> omega

/-- Every zig-zag word is restored. -/
theorem zigzag_unzigzag (z : Word) : zigzag (unzigzag z) = z := by
  apply BitVec.eq_of_toNat_eq
  have word := toNat_zigzag (unzigzag z)
  have signed := toInt_unzigzag z
  split at signed <;> split at word <;> omega

end KafkaTest
