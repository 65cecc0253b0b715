import KafkaTest.Bignum
import KafkaTest.Decode

/-!
# The workers with unbounded integers

The Python and the Ruby worker read, sum and write without a word size.  Their loops are
those of the counted stream, over `Int`: an index past the end of the payload raises.

What they read from the encoding of a 64-bit number is the number
(`Python.readVarint_canonical`), and what they write of any sum is the groups of
`zigzagAt 63` (`Python.writeVarint_eq`, `Ruby.encodeVarint_eq`).
-/

namespace KafkaTest

namespace Python

/-- The groups of `read_varint`, on the bytes from `pos` on. -/
def readGroups : Bytes → Nat → Nat → Outcome (Nat × Bytes)
  | [], _, _ => .panic
  | b :: data, val, shift =>
    let val := val ||| (b.toNat &&& 0x7F) <<< shift
    if b.toNat &&& 0x80 = 0 then .ok (val, data) else readGroups data val (shift + 7)

/-- `read_varint`. -/
def readVarint (data : Bytes) : Outcome (Int × Bytes) := do
  let (val, data) ← readGroups data 0 0
  return (Int.xor (val >>> 1 : Nat) (-(val &&& 1 : Nat)), data)

/-- The loop of `write_varint`, and its last `append`. -/
def writeGroups (buf : Bytes) (val : Int) : Outcome Bytes :=
  if 0x80 ≤ val then
    writeGroups (buf ++ [BitVec.ofInt 8 (Int.lor (Int.land val 0x7F) 0x80)]) (val >>> (7 : Nat))
  else if 0 ≤ val then .ok (buf ++ [BitVec.ofInt 8 val])
  else .panic
termination_by val.toNat
decreasing_by
  rw [Int.shiftRight_eq_div_pow]
  omega

/-- `write_varint`. -/
def writeVarint (n : Int) : Outcome Bytes :=
  writeGroups [] (Int.xor (n <<< (1 : Nat)) (n >>> (63 : Nat)))

/-- `total_sum += val`. -/
def exactAdd (a b : Int) : Outcome Int := .ok (a + b)

/-- The body of `while count != 0`: skip the byte size of a negative count, then sum
`abs(count)` elements. -/
def body (count sum : Int) (payload : Bytes) : Outcome (Int × Bytes) := do
  let payload ← skipIf readVarint (count < 0) payload
  sumTimes readVarint exactAdd count.natAbs sum payload

/-- The decode-sum loop of `worker`. -/
def decodeSum (payload : Bytes) : Outcome (Int × Bytes) := do
  let (count, rest) ← readVarint payload
  sumBlocks readVarint 0 body (payload.length + 1) count 0 rest

theorem readGroups_ne_outOfFuel (data : Bytes) (val shift : Nat) :
    readGroups data val shift ≠ .outOfFuel := by
  induction data generalizing val shift with
  | nil => simp [readGroups]
  | cons b data ih =>
      simp only [readGroups]
      split
      · simp
      · exact ih _ _

theorem readGroups_length_lt {data rest : Bytes} {val shift v : Nat}
    (h : readGroups data val shift = .ok (v, rest)) : rest.length < data.length := by
  induction data generalizing val shift with
  | nil => cases h
  | cons b data ih =>
      simp only [readGroups] at h
      rw [List.length_cons]
      split at h
      · cases h
        omega
      · have := ih h
        omega

theorem readVarint_ne_outOfFuel (data : Bytes) : readVarint data ≠ .outOfFuel :=
  Outcome.bind_ne_outOfFuel (readGroups_ne_outOfFuel data 0 0) fun _ _ => by simp

theorem readVarint_length_lt (data : Bytes) (v : Int) (rest : Bytes)
    (h : readVarint data = .ok (v, rest)) : rest.length < data.length := by
  obtain ⟨⟨val, rest'⟩, hread, h⟩ := Outcome.bind_eq_ok.mp h
  cases h
  exact readGroups_length_lt hread

/-- The loop always comes to an end: it returns, or it raises at the end of the
payload. -/
theorem decodeSum_ne_outOfFuel (payload : Bytes) : decodeSum payload ≠ .outOfFuel := by
  refine Outcome.bind_ne_outOfFuel (readVarint_ne_outOfFuel payload) ?_
  intro r hread
  rcases r with ⟨count, rest⟩
  have := readVarint_length_lt _ _ _ hread
  exact sumBlocks_skipIf_ne_outOfFuel List.length readVarint_ne_outOfFuel readVarint_length_lt
    (fun _ _ => by simp [exactAdd]) (by omega)

/-! ## What is read -/

theorem toNat_and_payload (b : Byte) : b.toNat &&& 0x7F = b.toNat % 128 :=
  Nat.and_two_pow_sub_one_eq_mod b.toNat 7

theorem toNat_and_continue (b : Byte) : b.toNat &&& 0x80 = 0 ↔ b.toNat < 128 := by
  revert b
  decide +kernel

/-- The payload bits are joined without loss. -/
theorem readGroups_of_isGroups {bs : Bytes} (groups : IsGroups bs) (rest : Bytes)
    (val shift : Nat) :
    readGroups (bs ++ rest) val shift = .ok (val ||| groupsNat bs <<< shift, rest) := by
  induction bs generalizing val shift with
  | nil => exact groups.elim
  | cons b bs ih =>
      rw [List.cons_append, readGroups, toNat_and_payload, groupsNat_cons,
        Nat.shiftLeft_or_distrib, ← Nat.shiftLeft_add, Nat.add_comm 7, ← Nat.or_assoc]
      rcases groups.cons with ⟨last, rfl⟩ | ⟨continues, groups⟩
      · rw [if_pos ((toNat_and_continue b).mpr last), groupsNat, Nat.zero_shiftLeft, Nat.or_zero,
          List.nil_append]
      · rw [if_neg ((toNat_and_continue b).not.mpr (by omega))]
        exact ih groups _ _

/-- **Exact reading.**  The encoding of a 64-bit number is read as that number. -/
theorem readVarint_canonical (n : Word) (rest : Bytes) :
    readVarint (canonical n ++ rest) = .ok (n.toInt, rest) := by
  have bits : readGroups (canonical n ++ rest) 0 0 = .ok (zigzagNat n.toInt, rest) := by
    rw [canonical, ← encodeNat_toNat, zigzagNat_toInt]
    have groups : IsGroups (encodeNat (zigzag n).toNat) := by
      rw [encodeNat_toNat]
      exact isGroups_encodeGroups _
    rw [readGroups_of_isGroups groups, groupsNat_encodeNat, Nat.shiftLeft_zero, Nat.zero_or]
  have value := unzigzagNat_zigzagNat n.toInt
  unfold unzigzagNat at value
  rw [readVarint, bits, Outcome.ok_bind]
  simp only [value, Outcome.pure_eq_ok]

/-! ## What is written -/

/-- One byte that continues. -/
theorem ofInt_continue (v : Nat) :
    BitVec.ofInt 8 (Int.lor (Int.land v 0x7F) 0x80) = BitVec.ofNat 8 v ||| 0x80#8 := by
  have number : Int.lor (Int.land v 0x7F) 0x80 = ((v &&& 0x7F ||| 0x80 : Nat) : Int) := rfl
  have mask : v &&& 0x7F = v % 128 := Nat.and_two_pow_sub_one_eq_mod v 7
  have joined := Nat.two_pow_add_eq_or_of_lt (i := 7) (b := v % 128) (by omega) 1
  apply BitVec.eq_of_toNat_eq
  rw [number, BitVec.ofInt_natCast, mask, Nat.or_comm, toNat_or_continue, BitVec.toNat_ofNat,
    BitVec.toNat_ofNat, ← joined]
  omega

theorem natCast_shiftRight_seven (v : Nat) : (v : Int) >>> (7 : Nat) = (v / 128 : Nat) := by
  rw [← Int.natCast_shiftRight, Nat.shiftRight_eq_div_pow]

/-- A number that is not negative is written as its groups. -/
theorem writeGroups_eq (buf : Bytes) (v : Nat) : writeGroups buf v = .ok (buf ++ encodeNat v) := by
  induction v using encodeNat.induct generalizing buf with
  | case1 v small =>
      rw [writeGroups, if_neg (by omega), if_pos (by omega), encodeNat_of_small small,
        BitVec.ofInt_natCast]
  | case2 v large ih =>
      rw [writeGroups, if_pos (by omega), natCast_shiftRight_seven, ih,
        encodeNat_of_large (Nat.le_of_not_lt large), ofInt_continue, List.append_assoc,
        List.singleton_append]

/-- Whatever the sum, its zig-zag form is not negative, so nothing raises. -/
theorem writeVarint_eq (n : Int) : writeVarint n = .ok (encodeNat (zigzagAt 63 n).toNat) := by
  have formula : Int.xor (n <<< (1 : Nat)) (n >>> (63 : Nat)) = zigzagAt 63 n := rfl
  rw [writeVarint, formula, zigzagAt_eq, writeGroups_eq, List.nil_append, Int.toNat_natCast]

end Python

/-! ## Ruby -/

namespace Ruby

/-- The inline varint decode, on the bytes from `pos` on; at the end of the payload
`getbyte` gives `nil`, and the shift of its payload bits raises.  The groups are collected
as in `read_varint` of Python. -/
def decodeVarint (payload : Bytes) : Outcome (Int × Bytes) := do
  let (v, payload) ← Python.readGroups payload 0 0
  return (Int.xor (v >>> 1 : Nat) (-(v &&& 1 : Nat)), payload)

/-- The body of `while count != 0`: `if count < 0` the byte size is passed over, then
`abs_count.times` an element is added. -/
def body (count sum : Int) (payload : Bytes) : Outcome (Int × Bytes) := do
  let payload ← skipIf decodeVarint (count < 0) payload
  sumTimes decodeVarint Python.exactAdd count.natAbs sum payload

/-- The decode-sum loop of a worker process. -/
def decodeSum (payload : Bytes) : Outcome (Int × Bytes) := do
  let (count, rest) ← decodeVarint payload
  sumBlocks decodeVarint 0 body (payload.length + 1) count 0 rest

/-- `while v_enc >= 0x80`, and `res_bytes << v_enc`; `pack('C*')` takes the low byte of each
number. -/
def resBytes (bytes : Bytes) (vEnc : Int) : Bytes :=
  if 0x80 ≤ vEnc then
    resBytes (bytes ++ [BitVec.ofInt 8 (Int.lor (Int.land vEnc 0x7F) 0x80)])
      (vEnc >>> (7 : Nat))
  else bytes ++ [BitVec.ofInt 8 vEnc]
termination_by vEnc.toNat
decreasing_by
  rw [Int.shiftRight_eq_div_pow]
  omega

/-- The inline varint encode. -/
def encodeVarint (sum : Int) : Bytes :=
  let vEnc := Int.xor (sum <<< (1 : Nat)) (sum >>> (63 : Nat))
  if vEnc < 0x80 then [BitVec.ofInt 8 vEnc] else resBytes [] vEnc

theorem decodeSum_eq (payload : Bytes) : decodeSum payload = Python.decodeSum payload := rfl

theorem resBytes_eq (bytes : Bytes) (v : Nat) :
    resBytes bytes v = bytes ++ encodeNat v := by
  induction v using encodeNat.induct generalizing bytes with
  | case1 v small =>
      rw [resBytes, if_neg (by omega), encodeNat_of_small small, BitVec.ofInt_natCast]
  | case2 v large ih =>
      rw [resBytes, if_pos (by omega), Python.natCast_shiftRight_seven, ih,
        encodeNat_of_large (Nat.le_of_not_lt large), Python.ofInt_continue, List.append_assoc,
        List.singleton_append]

/-- The single byte is what the loop gives too. -/
theorem encodeVarint_eq (sum : Int) : encodeVarint sum = encodeNat (zigzagAt 63 sum).toNat := by
  have formula : Int.xor (sum <<< (1 : Nat)) (sum >>> (63 : Nat)) = zigzagAt 63 sum := rfl
  unfold encodeVarint
  rw [formula, zigzagAt_eq, Int.toNat_natCast]
  dsimp only
  split
  · rw [encodeNat_of_small (by omega), BitVec.ofInt_natCast]
  · rw [resBytes_eq, List.nil_append]

end Ruby

end KafkaTest
