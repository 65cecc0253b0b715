import KafkaTest.Decode

/-!
# Interoperability of the pipeline

A loader, a processor and a result reader may each come from a different
implementation.  `Impl` names the four of them; `Impl.load`, `Impl.process` and
`Impl.readVarint` are their parts, over either addition, so that a sum that would
wrap shows as a panic under checked addition.

The encoders agree only on the inner half of the signed range and the index loops
only below 2^31 turns.  What keeps a payload inside both is its length:
`length_le_load` bounds the number of elements by the number of bytes, and
`sum_bounds` the sum by the number of elements.
-/

namespace KafkaTest

/-- The implementations whose loaders, processors and readers can be mixed. -/
inductive Impl
  | krafka
  | rdkafka
  | go
  | javaBenchmark

namespace Impl

/-- Its `write_varint`. -/
def writeVarint : Impl → Bytes → Word → Bytes
  | krafka => Krafka.writeVarint
  | rdkafka => Rdkafka.writeVarint
  | go => Go.writeVarint
  | javaBenchmark => JavaBenchmark.writeVarint

/-- Its `read_varint`. -/
def readVarint : Impl → Bytes → Outcome (Word × Bytes)
  | krafka => Krafka.readVarint
  | rdkafka => Rdkafka.readVarint
  | go => Go.readVarint
  | javaBenchmark => JavaBenchmark.readVarint

/-- Its decode-sum loop; only the loop with an `int` index needs fuel. -/
def decodeSum (add : Word → Word → Outcome Word) (fuel : Nat) :
    Impl → Bytes → Outcome (Word × Bytes)
  | krafka => Krafka.decodeSum add
  | rdkafka => Rdkafka.decodeSum add
  | go => Go.decodeSum add
  | javaBenchmark => JavaBenchmark.decodeSum add fuel

/-- Phase 1: the count, the elements and a zero, each through `write_varint`. -/
def load (P : Impl) (xs : List (BitVec 32)) : Bytes :=
  let buf := P.writeVarint [] (BitVec.ofNat 64 xs.length)
  let buf := xs.foldl (fun buf x => P.writeVarint buf (x.signExtend 64)) buf
  P.writeVarint buf 0#64

/-- Phase 2: decode and sum the payload, encode the sum. -/
def process (Q : Impl) (add : Word → Word → Outcome Word) (fuel : Nat) (payload : Bytes) :
    Outcome Bytes := do
  let (sum, _) ← Q.decodeSum add fuel payload
  return Q.writeVarint [] sum

theorem writeVarint_eq (P : Impl) (buf : Bytes) {n : Word} (inner : InnerHalf n) :
    P.writeVarint buf n = buf ++ canonical n := by
  cases P with
  | krafka => exact Krafka.writeVarint_eq buf n
  | rdkafka => exact Rdkafka.writeVarint_eq buf inner
  | go => exact Go.writeVarint_eq buf n
  | javaBenchmark => exact JavaBenchmark.writeVarint_eq buf inner

theorem readVarint_canonical (R : Impl) (n : Word) (rest : Bytes) :
    R.readVarint (canonical n ++ rest) = .ok (n, rest) := by
  cases R with
  | krafka => exact readGroups_canonical krafkaRead n rest
  | rdkafka => exact readGroups_canonical rdkafkaRead n rest
  | go => exact readGroups_canonical goRead n rest
  | javaBenchmark => exact readGroups_canonical javaBenchmarkRead n rest

/-- Without negative counts all four decode loops add up the elements. -/
theorem decodeSum_encoding (Q : Impl) (add : Word → Word → Outcome Word) {e : Encoding}
    {fuel : Nat} (positive : ∀ b ∈ e.blocks, b.byteSize = none)
    (small : e.bytes.length < 2 ^ 31) (enough : e.bytes.length < fuel) (rest : Bytes) :
    Q.decodeSum add fuel (e.bytes ++ rest) =
      addAll add 0#64 e.elements >>= fun sum => .ok (sum, rest) := by
  cases Q with
  | krafka => exact Krafka.decodeSum_encoding add e rest positive
  | rdkafka => exact Rdkafka.decodeSum_encoding add e rest
  | go => exact Go.decodeSum_encoding add e rest
  | javaBenchmark => exact JavaBenchmark.decodeSum_encoding add rest small enough

end Impl

/-! ## Bounds -/

theorem length_lt_writeGroups (d : WriteDialect) (buf : Bytes) (val : Word) :
    buf.length < (writeGroups d buf val).length := by
  induction buf, val using writeGroups.induct d with
  | case1 buf val more ih =>
      rw [writeGroups, if_pos more]
      rw [List.length_append, List.length_singleton] at ih
      omega
  | case2 buf val done =>
      rw [writeGroups, if_neg done, List.length_append, List.length_singleton]
      omega

theorem Impl.length_lt_writeVarint (P : Impl) (buf : Bytes) (n : Word) :
    buf.length < (P.writeVarint buf n).length := by
  cases P <;> exact length_lt_writeGroups _ buf _

/-- Every element takes a byte at least. -/
theorem Impl.length_le_load (P : Impl) (xs : List (BitVec 32)) :
    xs.length < (P.load xs).length := by
  have elements : ∀ buf, buf.length + xs.length ≤
      (xs.foldl (fun buf x => P.writeVarint buf (x.signExtend 64)) buf).length := by
    induction xs with
    | nil => simp
    | cons x xs ih =>
        intro buf
        have head := P.length_lt_writeVarint buf (x.signExtend 64)
        have tail := ih (P.writeVarint buf (x.signExtend 64))
        rw [List.foldl_cons, List.length_cons]
        omega
  have count := elements (P.writeVarint [] (BitVec.ofNat 64 xs.length))
  have zero := P.length_lt_writeVarint (xs.foldl (fun buf x =>
    P.writeVarint buf (x.signExtend 64)) (P.writeVarint [] (BitVec.ofNat 64 xs.length))) 0#64
  rw [Impl.load]
  omega

/-- A sum of 32-bit integers is at most 2^31 for each of them. -/
theorem sum_bounds (xs : List (BitVec 32)) :
    -(2 ^ 31 * xs.length : Int) ≤ (xs.map BitVec.toInt).sum ∧
      (xs.map BitVec.toInt).sum ≤ 2 ^ 31 * xs.length := by
  induction xs with
  | nil => simp
  | cons x xs ih =>
      have lower := BitVec.le_toInt x
      have upper := BitVec.toInt_lt (x := x)
      rw [List.map_cons, List.sum_cons, List.length_cons]
      push_cast
      omega

theorem toInt_signExtend_64 (x : BitVec 32) : (x.signExtend 64).toInt = x.toInt :=
  BitVec.toInt_signExtend_of_le (by omega)

theorem map_toInt_signExtend (xs : List (BitVec 32)) :
    (xs.map (BitVec.signExtend 64)).map BitVec.toInt = xs.map BitVec.toInt := by
  rw [List.map_map]
  exact List.map_congr_left fun x _ => toInt_signExtend_64 x

theorem innerHalf_signExtend (x : BitVec 32) : InnerHalf (x.signExtend 64) := by
  have lower := BitVec.le_toInt x
  have upper := BitVec.toInt_lt (x := x)
  rw [InnerHalf, toInt_signExtend_64]
  omega

theorem innerHalf_ofNat {n : Nat} (small : n < 2 ^ 31) : InnerHalf (BitVec.ofNat 64 n) := by
  have value : (BitVec.ofNat 64 n).toInt = n := by
    rw [BitVec.toInt_eq_toNat_of_lt (by rw [BitVec.toNat_ofNat]; omega), BitVec.toNat_ofNat,
      Nat.mod_eq_of_lt (by omega)]
  rw [InnerHalf, value]
  omega

/-- Whole or in part, the sum of fewer than 2^31 elements stays in the inner half. -/
theorem sum_take_bounds {xs : List (BitVec 32)} (few : xs.length < 2 ^ 31) (k : Nat) :
    -2 ^ 62 ≤ ((xs.take k).map BitVec.toInt).sum ∧
      ((xs.take k).map BitVec.toInt).sum < 2 ^ 62 := by
  have bounds := sum_bounds (xs.take k)
  have length : (xs.take k).length ≤ xs.length := by
    rw [List.length_take]
    omega
  omega

/-- Either addition sums few enough 32-bit integers exactly. -/
theorem addAll_signExtend {xs : List (BitVec 32)} (few : xs.length < 2 ^ 31)
    {add : Word → Word → Outcome Word} (either : add = wrappingAdd ∨ add = checkedAdd) :
    ∃ sum, addAll add 0#64 (xs.map (BitVec.signExtend 64)) = .ok sum ∧
      sum.toInt = (xs.map BitVec.toInt).sum := by
  have fits : ∀ k ≤ (xs.map (BitVec.signExtend 64)).length,
      -2 ^ 63 ≤ (0#64).toInt + (((xs.map (BitVec.signExtend 64)).take k).map BitVec.toInt).sum ∧
        (0#64).toInt + (((xs.map (BitVec.signExtend 64)).take k).map BitVec.toInt).sum
          < 2 ^ 63 := by
    intro k _
    have bounds := sum_take_bounds few k
    rw [← List.map_take, map_toInt_signExtend, BitVec.toInt_zero]
    omega
  have exact : (0#64 + (xs.map (BitVec.signExtend 64)).sum).toInt = (xs.map BitVec.toInt).sum := by
    have bounds := sum_take_bounds few xs.length
    rw [List.take_length] at bounds
    rw [BitVec.zero_add, toInt_sum, map_toInt_signExtend,
      Int.bmod_eq_of_le (by omega) (by omega)]
  rcases either with rfl | rfl
  · exact ⟨_, addAll_wrappingAdd _ _, exact⟩
  · exact ⟨_, addAll_checkedAdd fits, exact⟩

/-! ## A loaded record is an encoding -/

/-- The single block of a nonempty list. -/
def listBlock (xs : List (BitVec 32)) (nonempty : xs ≠ []) (few : xs.length < 2 ^ 31) :
    Block where
  count := .ofWord (BitVec.ofNat 64 xs.length)
  byteSize := none
  elements := xs.map fun x => .ofWord (x.signExtend 64)
  nonempty := by simpa using nonempty
  fits := by
    rw [List.length_map]
    omega
  count_eq := by
    rw [Varint.value_ofWord, Option.isSome_none, if_neg Bool.false_ne_true, List.length_map,
      BitVec.toInt_eq_toNat_of_lt (by rw [BitVec.toNat_ofNat]; omega), BitVec.toNat_ofNat,
      Nat.mod_eq_of_lt (by omega)]

/-- What a loader writes: its count, its elements and a zero, canonically. -/
theorem Impl.load_eq (P : Impl) {xs : List (BitVec 32)} (few : xs.length < 2 ^ 31) :
    P.load xs = canonical (BitVec.ofNat 64 xs.length) ++
      xs.flatMap (fun x => canonical (x.signExtend 64)) ++ canonical 0#64 := by
  have elements : ∀ buf, xs.foldl (fun buf x => P.writeVarint buf (x.signExtend 64)) buf =
      buf ++ xs.flatMap fun x => canonical (x.signExtend 64) := by
    apply foldl_of_appends
    intro buf x
    exact P.writeVarint_eq buf (innerHalf_signExtend x)
  have zero : InnerHalf 0#64 := innerHalf_ofNat (by omega : 0 < 2 ^ 31)
  rw [Impl.load, P.writeVarint_eq _ zero, elements, P.writeVarint_eq _ (innerHalf_ofNat few),
    List.nil_append]

/-- A loaded record is an encoding of the list without negative counts, followed by
a spare zero if the list is empty. -/
theorem Impl.exists_encoding (P : Impl) {xs : List (BitVec 32)} (few : xs.length < 2 ^ 31) :
    ∃ (e : Encoding) (rest : Bytes), P.load xs = e.bytes ++ rest ∧
      e.elements = xs.map (BitVec.signExtend 64) ∧ ∀ b ∈ e.blocks, b.byteSize = none := by
  rw [P.load_eq few]
  by_cases nonempty : xs = []
  · subst nonempty
    refine ⟨⟨[], .ofWord 0#64, Varint.value_ofWord _⟩, canonical 0#64, ?_, rfl, by simp⟩
    simp [Encoding.bytes, Varint.ofWord]
  · refine ⟨⟨[listBlock xs nonempty few], .ofWord 0#64, Varint.value_ofWord _⟩, [], ?_, ?_, ?_⟩
    · simp [Encoding.bytes, Block.bytes, listBlock, Varint.ofWord, List.flatMap_map]
    · simp [Encoding.elements, Block.values, listBlock]
    · simp [listBlock]

/-- **Interoperability.**  Any loader, any processor and any reader compose to the
exact sum: nothing panics, no partial sum wraps (checked addition gives the same
result) and the reader consumes the whole output. -/
theorem load_process_read (P Q R : Impl) (xs : List (BitVec 32))
    (small : (P.load xs).length < 2 ^ 31) {add : Word → Word → Outcome Word}
    (either : add = wrappingAdd ∨ add = checkedAdd) {fuel : Nat}
    (enough : (P.load xs).length < fuel) :
    ∃ out sum, Q.process add fuel (P.load xs) = .ok out ∧
      R.readVarint out = .ok (sum, []) ∧ sum.toInt = (xs.map BitVec.toInt).sum := by
  have few : xs.length < 2 ^ 31 := (P.length_le_load xs).trans small
  obtain ⟨e, rest, bytes, elements, positive⟩ := P.exists_encoding few
  obtain ⟨sum, hsum, exact⟩ := addAll_signExtend few either
  have shorter : e.bytes.length ≤ (P.load xs).length := by
    rw [bytes, List.length_append]
    omega
  have inner : InnerHalf sum := by
    have bounds := sum_take_bounds few xs.length
    rw [List.take_length] at bounds
    rw [InnerHalf, exact]
    exact bounds
  refine ⟨canonical sum, sum, ?_, ?_, exact⟩
  · rw [Impl.process, bytes, Q.decodeSum_encoding add positive (by omega) (by omega), elements,
      hsum]
    simp only [Outcome.ok_bind, Outcome.pure_eq_ok]
    rw [Q.writeVarint_eq [] inner, List.nil_append]
  · have read := R.readVarint_canonical sum []
    rwa [List.append_nil] at read

theorem load_process_read_three :
    ∃ out sum, Impl.go.process checkedAdd 20 (Impl.krafka.load [-3#32, 100#32, 70#32]) = .ok out ∧
      Impl.javaBenchmark.readVarint out = .ok (sum, []) ∧ sum.toInt = 167 := by
  have length : (Impl.krafka.load [-3#32, 100#32, 70#32]).length = 7 := by
    decide +kernel
  exact load_process_read .krafka .go .javaBenchmark [-3#32, 100#32, 70#32] (by omega) (.inr rfl)
    (by omega)

end KafkaTest
