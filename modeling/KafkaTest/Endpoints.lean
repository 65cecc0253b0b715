import KafkaTest.ExactSum
import KafkaTest.Interop
import KafkaTest.SignedCodec
import KafkaTest.Truncation

/-!
# Every producer, processor and consumer

Beside the four implementations of `Impl`, records are written by the loaders and the
producers of the other programs, summed by their workers, and the sums read by their
consumers, each with its own copy of the codec.

* `encoding_beyond_siblings`: the workers that `siblings_decodeSum_encoding` leaves out, on
  an encoding of whole blocks.
* `produce_process_consume`: any producer, processor and consumer compose to the exact sum.
-/

namespace KafkaTest

/-! ## The copies of the codec -/

/-- The varint loops inlined in `main` of `cmd/producer` of `stream-test-go`. -/
def GoProducer.writeVarint (buf : Bytes) (n : Word) : Bytes :=
  writeGroups unsignedWord buf (n <<< 1 ^^^ n.sshiftRight 63)

/-- `readVarint` in `cmd/consumer` of `stream-test-go`. -/
def GoConsumer.readVarint (data : Bytes) : Outcome (Word × Bytes) :=
  readGroups goRead data 0#64 0

/-- `writeVarint` in the Java `TestProducer`. -/
def JavaTestProducer.writeVarint (out : Bytes) (n : Word) : Bytes :=
  writeGroups signedWordLogical out (n <<< 1 ^^^ n.sshiftRight 63)

/-- `readVarint` in the Java `TestConsumer`. -/
def JavaTestConsumer.readVarint (input : Bytes) : Outcome (Word × Bytes) :=
  readGroups javaBenchmarkRead input 0#64 0

/-- `writeVarint` in the Scala `TestProducer`. -/
def ScalaTestProducer.writeVarint (out : Bytes) (n : Word) : Bytes :=
  writeGroups signedWordLogical out (n <<< 1 ^^^ n.sshiftRight 63)

/-- `readVarint` in the Scala `TestConsumer`. -/
def ScalaTestConsumer.readVarint (input : Bytes) : Outcome (Word × Bytes) :=
  readGroups scalaRead input 0#64 0

/-- `write_varint` in `producer.py` of `stream-test-python`. -/
def PythonProducer.writeVarint (n : Int) : Outcome Bytes :=
  Python.writeGroups [] (Int.xor (n <<< (1 : Nat)) (n >>> (63 : Nat)))

/-- `read_varint` in `consumer.py` of `stream-test-python`. -/
def PythonConsumer.readVarint (data : Bytes) : Outcome (Int × Bytes) := do
  let (val, data) ← Python.readGroups data 0 0
  return (Int.xor (val >>> 1 : Nat) (-(val &&& 1 : Nat)), data)

/-- `write_varint` in `producer.rb` of `stream-test-ruby`. -/
def RubyProducer.writeVarint (n : Int) : Bytes :=
  Ruby.resBytes [] (Int.xor (n <<< (1 : Nat)) (n >>> (63 : Nat)))

/-- The loop of `read_varint` in `consumer.rb`: `return 0 unless b`. -/
def RubyConsumer.readGroups : Bytes → Nat → Nat → Int × Bytes
  | [], _, _ => (0, [])
  | b :: io, val, shift =>
    let val := val ||| (b.toNat &&& 0x7F) <<< shift
    if b.toNat &&& 0x80 = 0 then (Int.xor (val >>> 1 : Nat) (-(val &&& 1 : Nat)), io)
    else readGroups io val (shift + 7)

/-- `read_varint` in `consumer.rb` of `stream-test-ruby`. -/
def RubyConsumer.readVarint (io : Bytes) : Outcome (Int × Bytes) := .ok (readGroups io 0 0)

/-! ## The programs -/

/-- Who writes records: the loaders of Phase 1, and the producers. -/
inductive Producer
  | krafka
  | rdkafka
  | rdkafkaProducer
  | go
  | goProducer
  | c
  | javaBenchmark
  | javaTest
  | scalaTest
  | python
  | pythonProducer
  | ruby

/-- The count, the elements and a zero, over a writer of 64-bit numbers. -/
def recordWith (write : Bytes → Word → Bytes) (xs : List (BitVec 32)) : Bytes :=
  let buf := write [] (BitVec.ofNat 64 xs.length)
  let buf := xs.foldl (fun buf x => write buf (x.signExtend 64)) buf
  write buf 0#64

/-- `stream-test-go`, `cmd/producer`: the terminator is appended as a byte. -/
def GoProducer.record (xs : List (BitVec 32)) : Bytes :=
  let buf := GoProducer.writeVarint [] (BitVec.ofNat 64 xs.length)
  let buf := xs.foldl (fun buf x => GoProducer.writeVarint buf (x.signExtend 64)) buf
  buf ++ [0#8]

/-- `stream-test-python`: `buf += write_varint(..)`, in the loader and in the producer. -/
def Python.record (write : Int → Outcome Bytes) (xs : List (BitVec 32)) : Outcome Bytes := do
  let buf ← write xs.length
  let buf ← xs.foldlM (fun buf x => do return buf ++ (← write x.toInt)) buf
  return buf ++ (← write 0)

/-- `stream-test-ruby`, `producer.rb`. -/
def RubyProducer.record (xs : List (BitVec 32)) : Bytes :=
  let buf := writeVarint xs.length
  let buf := xs.foldl (fun buf x => buf ++ writeVarint x.toInt) buf
  buf ++ writeVarint 0

/-- The record of a list.  The `buf[64]` of `stream-test-c` is taken to be long enough: its
loader writes two to five numbers below a hundred, which take twelve bytes at most. -/
def Producer.record : Producer → List (BitVec 32) → Outcome Bytes
  | krafka, xs => .ok (Impl.krafka.load xs)
  | rdkafka, xs => .ok (Impl.rdkafka.load xs)
  | rdkafkaProducer, xs => .ok (recordWith RdkafkaProducer.writeVarint xs)
  | go, xs => .ok (Impl.go.load xs)
  | goProducer, xs => .ok (GoProducer.record xs)
  | c, xs => .ok (recordWith C.writeVarint xs)
  | javaBenchmark, xs => .ok (Impl.javaBenchmark.load xs)
  | javaTest, xs => .ok (recordWith JavaTestProducer.writeVarint xs)
  | scalaTest, xs => .ok (recordWith ScalaTestProducer.writeVarint xs)
  | python, xs => Python.record Python.writeVarint xs
  | pythonProducer, xs => Python.record PythonProducer.writeVarint xs
  | ruby, xs => .ok (RubyProducer.record xs)

/-- Who sums the records. -/
inductive Processor
  | krafka
  | rdkafka
  | go
  | c
  | javaBenchmark
  | javaApp
  | scalaApp
  | python
  | ruby

/-- Decode and sum the payload, encode the sum. -/
def Processor.process (fuel : Nat) : Processor → Bytes → Outcome Bytes
  | krafka, payload => Impl.krafka.process wrappingAdd fuel payload
  | rdkafka, payload => Impl.rdkafka.process wrappingAdd fuel payload
  | go, payload => Impl.go.process wrappingAdd fuel payload
  | c, payload => do
    let (sum, _) ← C.decodeSum wrappingAdd fuel payload
    return C.writeVarint [] sum
  | javaBenchmark, payload => Impl.javaBenchmark.process wrappingAdd fuel payload
  | javaApp, payload => do
    let (sum, _) ← JavaApp.decodeSum wrappingAdd fuel payload
    return JavaApp.writeVarint [] sum
  | scalaApp, payload => do
    let (sum, _) ← ScalaApp.decodeSum wrappingAdd fuel payload
    return ScalaApp.writeVarint [] sum
  | python, payload => do
    let (sum, _) ← Python.decodeSum payload
    Python.writeVarint sum
  | ruby, payload => do
    let (sum, _) ← Ruby.decodeSum payload
    return Ruby.encodeVarint sum

/-- Who reads the sums. -/
inductive Consumer
  | krafka
  | rdkafka
  | go
  | javaTest
  | scalaTest
  | python
  | ruby

/-- A word read, as the number it is printed as. -/
def asInt (read : Outcome (Word × Bytes)) : Outcome (Int × Bytes) := do
  let (sum, rest) ← read
  return (sum.toInt, rest)

def Consumer.readVarint : Consumer → Bytes → Outcome (Int × Bytes)
  | krafka, payload => asInt (Krafka.readVarint payload)
  | rdkafka, payload => asInt (RdkafkaConsumer.readVarint payload)
  | go, payload => asInt (GoConsumer.readVarint payload)
  | javaTest, payload => asInt (JavaTestConsumer.readVarint payload)
  | scalaTest, payload => asInt (ScalaTestConsumer.readVarint payload)
  | python, payload => PythonConsumer.readVarint payload
  | ruby, payload => RubyConsumer.readVarint payload

/-! ## What is written -/

/-- Within 64 bits the formula on unbounded integers gives the groups of the machine word. -/
theorem encodeNat_zigzagAt_toInt (n : Word) :
    encodeNat (zigzagAt 63 n.toInt).toNat = canonical n := by
  have lower := BitVec.le_toInt n
  have upper := BitVec.toInt_lt (x := n)
  rw [zigzagAt_of_fits ⟨by omega, by omega⟩, Int.toNat_natCast, zigzagNat_toInt, encodeNat_toNat,
    canonical]

theorem Python.writeVarint_toInt (n : Word) : Python.writeVarint n.toInt = .ok (canonical n) := by
  rw [Python.writeVarint_eq, encodeNat_zigzagAt_toInt]

theorem RubyProducer.writeVarint_toInt (n : Word) :
    RubyProducer.writeVarint n.toInt = canonical n := by
  have formula : Int.xor (n.toInt <<< (1 : Nat)) (n.toInt >>> (63 : Nat)) =
      ((zigzagAt 63 n.toInt).toNat : Int) := by
    rw [Int.toNat_of_nonneg]
    · rfl
    · rw [zigzagAt_eq]
      exact Int.natCast_nonneg _
  unfold RubyProducer.writeVarint
  rw [formula, Ruby.resBytes_eq, List.nil_append, encodeNat_zigzagAt_toInt]

theorem length_signExtend_lt {xs : List (BitVec 32)} (few : xs.length < 2 ^ 31) :
    (xs.map (BitVec.signExtend 64)).length < 2 ^ 63 := by
  rw [List.length_map]
  omega

/-- The list as 64-bit numbers. -/
def signedList (xs : List (BitVec 32)) (few : xs.length < 2 ^ 31) : IntegerList where
  elements := xs.map (BitVec.signExtend 64)
  fits := length_signExtend_lt few

section Records

variable {xs : List (BitVec 32)} (few : xs.length < 2 ^ 31)

theorem payload_signedList : (signedList xs few).payload =
    canonical (BitVec.ofNat 64 xs.length) ++
      (xs.flatMap (fun x => canonical (x.signExtend 64)) ++ canonical 0#64) := by
  rw [IntegerList.payload_eq, List.flatMap_cons, List.flatMap_append, List.flatMap_singleton,
    IntegerList.count]
  simp only [signedList, List.flatMap_map, List.length_map]

/-- A writer that is canonical on the inner half writes the record. -/
theorem recordWith_eq {write : Bytes → Word → Bytes}
    (writes : ∀ buf n, InnerHalf n → write buf n = buf ++ canonical n) :
    recordWith write xs = (signedList xs few).payload := by
  have elements : ∀ buf, xs.foldl (fun buf x => write buf (x.signExtend 64)) buf =
      buf ++ xs.flatMap fun x => canonical (x.signExtend 64) := by
    apply foldl_of_appends
    intro buf x
    exact writes buf _ (innerHalf_signExtend x)
  rw [recordWith, writes _ _ innerHalf_zero, elements, writes _ _ (innerHalf_ofNat few),
    payload_signedList, List.nil_append, List.append_assoc]

theorem GoProducer.record_eq : GoProducer.record xs = (signedList xs few).payload := by
  have zero : canonical 0#64 = [0#8] := by
    decide +kernel
  have elements : ∀ buf, xs.foldl (fun buf x => GoProducer.writeVarint buf (x.signExtend 64)) buf =
      buf ++ xs.flatMap fun x => canonical (x.signExtend 64) := by
    apply foldl_of_appends
    intro buf x
    exact Go.writeVarint_eq buf _
  have count : GoProducer.writeVarint [] (BitVec.ofNat 64 xs.length) =
      canonical (BitVec.ofNat 64 xs.length) := Go.writeVarint_eq [] _
  rw [GoProducer.record, elements, count, payload_signedList, zero, List.append_assoc]

include few in
theorem toInt_ofNat_length : (BitVec.ofNat 64 xs.length).toInt = xs.length := by
  rw [BitVec.toInt_eq_toNat_of_lt (by rw [BitVec.toNat_ofNat]; omega), BitVec.toNat_ofNat,
    Nat.mod_eq_of_lt (by omega)]

/-- `buf += write(x)` for each element. -/
theorem foldlM_append {write : Int → Outcome Bytes}
    (writes : ∀ n : Word, write n.toInt = .ok (canonical n)) (xs : List (BitVec 32)) (buf : Bytes) :
    (xs.foldlM (fun buf x => do return buf ++ (← write x.toInt)) buf : Outcome Bytes) =
      .ok (buf ++ xs.flatMap fun x => canonical (x.signExtend 64)) := by
  induction xs generalizing buf with
  | nil =>
      rw [List.flatMap_nil, List.append_nil]
      rfl
  | cons x xs ih =>
      have element : write x.toInt = .ok (canonical (x.signExtend 64)) := by
        rw [← toInt_signExtend_64, writes]
      rw [List.foldlM_cons, element, Outcome.ok_bind, Outcome.pure_eq_ok, Outcome.ok_bind, ih,
        List.flatMap_cons, List.append_assoc]

theorem Python.record_eq {write : Int → Outcome Bytes}
    (writes : ∀ n : Word, write n.toInt = .ok (canonical n)) :
    Python.record write xs = .ok (signedList xs few).payload := by
  have zero : write 0 = .ok (canonical 0#64) := writes 0#64
  rw [Python.record, ← toInt_ofNat_length few, writes, Outcome.ok_bind, foldlM_append writes,
    Outcome.ok_bind, zero, Outcome.ok_bind, payload_signedList, List.append_assoc]
  rfl

theorem RubyProducer.record_eq : RubyProducer.record xs = (signedList xs few).payload := by
  have elements : ∀ buf, xs.foldl (fun buf x => buf ++ RubyProducer.writeVarint x.toInt) buf =
      buf ++ xs.flatMap fun x => canonical (x.signExtend 64) := by
    apply foldl_of_appends
    intro buf x
    rw [← toInt_signExtend_64, RubyProducer.writeVarint_toInt]
  have zero : RubyProducer.writeVarint 0 = canonical 0#64 := RubyProducer.writeVarint_toInt 0#64
  rw [RubyProducer.record, ← toInt_ofNat_length few, RubyProducer.writeVarint_toInt, elements,
    zero, payload_signedList, List.append_assoc]

/-- All producers write the same bytes. -/
theorem Producer.record_eq (P : Producer) : P.record xs = .ok (signedList xs few).payload := by
  cases P with
  | krafka => exact congrArg Outcome.ok (recordWith_eq few fun _ _ => Impl.krafka.writeVarint_eq _)
  | rdkafka =>
      exact congrArg Outcome.ok (recordWith_eq few fun _ _ => Impl.rdkafka.writeVarint_eq _)
  | rdkafkaProducer =>
      exact congrArg Outcome.ok (recordWith_eq few fun buf _ =>
        signedWord_signed.writeGroups_inner buf)
  | go => exact congrArg Outcome.ok (recordWith_eq few fun _ _ => Impl.go.writeVarint_eq _)
  | goProducer => exact congrArg Outcome.ok (GoProducer.record_eq few)
  | c => exact congrArg Outcome.ok (recordWith_eq few fun buf n _ => C.writeVarint_eq buf n)
  | javaBenchmark =>
      exact congrArg Outcome.ok (recordWith_eq few fun _ _ => Impl.javaBenchmark.writeVarint_eq _)
  | javaTest | scalaTest =>
      exact congrArg Outcome.ok (recordWith_eq few fun buf _ =>
        signedWordLogical_signed.writeGroups_inner buf)
  | python | pythonProducer => exact Python.record_eq few Python.writeVarint_toInt
  | ruby => exact congrArg Outcome.ok (RubyProducer.record_eq few)

end Records

/-! ## Whole blocks -/

/-- `StreamSumApp` reads varints of at most ten bytes. -/
theorem JavaApp.readsVarints {fuel : Nat} (enough : 10 ≤ fuel) :
    ReadsVarints (JavaApp.readVarint fuel) := by
  intro v rest
  have app := JavaApp.readLoop_of_isGroups v.groups rest (v.short.trans enough) 0#64 0
  have masked : scalaRead.Masked := ⟨fun _ _ => rfl, fun _ => rfl⟩
  have scala := readGroups_of_isGroups_masked masked v.groups rest 0#64 0
  have value := readsVarints_readGroups scalaRead v rest
  unfold JavaApp.readVarint
  rw [app, ← scala]
  exact value

section JvmBlocks

variable (add : Word → Word → Outcome Word) {e : Encoding} (rest : Bytes) {fuel : Nat}
  (small : ∀ b ∈ e.blocks, b.elements.length < 2 ^ 31)

include small

/-- The loops with an `int` index, on blocks whose elements an `int` counts. -/
theorem decodeIndexed_encoding {read : Bytes → Outcome (Word × Bytes)} {index : IndexDialect}
    (reads : ReadsVarints read) (enough : e.bytes.length < fuel) :
    decodeFrom read (bodyIndexed read add index fuel) fuel (e.bytes ++ rest) =
      addAll add 0#64 e.elements >>= fun sum => .ok (sum, rest) := by
  have blocks := e.length_blocks_lt
  refine decodeFrom_encoding reads e (fun b member => ?_) (by omega) rest
  have elements := e.length_elements_lt member
  exact sumsBlock_bodyIndexed b (by omega) (small b member)

theorem ScalaApp.decodeSum_encoding (enough : e.bytes.length < fuel) :
    ScalaApp.decodeSum add fuel (e.bytes ++ rest) =
      addAll add 0#64 e.elements >>= fun sum => .ok (sum, rest) :=
  decodeIndexed_encoding add rest small (readsVarints_readGroups scalaRead) enough

theorem JavaApp.decodeSum_encoding (enough : e.bytes.length + 10 ≤ fuel) :
    JavaApp.decodeSum add fuel (e.bytes ++ rest) =
      addAll add 0#64 e.elements >>= fun sum => .ok (sum, rest) :=
  decodeIndexed_encoding add rest small (JavaApp.readsVarints (by omega)) (by omega)

end JvmBlocks

/-- No bit of a varint is beyond the 64-bit word. -/
def Varint.Exact (v : Varint) : Prop := groupsNat v.bytes < 2 ^ 64

namespace Encoding

/-- All varints of an encoding. -/
def varints (e : Encoding) : List Varint :=
  e.blocks.flatMap (fun b => b.count :: (b.byteSize.toList ++ b.elements)) ++ [e.terminator]

def Exact (e : Encoding) : Prop := ∀ v ∈ e.varints, v.Exact

/-- The sum of the list. -/
def exactSum (e : Encoding) : Int := (e.elements.map BitVec.toInt).sum

theorem bytes_varints (e : Encoding) : e.bytes = e.varints.flatMap Varint.bytes := by
  simp only [Encoding.bytes, varints, List.flatMap_append, List.flatMap_assoc, List.flatMap_cons,
    List.flatMap_nil, List.append_nil]
  rfl

end Encoding

namespace Python

/-- Without a word size, too, an exact varint spells its number. -/
theorem readVarint_of_exact {v : Varint} (exact : v.Exact) (rest : Bytes) :
    readVarint (v.bytes ++ rest) = .ok (v.value.toInt, rest) := by
  have word : zigzag v.value = groupsWord v.bytes := zigzag_unzigzag _
  have spells : (zigzag v.value).toNat = groupsNat v.bytes := by
    rw [word, toNat_groupsWord, Nat.mod_eq_of_lt exact]
  have number := unzigzagNat_zigzagNat v.value.toInt
  rw [zigzagNat_toInt, spells] at number
  unfold unzigzagNat at number
  rw [readVarint, readGroups_of_isGroups v.groups, Outcome.ok_bind, Nat.shiftLeft_zero,
    Nat.zero_or]
  simp only [number, Outcome.pure_eq_ok]

/-- What is read of an encoding. -/
theorem readsTo_of_exact {vs : List Varint} (exact : ∀ v ∈ vs, v.Exact) (rest : Bytes) :
    ReadsTo readVarint (vs.flatMap Varint.bytes ++ rest) (vs.map fun v => v.value.toInt) rest := by
  induction vs with
  | nil => rfl
  | cons v vs ih =>
      rw [List.forall_mem_cons] at exact
      rw [List.flatMap_cons, List.append_assoc]
      exact ⟨_, readVarint_of_exact exact.1 _, ih exact.2⟩

/-- A block as integers. -/
def blockValues (b : Block) : BlockValues Int where
  count := b.count.value.toInt
  header := b.byteSize.toList.map fun v => v.value.toInt
  elements := b.elements.map fun v => v.value.toInt

/-- The body sums a block, behind its byte size if there is one. -/
theorem body_of_readsTo (b : Block) (sum : Int) {s t : Bytes}
    (finds : ReadsTo readVarint s ((blockValues b).header ++ (blockValues b).elements) t) :
    body (blockValues b).count sum s =
      addAll exactAdd sum (blockValues b).elements >>= fun sum => .ok (sum, t) := by
  obtain ⟨u, header, elements⟩ := finds.of_append
  have count := b.count_eq
  have nonempty := b.length_elements_pos
  have negative : decide (b.count.value.toInt < 0) = b.byteSize.isSome := by
    rw [Bool.eq_iff_iff, decide_eq_true_eq, count]
    split
    · rename_i some
      exact iff_of_true (by omega) some
    · rename_i none
      exact iff_of_false (by omega) none
  have one : (blockValues b).header.length = if b.byteSize.isSome then 1 else 0 := by
    rw [blockValues, List.length_map]
    cases b.byteSize <;> rfl
  have turns : b.count.value.toInt.natAbs = (blockValues b).elements.length := by
    rw [count, blockValues, List.length_map]
    split <;> simp
  have skipped : skipIf readVarint (decide (b.count.value.toInt < 0)) s = .ok u := by
    rw [negative, skipIf_eq_ok_iff]
    exact ⟨_, one, header⟩
  unfold body
  rw [blockValues, skipped, Outcome.ok_bind, turns]
  exact sumTimes_of_readsTo elements sum

/-- The worker decodes the exact sum of any blocks. -/
theorem decodeSum_encoding {e : Encoding} (exact : e.Exact) (rest : Bytes) :
    decodeSum (e.bytes ++ rest) = .ok (e.exactSum, rest) := by
  have finds := readsTo_of_exact exact rest
  have values : e.varints.map (fun v => v.value.toInt) =
      (e.blocks.map blockValues).flatMap BlockValues.values ++ [0] := by
    rw [Encoding.varints, List.map_append, List.map_flatMap, List.flatMap_map, List.map_singleton,
      e.terminator_eq]
    simp only [List.map_cons, List.map_append]
    rfl
  have counts : ∀ b ∈ e.blocks.map blockValues, b.count ≠ 0 := by
    rw [List.forall_mem_map]
    intro b member zero
    exact b.count_ne_zero (BitVec.eq_of_toInt_eq zero)
  have sums : ∀ b ∈ e.blocks.map blockValues, ∀ sum s t,
      ReadsTo readVarint s (b.header ++ b.elements) t →
        body b.count sum s = addAll exactAdd sum b.elements >>= fun sum => .ok (sum, t) := by
    rw [List.forall_mem_map]
    intro b member sum s t finds
    exact body_of_readsTo b sum finds
  have blocks := e.length_blocks_lt
  rw [← Encoding.bytes_varints, values] at finds
  have enough : (e.blocks.map blockValues).length < (e.bytes ++ rest).length + 1 := by
    rw [List.length_map, List.length_append]
    omega
  obtain ⟨count, u, hread, hloop⟩ := sumBlocks_of_readsTo counts sums finds enough
  have elements : (e.blocks.map blockValues).flatMap BlockValues.elements =
      e.elements.map BitVec.toInt := by
    rw [Encoding.elements, List.flatMap_map, List.flatMap_map, List.map_flatMap]
    simp only [blockValues, Block.values, List.map_map]
    rfl
  unfold decodeSum
  rw [hread, Outcome.ok_bind]
  dsimp only
  rw [hloop, elements, IntegerList.addAll_exactAdd, Int.zero_add, Outcome.ok_bind,
    Encoding.exactSum]

end Python

/-- **The other workers on whole blocks.**  On an encoding followed by anything, the loops of
both `StreamSumApp`s return the sum modulo 2^64 that their siblings return, if an `int` counts
the elements of each block.  Those of Python and of Ruby return the exact sum, which it is the
remainder of, if no varint has a bit beyond 64.  All of them stand right after the encoding. -/
theorem encoding_beyond_siblings (e : Encoding) (trailing : Bytes) :
    ((∀ b ∈ e.blocks, b.elements.length < 2 ^ 31) → ∀ fuel, e.bytes.length + 10 ≤ fuel →
      JavaApp.decodeSum wrappingAdd fuel (e.bytes ++ trailing) = .ok (e.sum, trailing) ∧
      ScalaApp.decodeSum wrappingAdd fuel (e.bytes ++ trailing) = .ok (e.sum, trailing)) ∧
    (e.Exact →
      Python.decodeSum (e.bytes ++ trailing) = .ok (e.exactSum, trailing) ∧
      Ruby.decodeSum (e.bytes ++ trailing) = .ok (e.exactSum, trailing)) ∧
    e.sum.toInt = e.exactSum.bmod (2 ^ 64) := by
  have total : (addAll wrappingAdd 0#64 e.elements >>= fun sum => .ok (sum, trailing)) =
      Outcome.ok (e.sum, trailing) := by
    rw [addAll_wrappingAdd, BitVec.zero_add]
    rfl
  refine ⟨fun small fuel enough => ⟨?_, ?_⟩, fun exact => ⟨?_, ?_⟩, ?_⟩
  · rw [JavaApp.decodeSum_encoding wrappingAdd trailing small enough, total]
  · rw [ScalaApp.decodeSum_encoding wrappingAdd trailing small (by omega), total]
  · exact Python.decodeSum_encoding exact trailing
  · rw [Ruby.decodeSum_eq]
    exact Python.decodeSum_encoding exact trailing
  · exact toInt_sum e.elements

/-- A negative count that is padded, its byte size, and a padded zero. -/
theorem encoding_beyond_siblings_padded :
    JavaApp.decodeSum wrappingAdd 17 (paddedEncoding.bytes ++ [0x07#8]) =
      .ok (paddedEncoding.sum, [0x07#8]) ∧
    Ruby.decodeSum (paddedEncoding.bytes ++ [0x07#8]) =
      .ok (paddedEncoding.exactSum, [0x07#8]) := by
  have length : paddedEncoding.bytes.length = 7 := by decide
  have exact : paddedEncoding.Exact := by
    unfold Encoding.Exact Varint.Exact
    decide +kernel
  obtain ⟨jvm, unbounded, -⟩ := encoding_beyond_siblings paddedEncoding [0x07#8]
  exact ⟨(jvm (by decide) 17 (by omega)).1, (unbounded exact).2⟩

/-! ## The whole way -/

section Way

variable {xs : List (BitVec 32)} (few : xs.length < 2 ^ 31)

/-- A record is an encoding without negative counts, followed by a spare zero if the list is
empty. -/
theorem exists_encoding_payload :
    ∃ (e : Encoding) (rest : Bytes), (signedList xs few).payload = e.bytes ++ rest ∧
      e.elements = xs.map (BitVec.signExtend 64) ∧ (∀ b ∈ e.blocks, b.byteSize = none) := by
  obtain ⟨e, rest, bytes, elements, positive⟩ := Impl.exists_encoding .krafka few
  have same : Impl.krafka.load xs = (signedList xs few).payload :=
    Outcome.ok.inj (Producer.record_eq few .krafka)
  exact ⟨e, rest, same ▸ bytes, elements, positive⟩

theorem sum_signedList : (signedList xs few).sum = (xs.map BitVec.toInt).sum := by
  unfold IntegerList.sum signedList
  dsimp only
  rw [map_toInt_signExtend]

/-- What a worker makes of a record, if its loop adds up the blocks and its writer is canonical
on the inner half. -/
theorem send_canonical {e : Encoding} {decode : Outcome (Word × Bytes)} {rest : Bytes} {sum : Word}
    {write : Bytes → Word → Bytes} (elements : addAll wrappingAdd 0#64 e.elements = .ok sum)
    (decodes : decode = addAll wrappingAdd 0#64 e.elements >>= fun sum => .ok (sum, rest))
    (writes : write [] sum = canonical sum) :
    (decode >>= fun r => .ok (write [] r.1)) = .ok (canonical sum) := by
  rw [decodes, elements, Outcome.ok_bind, Outcome.ok_bind, writes]

include few in
/-- All processors make the encoding of the exact sum out of a record. -/
theorem Processor.process_payload :
    ∃ sum : Word, sum.toInt = (xs.map BitVec.toInt).sum ∧ ∀ (Q : Processor) (fuel : Nat),
      (signedList xs few).payload.length + 10 ≤ fuel →
        Q.process fuel (signedList xs few).payload = .ok (canonical sum) := by
  obtain ⟨sum, adds, exact⟩ := addAll_signExtend few (.inl rfl)
  have inner : InnerHalf sum := by
    have bounds := sum_take_bounds few xs.length
    rw [List.take_length] at bounds
    rw [InnerHalf, exact]
    exact bounds
  obtain ⟨e, rest, bytes, elements, positive⟩ := exists_encoding_payload few
  rw [← elements] at adds
  have small : ∀ b ∈ e.blocks, b.elements.length < 2 ^ 31 := by
    intro b member
    have within := length_le_length_flatMap_of_mem (fun b => b.values.elements) member
    have all : (e.blocks.flatMap fun b => b.values.elements) = xs.map (BitVec.signExtend 64) := by
      rw [← elements, Encoding.elements, List.flatMap_map]
    rw [all, List.length_map, Block.values, List.length_map] at within
    omega
  obtain ⟨left, unbounded⟩ := (signedList xs few).decodeSum_python
  rw [sum_signedList, ← exact] at unbounded
  refine ⟨sum, exact, fun Q fuel enough => ?_⟩
  rw [bytes, List.length_append] at enough
  have javaScala := signedWordLogical_signed.writeGroups_inner [] inner
  cases Q with
  | krafka =>
      rw [bytes]
      exact send_canonical adds (Krafka.decodeSum_encoding wrappingAdd e rest positive)
        (Krafka.writeVarint_eq [] sum)
  | rdkafka =>
      rw [bytes]
      exact send_canonical adds (Rdkafka.decodeSum_encoding wrappingAdd e rest)
        (Rdkafka.writeVarint_eq [] inner)
  | go =>
      rw [bytes]
      exact send_canonical adds (Go.decodeSum_encoding wrappingAdd e rest)
        (Go.writeVarint_eq [] sum)
  | c =>
      rw [bytes]
      exact send_canonical adds (decodeIndexed_encoding wrappingAdd rest small
        (readsVarints_readGroups cRead) (by omega)) (C.writeVarint_eq [] sum)
  | javaBenchmark =>
      rw [bytes]
      exact send_canonical adds (decodeIndexed_encoding wrappingAdd rest small
        (readsVarints_readGroups javaBenchmarkRead) (by omega)) javaScala
  | javaApp =>
      rw [bytes]
      exact send_canonical adds (JavaApp.decodeSum_encoding wrappingAdd rest small (by omega))
        javaScala
  | scalaApp =>
      rw [bytes]
      exact send_canonical adds (ScalaApp.decodeSum_encoding wrappingAdd rest small (by omega))
        javaScala
  | python =>
      rw [Processor.process, unbounded]
      exact Python.writeVarint_toInt sum
  | ruby =>
      rw [Processor.process, Ruby.decodeSum_eq, unbounded, Outcome.ok_bind]
      dsimp only
      rw [Ruby.encodeVarint_eq, encodeNat_zigzagAt_toInt]
      rfl

end Way

/-- What Python reads without raising, Ruby reads too. -/
theorem RubyConsumer.readGroups_of_python {data rest : Bytes} {val shift v : Nat}
    (read : Python.readGroups data val shift = .ok (v, rest)) :
    RubyConsumer.readGroups data val shift =
      (Int.xor (v >>> 1 : Nat) (-(v &&& 1 : Nat)), rest) := by
  induction data generalizing val shift with
  | nil => cases read
  | cons b data ih =>
      simp only [Python.readGroups] at read
      rw [RubyConsumer.readGroups]
      split at read
      · rename_i last
        cases read
        rw [if_pos last]
      · rename_i continues
        rw [if_neg continues]
        exact ih read

theorem asInt_canonical {read : Bytes → Outcome (Word × Bytes)}
    (reads : ∀ n rest, read (canonical n ++ rest) = .ok (n, rest)) (n : Word) :
    asInt (read (canonical n)) = .ok (n.toInt, []) := by
  have whole := reads n []
  rw [List.append_nil] at whole
  rw [whole]
  rfl

/-- All consumers read a number back, and nothing is left over. -/
theorem Consumer.readVarint_canonical (R : Consumer) (n : Word) :
    R.readVarint (canonical n) = .ok (n.toInt, []) := by
  have python := Python.readVarint_canonical n []
  rw [List.append_nil] at python
  cases R with
  | krafka => exact asInt_canonical (readGroups_canonical krafkaRead) n
  | rdkafka => exact asInt_canonical (readGroups_canonical rdkafkaRead) n
  | go => exact asInt_canonical (readGroups_canonical goRead) n
  | javaTest => exact asInt_canonical (readGroups_canonical javaBenchmarkRead) n
  | scalaTest => exact asInt_canonical (readGroups_canonical scalaRead) n
  | python => exact python
  | ruby =>
      obtain ⟨⟨v, rest⟩, groups, value⟩ := Outcome.bind_eq_ok.mp python
      exact (congrArg Outcome.ok (RubyConsumer.readGroups_of_python groups)).trans value

/-- **From any producer to any consumer.**  Whoever wrote a record of fewer than 2^31 numbers,
whoever sums it and whoever reads the result: nothing fails, and the number printed is the exact
sum, which takes up the whole message. -/
theorem produce_process_consume (P : Producer) (Q : Processor) (R : Consumer)
    (xs : List (BitVec 32)) (few : xs.length < 2 ^ 31) :
    ∃ record out, P.record xs = .ok record ∧
      (∀ fuel, record.length + 10 ≤ fuel → Q.process fuel record = .ok out) ∧
      R.readVarint out = .ok ((xs.map BitVec.toInt).sum, []) := by
  obtain ⟨sum, exact, process⟩ := Processor.process_payload few
  refine ⟨_, canonical sum, Producer.record_eq few P, fun fuel enough => ?_, ?_⟩
  · exact process Q fuel enough
  · rw [R.readVarint_canonical, exact]

theorem produce_process_consume_three :
    ∃ record out, Producer.ruby.record [-3#32, 100#32, 70#32] = .ok record ∧
      (∀ fuel, record.length + 10 ≤ fuel → Processor.javaApp.process fuel record = .ok out) ∧
      Consumer.python.readVarint out = .ok (167, []) :=
  produce_process_consume .ruby .javaApp .python [-3#32, 100#32, 70#32] (by decide)

end KafkaTest
