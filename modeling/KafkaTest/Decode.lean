import KafkaTest.Avro

/-!
# The decode-sum loops

The loop every worker runs over a payload, one definition for each program.  Three
shapes occur:

* krafka makes `count` turns and ignores the sign of the count;
* rdkafka-Rust and Go skip the byte size after a negative count and make
  `|count|` turns of a 64-bit loop;
* C, Java and Scala do the same with an `int` loop index, which wraps on the JVM.  In C there
  is no defined behaviour past the largest `int`: a build may wrap, or count on with 64 bits.

`decodeFrom_encoding` evaluates all of them on a well-formed encoding, over either
addition; the shapes only have to say that they sum one block.
-/

namespace KafkaTest

section Shapes

variable (read : Bytes → Outcome (Word × Bytes)) (add : Word → Word → Outcome Word)

/-- `count = read(); while (count != 0) { body; count = read(); }`. -/
def decodeFrom (body : Word → Word → Bytes → Outcome (Word × Bytes)) (fuel : Nat)
    (payload : Bytes) : Outcome (Word × Bytes) := do
  let (count, payload) ← read payload
  sumBlocks read 0#64 body fuel count 0#64 payload

/-- `(count < 0) ? -count : count`, which is `abs` with wrap-around. -/
def absCount (count : Word) : Word := if count.slt 0#64 then -count else count

/-- `if (count < 0) read();`: the byte size of the block is skipped. -/
def skipByteSize (count : Word) (payload : Bytes) : Outcome Bytes :=
  skipIf read (count.slt 0#64) payload

/-- `for _ in 0..count { sum += read() }`. -/
def bodyUnskipped (count sum : Word) (payload : Bytes) : Outcome (Word × Bytes) :=
  sumTimes read add count.toInt.toNat sum payload

/-- Skip the byte size, then `for _ in 0..abs_count { sum += read() }`. -/
def bodyRanged (count sum : Word) (payload : Bytes) : Outcome (Word × Bytes) := do
  let payload ← skipByteSize read count payload
  sumTimes read add (absCount count).toInt.toNat sum payload

/-- Skip the byte size, then `for (int j = 0; j < abs_count; j++) sum += read()`. -/
def bodyIndexed (index : IndexDialect) (fuel : Nat) (count sum : Word) (payload : Bytes) :
    Outcome (Word × Bytes) := do
  let payload ← skipByteSize read count payload
  sumIndexed read add index (absCount count) fuel 0#32 sum payload

end Shapes

/-- `j++` of a Java or Scala `int`, which wraps. -/
def jvmIndex : IndexDialect where
  next j := .ok (j + 1#32)
  next_eq _ _ := rfl

/-- `j++` of a C `int`: a signed overflow is undefined, and is a panic here. -/
def cIndex : IndexDialect where
  next j := if j = 0x7FFFFFFF#32 then .panic else .ok (j + 1#32)
  next_eq j below := if_neg fun largest => by
    rw [largest] at below
    exact absurd below (by decide)

/-- `stream-test-krafka`: the decode-sum loop of Phase 2. -/
def Krafka.decodeSum (add : Word → Word → Outcome Word) (payload : Bytes) :
    Outcome (Word × Bytes) :=
  decodeFrom Krafka.readVarint (bodyUnskipped Krafka.readVarint add) (payload.length + 1)
    payload

/-- `stream-test-rust`: the decode-sum loop of a worker. -/
def Rdkafka.decodeSum (add : Word → Word → Outcome Word) (payload : Bytes) :
    Outcome (Word × Bytes) :=
  decodeFrom Rdkafka.readVarint (bodyRanged Rdkafka.readVarint add) (payload.length + 1)
    payload

/-- `stream-test-go`: the decode-sum loop of `startWorker`. -/
def Go.decodeSum (add : Word → Word → Outcome Word) (payload : Bytes) :
    Outcome (Word × Bytes) :=
  decodeFrom Go.readVarint (bodyRanged Go.readVarint add) (payload.length + 1) payload

/-- `stream-test-c`: the decode-sum loop of `worker_thread`.  What is undefined in C is a panic
where `j` would pass the largest `int`, and up to `add` where the sum leaves the signed range;
`-count` of the least `int64_t` is taken to wrap. -/
def C.decodeSum (add : Word → Word → Outcome Word) (fuel : Nat) (payload : Bytes) :
    Outcome (Word × Bytes) :=
  decodeFrom C.readVarint (bodyIndexed C.readVarint add cIndex fuel) fuel payload

/-- `StreamSumBenchmark`: the decode-sum loop of a worker. -/
def JavaBenchmark.decodeSum (add : Word → Word → Outcome Word) (fuel : Nat)
    (payload : Bytes) : Outcome (Word × Bytes) :=
  decodeFrom JavaBenchmark.readVarint (bodyIndexed JavaBenchmark.readVarint add jvmIndex fuel)
    fuel payload

/-- The Scala `StreamSumApp`: the decode-sum loop of a worker. -/
def ScalaApp.decodeSum (add : Word → Word → Outcome Word) (fuel : Nat) (payload : Bytes) :
    Outcome (Word × Bytes) :=
  decodeFrom ScalaApp.readVarint (bodyIndexed ScalaApp.readVarint add jvmIndex fuel) fuel payload

theorem wrappingAdd_ne_outOfFuel (a b : Word) : wrappingAdd a b ≠ .outOfFuel := by
  simp [wrappingAdd]

section Termination

variable {read : Bytes → Outcome (Word × Bytes)} (total : ∀ s, read s ≠ .outOfFuel)
  (shrinks : ∀ s v t, read s = .ok (v, t) → t.length < s.length) (payload : Bytes)

include total shrinks

theorem decodeFrom_bodyUnskipped_ne_outOfFuel :
    decodeFrom read (bodyUnskipped read wrappingAdd) (payload.length + 1) payload ≠
      .outOfFuel := by
  refine Outcome.bind_ne_outOfFuel (total payload) ?_
  intro r hread
  rcases r with ⟨count, rest⟩
  have := shrinks _ _ _ hread
  exact sumBlocks_ne_outOfFuel List.length total shrinks
    (fun _ _ _ => sumTimes_ne_outOfFuel total wrappingAdd_ne_outOfFuel _ _ _)
    (fun _ _ _ _ _ => sumTimes_size_le List.length shrinks) (by omega)

theorem decodeFrom_bodyRanged_ne_outOfFuel :
    decodeFrom read (bodyRanged read wrappingAdd) (payload.length + 1) payload ≠
      .outOfFuel := by
  refine Outcome.bind_ne_outOfFuel (total payload) ?_
  intro r hread
  rcases r with ⟨count, rest⟩
  have := shrinks _ _ _ hread
  exact sumBlocks_skipIf_ne_outOfFuel List.length total shrinks wrappingAdd_ne_outOfFuel
    (by omega)

end Termination

theorem Krafka.decodeSum_ne_outOfFuel (payload : Bytes) :
    Krafka.decodeSum wrappingAdd payload ≠ .outOfFuel :=
  decodeFrom_bodyUnskipped_ne_outOfFuel
    (fun s => readGroups_ne_outOfFuel (d := krafkaRead) (fun _ => rfl) s _ _)
    (fun _ _ _ => readGroups_length_lt (d := krafkaRead) fun _ => rfl) payload

theorem Rdkafka.decodeSum_ne_outOfFuel (payload : Bytes) :
    Rdkafka.decodeSum wrappingAdd payload ≠ .outOfFuel :=
  decodeFrom_bodyRanged_ne_outOfFuel
    (fun s => readGroups_ne_outOfFuel (d := rdkafkaRead) (fun _ => rfl) s _ _)
    (fun _ _ _ => readGroups_length_lt (d := rdkafkaRead) fun _ => rfl) payload

theorem Go.decodeSum_ne_outOfFuel (payload : Bytes) :
    Go.decodeSum wrappingAdd payload ≠ .outOfFuel :=
  decodeFrom_bodyRanged_ne_outOfFuel
    (fun s => readGroups_ne_outOfFuel (d := goRead) (fun _ => rfl) s _ _)
    (fun _ _ _ => readGroups_length_lt (d := goRead) fun _ => rfl) payload

/-! ## Blocks -/

theorem Block.slt_count (b : Block) : b.count.value.slt 0#64 = b.byteSize.isSome := by
  have count := b.count_eq
  have := b.length_elements_pos
  rw [Bool.eq_iff_iff, BitVec.slt_iff_toInt_lt, BitVec.toInt_zero, count]
  split
  · rename_i negative
    simpa [negative] using this
  · rename_i positive
    simp [positive]

/-- The absolute value of a count is the number of elements. -/
theorem Block.toInt_absCount (b : Block) :
    (absCount b.count.value).toInt = b.elements.length := by
  have count := b.count_eq
  have fits := b.fits
  rw [absCount, b.slt_count]
  split
  · rename_i negative
    rw [if_pos negative] at count
    rw [BitVec.toInt_neg, count, Int.neg_neg, Int.bmod_eq_of_le (by omega) (by omega)]
  · rename_i positive
    rw [if_neg positive] at count
    exact count

section BlockBodies

variable {read : Bytes → Outcome (Word × Bytes)} {add : Word → Word → Outcome Word}

/-- `body` sums the block `b`, wherever the reader finds its values. -/
def SumsBlock (read : Bytes → Outcome (Word × Bytes)) (add : Word → Word → Outcome Word)
    (body : Word → Word → Bytes → Outcome (Word × Bytes)) (b : BlockValues Word) : Prop :=
  ∀ sum s t, ReadsTo read s (b.header ++ b.elements) t →
    body b.count sum s = addAll add sum b.elements >>= fun sum => .ok (sum, t)

/-- Skipping the byte size leaves the elements. -/
theorem skipByteSize_of_readsTo (b : Block) {s t : Bytes}
    (h : ReadsTo read s (b.values.header ++ b.values.elements) t) :
    ∃ u, skipByteSize read b.count.value s = .ok u ∧ ReadsTo read u b.values.elements t := by
  obtain ⟨u, hheader, helements⟩ := h.of_append
  have length : b.values.header.length = if b.count.value.slt 0#64 then 1 else 0 := by
    rw [b.slt_count, Block.values]
    cases b.byteSize <;> rfl
  exact ⟨u, skipIf_eq_ok_iff.mpr ⟨_, length, hheader⟩, helements⟩

theorem sumsBlock_bodyRanged (b : Block) : SumsBlock read add (bodyRanged read add) b.values := by
  intro sum s t h
  obtain ⟨u, hskip, helements⟩ := skipByteSize_of_readsTo b h
  have turns : (absCount b.count.value).toInt.toNat = b.values.elements.length := by
    rw [b.toInt_absCount, Int.toNat_natCast]
    exact (List.length_map ..).symm
  rw [bodyRanged, Block.values, hskip, Outcome.ok_bind, turns]
  exact sumTimes_of_readsTo helements sum

theorem sumsBlock_bodyIndexed (b : Block) {index : IndexDialect} {fuel : Nat}
    (enough : b.elements.length < fuel) (counted : b.elements.length < 2 ^ 31) :
    SumsBlock read add (bodyIndexed read add index fuel) b.values := by
  intro sum s t h
  obtain ⟨u, hskip, helements⟩ := skipByteSize_of_readsTo b h
  have length : b.values.elements.length = b.elements.length := List.length_map ..
  rw [bodyIndexed, Block.values, hskip, Outcome.ok_bind]
  refine sumIndexed_of_readsTo helements ?_ ?_ (by omega) sum
  · rw [b.toInt_absCount, length, BitVec.toInt_zero, Int.zero_add]
  · rw [b.toInt_absCount]
    omega

/-- Without a byte size there is nothing to skip. -/
theorem sumsBlock_bodyUnskipped {b : Block} (positive : b.byteSize = none) :
    SumsBlock read add (bodyUnskipped read add) b.values := by
  intro sum s t h
  have count := b.count_eq
  rw [positive, if_neg (by simp)] at count
  have turns : b.count.value.toInt.toNat = b.values.elements.length := by
    rw [count, Int.toNat_natCast]
    exact (List.length_map ..).symm
  have header : b.values.header = [] := by
    rw [Block.values, positive]
    rfl
  rw [header, List.nil_append] at h
  rw [bodyUnskipped, Block.values, turns]
  exact sumTimes_of_readsTo h sum

/-- A decode loop whose body sums each block reads exactly the encoding and adds up
its elements, in order. -/
theorem decodeFrom_encoding {body : Word → Word → Bytes → Outcome (Word × Bytes)}
    {fuel : Nat} (reads : ReadsVarints read) (e : Encoding)
    (sums : ∀ b ∈ e.blocks, SumsBlock read add body b.values)
    (enough : e.blocks.length < fuel) (rest : Bytes) :
    decodeFrom read body fuel (e.bytes ++ rest) =
      addAll add 0#64 e.elements >>= fun sum => .ok (sum, rest) := by
  obtain ⟨count, u, hread, hloop⟩ := sumBlocks_of_readsTo
    (fun b hb => by
      obtain ⟨c, -, rfl⟩ := List.mem_map.mp hb
      exact c.count_ne_zero)
    (fun b hb => by
      obtain ⟨c, hc, rfl⟩ := List.mem_map.mp hb
      exact sums c hc)
    (e.readsTo reads rest)
    (by rwa [List.length_map])
  rw [decodeFrom, hread, Outcome.ok_bind]
  exact hloop 0#64

end BlockBodies

/-! ## Each loop on a well-formed encoding -/

section Encodings

variable (add : Word → Word → Outcome Word) (e : Encoding) (rest : Bytes)

theorem Rdkafka.decodeSum_encoding :
    Rdkafka.decodeSum add (e.bytes ++ rest) =
      addAll add 0#64 e.elements >>= fun sum => .ok (sum, rest) := by
  have blocks := e.length_blocks_lt
  refine decodeFrom_encoding (readsVarints_readGroups rdkafkaRead) e
    (fun b _ => sumsBlock_bodyRanged b) ?_ rest
  rw [List.length_append]
  omega

theorem Go.decodeSum_encoding :
    Go.decodeSum add (e.bytes ++ rest) =
      addAll add 0#64 e.elements >>= fun sum => .ok (sum, rest) := by
  have blocks := e.length_blocks_lt
  refine decodeFrom_encoding (readsVarints_readGroups goRead) e
    (fun b _ => sumsBlock_bodyRanged b) ?_ rest
  rw [List.length_append]
  omega

theorem Krafka.decodeSum_encoding (positive : ∀ b ∈ e.blocks, b.byteSize = none) :
    Krafka.decodeSum add (e.bytes ++ rest) =
      addAll add 0#64 e.elements >>= fun sum => .ok (sum, rest) := by
  have blocks := e.length_blocks_lt
  refine decodeFrom_encoding (readsVarints_readGroups krafkaRead) e
    (fun b hb => sumsBlock_bodyUnskipped (positive b hb)) ?_ rest
  rw [List.length_append]
  omega

variable {e} {fuel : Nat} (small : e.bytes.length < 2 ^ 31) (enough : e.bytes.length < fuel)

include small enough

theorem C.decodeSum_encoding :
    C.decodeSum add fuel (e.bytes ++ rest) =
      addAll add 0#64 e.elements >>= fun sum => .ok (sum, rest) := by
  have blocks := e.length_blocks_lt
  refine decodeFrom_encoding (readsVarints_readGroups cRead) e (fun b hb => ?_) (by omega) rest
  have elements := e.length_elements_lt hb
  exact sumsBlock_bodyIndexed b (by omega) (by omega)

theorem JavaBenchmark.decodeSum_encoding :
    JavaBenchmark.decodeSum add fuel (e.bytes ++ rest) =
      addAll add 0#64 e.elements >>= fun sum => .ok (sum, rest) := by
  have blocks := e.length_blocks_lt
  refine decodeFrom_encoding (readsVarints_readGroups javaBenchmarkRead) e (fun b hb => ?_)
    (by omega) rest
  have elements := e.length_elements_lt hb
  exact sumsBlock_bodyIndexed b (by omega) (by omega)

end Encodings

/-- **The sibling decoders agree on well-formed input.**  On an encoding shorter
than 2^31 bytes, followed by anything, the loops of Go, rdkafka-Rust, C and
`StreamSumBenchmark` all return the sum of the elements modulo 2^64 and stand right
after the encoding. -/
theorem siblings_decodeSum_encoding (e : Encoding) (small : e.bytes.length < 2 ^ 31)
    (trailing : Bytes) :
    Go.decodeSum wrappingAdd (e.bytes ++ trailing) = .ok (e.sum, trailing) ∧
    Rdkafka.decodeSum wrappingAdd (e.bytes ++ trailing) = .ok (e.sum, trailing) ∧
    (∀ fuel, e.bytes.length < fuel →
      C.decodeSum wrappingAdd fuel (e.bytes ++ trailing) = .ok (e.sum, trailing)) ∧
    ∀ fuel, e.bytes.length < fuel →
      JavaBenchmark.decodeSum wrappingAdd fuel (e.bytes ++ trailing) =
        .ok (e.sum, trailing) := by
  have total : (addAll wrappingAdd 0#64 e.elements >>= fun sum => .ok (sum, trailing)) =
      Outcome.ok (e.sum, trailing) := by
    rw [addAll_wrappingAdd, BitVec.zero_add]
    rfl
  refine ⟨?_, ?_, fun fuel enough => ?_, fun fuel enough => ?_⟩
  · rw [Go.decodeSum_encoding, total]
  · rw [Rdkafka.decodeSum_encoding, total]
  · rw [C.decodeSum_encoding wrappingAdd trailing small enough, total]
  · rw [JavaBenchmark.decodeSum_encoding wrappingAdd trailing small enough, total]

/-- The list `[100]` behind a negative count that is padded to two bytes, ended by a
padded zero. -/
def paddedEncoding : Encoding where
  blocks := [{
    count := ⟨[0x81#8, 0x00#8], by decide, by decide⟩
    byteSize := some ⟨[0x04#8], by decide, by decide⟩
    elements := [⟨[0xC8#8, 0x01#8], by decide, by decide⟩]
    nonempty := by simp
    fits := by simp
    count_eq := by decide }]
  terminator := ⟨[0x80#8, 0x00#8], by decide, by decide⟩
  terminator_eq := by decide

theorem siblings_decodeSum_paddedEncoding :
    paddedEncoding.sum = 100#64 ∧
    Go.decodeSum wrappingAdd (paddedEncoding.bytes ++ [0x07#8]) =
      .ok (paddedEncoding.sum, [0x07#8]) ∧
    JavaBenchmark.decodeSum wrappingAdd 8 (paddedEncoding.bytes ++ [0x07#8]) =
      .ok (paddedEncoding.sum, [0x07#8]) := by
  have length : paddedEncoding.bytes.length = 7 := by decide
  obtain ⟨go, -, -, java⟩ :=
    siblings_decodeSum_encoding paddedEncoding (by omega) [0x07#8]
  exact ⟨by decide, go, java 8 (by omega)⟩

end KafkaTest
