import KafkaTest.Codec

/-!
# Zig-zag words that are kept signed

rdkafka-Rust and the JVM programs keep the zig-zag word in a signed variable, so
`while (val >= 0x80)` ends at once where its sign bit is set, that is, for every number
outside the inner half of the range.  One byte is written then, and what a reader makes
of it is never the number.

* `rdkafka_read_write_iff`: what `stream-test-rust` writes is read back exactly for the
  inner half.
* `jvm_codec_iff`: so it is for the JVM writers, whose bytes are those of Go for the
  inner half only.
-/

namespace KafkaTest

/-! ## The writers -/

/-- `write_varint` in `producer.rs` of `stream-test-rust`. -/
def RdkafkaProducer.writeVarint (buf : Bytes) (n : Word) : Bytes :=
  writeGroups signedWord buf (n <<< 1 ^^^ n.sshiftRight 63)

/-- `read_varint` in `consumer.rs` of `stream-test-rust`. -/
def RdkafkaConsumer.readVarint (reader : Bytes) : Outcome (Word × Bytes) :=
  readGroups rdkafkaRead reader 0#64 0

/-- `writeVarint` in the Java `StreamSumApp`. -/
def JavaApp.writeVarint (out : Bytes) (n : Word) : Bytes :=
  writeGroups signedWordLogical out (n <<< 1 ^^^ n.sshiftRight 63)

/-- `writeVarint` in the Scala `StreamSumApp`. -/
def ScalaApp.writeVarint (out : Bytes) (n : Word) : Bytes :=
  writeGroups signedWordLogical out (n <<< 1 ^^^ n.sshiftRight 63)

/-! ## The sign bit -/

/-- The loop compares the word as a signed one: it is the unsigned loop below 2^63, and
takes any other word for a negative number. -/
structure WriteDialect.Signed (d : WriteDialect) : Prop where
  below : d.UnsignedBelow (2 ^ 63)
  negative : ∀ val : Word, 2 ^ 63 ≤ val.toNat → d.more val = false

theorem not_sle_128 {val : Word} (large : 2 ^ 63 ≤ val.toNat) : (0x80#64).sle val = false := by
  apply Bool.eq_false_iff.mpr
  intro more
  have := toInt_of_sle_128 more
  omega

theorem signedWord_signed : signedWord.Signed := ⟨signedWord_below, fun _ => not_sle_128⟩

theorem signedWordLogical_signed : signedWordLogical.Signed :=
  ⟨signedWordLogical_below, fun _ => not_sle_128⟩

/-- The inner half is where the zig-zag word has no sign bit. -/
theorem innerHalf_iff (n : Word) : InnerHalf n ↔ (zigzag n).toNat < 2 ^ 63 := by
  refine ⟨InnerHalf.toNat_zigzag_lt, fun small => ?_⟩
  have word := toNat_zigzag n
  unfold InnerHalf
  split at word <;> omega

theorem innerHalf_zero : InnerHalf 0#64 := by
  unfold InnerHalf
  decide

namespace WriteDialect

variable {d : WriteDialect} (signed : d.Signed) {n : Word}

include signed

theorem Signed.writeGroups_inner (buf : Bytes) (inner : InnerHalf n) :
    writeGroups d buf (zigzag n) = buf ++ canonical n :=
  writeGroups_eq_encodeGroups signed.below buf (zigzag n) inner.toNat_zigzag_lt

/-- With the sign bit set the first test fails, and the low byte is all that is written. -/
theorem Signed.writeGroups_outer (buf : Bytes) (outer : ¬ InnerHalf n) :
    writeGroups d buf (zigzag n) = buf ++ [(zigzag n).setWidth 8] := by
  rw [innerHalf_iff, Nat.not_lt] at outer
  rw [writeGroups, signed.negative _ outer, if_neg Bool.false_ne_true]

/-- The bytes written are the groups of the word exactly on the inner half. -/
theorem Signed.writeGroups_eq_iff (buf : Bytes) (n : Word) :
    writeGroups d buf (zigzag n) = buf ++ canonical n ↔ InnerHalf n := by
  constructor
  · intro same
    apply by_contra
    intro outer
    rw [signed.writeGroups_outer buf outer, List.append_cancel_left_eq] at same
    have single : (encodeGroups (zigzag n)).length ≤ 0 + 1 := by
      rw [canonical] at same
      rw [← same, List.length_singleton]
    rw [length_encodeGroups_le_iff] at single
    rw [innerHalf_iff] at outer
    omega
  · intro inner
    exact signed.writeGroups_inner buf inner

end WriteDialect

/-! ## Reading a lone low byte -/

/-- At the end of the input the reader panics, or returns zero and nothing is left. -/
def ReadDialect.ZeroAtEnd (d : ReadDialect) : Prop :=
  ∀ val r, d.atEnd val = .ok r → r = (0#64, [])

theorem rdkafkaRead_zeroAtEnd : rdkafkaRead.ZeroAtEnd := by
  intro val r ended
  cases ended

theorem javaBenchmarkRead_zeroAtEnd : javaBenchmarkRead.ZeroAtEnd := by
  intro val r ended
  cases ended
  rfl

theorem scalaRead_zeroAtEnd : scalaRead.ZeroAtEnd := by
  intro val r ended
  cases ended
  rfl

/-- A number read from one byte is in the inner half. -/
theorem innerHalf_varintValue_singleton (b : Byte) : InnerHalf (varintValue [b]) := by
  have small := groupsNat_lt [b]
  rw [List.length_singleton] at small
  rw [innerHalf_iff, varintValue, zigzag_unzigzag, toNat_groupsWord]
  omega

/-- **A number from one byte.**  Whatever follows a byte, a reader that returns a number of
the outer half has consumed some of it. -/
theorem ReadDialect.ZeroAtEnd.innerHalf {d : ReadDialect} (zero : d.ZeroAtEnd) {b : Byte}
    {rest : Bytes} {n : Word} (read : readGroups d (b :: rest) 0#64 0 = .ok (n, rest)) :
    InnerHalf n := by
  by_cases ends : b &&& 0x80#8 = 0#8
  · have groups : IsGroups [b] := by
      rw [IsGroups, if_pos ends]
    have value := readGroups_of_isGroups (d := d) groups (by simp) rest
    rw [List.singleton_append, read] at value
    cases value
    exact innerHalf_varintValue_singleton b
  · have goesOn : d.stops (0 + 7) = false := d.stops_eq _ (by omega)
    rw [readGroups, if_neg ends, goesOn, if_neg Bool.false_ne_true] at read
    rcases readGroups_length_lt_or_atEnd read with shorter | ⟨val, ended⟩
    · exact (Nat.lt_irrefl _ shorter).elim
    · cases zero val _ ended
      exact innerHalf_zero

/-- **Reading undoes writing on the inner half**, and there only. -/
theorem WriteDialect.Signed.readGroups_iff {w : WriteDialect} (signed : w.Signed)
    {r : ReadDialect} (zero : r.ZeroAtEnd) (n : Word) (rest : Bytes) :
    readGroups r (writeGroups w [] (zigzag n) ++ rest) 0#64 0 = .ok (n, rest) ↔
      InnerHalf n := by
  constructor
  · intro read
    apply by_contra
    intro outer
    rw [signed.writeGroups_outer [] outer, List.nil_append, List.singleton_append] at read
    exact outer (zero.innerHalf read)
  · intro inner
    rw [signed.writeGroups_inner [] inner, List.nil_append]
    exact readGroups_canonical r n rest

/-! ## rdkafka-Rust -/

/-- **Reading undoes writing on the inner half.**  What `write_varint` of the processor or
of the producer writes for a number, followed by any bytes, is read back as the number and
those bytes exactly if the number is in the inner half of the 64-bit range. -/
theorem rdkafka_read_write_iff (n : Word) (rest : Bytes) :
    ∀ write ∈ [Rdkafka.writeVarint, RdkafkaProducer.writeVarint],
      ∀ read ∈ [Rdkafka.readVarint, RdkafkaConsumer.readVarint],
        (read (write [] n ++ rest) = .ok (n, rest) ↔ InnerHalf n) := by
  intro write hwrite read hread
  have writer : write = fun buf n => writeGroups signedWord buf (zigzag n) := by
    simp only [List.mem_cons, List.not_mem_nil, or_false] at hwrite
    rcases hwrite with rfl | rfl <;> rfl
  have reader : read = fun reader => readGroups rdkafkaRead reader 0#64 0 := by
    simp only [List.mem_cons, List.not_mem_nil, or_false] at hread
    rcases hread with rfl | rfl <;> rfl
  subst writer reader
  exact signedWord_signed.readGroups_iff rdkafkaRead_zeroAtEnd n rest

/-- The largest number of the inner half, with a byte behind it. -/
theorem rdkafka_read_write_iff_largest :
    Rdkafka.readVarint (RdkafkaProducer.writeVarint [] 0x3FFFFFFFFFFFFFFF#64 ++ [0x05#8]) =
      .ok (0x3FFFFFFFFFFFFFFF#64, [0x05#8]) := by
  have inner : InnerHalf 0x3FFFFFFFFFFFFFFF#64 := by
    unfold InnerHalf
    decide
  exact (rdkafka_read_write_iff 0x3FFFFFFFFFFFFFFF#64 [0x05#8] RdkafkaProducer.writeVarint
    (by simp) Rdkafka.readVarint (by simp)).mpr inner

/-- Of 2^62 a zero byte is written, and read as zero; of -2^63 a byte that continues, which
makes the reader panic. -/
theorem rdkafka_loses_outer :
    (Rdkafka.writeVarint [] 0x4000000000000000#64 = [0x00#8] ∧
      RdkafkaProducer.writeVarint [] 0x4000000000000000#64 = [0x00#8] ∧
      Rdkafka.readVarint [0x00#8] = .ok (0#64, [])) ∧
    (Rdkafka.writeVarint [] 0x8000000000000000#64 = [0xFF#8] ∧
      Rdkafka.readVarint [0xFF#8] = .panic) ∧
    ¬ ∀ (n : Word) (rest : Bytes),
      Rdkafka.readVarint (Rdkafka.writeVarint [] n ++ rest) = .ok (n, rest) := by
  have halfway : Rdkafka.writeVarint [] 0x4000000000000000#64 = [0x00#8] := by decide +kernel
  have zero : Rdkafka.readVarint [0x00#8] = .ok (0#64, []) := by decide
  refine ⟨⟨halfway, halfway, zero⟩, ⟨by decide +kernel, by decide⟩, fun always => ?_⟩
  have read := always 0x4000000000000000#64 []
  rw [halfway, List.append_nil, zero] at read
  revert read
  decide

/-! ## The JVM programs -/

/-- **The JVM codecs follow Go on the inner half.**  Each of the three writers appends the
bytes of Go for a number exactly if it is in the inner half of the 64-bit range, and exactly
then a reader gets the number back from what was written, and leaves what follows. -/
theorem jvm_codec_iff (n : Word) :
    ∀ write ∈ [JavaBenchmark.writeVarint, JavaApp.writeVarint, ScalaApp.writeVarint],
      (∀ out, write out n = Go.writeVarint out n ↔ InnerHalf n) ∧
      ∀ read ∈ [JavaBenchmark.readVarint, ScalaApp.readVarint], ∀ rest,
        (read (write [] n ++ rest) = .ok (n, rest) ↔ InnerHalf n) := by
  intro write hwrite
  have writer : write = fun out n => writeGroups signedWordLogical out (zigzag n) := by
    simp only [List.mem_cons, List.not_mem_nil, or_false] at hwrite
    rcases hwrite with rfl | rfl | rfl <;> rfl
  subst writer
  refine ⟨fun out => ?_, fun read hread rest => ?_⟩
  · rw [Go.writeVarint_eq]
    exact signedWordLogical_signed.writeGroups_eq_iff out n
  · simp only [List.mem_cons, List.not_mem_nil, or_false] at hread
    rcases hread with rfl | rfl
    · exact signedWordLogical_signed.readGroups_iff javaBenchmarkRead_zeroAtEnd n rest
    · exact signedWordLogical_signed.readGroups_iff scalaRead_zeroAtEnd n rest

/-- The smallest number of the inner half. -/
theorem jvm_codec_iff_smallest :
    JavaApp.writeVarint [] 0xC000000000000000#64 = Go.writeVarint [] 0xC000000000000000#64 ∧
    ScalaApp.readVarint (JavaApp.writeVarint [] 0xC000000000000000#64 ++ [0x80#8]) =
      .ok (0xC000000000000000#64, [0x80#8]) := by
  have inner : InnerHalf 0xC000000000000000#64 := by
    unfold InnerHalf
    decide
  obtain ⟨bytes, reads⟩ := jvm_codec_iff 0xC000000000000000#64 JavaApp.writeVarint (by simp)
  exact ⟨(bytes []).mpr inner, (reads ScalaApp.readVarint (by simp) [0x80#8]).mpr inner⟩

/-- Of 2^62 the JVM programs write one zero byte, Go writes ten bytes. -/
theorem jvm_loses_outer :
    JavaBenchmark.writeVarint [] 0x4000000000000000#64 = [0x00#8] ∧
    JavaApp.writeVarint [] 0x4000000000000000#64 = [0x00#8] ∧
    ScalaApp.writeVarint [] 0x4000000000000000#64 = [0x00#8] ∧
    Go.writeVarint [] 0x4000000000000000#64 =
      [0x80#8, 0x80#8, 0x80#8, 0x80#8, 0x80#8, 0x80#8, 0x80#8, 0x80#8, 0x80#8, 0x01#8] ∧
    JavaBenchmark.readVarint [0x00#8] = .ok (0#64, []) ∧
    ScalaApp.readVarint [0x00#8] = .ok (0#64, []) ∧
    ¬ ∀ n : Word, JavaBenchmark.writeVarint [] n = Go.writeVarint [] n ∧
      ∀ rest, JavaBenchmark.readVarint (JavaBenchmark.writeVarint [] n ++ rest) =
        .ok (n, rest) := by
  have java : JavaBenchmark.writeVarint [] 0x4000000000000000#64 = [0x00#8] := by decide +kernel
  have go : Go.writeVarint [] 0x4000000000000000#64 =
      [0x80#8, 0x80#8, 0x80#8, 0x80#8, 0x80#8, 0x80#8, 0x80#8, 0x80#8, 0x80#8, 0x01#8] := by
    decide +kernel
  refine ⟨java, java, java, go, by decide, by decide, fun always => ?_⟩
  have same := (always 0x4000000000000000#64).1
  rw [java, go] at same
  revert same
  decide

end KafkaTest
