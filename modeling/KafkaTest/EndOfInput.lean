import KafkaTest.BlockFormat
import KafkaTest.Decode

/-!
# Decoding past the end of the input

The decode loops of C, of `StreamSumBenchmark` and of the Scala `StreamSumApp` have no cap
on a varint, mask their shifts, use an `int` index, and read on where the payload ends: C
takes a cut varint for the word read so far, the JVM programs take it for zero.  Past the
largest `int` they differ too (`cIndex`, `jvmIndex`), but then none of the loops returns.

`indexedFormat` is the format they share, `ReadDialect.ReadsOn` what a reader does at the
end.  `ReadDialect.ReadsOn.terminates_iff` says when such a loop comes to an end, and
`jvm_decodeSum_terminates_iff` what this is for the readers that return zero.
-/

namespace KafkaTest

/-! ## Masked shifts -/

/-- The word of groups whose shifts are taken modulo 64. -/
def maskedWord : Bytes → Nat → Word
  | [], _ => 0#64
  | b :: bs, shift => groupBits b <<< (shift % 64) ||| maskedWord bs (shift + 7)

/-- Up to ten bytes no shift reaches 64. -/
theorem maskedWord_eq_groupsWord {bs : Bytes} {shift : Nat} (short : shift + 7 * bs.length ≤ 70) :
    maskedWord bs shift = groupsWord bs <<< shift := by
  induction bs generalizing shift with
  | nil => rw [maskedWord, groupsWord, BitVec.zero_shiftLeft]
  | cons b bs ih =>
      rw [List.length_cons] at short
      have joined := or_groups_shift 0#64 b bs shift
      rw [BitVec.zero_or, BitVec.zero_or] at joined
      rw [maskedWord, Nat.mod_eq_of_lt (by omega), ih (by omega), joined]

/-- A dialect without a cap that masks its shifts. -/
def ReadDialect.Masked (d : ReadDialect) : Prop :=
  (∀ bits shift, d.shl bits shift = bits <<< (shift % 64)) ∧ ∀ shift, d.stops shift = false

section Masked

variable {d : ReadDialect} (masked : d.Masked)

include masked

/-- A continuing byte is taken into the word. -/
theorem readGroups_of_continues {b : Byte} (continues : b &&& 0x80#8 ≠ 0#8) (s : Bytes)
    (val : Word) (shift : Nat) :
    readGroups d (b :: s) val shift =
      readGroups d s (val ||| groupBits b <<< (shift % 64)) (shift + 7) := by
  simp only [readGroups, if_neg continues, masked.1, masked.2, if_neg Bool.false_ne_true,
    groupBits]

theorem readGroups_of_isGroups_masked {bs : Bytes} (groups : IsGroups bs) (rest : Bytes)
    (val : Word) (shift : Nat) :
    readGroups d (bs ++ rest) val shift = .ok (unzigzag (val ||| maskedWord bs shift), rest) := by
  induction bs generalizing val shift with
  | nil => exact groups.elim
  | cons b bs ih =>
      by_cases last : b &&& 0x80#8 = 0#8
      · rw [IsGroups, if_pos last] at groups
        subst groups
        simp only [List.cons_append, List.nil_append, readGroups, if_pos last, masked.1,
          maskedWord, BitVec.or_zero, groupBits, unzigzag]
      · rw [isGroups_cons_of_continues last] at groups
        rw [List.cons_append, readGroups_of_continues masked last, ih groups, maskedWord,
          BitVec.or_assoc]

/-- What is cut off is left to the dialect. -/
theorem readGroups_of_cut {s : Bytes} (continues : Continues s) (val : Word) (shift : Nat) :
    readGroups d s val shift = d.atEnd (val ||| maskedWord s shift) := by
  induction s generalizing val shift with
  | nil => rw [readGroups, maskedWord, BitVec.or_zero]
  | cons b s ih =>
      obtain ⟨goesOn, continues⟩ := continues_cons.mp continues
      rw [readGroups_of_continues masked goesOn, ih continues, maskedWord, BitVec.or_assoc]

end Masked

/-! ## The format -/

/-- The number that a varint spells, or that part of it which is there. -/
def maskedValue (bs : Bytes) : Word := unzigzag (maskedWord bs 0)

theorem maskedValue_eq_varintValue {bs : Bytes} (short : bs.length ≤ 10) :
    maskedValue bs = varintValue bs := by
  rw [maskedValue, varintValue, maskedWord_eq_groupsWord (by omega), BitVec.shiftLeft_zero]

/-- Varints of any length, a count followed by its elements, with a byte size before them if
the count is negative. -/
def indexedFormat : BlockFormat Byte Word where
  IsItem := IsGroups
  IsCut := Continues
  value := maskedValue
  headers count := if count.slt 0#64 then 1 else 0
  turns count := (absCount count).toInt.toNat
  ne_nil := IsGroups.ne_nil
  split s := by
    rcases continues_or_isGroups s with continues | ⟨init, last, rest, split, continues, ends⟩
    · exact .inl continues
    · exact .inr ⟨init ++ [last], rest, by rw [split, List.append_assoc, List.singleton_append],
        isGroups_append_singleton.mpr ⟨continues, ends⟩⟩

/-- A count whose turns an `int` index counts, with fuel for them. -/
def IndexFits (fuel : Nat) (count : Word) : Prop :=
  (absCount count).toInt < 2 ^ 31 ∧ (absCount count).toInt.toNat < fuel

/-- The indexed body skips the byte size and adds up the elements. -/
theorem sumsBlocks_bodyIndexed {f : BlockFormat Byte Word}
    (headers : f.headers = indexedFormat.headers) (turns : f.turns = indexedFormat.turns)
    (read : Bytes → Outcome (Word × Bytes)) (index : IndexDialect) (fuel : Nat) :
    f.SumsBlocks read (bodyIndexed read wrappingAdd index fuel) (IndexFits fuel) := by
  intro count sum s r
  unfold bodyIndexed skipByteSize
  rw [Outcome.bind_eq_ok, headers, turns]
  simp only [skipIf_eq_ok_iff, sumIndexed_eq_ok_iff, sumTimes_wrappingAdd_eq_ok_iff]
  constructor
  · intro found
    obtain ⟨t, ⟨header, headerLength, skipped⟩, fits, elements, length, finds, added⟩ := found
    exact ⟨fits, header, elements, headerLength, length, skipped.append finds, added⟩
  · intro found
    obtain ⟨fits, header, elements, headerLength, length, finds, added⟩ := found
    obtain ⟨t, skipped, finds⟩ := finds.of_append
    exact ⟨t, ⟨header, headerLength, skipped⟩, fits, elements, length, finds, added⟩

/-! ## Readers that read on -/

/-- `read_varint` of a dialect, from the first byte on. -/
def ReadDialect.reader (d : ReadDialect) (s : Bytes) : Outcome (Word × Bytes) :=
  readGroups d s 0#64 0

/-- The decode loop of a dialect, with an `int` index. -/
def ReadDialect.decodeIndexed (d : ReadDialect) (index : IndexDialect) (fuel : Nat)
    (payload : Bytes) : Outcome (Word × Bytes) :=
  decodeFrom d.reader (bodyIndexed d.reader wrappingAdd index fuel) fuel payload

/-- At the end of the input the dialect makes `tail` of the word read so far. -/
structure ReadDialect.ReadsOn (d : ReadDialect) (tail : Word → Word) : Prop where
  masked : d.Masked
  ends : ∀ val, d.atEnd val = .ok (tail val, [])
  empty : tail 0#64 = 0#64

/-- The counts that the loop comes to are counted by an `int` index. -/
def CountsFit (payload : Bytes) : Prop :=
  ∀ n, indexedFormat.CountAt payload n → (absCount n).toInt < 2 ^ 31

theorem CountsFit.indexFits {payload : Bytes} (h : CountsFit payload) {n : Word}
    (found : indexedFormat.CountAt payload n) : IndexFits (payload.length + 2 ^ 31) n := by
  have := h n found
  exact ⟨this, by omega⟩

theorem toInt_absCount_zero_lt : (absCount 0#64).toInt < 2 ^ 31 := by
  decide

theorem ReadDialect.sumsBlocks (d : ReadDialect) (index : IndexDialect) (fuel : Nat) :
    indexedFormat.SumsBlocks d.reader (bodyIndexed d.reader wrappingAdd index fuel)
      (IndexFits fuel) :=
  sumsBlocks_bodyIndexed rfl rfl d.reader index fuel

namespace ReadDialect.ReadsOn

variable {d : ReadDialect} {tail : Word → Word} (on : d.ReadsOn tail)

include on

theorem readsItems : indexedFormat.ReadsItems d.reader := by
  intro item rest groups
  unfold ReadDialect.reader
  rw [readGroups_of_isGroups_masked on.masked groups, BitVec.zero_or]
  rfl

theorem lenient (cut : Bytes) (isCut : indexedFormat.IsCut cut) :
    d.reader cut = .ok (tail (maskedWord cut 0), []) := by
  unfold ReadDialect.reader
  rw [readGroups_of_cut on.masked isCut, on.ends, BitVec.zero_or]

theorem reader_ne_panic (s : Bytes) : d.reader s ≠ .panic := by
  rcases indexedFormat.split s with cut | ⟨item, rest, rfl, isItem⟩
  · rw [on.lenient s cut]
    simp
  · rw [on.readsItems item rest isItem]
    simp

theorem decodeIndexed_ne_panic (fuel : Nat) (payload : Bytes) :
    d.decodeIndexed jvmIndex fuel payload ≠ .panic := by
  apply blocksFrom_ne_panic on.reader_ne_panic
  intro count sum s
  exact Outcome.bind_ne_panic (skipIf_ne_panic on.reader_ne_panic _ s) fun t =>
    sumIndexed_ne_panic on.reader_ne_panic (by simp [wrappingAdd]) (by simp [jvmIndex]) _ _ _ _ t

section Endings

variable {index : IndexDialect} {payload : Bytes} (fit : CountsFit payload)
  {elements : List Bytes} {cut : Bytes}

include fit

theorem decodeIndexed_of_stops {rest : Bytes}
    (found : indexedFormat.Stops payload elements rest) :
    d.decodeIndexed index (payload.length + 2 ^ 31) payload =
      .ok (0#64 + indexedFormat.total elements, rest) :=
  found.ok on.readsItems (d.sumsBlocks _ _) (fun _ => fit.indexFits) (by omega)

theorem decodeIndexed_of_cutCount (found : indexedFormat.CutCount payload elements cut)
    (small : (absCount (tail (maskedWord cut 0))).toInt < 2 ^ 31) :
    d.decodeIndexed index (payload.length + 2 ^ 31) payload =
      .ok (0#64 + indexedFormat.total elements, []) :=
  found.ok on.lenient on.empty on.readsItems (d.sumsBlocks _ _) (fun _ => fit.indexFits)
    (fun _ => ⟨small, by omega⟩) (by omega)

theorem decodeIndexed_of_cutBlock {n : Word} {items : List Bytes}
    (found : indexedFormat.CutBlock payload elements n items cut) :
    d.decodeIndexed index (payload.length + 2 ^ 31) payload =
      .ok (0#64 + indexedFormat.total elements +
        indexedFormat.cutSum (fun cut => tail (maskedWord cut 0)) n items cut, []) :=
  found.ok on.lenient on.empty on.readsItems (d.sumsBlocks _ _) (fun _ => fit.indexFits) (by omega)

/-- Where every count fits, the loop returns, however the payload ends. -/
theorem exists_decodeIndexed_eq_ok
    (fitCut : ∀ elements cut, indexedFormat.CutCount payload elements cut →
      (absCount (tail (maskedWord cut 0))).toInt < 2 ^ 31) :
    ∃ r, d.decodeIndexed index (payload.length + 2 ^ 31) payload = .ok r := by
  cases indexedFormat.ending payload with
  | stops found => exact ⟨_, on.decodeIndexed_of_stops fit found⟩
  | cutCount found => exact ⟨_, on.decodeIndexed_of_cutCount fit found (fitCut _ _ found)⟩
  | cutBlock found => exact ⟨_, on.decodeIndexed_of_cutBlock fit found⟩

end Endings

/-- **With an index that wraps the loop terminates** exactly if it can count the elements of
every block, those of a cut count included. -/
theorem terminates_iff (payload : Bytes) :
    (∃ fuel, d.decodeIndexed jvmIndex fuel payload ≠ .outOfFuel) ↔ CountsFit payload ∧
      ∀ elements cut, indexedFormat.CutCount payload elements cut →
        (absCount (tail (maskedWord cut 0))).toInt < 2 ^ 31 := by
  constructor
  · intro terminates
    obtain ⟨fuel, ends⟩ := terminates
    obtain ⟨r, returns⟩ : ∃ r, d.decodeIndexed jvmIndex fuel payload = .ok r := by
      cases outcome : d.decodeIndexed jvmIndex fuel payload with
      | ok r => exact ⟨r, rfl⟩
      | panic => exact (on.decodeIndexed_ne_panic _ _ outcome).elim
      | outOfFuel => exact (ends outcome).elim
    refine ⟨fun n found => ?_, fun elements cut found => ?_⟩
    · by_cases zero : n = 0#64
      · rw [zero]
        exact toInt_absCount_zero_lt
      · exact (found.fits on.readsItems (d.sumsBlocks _ fuel) zero returns).1
    · by_cases zero : tail (maskedWord cut 0) = 0#64
      · rw [zero]
        exact toInt_absCount_zero_lt
      · have fits := found.of_ok on.lenient on.empty on.readsItems (d.sumsBlocks _ fuel) returns
        exact (fits.1 zero).1
  · intro small
    obtain ⟨r, returns⟩ := on.exists_decodeIndexed_eq_ok small.1 small.2
    refine ⟨payload.length + 2 ^ 31, ?_⟩
    rw [returns]
    simp

end ReadDialect.ReadsOn

/-! ## The programs -/

theorem readsOn_cRead : cRead.ReadsOn unzigzag :=
  ⟨⟨fun _ _ => rfl, fun _ => rfl⟩, fun _ => rfl, by decide⟩

theorem readsOn_javaBenchmarkRead : javaBenchmarkRead.ReadsOn fun _ => 0#64 :=
  ⟨⟨fun _ _ => rfl, fun _ => rfl⟩, fun _ => rfl, rfl⟩

theorem readsOn_scalaRead : scalaRead.ReadsOn fun _ => 0#64 :=
  ⟨⟨fun _ _ => rfl, fun _ => rfl⟩, fun _ => rfl, rfl⟩

theorem JavaBenchmark.decodeSum_eq (fuel : Nat) (payload : Bytes) :
    JavaBenchmark.decodeSum wrappingAdd fuel payload =
      javaBenchmarkRead.decodeIndexed jvmIndex fuel payload := rfl

/-! ## Termination -/

/-- A reader that makes zero of a cut leaves no cut count to follow. -/
theorem terminates_iff_of_zero {d : ReadDialect} (on : d.ReadsOn fun _ => 0#64)
    (payload : Bytes) :
    (∃ fuel, d.decodeIndexed jvmIndex fuel payload ≠ .outOfFuel) ↔ CountsFit payload := by
  rw [on.terminates_iff]
  exact and_iff_left fun _ _ _ => toInt_absCount_zero_lt

/-- **When the JVM loops terminate.**  The decode loops of `StreamSumBenchmark` and of the
Scala `StreamSumApp` come to an end exactly on the payloads whose counts, as far as the loop
comes to them, are below 2^31 in absolute value. -/
theorem jvm_decodeSum_terminates_iff (payload : Bytes) :
    ((∃ fuel, JavaBenchmark.decodeSum wrappingAdd fuel payload ≠ .outOfFuel) ↔
      ∀ n, indexedFormat.CountAt payload n → (absCount n).toInt < 2 ^ 31) ∧
    ((∃ fuel, ScalaApp.decodeSum wrappingAdd fuel payload ≠ .outOfFuel) ↔
      ∀ n, indexedFormat.CountAt payload n → (absCount n).toInt < 2 ^ 31) :=
  ⟨terminates_iff_of_zero readsOn_javaBenchmarkRead payload,
    terminates_iff_of_zero readsOn_scalaRead payload⟩

/-- A count of 2^31 and nothing behind it. -/
def hugeCount : Bytes := [0x80#8, 0x80#8, 0x80#8, 0x80#8, 0x10#8]

/-- No `int` index gets there. -/
theorem jvm_decodeSum_endless :
    (¬ ∃ fuel, JavaBenchmark.decodeSum wrappingAdd fuel hugeCount ≠ .outOfFuel) ∧
    ¬ ∃ fuel, ScalaApp.decodeSum wrappingAdd fuel hugeCount ≠ .outOfFuel := by
  have groups : IsGroups hugeCount := by decide
  have count : indexedFormat.CountAt hugeCount 0x80000000#64 :=
    ⟨[], [], [], hugeCount, [], rfl, .nil, groups, by decide⟩
  have large : ¬ CountsFit hugeCount := fun fit => absurd (fit _ count) (by decide)
  exact ⟨fun terminates => large
      ((terminates_iff_of_zero readsOn_javaBenchmarkRead _).mp terminates),
    fun terminates => large ((terminates_iff_of_zero readsOn_scalaRead _).mp terminates)⟩

end KafkaTest
