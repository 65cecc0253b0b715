import KafkaTest.CountedStream

/-!
# The varint codecs of the processors

Every implementation carries its own `write_varint` and `read_varint`.  They are
one loop each, and differ in

* the encoder's word: `u64` (krafka, Go, C), or the signed `i64` / `long` itself
  (rdkafka-Rust, Java), which changes the loop comparison and the shift;
* the decoder's shift past the word (masked on the JVM and in a Rust release
  build, zero in Go), its byte cap (krafka only) and what it does at the end of the
  input (a panic, the word read so far, or zero).

`WriteDialect` and `ReadDialect` hold exactly these choices.  Where the choices do
not matter is stated once: `writeGroups_eq_encodeGroups` and
`readGroups_of_isGroups`.
-/

namespace KafkaTest

/-! ## Encoding -/

/-- The loop condition, the shift and the continuation byte of a `write_varint`. -/
structure WriteDialect where
  more : Word → Bool
  shr : Word → Word
  byte : Word → Byte
  decreases : ∀ val, more val → (shr val).toNat < val.toNat
  byte_eq : ∀ val, byte val = val.setWidth 8 ||| 0x80#8

/-- `while (more) { push(byte); val >>= 7; } push(val)`. -/
def writeGroups (d : WriteDialect) (buf : Bytes) (val : Word) : Bytes :=
  if d.more val then writeGroups d (buf ++ [d.byte val]) (d.shr val)
  else buf ++ [val.setWidth 8]
termination_by val.toNat
decreasing_by exact d.decreases val (by assumption)

/-- What writers append one after the other. -/
theorem foldl_of_appends {α : Type} {write : Bytes → α → Bytes} {encode : α → Bytes}
    (appends : ∀ buf a, write buf a = buf ++ encode a) (items : List α) (buf : Bytes) :
    items.foldl write buf = buf ++ items.flatMap encode := by
  have writer : write = fun buf a => buf ++ encode a := by
    funext buf a
    exact appends buf a
  rw [writer, List.foldl_append_eq_append, List.flatMap_def]

/-- Up to a bound on the word, the loop compares and shifts like the unsigned one. -/
def WriteDialect.UnsignedBelow (d : WriteDialect) (bound : Nat) : Prop :=
  ∀ val : Word, val.toNat < bound →
    (d.more val = true ↔ 128 ≤ val.toNat) ∧ (d.more val → d.shr val = val >>> 7)

theorem writeGroups_eq_encodeGroups {d : WriteDialect} {bound : Nat}
    (agrees : d.UnsignedBelow bound) (buf : Bytes) (val : Word) (small : val.toNat < bound) :
    writeGroups d buf val = buf ++ encodeGroups val := by
  induction buf, val using writeGroups.induct d with
  | case1 buf val more ih =>
      obtain ⟨hmore, hshr⟩ := agrees val small
      rw [hshr more, toNat_shiftRight_seven] at ih
      rw [writeGroups, if_pos more, hshr more, ih (by omega),
        encodeGroups_of_large (hmore.mp more), d.byte_eq, List.append_assoc,
        List.singleton_append]
  | case2 buf val done =>
      obtain ⟨hmore, -⟩ := agrees val small
      have low : val.toNat < 128 := Nat.lt_of_not_le fun h => done (hmore.mpr h)
      rw [writeGroups, if_neg done, encodeGroups_of_small low]

/-- `val: u64`, `(val as u8) | 0x80`. -/
def unsignedWord : WriteDialect where
  more val := 0x80#64 ≤ val
  shr val := val >>> 7
  byte val := val.setWidth 8 ||| 0x80#8
  decreases val more := by
    rw [decide_eq_true_eq, BitVec.le_def, BitVec.toNat_ofNat] at more
    rw [toNat_shiftRight_seven]
    omega
  byte_eq _ := rfl

/-- `uint64_t val`, `(uint8_t)(val | 0x80)`. -/
def unsignedWordNarrowed : WriteDialect where
  more := unsignedWord.more
  shr := unsignedWord.shr
  byte val := (val ||| 0x80#64).setWidth 8
  decreases := unsignedWord.decreases
  byte_eq _ := BitVec.setWidth_or

theorem toInt_of_sle_128 {val : Word} (more : (0x80#64).sle val) :
    val.toNat < 2 ^ 63 ∧ 128 ≤ val.toNat := by
  have signed := BitVec.toInt_eq_toNat_cond val
  have bound := val.isLt
  have low : (0x80#64).toInt = 128 := rfl
  rw [BitVec.sle_iff_toInt_le, low] at more
  split at signed <;> omega

/-- `val: i64`, compared and shifted as a signed word. -/
def signedWord : WriteDialect where
  more val := (0x80#64).sle val
  shr val := val.sshiftRight 7
  byte val := val.setWidth 8 ||| 0x80#8
  decreases val more := by
    obtain ⟨nonneg, large⟩ := toInt_of_sle_128 more
    have clear : val.msb = false := by
      rw [BitVec.msb_eq_decide, decide_eq_false_iff_not]
      omega
    rw [BitVec.sshiftRight_eq_of_msb_false clear, toNat_shiftRight_seven]
    omega
  byte_eq _ := rfl

/-- `long val`, compared as a signed word and shifted by `>>>`. -/
def signedWordLogical : WriteDialect where
  more val := (0x80#64).sle val
  shr val := val >>> 7
  byte val := (val ||| 0x80#64).setWidth 8
  decreases val more := by
    obtain ⟨nonneg, large⟩ := toInt_of_sle_128 more
    rw [toNat_shiftRight_seven]
    omega
  byte_eq _ := BitVec.setWidth_or

theorem unsignedWord_below : unsignedWord.UnsignedBelow (2 ^ 64) := fun val _ =>
  ⟨by rw [unsignedWord, decide_eq_true_eq, BitVec.le_def, BitVec.toNat_ofNat], fun _ => rfl⟩

theorem unsignedWordNarrowed_below : unsignedWordNarrowed.UnsignedBelow (2 ^ 64) :=
  unsignedWord_below

theorem sle_128_iff {val : Word} (small : val.toNat < 2 ^ 63) :
    (0x80#64).sle val = true ↔ 128 ≤ val.toNat := by
  have low : (0x80#64).toInt = 128 := rfl
  have signed := BitVec.toInt_eq_toNat_cond val
  rw [if_pos (by omega)] at signed
  rw [BitVec.sle_iff_toInt_le, low, signed]
  omega

theorem signedWord_below : signedWord.UnsignedBelow (2 ^ 63) := fun val small =>
  ⟨sle_128_iff small, fun _ => by
    have clear : val.msb = false := by
      rw [BitVec.msb_eq_decide, decide_eq_false_iff_not]
      omega
    exact BitVec.sshiftRight_eq_of_msb_false clear⟩

theorem signedWordLogical_below : signedWordLogical.UnsignedBelow (2 ^ 63) :=
  fun _ small => ⟨sle_128_iff small, fun _ => rfl⟩

/-- `write_varint` in `stream-test-krafka` (`processor.rs` and `producer.rs`). -/
def Krafka.writeVarint (buf : Bytes) (n : Word) : Bytes :=
  writeGroups unsignedWord buf (n <<< 1 ^^^ n.sshiftRight 63)

/-- `write_varint` in `stream-test-rust` (`processor.rs` and `producer.rs`). -/
def Rdkafka.writeVarint (buf : Bytes) (n : Word) : Bytes :=
  writeGroups signedWord buf (n <<< 1 ^^^ n.sshiftRight 63)

/-- `writeVarint` in `stream-test-go`; `startWorker` has the same loop inlined. -/
def Go.writeVarint (buf : Bytes) (n : Word) : Bytes :=
  writeGroups unsignedWord buf (n <<< 1 ^^^ n.sshiftRight 63)

/-- `write_varint` in `stream-test-c`, as bytes appended at the write position. -/
def C.writeVarint (buf : Bytes) (n : Word) : Bytes :=
  writeGroups unsignedWordNarrowed buf (n <<< 1 ^^^ n.sshiftRight 63)

/-- `writeVarint` in `StreamSumBenchmark`. -/
def JavaBenchmark.writeVarint (out : Bytes) (n : Word) : Bytes :=
  writeGroups signedWordLogical out (n <<< 1 ^^^ n.sshiftRight 63)

/-- The encoding every writer aims at: the shortest groups of the zig-zag word. -/
def canonical (n : Word) : Bytes := encodeGroups (zigzag n)

theorem Krafka.writeVarint_eq (buf : Bytes) (n : Word) :
    Krafka.writeVarint buf n = buf ++ canonical n :=
  writeGroups_eq_encodeGroups unsignedWord_below buf (zigzag n) (zigzag n).isLt

theorem Go.writeVarint_eq (buf : Bytes) (n : Word) :
    Go.writeVarint buf n = buf ++ canonical n :=
  writeGroups_eq_encodeGroups unsignedWord_below buf (zigzag n) (zigzag n).isLt

theorem C.writeVarint_eq (buf : Bytes) (n : Word) :
    C.writeVarint buf n = buf ++ canonical n :=
  writeGroups_eq_encodeGroups unsignedWordNarrowed_below buf (zigzag n) (zigzag n).isLt

/-- The inner half of the signed range: its zig-zag words have no sign bit. -/
def InnerHalf (n : Word) : Prop := -2 ^ 62 ≤ n.toInt ∧ n.toInt < 2 ^ 62

theorem InnerHalf.toNat_zigzag_lt {n : Word} (h : InnerHalf n) : (zigzag n).toNat < 2 ^ 63 := by
  obtain ⟨lower, upper⟩ := h
  have word := toNat_zigzag n
  split at word <;> omega

theorem Rdkafka.writeVarint_eq (buf : Bytes) {n : Word} (inner : InnerHalf n) :
    Rdkafka.writeVarint buf n = buf ++ canonical n :=
  writeGroups_eq_encodeGroups signedWord_below buf (zigzag n) inner.toNat_zigzag_lt

theorem JavaBenchmark.writeVarint_eq (out : Bytes) {n : Word} (inner : InnerHalf n) :
    JavaBenchmark.writeVarint out n = out ++ canonical n :=
  writeGroups_eq_encodeGroups signedWordLogical_below out (zigzag n) inner.toNat_zigzag_lt

/-! ## Decoding -/

/-- The shift, the byte cap and the end of input of a `read_varint`. -/
structure ReadDialect where
  shl : Word → Nat → Word
  stops : Nat → Bool
  atEnd : Word → Outcome (Word × Bytes)
  shl_eq : ∀ bits shift, shift < 64 → shl bits shift = bits <<< shift
  stops_eq : ∀ shift, shift < 64 → stops shift = false

/-- `loop { b = next; val |= (b & 0x7F) << shift; if b & 0x80 == 0 break; shift += 7 }`
and the zig-zag formula on the word read. -/
def readGroups (d : ReadDialect) : Bytes → Word → Nat → Outcome (Word × Bytes)
  | [], val, _ => d.atEnd val
  | b :: reader, val, shift =>
    let val := val ||| d.shl ((b &&& 0x7F#8).setWidth 64) shift
    if b &&& 0x80#8 = 0#8 then .ok (val >>> 1 ^^^ -(val &&& 1#64), reader)
    else if d.stops (shift + 7) then .ok (val >>> 1 ^^^ -(val &&& 1#64), reader)
    else readGroups d reader val (shift + 7)

theorem or_groups_shift (val : Word) (b : Byte) (bs : Bytes) (shift : Nat) :
    val ||| groupBits b <<< shift ||| groupsWord bs <<< (shift + 7) =
      val ||| groupsWord (b :: bs) <<< shift := by
  rw [groupsWord, BitVec.shiftLeft_or_distrib, Nat.add_comm shift 7, BitVec.shiftLeft_add,
    BitVec.or_assoc]

/-- Within ten bytes the dialects agree: the loop reads one varint. -/
theorem readGroups_loop {d : ReadDialect} {bs : Bytes} (groups : IsGroups bs) (rest : Bytes)
    (val : Word) (shift : Nat) (short : shift + 7 * bs.length ≤ 70) :
    readGroups d (bs ++ rest) val shift =
      .ok (unzigzag (val ||| groupsWord bs <<< shift), rest) := by
  induction bs generalizing val shift with
  | nil => exact groups.elim
  | cons b bs ih =>
      rw [List.length_cons] at short
      have bits : d.shl ((b &&& 0x7F#8).setWidth 64) shift = groupBits b <<< shift :=
        d.shl_eq _ _ (by omega)
      rw [IsGroups] at groups
      simp only [List.cons_append, readGroups, bits]
      split at groups
      · rename_i last
        subst groups
        rw [if_pos last, List.nil_append, ← or_groups_shift, groupsWord]
        simp [unzigzag]
      · rename_i continues
        have := groups.length_pos
        have go : d.stops (shift + 7) = false := d.stops_eq _ (by omega)
        rw [if_neg continues, go, if_neg Bool.false_ne_true, ih groups _ _ (by omega),
          or_groups_shift]

/-- The signed number that one varint spells. -/
def varintValue (bs : Bytes) : Word := unzigzag (groupsWord bs)

theorem readGroups_of_isGroups {d : ReadDialect} {bs : Bytes} (groups : IsGroups bs)
    (short : bs.length ≤ 10) (rest : Bytes) :
    readGroups d (bs ++ rest) 0#64 0 = .ok (varintValue bs, rest) := by
  rw [readGroups_loop groups rest _ _ (by omega), BitVec.zero_or, BitVec.shiftLeft_zero,
    varintValue]

theorem varintValue_canonical (n : Word) : varintValue (canonical n) = n := by
  rw [varintValue, canonical, groupsWord_encodeGroups, unzigzag_zigzag]

/-- Every dialect reads the encoding of a number back. -/
theorem readGroups_canonical (d : ReadDialect) (n : Word) (rest : Bytes) :
    readGroups d (canonical n ++ rest) 0#64 0 = .ok (n, rest) := by
  have value := varintValue_canonical n
  unfold canonical at value ⊢
  rw [readGroups_of_isGroups (isGroups_encodeGroups _) (length_encodeGroups_le _), value]

/-- A decoder consumes at least one byte, or it has run into the end of the input. -/
theorem readGroups_length_lt_or_atEnd {d : ReadDialect} {bs rest : Bytes} {val v : Word}
    {shift : Nat} (h : readGroups d bs val shift = .ok (v, rest)) :
    rest.length < bs.length ∨ ∃ val', d.atEnd val' = .ok (v, rest) := by
  induction bs generalizing val shift with
  | nil => exact .inr ⟨val, h⟩
  | cons b bs ih =>
      simp only [readGroups] at h
      rw [List.length_cons]
      split at h
      · cases h
        exact .inl (by omega)
      · split at h
        · cases h
          exact .inl (by omega)
        · rcases ih h with shorter | ended
          · exact .inl (by omega)
          · exact .inr ended

/-- A decoder that stops at the end of the input consumes at least one byte. -/
theorem readGroups_length_lt {d : ReadDialect} (stuck : ∀ val, d.atEnd val = .panic)
    {bs rest : Bytes} {val v : Word} {shift : Nat}
    (h : readGroups d bs val shift = .ok (v, rest)) : rest.length < bs.length := by
  rcases readGroups_length_lt_or_atEnd h with shorter | ⟨val', ended⟩
  · exact shorter
  · rw [stuck] at ended
    cases ended

theorem readGroups_ne_outOfFuel {d : ReadDialect} (stuck : ∀ val, d.atEnd val = .panic)
    (bs : Bytes) (val : Word) (shift : Nat) : readGroups d bs val shift ≠ .outOfFuel := by
  induction bs generalizing val shift with
  | nil =>
      rw [readGroups, stuck]
      simp
  | cons b bs ih =>
      simp only [readGroups]
      split
      · simp
      · split
        · simp
        · exact ih _ _

/-- krafka: a `u64` shift below 64, ten bytes at most, indexing panics at the end. -/
def krafkaRead : ReadDialect where
  shl bits shift := bits <<< shift
  stops shift := 64 ≤ shift
  atEnd _ := .panic
  shl_eq _ _ _ := rfl
  stops_eq shift small := decide_eq_false (by omega)

/-- rdkafka-Rust, release build: the shift amount is taken modulo 64. -/
def rdkafkaRead : ReadDialect where
  shl bits shift := bits <<< (shift % 64)
  stops _ := false
  atEnd _ := .panic
  shl_eq bits shift small := by rw [Nat.mod_eq_of_lt small]
  stops_eq _ _ := rfl

/-- Go: a shift of 64 or more gives zero, indexing panics at the end. -/
def goRead : ReadDialect where
  shl bits shift := bits <<< shift
  stops _ := false
  atEnd _ := .panic
  shl_eq _ _ _ := rfl
  stops_eq _ _ := rfl

/-- C: `while (*data < end)` leaves the loop with the word read so far.  A shift of
64 or more is undefined in C; the model gives what x86-64 and AArch64 compute. -/
def cRead : ReadDialect where
  shl bits shift := bits <<< (shift % 64)
  stops _ := false
  atEnd val := .ok (val >>> 1 ^^^ -(val &&& 1#64), [])
  shl_eq bits shift small := by rw [Nat.mod_eq_of_lt small]
  stops_eq _ _ := rfl

/-- `StreamSumBenchmark`: the JVM masks the shift, `if (b == -1) return 0`. -/
def javaBenchmarkRead : ReadDialect where
  shl bits shift := bits <<< (shift % 64)
  stops _ := false
  atEnd _ := .ok (0#64, [])
  shl_eq bits shift small := by rw [Nat.mod_eq_of_lt small]
  stops_eq _ _ := rfl

/-- Scala `StreamSumApp`: the JVM masks the shift, the loop ends with `0L` at -1. -/
def scalaRead : ReadDialect where
  shl bits shift := bits <<< (shift % 64)
  stops _ := false
  atEnd _ := .ok (0#64, [])
  shl_eq bits shift small := by rw [Nat.mod_eq_of_lt small]
  stops_eq _ _ := rfl

/-- `read_varint` in `stream-test-krafka` (`processor.rs` and `consumer.rs`). -/
def Krafka.readVarint (reader : Bytes) : Outcome (Word × Bytes) :=
  readGroups krafkaRead reader 0#64 0

/-- `read_varint` in `stream-test-rust` (`processor.rs` and `consumer.rs`). -/
def Rdkafka.readVarint (reader : Bytes) : Outcome (Word × Bytes) :=
  readGroups rdkafkaRead reader 0#64 0

/-- `readVarint` in `stream-test-go`, on the bytes from `pos` on; `startWorker` has
the same loop inlined four times. -/
def Go.readVarint (data : Bytes) : Outcome (Word × Bytes) :=
  readGroups goRead data 0#64 0

/-- `read_varint` in `stream-test-c`, on the bytes between `*data` and `end`. -/
def C.readVarint (data : Bytes) : Outcome (Word × Bytes) :=
  readGroups cRead data 0#64 0

/-- `readVarint` in `StreamSumBenchmark`. -/
def JavaBenchmark.readVarint (input : Bytes) : Outcome (Word × Bytes) :=
  readGroups javaBenchmarkRead input 0#64 0

/-- `readVarint` in the Scala `StreamSumApp`. -/
def ScalaApp.readVarint (input : Bytes) : Outcome (Word × Bytes) :=
  readGroups scalaRead input 0#64 0

end KafkaTest
