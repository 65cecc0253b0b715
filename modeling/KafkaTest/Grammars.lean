import KafkaTest.Endpoints
import KafkaTest.KrafkaGrammar

/-!
# What the strict decode loops accept

The loops of Go, rdkafka-Rust, Python and Ruby raise at the end of the payload, and take
varints of any length.  Their formats have the same items, and differ in what an item of more
than 64 bits is worth: Go drops the bits beyond, rdkafka-Rust puts them at the bottom of the
word, and Python and Ruby keep them.

* `words_accept_grammar`, `unbounded_accept_grammar`: each loop returns exactly on the payloads
  of its format, and calls `read_varint` once for each byte of the payload, and once more, at
  most.
* `go_follows_python`, `go_rdkafka_agree`: on payloads without such items the loops agree,
  malformed or not.
-/

namespace KafkaTest

/-! ## Items -/

/-- The payloads of Go: all bits beyond the word are dropped. -/
def goFormat : BlockFormat Byte Word where
  IsItem := IsGroups
  IsCut := Continues
  value := varintValue
  headers := indexedFormat.headers
  turns := indexedFormat.turns
  ne_nil := IsGroups.ne_nil
  split := indexedFormat.split

/-- The payloads of Python and Ruby. -/
def unboundedFormat : BlockFormat Byte Int where
  IsItem := IsGroups
  IsCut := Continues
  value bs := unzigzagNat (groupsNat bs)
  headers count := if count < 0 then 1 else 0
  turns := Int.natAbs
  ne_nil := IsGroups.ne_nil
  split := indexedFormat.split

namespace Go

theorem readGroups_of_isGroups {bs : Bytes} (groups : IsGroups bs) (rest : Bytes) (val : Word)
    (shift : Nat) :
    readGroups goRead (bs ++ rest) val shift =
      .ok (unzigzag (val ||| groupsWord bs <<< shift), rest) := by
  induction bs generalizing val shift with
  | nil => exact groups.elim
  | cons b bs ih =>
      rw [List.cons_append, ← or_groups_shift]
      by_cases last : b &&& 0x80#8 = 0#8
      · rw [IsGroups, if_pos last] at groups
        subst groups
        simp [readGroups, last, goRead, groupsWord, groupBits, unzigzag]
      · rw [isGroups_cons_of_continues last] at groups
        have goesOn : goRead.stops (shift + 7) = false := rfl
        rw [readGroups, if_neg last, goesOn, if_neg Bool.false_ne_true, ih groups]
        rfl

theorem readsItems : goFormat.ReadsItems readVarint := by
  intro item rest groups
  have read := readGroups_of_isGroups groups rest 0#64 0
  rwa [BitVec.zero_or, BitVec.shiftLeft_zero] at read

/-- What continues to the end of the payload panics. -/
theorem strict (cut : Bytes) (continues : goFormat.IsCut cut) (r : Word × Bytes) :
    readVarint cut ≠ .ok r := by
  have panics : ∀ val shift, readGroups goRead cut val shift = .panic := by
    induction cut with
    | nil => exact fun _ _ => rfl
    | cons b cut ih =>
        intro val shift
        obtain ⟨goesOn, continues⟩ := continues_cons.mp continues
        have more : goRead.stops (shift + 7) = false := rfl
        rw [readGroups, if_neg goesOn, more, if_neg Bool.false_ne_true]
        exact ih continues _ _
  unfold readVarint
  rw [panics]
  simp

end Go

namespace Rdkafka

theorem masked : rdkafkaRead.Masked := ⟨fun _ _ => rfl, fun _ => rfl⟩

theorem readsItems : indexedFormat.ReadsItems readVarint := by
  intro item rest groups
  have read := readGroups_of_isGroups_masked masked groups rest 0#64 0
  rwa [BitVec.zero_or] at read

theorem strict (cut : Bytes) (continues : indexedFormat.IsCut cut) (r : Word × Bytes) :
    readVarint cut ≠ .ok r := by
  have panics := readGroups_of_cut masked continues 0#64 0
  unfold readVarint
  rw [panics]
  simp [rdkafkaRead]

end Rdkafka

namespace Python

theorem readsItems : unboundedFormat.ReadsItems readVarint := by
  intro item rest groups
  rw [readVarint, readGroups_of_isGroups groups, Outcome.ok_bind, Nat.shiftLeft_zero,
    Nat.zero_or]
  rfl

/-- An index past the end raises. -/
theorem strict (cut : Bytes) (continues : unboundedFormat.IsCut cut) (r : Int × Bytes) :
    readVarint cut ≠ .ok r := by
  have raises : ∀ val shift, readGroups cut val shift = .panic := by
    induction cut with
    | nil => exact fun _ _ => rfl
    | cons b cut ih =>
        intro val shift
        obtain ⟨goesOn, continues⟩ := continues_cons.mp continues
        rw [ne_eq, and_continue_eq_zero_iff, ← toNat_and_continue] at goesOn
        rw [readGroups, if_neg goesOn]
        exact ih continues _ _
  unfold readVarint
  rw [raises]
  simp

end Python

/-! ## Loops -/

/-- The body with a 64-bit index skips the byte size and adds up the elements, for any count. -/
theorem sumsBlocks_bodyRanged {f : BlockFormat Byte Word}
    (headers : f.headers = indexedFormat.headers) (turns : f.turns = indexedFormat.turns)
    (read : Bytes → Outcome (Word × Bytes)) :
    f.SumsBlocks read (bodyRanged read wrappingAdd) fun _ => True := by
  intro count sum s r
  unfold bodyRanged skipByteSize
  rw [Outcome.bind_eq_ok, headers, turns]
  simp only [skipIf_eq_ok_iff, sumTimes_wrappingAdd_eq_ok_iff]
  constructor
  · intro found
    obtain ⟨t, ⟨header, headerLength, skipped⟩, elements, length, finds, added⟩ := found
    exact ⟨trivial, header, elements, headerLength, length, skipped.append finds, added⟩
  · intro found
    obtain ⟨-, header, elements, headerLength, length, finds, added⟩ := found
    obtain ⟨t, skipped, finds⟩ := finds.of_append
    exact ⟨t, ⟨header, headerLength, skipped⟩, elements, length, finds, added⟩

theorem Python.sumsBlocks : unboundedFormat.SumsBlocks readVarint body fun _ => True := by
  intro count sum s r
  unfold body
  rw [Outcome.bind_eq_ok]
  simp only [skipIf_eq_ok_iff, sumTimes_eq_ok_iff, IntegerList.addAll_exactAdd,
    Outcome.ok.injEq, decide_eq_true_eq]
  constructor
  · intro found
    obtain ⟨t, ⟨header, headerLength, skipped⟩, elements, length, finds, added⟩ := found
    exact ⟨trivial, header, elements, headerLength, length, skipped.append finds, added.symm⟩
  · intro found
    obtain ⟨-, header, elements, headerLength, length, finds, added⟩ := found
    obtain ⟨t, skipped, finds⟩ := finds.of_append
    exact ⟨t, ⟨header, headerLength, skipped⟩, elements, length, finds, added.symm⟩

theorem Go.decodeSum_eq_ok_iff {payload : Bytes} {r : Word × Bytes} :
    Go.decodeSum wrappingAdd payload = .ok r ↔
      ∃ elements, goFormat.Stops payload elements r.2 ∧ r.1 = goFormat.total elements :=
  BlockFormat.blocksFrom_eq_ok_iff_stops Go.strict Go.readsItems
    (sumsBlocks_bodyRanged rfl rfl _) (Nat.lt_succ_self _)

theorem Rdkafka.decodeSum_eq_ok_iff {payload : Bytes} {r : Word × Bytes} :
    Rdkafka.decodeSum wrappingAdd payload = .ok r ↔
      ∃ elements, indexedFormat.Stops payload elements r.2 ∧ r.1 = indexedFormat.total elements :=
  BlockFormat.blocksFrom_eq_ok_iff_stops Rdkafka.strict Rdkafka.readsItems
    (sumsBlocks_bodyRanged rfl rfl _) (Nat.lt_succ_self _)

theorem Python.decodeSum_eq_ok_iff {payload : Bytes} {r : Int × Bytes} :
    Python.decodeSum payload = .ok r ↔
      ∃ elements, unboundedFormat.Stops payload elements r.2 ∧
        r.1 = unboundedFormat.total elements :=
  BlockFormat.blocksFrom_eq_ok_iff_stops Python.strict Python.readsItems Python.sumsBlocks
    (Nat.lt_succ_self _)

/-! ## Counted calls -/

section Calls

variable {V : Type} [DecidableEq V]

/-- A decode loop that skips a byte size, with so many calls of `read_varint` to make. -/
def decodeWithin (read : Bytes → Outcome (V × Bytes)) (add : V → V → Outcome V) (zero : V)
    (skips : V → Bool) (turns : V → Nat) (calls : Nat) (payload : Bytes) :
    Outcome (V × (Bytes × Nat)) :=
  blocksFrom (metered read) zero
    (fun count sum s => skipIf (metered read) (skips count) s >>= fun s =>
      sumTimes (metered read) add (turns count) sum s)
    (payload.length + 1) zero (payload, calls)

theorem spares_decodeWithin {read : Bytes → Outcome (V × Bytes)} {add : V → V → Outcome V}
    (shrinks : ∀ s v t, read s = .ok (v, t) → t.length < s.length) (zero : V) (skips : V → Bool)
    (turns : V → Nat) (payload : Bytes) :
    Spares List.length
      (blocksFrom read zero (fun count sum s => skipIf read (skips count) s >>= fun s =>
        sumTimes read add (turns count) sum s) (payload.length + 1) zero payload)
      (decodeWithin read add zero skips turns (payload.length + 1) payload) :=
  spares_blocksFrom shrinks
    (fun count sum _ _ spare =>
      spares_skipIf_sumTimes shrinks (skips count) (turns count) sum spare)
    _ _ (Nat.lt_succ_self _)

end Calls

/-- The loop of a worker with 64-bit words. -/
def decodeSumWithin (read : Bytes → Outcome (Word × Bytes)) : Nat → Bytes →
    Outcome (Word × (Bytes × Nat)) :=
  decodeWithin read wrappingAdd 0#64 (fun count => count.slt 0#64)
    fun count => (absCount count).toInt.toNat

/-- The loop of the Python worker, and of the Ruby worker. -/
def Python.decodeSumWithin : Nat → Bytes → Outcome (Int × (Bytes × Nat)) :=
  decodeWithin readVarint exactAdd 0 (fun count => decide (count < 0)) Int.natAbs

/-- A decode loop accepts a grammar: it returns or panics, it does so within so many calls, and
it returns exactly at the stop of a payload, with the sum of the elements, whatever follows. -/
structure Accepts {V : Type} [AddMonoid V] (f : BlockFormat Byte V)
    (decode : Bytes → Outcome (V × Bytes)) (within : Nat → Bytes → Outcome (V × (Bytes × Nat)))
    (payload : Bytes) : Prop where
  ends : decode payload = .panic ∨ ∃ r, decode payload = .ok r
  calls : (within (payload.length + 1) payload >>= fun r => .ok (r.1, r.2.1)) = decode payload
  returns : ∀ sum rest, decode payload = .ok (sum, rest) ↔
    ∃ accepted elements, payload = accepted ++ rest ∧ f.Stops accepted elements [] ∧
      sum = f.total elements

theorem Accepts.of_stops {V : Type} [AddMonoid V] {f : BlockFormat Byte V}
    {decode : Bytes → Outcome (V × Bytes)} {within : Nat → Bytes → Outcome (V × (Bytes × Nat))}
    {payload : Bytes} (total : decode payload ≠ .outOfFuel)
    (spares : Spares List.length (decode payload) (within (payload.length + 1) payload))
    (stops : ∀ r, decode payload = .ok r ↔
      ∃ elements, f.Stops payload elements r.2 ∧ r.1 = f.total elements) :
    Accepts f decode within payload := by
  refine ⟨?_, spares.forget, fun sum rest => ?_⟩
  · cases outcome : decode payload with
    | ok r => exact .inr ⟨r, rfl⟩
    | panic => exact .inl rfl
    | outOfFuel => exact (total outcome).elim
  · rw [stops]
    constructor
    · intro found
      obtain ⟨elements, found, added⟩ := found
      obtain ⟨accepted, split, found⟩ := BlockFormat.stops_iff.mp found
      exact ⟨accepted, elements, split, found, added⟩
    · intro begins
      obtain ⟨accepted, elements, split, found, added⟩ := begins
      exact ⟨elements, BlockFormat.stops_iff.mpr ⟨accepted, split, found⟩, added⟩

/-- **Go and rdkafka-Rust accept their grammars.** -/
theorem words_accept_grammar (payload : Bytes) :
    Accepts goFormat (Go.decodeSum wrappingAdd) (decodeSumWithin Go.readVarint) payload ∧
    Accepts indexedFormat (Rdkafka.decodeSum wrappingAdd) (decodeSumWithin Rdkafka.readVarint)
      payload := by
  have go : ∀ s v t, Go.readVarint s = .ok (v, t) → t.length < s.length :=
    fun _ _ _ => readGroups_length_lt (d := goRead) fun _ => rfl
  have rdkafka : ∀ s v t, Rdkafka.readVarint s = .ok (v, t) → t.length < s.length :=
    fun _ _ _ => readGroups_length_lt (d := rdkafkaRead) fun _ => rfl
  constructor
  · exact .of_stops (Go.decodeSum_ne_outOfFuel payload) (spares_decodeWithin go _ _ _ payload)
      fun _ => Go.decodeSum_eq_ok_iff
  · exact .of_stops (Rdkafka.decodeSum_ne_outOfFuel payload)
      (spares_decodeWithin rdkafka _ _ _ payload) fun _ => Rdkafka.decodeSum_eq_ok_iff

/-- **Python and Ruby accept the grammar without a word size.** -/
theorem unbounded_accept_grammar (payload : Bytes) :
    Accepts unboundedFormat Python.decodeSum Python.decodeSumWithin payload ∧
    Accepts unboundedFormat Ruby.decodeSum Python.decodeSumWithin payload := by
  have python : Accepts unboundedFormat Python.decodeSum Python.decodeSumWithin payload :=
    .of_stops (Python.decodeSum_ne_outOfFuel payload)
      (spares_decodeWithin Python.readVarint_length_lt _ _ _ payload)
      fun _ => Python.decodeSum_eq_ok_iff
  exact ⟨python, python⟩

/-! ## Where the loops agree -/

/-- The remainder modulo 2^64. -/
def wordOfInt : Int →+ Word where
  toFun := BitVec.ofInt 64
  map_zero' := rfl
  map_add' := BitVec.ofInt_add

/-- A varint of 64 bits spells the same number in a word and without a word size. -/
theorem varintValue_of_exact {bs : Bytes} (exact : groupsNat bs < 2 ^ 64) :
    (varintValue bs).toInt = unzigzagNat (groupsNat bs) := by
  have word : zigzag (varintValue bs) = groupsWord bs := zigzag_unzigzag _
  have number := unzigzagNat_zigzagNat (varintValue bs).toInt
  rwa [zigzagNat_toInt, word, toNat_groupsWord, Nat.mod_eq_of_lt exact, eq_comm] at number

/-- Every count but the smallest has its absolute value in the word. -/
theorem toNat_absCount {n : Word} (inside : n.toInt ≠ -2 ^ 63) :
    (absCount n).toInt.toNat = n.toInt.natAbs := by
  have lower := BitVec.le_toInt n
  have upper := BitVec.toInt_lt (x := n)
  rw [absCount]
  by_cases negative : n.slt 0#64
  · rw [if_pos negative]
    rw [BitVec.slt_iff_toInt_lt, BitVec.toInt_zero] at negative
    rw [BitVec.toInt_neg, Int.bmod_eq_of_le (by omega) (by omega)]
    omega
  · rw [if_neg negative]
    rw [BitVec.slt_iff_toInt_lt, BitVec.toInt_zero] at negative
    omega

/-- The formats with and without a word size agree where no varint has a bit beyond 64, and no
count is the smallest number. -/
theorem agrees_unbounded_go {payload : Bytes}
    (exact : ∀ item, item <:+: payload → IsGroups item → groupsNat item < 2 ^ 64)
    (counts : ∀ n, unboundedFormat.CountAt payload n → n ≠ -2 ^ 63) :
    unboundedFormat.Agrees goFormat wordOfInt payload := by
  have word : ∀ {item}, item <:+: payload → IsGroups item →
      wordOfInt (unzigzagNat (groupsNat item)) = varintValue item := by
    intro item inside groups
    rw [← varintValue_of_exact (exact item inside groups)]
    exact BitVec.ofInt_toInt
  have count : ∀ {n}, unboundedFormat.CountAt payload n → (wordOfInt n).toInt = n := by
    intro n found
    obtain ⟨bs, ns, elements, item, rest, split, -, isItem, rfl⟩ := found
    have inside : item <:+: payload := by
      rw [split]
      exact List.infix_append' _ _ _
    have value : unboundedFormat.value item = unzigzagNat (groupsNat item) := rfl
    rw [value, word inside isItem]
    exact varintValue_of_exact (exact item inside isItem)
  constructor
  · exact fun _ => Iff.rfl
  · exact fun inside groups => (word inside groups).symm
  · intro item inside groups
    have same := varintValue_of_exact (exact item inside groups)
    have value : unboundedFormat.value item = unzigzagNat (groupsNat item) := rfl
    rw [value, word inside groups, ← same]
    constructor
    · intro zero
      rw [zero]
      rfl
    · intro zero
      exact BitVec.eq_of_toInt_eq zero
  · intro n found
    have same := count found
    simp only [goFormat, indexedFormat, unboundedFormat, BitVec.slt_iff_toInt_lt,
      BitVec.toInt_zero, same]
  · intro n found
    have same := count found
    have turns := toNat_absCount (n := wordOfInt n) (by rw [same]; exact counts n found)
    rwa [same] at turns

/-- **Go follows Python on any payload** in which no varint has a bit beyond 64 and no count is
the smallest 64-bit number: whatever else is wrong with it, one loop returns exactly if the
other does, with the remainder of the exact sum, and leaves the same bytes. -/
theorem go_follows_python {payload : Bytes}
    (exact : ∀ item, item <:+: payload → IsGroups item → groupsNat item < 2 ^ 64)
    (counts : ∀ n, unboundedFormat.CountAt payload n → n ≠ -2 ^ 63) (sum : Word) (rest : Bytes) :
    Go.decodeSum wrappingAdd payload = .ok (sum, rest) ↔
      ∃ total, Python.decodeSum payload = .ok (total, rest) ∧ sum = BitVec.ofInt 64 total := by
  have agrees := agrees_unbounded_go exact counts
  simp only [Go.decodeSum_eq_ok_iff, Python.decodeSum_eq_ok_iff]
  constructor
  · intro go
    obtain ⟨elements, stops, rfl⟩ := go
    have found := agrees.stops_iff.mpr stops
    exact ⟨_, ⟨elements, found, rfl⟩, agrees.total found⟩
  · intro python
    obtain ⟨total, ⟨elements, found, rfl⟩, rfl⟩ := python
    exact ⟨elements, agrees.stops_iff.mp found, (agrees.total found).symm⟩

/-- Nine bytes spell no number that large. -/
theorem exact_of_length {payload : Bytes} (short : payload.length ≤ 9) :
    (∀ item, item <:+: payload → IsGroups item → groupsNat item < 2 ^ 63) ∧
      ∀ n, unboundedFormat.CountAt payload n → n ≠ -2 ^ 63 := by
  have small : ∀ item, item <:+: payload → IsGroups item → groupsNat item < 2 ^ 63 := by
    intro item inside _
    calc groupsNat item < 128 ^ item.length := groupsNat_lt item
      _ ≤ 128 ^ 9 := Nat.pow_le_pow_right (by omega) (inside.length_le.trans short)
      _ = 2 ^ 63 := by norm_num
  refine ⟨small, fun n found smallest => ?_⟩
  obtain ⟨bs, ns, elements, item, rest, rfl, -, isItem, value⟩ := found
  have bound := small item (List.infix_append' _ _ _) isItem
  have number : (varintValue item).toInt = n :=
    (varintValue_of_exact (by omega)).trans value
  have word : (zigzag (varintValue item)).toNat = groupsNat item := by
    have same : zigzag (varintValue item) = groupsWord item := zigzag_unzigzag _
    rw [same, toNat_groupsWord, Nat.mod_eq_of_lt (by omega)]
  have zigzagged := toNat_zigzag (varintValue item)
  rw [number, smallest, word] at zigzagged
  split at zigzagged <;> omega

/-- A list with a byte size, and a byte behind it that continues. -/
theorem go_follows_python_block :
    Go.decodeSum wrappingAdd [0x01#8, 0x02#8, 0x0A#8, 0x00#8, 0x80#8] = .ok (5#64, [0x80#8]) := by
  have short : [0x01#8, 0x02#8, 0x0A#8, 0x00#8, 0x80#8].length ≤ 9 := by decide
  obtain ⟨exact, counts⟩ := exact_of_length short
  refine (go_follows_python (fun item inside groups => ?_) counts 5#64 [0x80#8]).mpr
    ⟨5, by decide +kernel, by decide⟩
  have := exact item inside groups
  omega

/-- **Go and rdkafka-Rust agree on any payload** without a varint of more than ten bytes: they
return the same sum and leave the same bytes, or both panic. -/
theorem go_rdkafka_agree {payload : Bytes}
    (short : ∀ item, item <:+: payload → IsGroups item → item.length ≤ 10) :
    Go.decodeSum wrappingAdd payload = Rdkafka.decodeSum wrappingAdd payload := by
  have agrees : goFormat.Agrees indexedFormat (AddMonoidHom.id Word) payload :=
    ⟨fun _ => Iff.rfl,
      fun inside groups => maskedValue_eq_varintValue (short _ inside groups),
      fun _ _ => Iff.rfl, fun _ => rfl, fun _ => rfl⟩
  have same : ∀ r, Go.decodeSum wrappingAdd payload = .ok r ↔
      Rdkafka.decodeSum wrappingAdd payload = .ok r := by
    intro r
    rw [Go.decodeSum_eq_ok_iff, Rdkafka.decodeSum_eq_ok_iff]
    apply exists_congr
    intro elements
    rw [agrees.stops_iff]
    apply and_congr_right
    intro stops
    have total : indexedFormat.total elements = goFormat.total elements :=
      agrees.total (agrees.stops_iff.mpr stops)
    rw [total]
  obtain ⟨go, rdkafka⟩ := words_accept_grammar payload
  rcases go.ends with panics | ⟨r, returns⟩
  · rcases rdkafka.ends with panics' | ⟨r, returns⟩
    · rw [panics, panics']
    · rw [(same r).mpr returns, returns]
  · rw [returns, (same r).mp returns]

/-- A list that is cut: both panic. -/
theorem go_rdkafka_agree_cut :
    Go.decodeSum wrappingAdd [0x02#8, 0x86#8] = Rdkafka.decodeSum wrappingAdd [0x02#8, 0x86#8] :=
  go_rdkafka_agree fun _ inside _ => inside.length_le.trans (by decide)

end KafkaTest
