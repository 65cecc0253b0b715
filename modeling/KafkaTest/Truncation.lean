import KafkaTest.EndOfInput

/-!
# Truncated payloads

What becomes of a payload that ends before its zero count depends on the decoder.

* The Java `StreamSumApp` waits for a byte that ends its varint: `app_follows_benchmark_iff`
  says that it agrees with `StreamSumBenchmark` exactly where a zero count is reached.
* C keeps the bits of a cut varint, `StreamSumBenchmark` drops them:
  `c_benchmark_agree_iff` says that their sums are the same exactly where these bits add
  nothing to an element.
-/

namespace KafkaTest

/-! ## The Java `StreamSumApp` -/

/-- `ByteArrayInputStream.read`: the next byte as an `int`, -1 at the end. -/
def inputRead : Bytes → BitVec 32 × Bytes
  | [] => (-1#32, [])
  | b :: input => (b.setWidth 32, input)

namespace JavaApp

/-- `while (true) { b = in.read(); val |= (b & 0x7F) << shift; if ((b & 0x80) == 0) break;
shift += 7; }` and the zig-zag formula on the word read; the JVM masks the shift. -/
def readLoop : Nat → Bytes → Word → Nat → Outcome (Word × Bytes)
  | 0, _, _, _ => .outOfFuel
  | fuel + 1, input, val, shift =>
    let (b, input) := inputRead input
    let val := val ||| (b &&& 0x7F#32).setWidth 64 <<< (shift % 64)
    if b &&& 0x80#32 = 0#32 then .ok (val >>> 1 ^^^ -(val &&& 1#64), input)
    else readLoop fuel input val (shift + 7)

/-- `readVarint` in the Java `StreamSumApp`. -/
def readVarint (fuel : Nat) (input : Bytes) : Outcome (Word × Bytes) :=
  readLoop fuel input 0#64 0

/-- The Java `StreamSumApp`: the decode-sum loop of a worker. -/
def decodeSum (add : Word → Word → Outcome Word) (fuel : Nat) (payload : Bytes) :
    Outcome (Word × Bytes) :=
  decodeFrom (readVarint fuel) (bodyIndexed (readVarint fuel) add jvmIndex fuel) fuel payload

/-- The low bits of a byte are the same in an `int`. -/
theorem setWidth_and_low (b : Byte) : (b.setWidth 32 &&& 0x7F#32).setWidth 64 = groupBits b := by
  revert b
  decide +kernel

theorem setWidth_and_continue (b : Byte) :
    b.setWidth 32 &&& 0x80#32 = 0#32 ↔ b &&& 0x80#8 = 0#8 := by
  revert b
  decide +kernel

/-- One turn on a byte. -/
theorem readLoop_cons (fuel : Nat) (b : Byte) (input : Bytes) (val : Word) (shift : Nat) :
    readLoop (fuel + 1) (b :: input) val shift =
      if b &&& 0x80#8 = 0#8 then
        .ok (unzigzag (val ||| groupBits b <<< (shift % 64)), input)
      else readLoop fuel input (val ||| groupBits b <<< (shift % 64)) (shift + 7) := by
  simp only [readLoop, inputRead, setWidth_and_low, setWidth_and_continue, unzigzag]

/-- At the end of the input -1 is taken for a byte that continues. -/
theorem readLoop_nil (fuel : Nat) (val : Word) (shift : Nat) :
    readLoop fuel [] val shift = .outOfFuel := by
  induction fuel generalizing val shift with
  | zero => rfl
  | succ fuel ih =>
      have continues : -1#32 &&& 0x80#32 ≠ 0#32 := by decide
      rw [readLoop, inputRead]
      dsimp only
      rw [if_neg continues]
      exact ih _ _

theorem readLoop_of_isGroups {bs : Bytes} (groups : IsGroups bs) (rest : Bytes) {fuel : Nat}
    (enough : bs.length ≤ fuel) (val : Word) (shift : Nat) :
    readLoop fuel (bs ++ rest) val shift =
      .ok (unzigzag (val ||| maskedWord bs shift), rest) := by
  induction bs generalizing fuel val shift with
  | nil => exact groups.elim
  | cons b bs ih =>
      rw [List.length_cons] at enough
      obtain ⟨fuel, rfl⟩ := Nat.exists_eq_succ_of_ne_zero (by omega : fuel ≠ 0)
      rw [List.cons_append, readLoop_cons]
      by_cases last : b &&& 0x80#8 = 0#8
      · rw [IsGroups, if_pos last] at groups
        rw [if_pos last, groups, maskedWord, maskedWord, BitVec.or_zero, List.nil_append]
      · rw [isGroups_cons_of_continues last] at groups
        rw [if_neg last, ih groups (by omega), maskedWord, BitVec.or_assoc]

/-- No end of a varint within the fuel. -/
theorem readLoop_of_continues {input : Bytes} {fuel : Nat} (continues : Continues (input.take fuel))
    (val : Word) (shift : Nat) : readLoop fuel input val shift = .outOfFuel := by
  induction fuel generalizing input val shift with
  | zero => rfl
  | succ fuel ih =>
      cases input with
      | nil => exact readLoop_nil _ _ _
      | cons b input =>
          obtain ⟨goesOn, continues⟩ := continues_cons.mp continues
          rw [readLoop_cons, if_neg goesOn]
          exact ih continues _ _

theorem readsItems (fuel : Nat) : (indexedFormat.upTo fuel).ReadsItems (readVarint fuel) := by
  intro item rest isItem
  unfold readVarint
  rw [readLoop_of_isGroups isItem.1 rest isItem.2, BitVec.zero_or]
  rfl

/-- Nothing is read of a varint that does not end in time. -/
theorem strict (fuel : Nat) (cut : Bytes) (isCut : (indexedFormat.upTo fuel).IsCut cut)
    (r : Word × Bytes) : readVarint fuel cut ≠ .ok r := by
  have continues : Continues (cut.take fuel) := by
    rcases isCut with continues | ⟨item, rest, rfl, groups, long⟩
    · exact Continues.take continues fuel
    · rw [List.take_append_of_le_length (Nat.le_of_lt long)]
      exact IsGroups.continues_take groups long
  unfold readVarint
  rw [readLoop_of_continues continues]
  simp

theorem sumsBlocks (fuel : Nat) : (indexedFormat.upTo fuel).SumsBlocks (readVarint fuel)
    (bodyIndexed (readVarint fuel) wrappingAdd jvmIndex fuel) (IndexFits fuel) :=
  sumsBlocks_bodyIndexed rfl rfl _ _ fuel

/-- The loop returns only at a zero count. -/
theorem stops_of_decodeSum {fuel : Nat} {payload : Bytes} {r : Word × Bytes}
    (returns : decodeSum wrappingAdd fuel payload = .ok r) :
    ∃ elements, indexedFormat.Stops payload elements r.2 := by
  obtain ⟨bs, counts, elements, zero, split, blocks, item, value, -⟩ :=
    (BlockFormat.blocksFrom_eq_ok_iff_of_strict (strict fuel) (readsItems fuel)
      (sumsBlocks fuel)).mp returns
  exact ⟨elements, bs, counts, zero, split, blocks.of_upTo, item.1, value⟩

/-- With fuel for its varints and its counts, it does return there. -/
theorem decodeSum_of_stops {payload rest : Bytes} {elements : List Bytes} {fuel : Nat}
    (stops : indexedFormat.Stops payload elements rest) (long : payload.length < fuel)
    (fits : ∀ n, indexedFormat.CountAt payload n → IndexFits fuel n) :
    decodeSum wrappingAdd fuel payload = .ok (indexedFormat.total elements, rest) := by
  obtain ⟨bs, counts, zero, rfl, blocks, item, value⟩ := stops
  simp only [List.length_append] at long
  have := blocks.length_counts_le
  have stop : decodeSum wrappingAdd fuel (bs ++ (zero ++ rest)) =
      .ok (0#64 + indexedFormat.total elements, rest) :=
    (BlockFormat.blocksFrom_stop_eq_ok_iff (readsItems fuel) (sumsBlocks fuel)
      (blocks.upTo (by omega)) ⟨item, by omega⟩ value).mpr
      ⟨fun n member => fits n (blocks.countAt member), by omega, rfl⟩
  rwa [BitVec.zero_add] at stop

end JavaApp

/-- **Where `StreamSumApp` follows the benchmark.**  On a payload for which the loop of
`StreamSumBenchmark` returns, the loop of the Java `StreamSumApp` returns the same sum
exactly if the payload comes to a zero count. -/
theorem app_follows_benchmark_iff {payload : Bytes} {fuel : Nat} {sum : Word} {left : Bytes}
    (benchmark : JavaBenchmark.decodeSum wrappingAdd fuel payload = .ok (sum, left)) :
    (∃ fuel' left', JavaApp.decodeSum wrappingAdd fuel' payload = .ok (sum, left')) ↔
      ∃ elements rest, indexedFormat.Stops payload elements rest := by
  have on := readsOn_javaBenchmarkRead
  constructor
  · intro returns
    obtain ⟨fuel', left', returns⟩ := returns
    obtain ⟨elements, stops⟩ := JavaApp.stops_of_decodeSum returns
    exact ⟨elements, left', stops⟩
  · intro found
    obtain ⟨elements, rest, stops⟩ := found
    have same := stops.eq_of_ok on.readsItems (javaBenchmarkRead.sumsBlocks _ fuel) benchmark
    have fit : CountsFit payload :=
      ((terminates_iff_of_zero on payload).mp ⟨fuel, by
        rw [← JavaBenchmark.decodeSum_eq, benchmark]
        simp⟩)
    have total : sum = indexedFormat.total elements := by
      rw [BitVec.zero_add] at same
      exact congrArg Prod.fst same
    exact ⟨payload.length + 2 ^ 31, rest, total ▸
      JavaApp.decodeSum_of_stops stops (by omega) fun n => fit.indexFits⟩

/-- The list `[5]`, with a byte behind it. -/
theorem app_follows_benchmark_iff_complete :
    ∃ fuel left, JavaApp.decodeSum wrappingAdd fuel [0x02#8, 0x0A#8, 0x00#8, 0x80#8] =
      .ok (5#64, left) := by
  have benchmark : JavaBenchmark.decodeSum wrappingAdd 8 [0x02#8, 0x0A#8, 0x00#8, 0x80#8] =
      .ok (5#64, [0x80#8]) := by decide +kernel
  have count : IsGroups [0x02#8] := by decide
  have element : IsGroups [0x0A#8] := by decide
  have zero : IsGroups [0x00#8] := by decide
  have block : indexedFormat.Blocks ([0x02#8] ++ ([].flatten ++ ([[0x0A#8]].flatten ++ [])))
      [maskedValue [0x02#8]] ([[0x0A#8]] ++ []) :=
    .cons count (by decide) (List.forall_mem_nil _) (List.forall_mem_singleton.mpr element) rfl rfl
      .nil
  exact (app_follows_benchmark_iff benchmark).mpr
    ⟨_, [0x80#8], _, _, [0x00#8], rfl, block, zero, by decide⟩

/-- The empty payload: the benchmark finds a zero count, `StreamSumApp` waits forever. -/
theorem app_waits :
    (∃ fuel, JavaBenchmark.decodeSum wrappingAdd fuel [] = .ok (0#64, [])) ∧
      ∀ fuel, JavaApp.decodeSum wrappingAdd fuel [] = .outOfFuel := by
  refine ⟨⟨1, by decide⟩, fun fuel => ?_⟩
  unfold JavaApp.decodeSum decodeFrom JavaApp.readVarint
  rw [JavaApp.readLoop_nil]
  rfl

/-! ## C and the benchmark -/

theorem unzigzag_eq_zero_iff (z : Word) : unzigzag z = 0#64 ↔ z = 0#64 := by
  constructor
  · intro zero
    rw [← zigzag_unzigzag z, zero]
    decide
  · intro zero
    rw [zero]
    decide

/-- No byte has a bit that reaches the word. -/
def Blank (cut : Bytes) : Prop :=
  ∀ i b, cut[i]? = some b → groupBits b <<< (7 * i) = 0#64

theorem maskedWord_eq_zero_iff (bs : Bytes) (shift : Nat) :
    maskedWord bs shift = 0#64 ↔
      ∀ i b, bs[i]? = some b → groupBits b <<< ((shift + 7 * i) % 64) = 0#64 := by
  induction bs generalizing shift with
  | nil => simp [maskedWord]
  | cons b bs ih =>
      have next : ∀ i, shift + 7 + 7 * i = shift + 7 * (i + 1) := by
        intro i
        omega
      rw [maskedWord, BitVec.or_eq_zero_iff, ih]
      constructor
      · intro zeros i c found
        cases i with
        | zero =>
            cases found
            exact zeros.1
        | succ i =>
            rw [← next]
            exact zeros.2 i c found
      · intro zeros
        refine ⟨zeros 0 b rfl, fun i c found => ?_⟩
        rw [next]
        exact zeros (i + 1) c found

/-- Up to ten bytes no shift is masked. -/
theorem unzigzag_maskedWord_eq_zero_iff {cut : Bytes} (short : cut.length ≤ 10) :
    unzigzag (maskedWord cut 0) = 0#64 ↔ Blank cut := by
  rw [unzigzag_eq_zero_iff, maskedWord_eq_zero_iff]
  unfold Blank
  refine forall₃_congr fun i b found => ?_
  obtain ⟨within, -⟩ := List.getElem?_eq_some_iff.mp found
  rw [Nat.zero_add, Nat.mod_eq_of_lt (by omega)]

/-- The groups of the first nine bytes are shifted by at most 56 bits. -/
theorem groupBits_shift_eq_zero_iff {b : Byte} {k : Nat} (small : k ≤ 56) :
    groupBits b <<< k = 0#64 ↔ b.toNat % 128 = 0 := by
  have low : (groupBits b).toNat < 2 ^ 7 := by
    rw [toNat_groupBits]
    omega
  have fits : (groupBits b).toNat * 2 ^ k < 2 ^ 64 :=
    calc (groupBits b).toNat * 2 ^ k < 2 ^ 7 * 2 ^ k :=
          Nat.mul_lt_mul_of_pos_right low (by positivity)
      _ = 2 ^ (7 + k) := (Nat.pow_add ..).symm
      _ ≤ 2 ^ 64 := Nat.pow_le_pow_right (by omega) (by omega)
  rw [← BitVec.toNat_inj, BitVec.toNat_shiftLeft, Nat.shiftLeft_eq, Nat.mod_eq_of_lt fits,
    toNat_groupBits]
  simp

/-- So a cut of up to nine bytes has no bit exactly if its bytes only continue. -/
theorem blank_iff_of_short {cut : Bytes} (continues : Continues cut) (short : cut.length ≤ 9) :
    Blank cut ↔ ∀ b ∈ cut, b = 0x80#8 := by
  have byte : ∀ i b, cut[i]? = some b →
      (groupBits b <<< (7 * i) = 0#64 ↔ b = 0x80#8) := by
    intro i b found
    obtain ⟨within, rfl⟩ := List.getElem?_eq_some_iff.mp found
    have goesOn := continues _ (List.getElem_mem within)
    rw [ne_eq, and_continue_eq_zero_iff] at goesOn
    have bound := cut[i].isLt
    rw [groupBits_shift_eq_zero_iff (by omega), ← BitVec.toNat_inj, BitVec.toNat_ofNat]
    omega
  unfold Blank
  constructor
  · intro blank b member
    obtain ⟨i, within, rfl⟩ := List.getElem_of_mem member
    have found := List.getElem?_eq_getElem within
    exact (byte i _ found).mp (blank i _ found)
  · intro same i b found
    exact (byte i b found).mpr (same b (List.mem_of_getElem? found))

/-- C keeps the value of a cut, the benchmark drops it. -/
theorem cutSum_eq_iff {n : Word} {items : List Bytes} {cut : Bytes} (short : cut.length ≤ 10) :
    indexedFormat.cutSum (fun cut => unzigzag (maskedWord cut 0)) n items cut =
        indexedFormat.cutSum (fun _ => 0#64) n items cut ↔
      (indexedFormat.headers n ≤ items.length → Blank cut) := by
  unfold BlockFormat.cutSum
  by_cases within : indexedFormat.headers n ≤ items.length
  · rw [if_pos within, if_pos within, ← unzigzag_maskedWord_eq_zero_iff short]
    constructor
    · intro same _
      exact add_left_cancel same
    · intro zero
      dsimp only
      rw [zero within]
  · rw [if_neg within, if_neg within]
    exact ⟨fun _ h => (within h).elim, fun _ => rfl⟩

/-- No varint is longer than ten bytes, and every block count is below 2^31 in absolute value,
also one that is cut, as C reads it. -/
structure SmallVarints (payload : Bytes) : Prop where
  short : ∀ bs, bs <:+: payload → IsGroups bs ∨ Continues bs → bs.length ≤ 10
  counts : ∀ n, indexedFormat.CountAt payload n → n.toInt.natAbs < 2 ^ 31
  cutCount : ∀ elements cut n, indexedFormat.CutCount payload elements cut →
    C.readVarint cut = .ok (n, []) → n.toInt.natAbs < 2 ^ 31

theorem toInt_absCount_lt {n : Word} (small : n.toInt.natAbs < 2 ^ 31) :
    (absCount n).toInt < 2 ^ 31 := by
  unfold absCount
  split
  · rw [BitVec.toInt_neg, Int.bmod_eq_of_le (by omega) (by omega)]
    omega
  · omega

theorem natAbs_unzigzag_le (z : Word) : (unzigzag z).toInt.natAbs ≤ z.toNat := by
  rw [toInt_unzigzag]
  split <;> omega

/-- What up to four bytes spell is below 2^28. -/
theorem natAbs_maskedValue_lt {bs : Bytes} (short : bs.length ≤ 4) :
    (maskedValue bs).toInt.natAbs < 2 ^ 28 := by
  rw [maskedValue_eq_varintValue (by omega)]
  calc (varintValue bs).toInt.natAbs ≤ (groupsWord bs).toNat := natAbs_unzigzag_le _
    _ ≤ groupsNat bs := by
        rw [toNat_groupsWord]
        exact Nat.mod_le _ _
    _ < 128 ^ bs.length := groupsNat_lt bs
    _ ≤ 128 ^ 4 := Nat.pow_le_pow_right (by omega) short
    _ = 2 ^ 28 := by norm_num

/-- So no payload of up to four bytes is out of range. -/
theorem SmallVarints.of_length {payload : Bytes} (short : payload.length ≤ 4) :
    SmallVarints payload := by
  refine ⟨fun bs inside _ => inside.length_le.trans (by omega), ?_, ?_⟩
  · intro n found
    obtain ⟨bs, counts, elements, count, rest, rfl, -, -, rfl⟩ := found
    simp only [List.length_append] at short
    exact (natAbs_maskedValue_lt (by omega)).trans (by norm_num)
  · intro elements cut n found read
    obtain ⟨bs, counts, rfl, -, isCut⟩ := found
    rw [List.length_append] at short
    cases (readsOn_cRead.lenient cut isCut).symm.trans read
    exact (natAbs_maskedValue_lt (by omega)).trans (by norm_num)

namespace SmallVarints

variable {payload : Bytes} (small : SmallVarints payload)

include small

theorem countsFit : CountsFit payload := fun n found => toInt_absCount_lt (small.counts n found)

theorem absCount_cut_lt {elements : List Bytes} {cut : Bytes}
    (found : indexedFormat.CutCount payload elements cut) :
    (absCount (unzigzag (maskedWord cut 0))).toInt < 2 ^ 31 := by
  have ⟨_, _, _, _, isCut⟩ := found
  exact toInt_absCount_lt (small.cutCount _ _ _ found (readsOn_cRead.lenient cut isCut))

theorem length_cut_le {elements items : List Bytes} {n : Word} {cut : Bytes}
    (found : indexedFormat.CutBlock payload elements n items cut) : cut.length ≤ 10 := by
  obtain ⟨bs, -, count, rfl, -, -, -, -, -, -, isCut⟩ := found
  refine small.short cut ?_ (.inr isCut)
  have behind := ((List.suffix_append items.flatten cut).trans
    (List.suffix_append count _)).trans (List.suffix_append bs _)
  exact behind.isInfix

/-- If the sums are the same, nothing is lost with the cut of an element. -/
theorem blank_of_agree
    (agree : ∃ fuel sum left left', C.decodeSum wrappingAdd fuel payload = .ok (sum, left) ∧
      JavaBenchmark.decodeSum wrappingAdd fuel payload = .ok (sum, left'))
    {elements items : List Bytes} {n : Word} {cut : Bytes}
    (found : indexedFormat.CutBlock payload elements n items cut)
    (within : indexedFormat.headers n ≤ items.length) : Blank cut := by
  have onC := readsOn_cRead
  have onJava := readsOn_javaBenchmarkRead
  obtain ⟨fuel, sum, left, left', c, java⟩ := agree
  have kept := found.eq_of_ok onC.lenient onC.empty onC.readsItems (cRead.sumsBlocks _ fuel) c
  have dropped := found.eq_of_ok onJava.lenient onJava.empty onJava.readsItems
    (javaBenchmarkRead.sumsBlocks _ fuel) java
  have same := (Prod.mk.inj kept).1.symm.trans (Prod.mk.inj dropped).1
  exact (cutSum_eq_iff (small.length_cut_le found)).mp (add_left_cancel same) within

end SmallVarints

/-- **Where C and the benchmark agree.**  On a payload without a varint of more than ten bytes
and without a count of 2^31 or more in absolute value, the loops of `stream-test-c` and
`StreamSumBenchmark` return the same sum exactly if a varint that is cut in the place of an
element has no bit in it. -/
theorem c_benchmark_agree_iff {payload : Bytes} (small : SmallVarints payload) :
    (∃ fuel sum left left', C.decodeSum wrappingAdd fuel payload = .ok (sum, left) ∧
        JavaBenchmark.decodeSum wrappingAdd fuel payload = .ok (sum, left')) ↔
      ∀ elements n items cut, indexedFormat.CutBlock payload elements n items cut →
        indexedFormat.headers n ≤ items.length → Blank cut := by
  have onC := readsOn_cRead
  have onJava := readsOn_javaBenchmarkRead
  have fit := small.countsFit
  constructor
  · intro agree elements n items cut
    exact small.blank_of_agree agree
  · intro blank
    cases indexedFormat.ending payload with
    | stops found =>
        exact ⟨_, _, _, _, onC.decodeIndexed_of_stops fit found,
          onJava.decodeIndexed_of_stops fit found⟩
    | cutCount found =>
        -- C makes its turns over what is not there, each adding zero
        exact ⟨_, _, _, _, onC.decodeIndexed_of_cutCount fit found (small.absCount_cut_lt found),
          onJava.decodeIndexed_of_cutCount fit found toInt_absCount_zero_lt⟩
    | cutBlock found =>
        have c : cRead.decodeIndexed cIndex _ payload = _ :=
          onC.decodeIndexed_of_cutBlock fit found
        rw [(cutSum_eq_iff (small.length_cut_le found)).mpr (blank _ _ _ _ found)] at c
        exact ⟨_, _, _, _, c, onJava.decodeIndexed_of_cutBlock fit found⟩

/-- Two elements are announced, the second one is cut behind two bytes without a bit. -/
theorem c_benchmark_agree_iff_blank :
    C.decodeSum wrappingAdd 8 [0x04#8, 0x0A#8, 0x80#8, 0x80#8] = .ok (5#64, []) ∧
      ∀ elements n items cut,
        indexedFormat.CutBlock [0x04#8, 0x0A#8, 0x80#8, 0x80#8] elements n items cut →
          indexedFormat.headers n ≤ items.length → Blank cut := by
  have c : C.decodeSum wrappingAdd 8 [0x04#8, 0x0A#8, 0x80#8, 0x80#8] = .ok (5#64, []) := by
    decide +kernel
  have java : JavaBenchmark.decodeSum wrappingAdd 8 [0x04#8, 0x0A#8, 0x80#8, 0x80#8] =
      .ok (5#64, []) := by decide +kernel
  have small : SmallVarints [0x04#8, 0x0A#8, 0x80#8, 0x80#8] := .of_length (by decide)
  exact ⟨c, (c_benchmark_agree_iff small).mp ⟨8, _, _, _, c, java⟩⟩

/-- One element, cut behind a byte that carries a bit: C adds 1, the benchmark 0. -/
theorem c_benchmark_differ :
    SmallVarints [0x02#8, 0x82#8] ∧
      C.decodeSum wrappingAdd 8 [0x02#8, 0x82#8] = .ok (1#64, []) ∧
      JavaBenchmark.decodeSum wrappingAdd 8 [0x02#8, 0x82#8] = .ok (0#64, []) ∧
      ¬ ∃ fuel sum left left', C.decodeSum wrappingAdd fuel [0x02#8, 0x82#8] = .ok (sum, left) ∧
        JavaBenchmark.decodeSum wrappingAdd fuel [0x02#8, 0x82#8] = .ok (sum, left') := by
  have small : SmallVarints [0x02#8, 0x82#8] := .of_length (by decide)
  refine ⟨small, by decide +kernel, by decide +kernel, ?_⟩
  intro agree
  have count : IsGroups [0x02#8] := by decide
  have continues : Continues [0x82#8] := List.forall_mem_singleton.mpr (by decide)
  have found : indexedFormat.CutBlock [0x02#8, 0x82#8] [] 1#64 [] [0x82#8] :=
    ⟨[], [], [0x02#8], rfl, .nil, count, by decide, by decide, List.forall_mem_nil _, by decide,
      continues⟩
  have blank := (blank_iff_of_short continues (by decide)).mp
    (small.blank_of_agree agree found (by decide))
  exact absurd (List.forall_mem_singleton.mp blank) (by decide)

end KafkaTest
