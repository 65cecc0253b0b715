import KafkaTest.BatchedCounter

/-!
# Exact sums and machine sums

The Python and the Ruby worker add up without a word size, and put the exact sum into the
zig-zag formula of a 64-bit word; the Go worker adds modulo 2^64.

`IntegerList.blocksFrom_payload` evaluates the three decode loops at once, over words and
over integers.  `unbounded_agree_iff` says that the results are the same exactly if the sum
of the list is a 64-bit number itself.
-/

namespace KafkaTest

/-- `stream-test-ruby`: the steps of a worker process; a message without a payload raises. -/
def Ruby.handle : Option Bytes → Handled
  | none => .crash
  | some payload => handledOf do
    let (sum, _) ← Ruby.decodeSum payload
    return Ruby.encodeVarint sum

/-- An `IntegerList`: 64-bit numbers, no more than a 64-bit count tells. -/
structure IntegerList where
  elements : List Word
  fits : elements.length < 2 ^ 63

namespace IntegerList

def count (l : IntegerList) : Word := BitVec.ofNat 64 l.elements.length

/-- `[Count][Int1][Int2]...[0]`, as the loader of `stream-test-go` writes it. -/
def payload (l : IntegerList) : Bytes :=
  let buf := Go.writeVarint [] l.count
  let buf := l.elements.foldl Go.writeVarint buf
  Go.writeVarint buf 0#64

/-- The sum of the numbers. -/
def sum (l : IntegerList) : Int := (l.elements.map BitVec.toInt).sum

/-- The sum is a 64-bit number. -/
def SumFits (l : IntegerList) : Prop := -2 ^ 63 ≤ l.sum ∧ l.sum < 2 ^ 63

theorem toInt_count (l : IntegerList) : l.count.toInt = l.elements.length := by
  have fits := l.fits
  unfold count
  rw [BitVec.toInt_eq_toNat_of_lt (by rw [BitVec.toNat_ofNat]; omega), BitVec.toNat_ofNat,
    Nat.mod_eq_of_lt (by omega)]

/-- The canonical encodings of the count, the numbers and a zero. -/
theorem payload_eq (l : IntegerList) :
    l.payload = (l.count :: (l.elements ++ [0#64])).flatMap canonical := by
  unfold payload
  rw [Go.writeVarint_eq, foldl_of_appends Go.writeVarint_eq, Go.writeVarint_eq, List.nil_append,
    List.flatMap_cons, List.flatMap_append, List.flatMap_singleton, List.append_assoc]

theorem length_payload_pos (l : IntegerList) : 0 < l.payload.length := by
  have count := (isGroups_encodeGroups (zigzag l.count)).length_pos
  rw [payload_eq, List.flatMap_cons, List.length_append, canonical]
  omega

/-! ## The decode loops -/

section Loops

variable {V : Type} {read : Bytes → Outcome (V × Bytes)} {value : Word → V}
  (reads : ∀ n rest, read (canonical n ++ rest) = .ok (value n, rest)) (l : IntegerList)

include reads

theorem readsTo_payload :
    ReadsTo read l.payload (value l.count :: (l.elements.map value ++ [value 0#64])) [] := by
  have finds := readsTo_flatMap reads (l.count :: (l.elements ++ [0#64])) []
  rwa [List.append_nil, ← payload_eq, List.map_cons, List.map_append, List.map_singleton]
    at finds

/-- **One list, any kind of number.**  A loop that sums the elements announced by the count
adds up the values of the list. -/
theorem blocksFrom_payload [DecidableEq V] {add : V → V → Outcome V} {zero : V}
    {body : V → V → Bytes → Outcome (V × Bytes)} (isZero : ∀ n, value n = zero ↔ n = 0#64)
    (sums : ∀ sum s t, ReadsTo read s (l.elements.map value) t →
      body (value l.count) sum s =
        addAll add sum (l.elements.map value) >>= fun sum => .ok (sum, t))
    {fuel : Nat} (enough : 1 < fuel) (sum : V) :
    ∃ rest, blocksFrom read zero body fuel sum l.payload =
      addAll add sum (l.elements.map value) >>= fun sum => .ok (sum, rest) := by
  have finds := readsTo_payload reads l
  have count := l.toInt_count
  rw [(isZero 0#64).mpr rfl] at finds
  by_cases empty : l.elements = []
  · -- the first count ends the loop, and the second zero is left over
    have none : l.count = 0#64 := by
      apply BitVec.eq_of_toInt_eq
      rw [count, empty]
      rfl
    obtain ⟨rest, hread, -⟩ := finds
    obtain ⟨fuel, rfl⟩ := Nat.exists_eq_succ_of_ne_zero (by omega : fuel ≠ 0)
    refine ⟨rest, ?_⟩
    rw [blocksFrom_of_read hread, (isZero l.count).mpr none, empty, sumBlocks, if_pos rfl]
    rfl
  · have announced : value l.count ≠ zero := by
      intro none
      rw [(isZero l.count).mp none, BitVec.toInt_zero] at count
      exact empty (List.length_eq_zero_iff.mp (by omega))
    let block : BlockValues V := ⟨value l.count, [], l.elements.map value⟩
    have spans : ReadsTo read l.payload ([block].flatMap BlockValues.values ++ [zero]) [] := by
      rw [List.flatMap_singleton]
      exact finds
    obtain ⟨first, rest, hread, hloop⟩ := sumBlocks_of_readsTo
      (fun b member => by rw [List.mem_singleton.mp member]; exact announced)
      (fun b member => by rw [List.mem_singleton.mp member]; exact sums) spans enough
    refine ⟨[], ?_⟩
    rw [blocksFrom_of_read hread, hloop, List.flatMap_singleton]

end Loops

/-- The Go worker decodes the wrapped sum. -/
theorem decodeSum_go (l : IntegerList) :
    ∃ rest, Go.decodeSum wrappingAdd l.payload = .ok (l.elements.sum, rest) := by
  have reads : ∀ n rest, Go.readVarint (canonical n ++ rest) = .ok (id n, rest) :=
    readGroups_canonical goRead
  have count := l.toInt_count
  have positive : l.count.slt 0#64 = false := by
    rw [← Bool.not_eq_true, BitVec.slt_iff_toInt_lt, BitVec.toInt_zero]
    omega
  have turns : (absCount l.count).toInt.toNat = (l.elements.map id).length := by
    rw [absCount, positive, if_neg Bool.false_ne_true, count, Int.toNat_natCast, List.length_map]
  have sums : ∀ sum s t, ReadsTo Go.readVarint s (l.elements.map id) t →
      bodyRanged Go.readVarint wrappingAdd l.count sum s =
        addAll wrappingAdd sum (l.elements.map id) >>= fun sum => .ok (sum, t) := by
    intro sum s t finds
    rw [bodyRanged, skipByteSize, positive, skipIf, if_neg Bool.false_ne_true,
      Outcome.pure_eq_ok, Outcome.ok_bind, turns]
    exact sumTimes_of_readsTo finds sum
  have enough := l.length_payload_pos
  obtain ⟨rest, decodes⟩ := blocksFrom_payload reads l (fun n => Iff.rfl) sums
    (by omega : 1 < l.payload.length + 1) 0#64
  refine ⟨rest, ?_⟩
  rw [addAll_wrappingAdd, BitVec.zero_add, List.map_id, Outcome.ok_bind] at decodes
  exact decodes

theorem addAll_exactAdd (sum : Int) (ns : List Int) :
    addAll Python.exactAdd sum ns = .ok (sum + ns.sum) := by
  induction ns generalizing sum with
  | nil => rw [addAll, List.sum_nil, Int.add_zero]
  | cons n ns ih =>
      rw [addAll, Python.exactAdd, Outcome.ok_bind, ih, List.sum_cons, Int.add_assoc]

/-- The Python worker decodes the exact sum. -/
theorem decodeSum_python (l : IntegerList) :
    ∃ rest, Python.decodeSum l.payload = .ok (l.sum, rest) := by
  have isZero : ∀ n : Word, n.toInt = 0 ↔ n = 0#64 := by
    intro n
    rw [← BitVec.toInt_inj, BitVec.toInt_zero]
  have count := l.toInt_count
  have positive : decide (l.count.toInt < 0) = false := by
    rw [decide_eq_false_iff_not]
    omega
  have turns : l.count.toInt.natAbs = (l.elements.map BitVec.toInt).length := by
    rw [count, Int.natAbs_natCast, List.length_map]
  have sums : ∀ sum s t, ReadsTo Python.readVarint s (l.elements.map BitVec.toInt) t →
      Python.body l.count.toInt sum s =
        addAll Python.exactAdd sum (l.elements.map BitVec.toInt) >>= fun sum => .ok (sum, t) := by
    intro sum s t finds
    rw [Python.body, positive, skipIf, if_neg Bool.false_ne_true, Outcome.pure_eq_ok,
      Outcome.ok_bind, turns]
    exact sumTimes_of_readsTo finds sum
  have enough := l.length_payload_pos
  obtain ⟨rest, decodes⟩ := blocksFrom_payload Python.readVarint_canonical l isZero sums
    (by omega : 1 < l.payload.length + 1) 0
  refine ⟨rest, ?_⟩
  rw [addAll_exactAdd, Int.zero_add, Outcome.ok_bind] at decodes
  exact decodes

/-! ## The results -/

/-- What the Go worker sends. -/
theorem handle_go (l : IntegerList) :
    Go.handle (some l.payload) = .send (canonical l.elements.sum) := by
  obtain ⟨rest, decodes⟩ := l.decodeSum_go
  unfold Go.handle
  rw [Option.getD_some, decodes, Outcome.ok_bind]
  dsimp only
  rw [Outcome.pure_eq_ok, Go.writeVarint_eq, List.nil_append, handledOf]

/-- What the Python worker sends. -/
theorem handle_python (l : IntegerList) :
    Python.handle (some l.payload) = .send (encodeNat (zigzagAt 63 l.sum).toNat) := by
  obtain ⟨rest, decodes⟩ := l.decodeSum_python
  unfold Python.handle
  dsimp only
  rw [decodes, Outcome.ok_bind]
  dsimp only
  rw [Python.writeVarint_eq, handledOf]

/-- What the Ruby worker sends. -/
theorem handle_ruby (l : IntegerList) :
    Ruby.handle (some l.payload) = .send (encodeNat (zigzagAt 63 l.sum).toNat) := by
  obtain ⟨rest, decodes⟩ := l.decodeSum_python
  unfold Ruby.handle
  dsimp only
  rw [Ruby.decodeSum_eq, decodes, Outcome.ok_bind]
  dsimp only
  rw [Outcome.pure_eq_ok, Ruby.encodeVarint_eq, handledOf]

/-- The groups of the unbounded formula are those of the wrapped sum exactly if nothing was
wrapped. -/
theorem encodeNat_eq_canonical_iff (l : IntegerList) :
    encodeNat (zigzagAt 63 l.sum).toNat = canonical l.elements.sum ↔ l.SumFits := by
  rw [canonical, ← encodeNat_toNat, encodeNat_inj]
  constructor
  · intro same
    have bound := (zigzag l.elements.sum).isLt
    refine (zigzagAt_lt_iff 63 l.sum).mp ?_
    rw [← same] at bound
    omega
  · intro fits
    obtain ⟨lower, upper⟩ := fits
    have exact : l.elements.sum.toInt = l.sum := by
      have wrapped : l.elements.sum.toInt = l.sum.bmod (2 ^ 64) := toInt_sum l.elements
      rw [wrapped, Int.bmod_eq_of_le (by omega) (by omega)]
    rw [zigzagAt_of_fits ⟨lower, upper⟩, Int.toNat_natCast, ← exact, zigzagNat_toInt]

end IntegerList

/-- **Unbounded and machine integers agree as far as the sum fits.**  On the encoding of any
list of 64-bit numbers the Go, the Python and the Ruby worker all send a result.  That of
Python is Go's exactly if the sum of the list is a 64-bit number, and so is that of Ruby. -/
theorem unbounded_agree_iff (l : IntegerList) :
    ∃ go python ruby, Go.handle (some l.payload) = .send go ∧
      Python.handle (some l.payload) = .send python ∧
      Ruby.handle (some l.payload) = .send ruby ∧
      (python = go ↔ l.SumFits) ∧ (ruby = go ↔ l.SumFits) :=
  ⟨_, _, _, l.handle_go, l.handle_python, l.handle_ruby, l.encodeNat_eq_canonical_iff,
    l.encodeNat_eq_canonical_iff⟩

/-- The largest 64-bit number, and one. -/
def overflowingList : IntegerList where
  elements := [0x7FFFFFFFFFFFFFFF#64, 1#64]
  fits := by decide

theorem unbounded_differ :
    Go.handle (some overflowingList.payload) = .send
      [0xFF#8, 0xFF#8, 0xFF#8, 0xFF#8, 0xFF#8, 0xFF#8, 0xFF#8, 0xFF#8, 0xFF#8, 0x01#8] ∧
    Python.handle (some overflowingList.payload) = .send
      [0x81#8, 0x80#8, 0x80#8, 0x80#8, 0x80#8, 0x80#8, 0x80#8, 0x80#8, 0x80#8, 0x02#8] ∧
    Ruby.handle (some overflowingList.payload) = .send
      [0x81#8, 0x80#8, 0x80#8, 0x80#8, 0x80#8, 0x80#8, 0x80#8, 0x80#8, 0x80#8, 0x02#8] ∧
    ¬ ∀ l : IntegerList, Python.handle (some l.payload) = Go.handle (some l.payload) ∧
      Ruby.handle (some l.payload) = Go.handle (some l.payload) := by
  have go : Go.handle (some overflowingList.payload) = .send
      [0xFF#8, 0xFF#8, 0xFF#8, 0xFF#8, 0xFF#8, 0xFF#8, 0xFF#8, 0xFF#8, 0xFF#8, 0x01#8] := by
    decide +kernel
  have python : Python.handle (some overflowingList.payload) = .send
      [0x81#8, 0x80#8, 0x80#8, 0x80#8, 0x80#8, 0x80#8, 0x80#8, 0x80#8, 0x80#8, 0x02#8] := by
    decide +kernel
  have ruby : Ruby.handle (some overflowingList.payload) = .send
      [0x81#8, 0x80#8, 0x80#8, 0x80#8, 0x80#8, 0x80#8, 0x80#8, 0x80#8, 0x80#8, 0x02#8] := by
    decide +kernel
  refine ⟨go, python, ruby, fun always => ?_⟩
  have same := (always overflowingList).1
  rw [go, python] at same
  revert same
  decide

end KafkaTest
