import KafkaTest.BlockFormat
import KafkaTest.Decode
import KafkaTest.KrafkaCodec

/-!
# What the krafka decode loop accepts

For the Phase 2 loop a payload is a sequence of capped varints: a count, then as many
elements as the count says (none if it is negative), then the next count, until a count is
zero.  `krafkaFormat` is this format.

`krafka_accepts_grammar`: the loop returns exactly on the payloads that begin so, with the
sum of the elements and the bytes behind them unread; on all others it panics; and it calls
`read_varint` at most once for each byte of the payload, and once more.
-/

namespace KafkaTest

/-- The payloads of Phase 2: varints of at most ten bytes, a count followed by its
elements. -/
def krafkaFormat : BlockFormat Byte Word where
  IsItem := IsCapped 10
  IsCut s := s.length < 10 ∧ Continues s
  value := varintValue
  headers _ := 0
  turns count := count.toInt.toNat
  ne_nil capped := List.ne_nil_of_length_pos (capped.length_pos (by omega))
  split := exists_isCapped 10

namespace Krafka

theorem readsItems_readVarint : krafkaFormat.ReadsItems readVarint :=
  fun _ rest capped => readVarint_of_isCapped capped rest

theorem sumsBlocks_bodyUnskipped :
    krafkaFormat.SumsBlocks readVarint (bodyUnskipped readVarint wrappingAdd) fun _ => True := by
  intro count sum s r
  unfold bodyUnskipped
  rw [sumTimes_wrappingAdd_eq_ok_iff]
  constructor
  · intro found
    obtain ⟨elements, length, finds, added⟩ := found
    exact ⟨trivial, [], elements, rfl, length, finds, added⟩
  · intro found
    obtain ⟨-, header, elements, empty, length, finds, added⟩ := found
    obtain rfl := List.length_eq_zero_iff.mp empty
    exact ⟨elements, length, finds, added⟩

/-- The loop returns exactly at the stop of a payload. -/
theorem decodeSum_eq_ok_iff {payload : Bytes} {r : Word × Bytes} :
    decodeSum wrappingAdd payload = .ok r ↔
      ∃ elements, krafkaFormat.Stops payload elements r.2 ∧ r.1 = krafkaFormat.total elements := by
  have strict : ∀ cut, krafkaFormat.IsCut cut → ∀ r, readVarint cut ≠ .ok r := by
    intro cut isCut r returns
    rw [readVarint_eq_panic isCut.1 isCut.2] at returns
    cases returns
  have loop : decodeSum wrappingAdd payload = blocksFrom readVarint 0
      (bodyUnskipped readVarint wrappingAdd) (payload.length + 1) 0 payload := rfl
  rw [loop, BlockFormat.blocksFrom_eq_ok_iff_of_strict strict readsItems_readVarint
    sumsBlocks_bodyUnskipped]
  constructor
  · intro accepted
    obtain ⟨bs, counts, elements, zero, split, blocks, item, value, -, -, total⟩ := accepted
    exact ⟨elements, ⟨bs, counts, zero, split, blocks, item, value⟩, by rwa [zero_add] at total⟩
  · intro accepted
    obtain ⟨elements, ⟨bs, counts, zero, split, blocks, item, value⟩, total⟩ := accepted
    refine ⟨bs, counts, elements, zero, split, blocks, item, value, by simp, ?_, by
      rwa [zero_add]⟩
    have := blocks.length_counts_le
    rw [split, List.length_append]
    omega

/-- The decode loop of Phase 2 with so many calls of `read_varint` to make. -/
def decodeSumWithin (calls : Nat) (payload : Bytes) : Outcome (Word × (Bytes × Nat)) :=
  blocksFrom (metered readVarint) 0#64
    (fun count sum s => sumTimes (metered readVarint) wrappingAdd count.toInt.toNat sum s)
    (payload.length + 1) 0#64 (payload, calls)

theorem spares_decodeSumWithin (payload : Bytes) :
    Spares List.length (decodeSum wrappingAdd payload)
      (decodeSumWithin (payload.length + 1) payload) := by
  have shrinks : ∀ s v t, readVarint s = .ok (v, t) → t.length < s.length :=
    fun _ _ _ => readGroups_length_lt (d := krafkaRead) fun _ => rfl
  exact spares_blocksFrom shrinks
    (fun count sum _ _ spare => spares_sumTimes shrinks count.toInt.toNat sum spare) _ _
    (Nat.lt_succ_self _)

end Krafka

/-- **The Phase 2 loop accepts its grammar and always stops.**  It returns or panics; with
calls for every byte of the payload and one more it runs as without a limit.  It returns
exactly if the payload begins with whole blocks and a zero count, with the sum of their
elements modulo 2^64, whatever follows. -/
theorem krafka_accepts_grammar (payload : Bytes) :
    (Krafka.decodeSum wrappingAdd payload = .panic ∨
      ∃ r, Krafka.decodeSum wrappingAdd payload = .ok r) ∧
    (Krafka.decodeSumWithin (payload.length + 1) payload ≠ .outOfFuel ∧
      (Krafka.decodeSumWithin (payload.length + 1) payload >>= fun r => .ok (r.1, r.2.1)) =
        Krafka.decodeSum wrappingAdd payload) ∧
    ∀ sum rest, Krafka.decodeSum wrappingAdd payload = .ok (sum, rest) ↔
      ∃ accepted elements, payload = accepted ++ rest ∧
        krafkaFormat.Stops accepted elements [] ∧ sum = krafkaFormat.total elements := by
  have total := Krafka.decodeSum_ne_outOfFuel payload
  have spares := Krafka.spares_decodeSumWithin payload
  refine ⟨?_, ⟨spares.ne_outOfFuel total, spares.forget⟩, fun sum rest => ?_⟩
  · cases outcome : Krafka.decodeSum wrappingAdd payload with
    | ok r => exact .inr ⟨r, rfl⟩
    | panic => exact .inl rfl
    | outOfFuel => exact (total outcome).elim
  · rw [Krafka.decodeSum_eq_ok_iff]
    constructor
    · intro returns
      obtain ⟨elements, stops, added⟩ := returns
      obtain ⟨accepted, split, stops⟩ := BlockFormat.stops_iff.mp stops
      exact ⟨accepted, elements, split, stops, added⟩
    · intro begins
      obtain ⟨accepted, elements, split, stops, added⟩ := begins
      exact ⟨elements, BlockFormat.stops_iff.mpr ⟨accepted, split, stops⟩, added⟩

/-- Three elements, as the tests of the processor write them, and two bytes behind. -/
example : Krafka.decodeSum wrappingAdd
    ([3#64, 10#64, 20#64, 30#64, 0#64].foldl Krafka.writeVarint [] ++ [0x80#8, 0x80#8]) =
      .ok (60#64, [0x80#8, 0x80#8]) := by
  decide +kernel

end KafkaTest
