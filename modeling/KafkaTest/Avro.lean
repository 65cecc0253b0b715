import KafkaTest.Codec

/-!
# The Avro encoding of an integer list

An `IntegerList` payload is a sequence of blocks and a zero count.  A block is a
count and that many elements; a negative count announces its absolute value of
elements and is followed by the byte size of the block.  Every number is a varint
of at most ten bytes.

`Varint`, `Block` and `Encoding` are the well-formed ones: each carries the proof
that it is.  `Encoding.readsTo` is what any sound reader finds in the bytes of an
encoding.
-/

namespace KafkaTest

/-- One varint of at most ten bytes, canonical or not. -/
structure Varint where
  bytes : Bytes
  groups : IsGroups bytes
  short : bytes.length ≤ 10

namespace Varint

/-- The signed 64-bit number it spells. -/
def value (v : Varint) : Word := varintValue v.bytes

/-- It is the shortest encoding of its value. -/
def Canonical (v : Varint) : Prop := v.bytes = canonical v.value

/-- The canonical varint of a number. -/
def ofWord (n : Word) : Varint where
  bytes := canonical n
  groups := isGroups_encodeGroups _
  short := length_encodeGroups_le _

@[simp] theorem value_ofWord (n : Word) : (ofWord n).value = n := varintValue_canonical n

theorem canonical_ofWord (n : Word) : (ofWord n).Canonical := by
  rw [Canonical, value_ofWord]
  rfl

theorem length_pos (v : Varint) : 0 < v.bytes.length := v.groups.length_pos

end Varint

/-- A block: a count and its elements, with a byte size in between where the count
is negative. -/
structure Block where
  count : Varint
  byteSize : Option Varint
  elements : List Varint
  nonempty : elements ≠ []
  fits : elements.length < 2 ^ 63
  count_eq : count.value.toInt =
    if byteSize.isSome then -(elements.length : Int) else elements.length

namespace Block

def bytes (b : Block) : Bytes :=
  b.count.bytes ++ (b.byteSize.toList.flatMap Varint.bytes ++ b.elements.flatMap Varint.bytes)

/-- The block as the values a reader finds. -/
def values (b : Block) : BlockValues Word where
  count := b.count.value
  header := b.byteSize.toList.map Varint.value
  elements := b.elements.map Varint.value

theorem length_elements_pos (b : Block) : 0 < b.elements.length :=
  List.length_pos_of_ne_nil b.nonempty

theorem count_ne_zero (b : Block) : b.count.value ≠ 0#64 := by
  intro h
  have count := b.count_eq
  have := b.length_elements_pos
  rw [h, BitVec.toInt_zero] at count
  split at count <;> omega

end Block

/-- A whole payload: blocks and a zero count. -/
structure Encoding where
  blocks : List Block
  terminator : Varint
  terminator_eq : terminator.value = 0#64

namespace Encoding

def bytes (e : Encoding) : Bytes := e.blocks.flatMap Block.bytes ++ e.terminator.bytes

/-- The list that is encoded. -/
def elements (e : Encoding) : List Word :=
  (e.blocks.map Block.values).flatMap BlockValues.elements

/-- Its sum modulo 2^64. -/
def sum (e : Encoding) : Word := e.elements.sum

end Encoding

/-! ## Sizes -/

theorem length_le_length_flatMap {α β : Type} {f : α → List β} {l : List α}
    (nonempty : ∀ a ∈ l, 0 < (f a).length) : l.length ≤ (l.flatMap f).length := by
  induction l with
  | nil => simp
  | cons a l ih =>
      have head := nonempty a List.mem_cons_self
      have tail := ih fun b hb => nonempty b (List.mem_cons_of_mem _ hb)
      rw [List.flatMap_cons, List.length_append, List.length_cons]
      omega

theorem length_le_length_flatMap_of_mem {α β : Type} (f : α → List β) {l : List α} {a : α}
    (member : a ∈ l) : (f a).length ≤ (l.flatMap f).length := by
  obtain ⟨pre, post, rfl⟩ := List.append_of_mem member
  simp only [List.flatMap_append, List.flatMap_cons, List.length_append]
  omega

theorem Block.length_elements_lt (b : Block) : b.elements.length < b.bytes.length := by
  have elements : b.elements.length ≤ (b.elements.flatMap Varint.bytes).length :=
    length_le_length_flatMap fun v _ => v.length_pos
  have count := b.count.length_pos
  simp only [Block.bytes, List.length_append]
  omega

theorem Encoding.length_blocks_lt (e : Encoding) : e.blocks.length < e.bytes.length := by
  have blocks : e.blocks.length ≤ (e.blocks.flatMap Block.bytes).length :=
    length_le_length_flatMap fun b _ => Nat.zero_lt_of_lt b.length_elements_lt
  have terminator := e.terminator.length_pos
  rw [Encoding.bytes, List.length_append]
  omega

theorem Encoding.length_elements_lt (e : Encoding) {b : Block} (member : b ∈ e.blocks) :
    b.elements.length < e.bytes.length := by
  have inner := b.length_elements_lt
  have block := length_le_length_flatMap_of_mem Block.bytes member
  rw [Encoding.bytes, List.length_append]
  omega

/-! ## What a reader finds -/

/-- The reader decodes one varint of at most ten bytes and leaves what follows. -/
def ReadsVarints (read : Bytes → Outcome (Word × Bytes)) : Prop :=
  ∀ (v : Varint) (rest : Bytes), read (v.bytes ++ rest) = .ok (v.value, rest)

theorem readsVarints_readGroups (d : ReadDialect) :
    ReadsVarints fun data => readGroups d data 0#64 0 :=
  fun v rest => readGroups_of_isGroups v.groups v.short rest

section Reading

variable {read : Bytes → Outcome (Word × Bytes)}

theorem ReadsVarints.readsTo (reads : ReadsVarints read) (vs : List Varint) (rest : Bytes) :
    ReadsTo read (vs.flatMap Varint.bytes ++ rest) (vs.map Varint.value) rest :=
  readsTo_flatMap reads vs rest

theorem Block.readsTo (reads : ReadsVarints read) (b : Block) (rest : Bytes) :
    ReadsTo read (b.bytes ++ rest) b.values.values rest := by
  rw [Block.bytes, List.append_assoc, List.append_assoc]
  exact ⟨_, reads b.count _, (reads.readsTo _ _).append (reads.readsTo _ _)⟩

theorem Encoding.readsTo (reads : ReadsVarints read) (e : Encoding) (rest : Bytes) :
    ReadsTo read (e.bytes ++ rest)
      ((e.blocks.map Block.values).flatMap BlockValues.values ++ [0#64]) rest := by
  rcases e with ⟨blocks, terminator, terminator_eq⟩
  rw [Encoding.bytes, List.append_assoc]
  simp only
  induction blocks with
  | nil => exact ⟨rest, terminator_eq ▸ reads terminator rest, rfl⟩
  | cons b blocks ih =>
      simp only [List.flatMap_cons, List.map_cons, List.append_assoc]
      exact (b.readsTo reads _).append ih

end Reading

end KafkaTest
