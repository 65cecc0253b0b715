import KafkaTest.Decode

/-!
# krafka and negative block counts

krafka's decode-sum loop makes no turn for a negative count and then reads the byte
size as the next count.  Whether it still finds the right sum depends on what the
byte sizes, re-read as counts, make of the headers and elements that follow.

`Walk` is the loop's way over the varints of an encoding from one count to another,
with the varints it reads as counts and those it takes for elements.

* `Balanced`: the walk comes to a zero, and the headers it takes for elements add up to
  the elements it reads as counts or leaves behind.  `sameSum_iff_balanced`: the loop
  agrees with its rdkafka sibling on an encoding exactly if its varints are balanced.
* `Aligned` does without the values of the elements.  The *layout* of an encoding keeps
  its headers (the counts and byte sizes) and, of each element, the length of its varint;
  it is aligned if the walk reads counts from headers only, takes headers for elements
  that add up to 0, and leaves no element behind.  The loop agrees with its sibling on
  every encoding of a layout exactly if the layout is aligned.

`krafka_sameSum_iff_aligned` is both.
-/

namespace KafkaTest

/-! ## Tokens and layouts -/

/-- One varint of an encoding: a header (count or byte size) or an element. -/
structure Token where
  varint : Varint
  isElement : Bool

/-- What the layout keeps of a token. -/
inductive Slot
  | header (value : Word)
  | element (length : Nat)
  deriving DecidableEq

namespace Token

def slot (t : Token) : Slot :=
  if t.isElement then .element t.varint.bytes.length else .header t.varint.value

def elementValue (t : Token) : Word := if t.isElement then t.varint.value else 0#64

end Token

/-- The value of a header; an element counts nothing. -/
def Slot.headerValue : Slot → Word
  | .header value => value
  | .element _ => 0#64

def Slot.isElement : Slot → Bool
  | .header _ => false
  | .element _ => true

/-- A slot as a count; the layout does not say what an element is as a count. -/
def Slot.count : Slot → Option Word
  | .header value => some value
  | .element _ => none

def Token.count (t : Token) : Option Word := some t.varint.value

theorem Slot.eq_header_of_count {slot : Slot} {n : Word} (reads : slot.count = some n) :
    slot = .header n := by
  cases slot with
  | header value =>
      cases reads
      rfl
  | element length => cases reads

theorem Slot.isElement_of_count {slot : Slot} (unread : slot.count = none) :
    slot.isElement = true := by
  cases slot with
  | header value => cases unread
  | element length => rfl

theorem Token.value_eq (t : Token) :
    t.varint.value = t.slot.headerValue + t.elementValue := by
  unfold slot elementValue
  split <;> simp [Slot.headerValue]

theorem Token.isElement_slot (t : Token) : t.slot.isElement = t.isElement := by
  unfold Token.slot
  split <;> simp_all [Slot.isElement]

def tokenBytes (ts : List Token) : Bytes := ts.flatMap fun t => t.varint.bytes

def headerSum (slots : List Slot) : Word := (slots.map Slot.headerValue).sum

def elementSum (ts : List Token) : Word := (ts.map Token.elementValue).sum

/-- A header token has the header's value and is no element. -/
theorem Token.of_slot_header {t : Token} {value : Word} (h : t.slot = .header value) :
    t.varint.value = value ∧ t.elementValue = 0#64 := by
  unfold Token.slot at h
  split at h
  · cases h
  · rename_i header
    cases h
    exact ⟨rfl, by rw [Token.elementValue, if_neg header]⟩

theorem tokenBytes_cons (t : Token) (ts : List Token) :
    tokenBytes (t :: ts) = t.varint.bytes ++ tokenBytes ts := List.flatMap_cons ..

theorem elementSum_cons (t : Token) (ts : List Token) :
    elementSum (t :: ts) = t.elementValue + elementSum ts := by
  rw [elementSum, List.map_cons, List.sum_cons]
  rfl

theorem tokenBytes_append (ts us : List Token) :
    tokenBytes (ts ++ us) = tokenBytes ts ++ tokenBytes us := List.flatMap_append ..

theorem elementSum_append (ts us : List Token) :
    elementSum (ts ++ us) = elementSum ts + elementSum us := by
  rw [elementSum, List.map_append, List.sum_append]
  rfl

theorem headerSum_append (ss us : List Slot) :
    headerSum (ss ++ us) = headerSum ss + headerSum us := by
  rw [headerSum, List.map_append, List.sum_append]
  rfl

theorem sum_values_eq (ts : List Token) :
    (ts.map fun t => t.varint.value).sum = headerSum (ts.map Token.slot) + elementSum ts := by
  induction ts with
  | nil => rfl
  | cons t ts ih =>
      simp only [List.map_cons, List.sum_cons, headerSum, elementSum] at ih ⊢
      rw [ih, t.value_eq]
      ac_rfl

def Block.tokens (b : Block) : List Token :=
  ⟨b.count, false⟩ :: (b.byteSize.toList.map (⟨·, false⟩) ++ b.elements.map (⟨·, true⟩))

def Encoding.tokens (e : Encoding) : List Token :=
  e.blocks.flatMap Block.tokens ++ [⟨e.terminator, false⟩]

def Encoding.layout (e : Encoding) : List Slot := e.tokens.map Token.slot

/-- Every varint of the encoding is the shortest one. -/
def Encoding.Canonical (e : Encoding) : Prop := ∀ t ∈ e.tokens, t.varint.Canonical

theorem Encoding.bytes_eq (e : Encoding) : e.bytes = tokenBytes e.tokens := by
  rcases e with ⟨blocks, terminator, terminator_eq⟩
  have block : ∀ b : Block, b.bytes = tokenBytes b.tokens := fun b => by
    simp [Block.bytes, Block.tokens, tokenBytes, List.flatMap_map]
  simp only [Encoding.bytes, Encoding.tokens, tokenBytes_append]
  congr 1
  · induction blocks with
    | nil => rfl
    | cons b blocks ih => rw [List.flatMap_cons, List.flatMap_cons, tokenBytes_append, ih, block]
  · simp [tokenBytes]

theorem Encoding.sum_eq (e : Encoding) : e.sum = elementSum e.tokens := by
  rcases e with ⟨blocks, terminator, terminator_eq⟩
  have block : ∀ b : Block, b.values.elements.sum = elementSum b.tokens := fun b => by
    have headers : elementSum (b.byteSize.toList.map (⟨·, false⟩)) = 0#64 := by
      cases b.byteSize <;> simp [elementSum, Token.elementValue]
    have elements : elementSum (b.elements.map (⟨·, true⟩)) = b.values.elements.sum := by
      simp [elementSum, Token.elementValue, Block.values, Function.comp_def]
    have count : elementSum b.tokens = 0#64 + elementSum
        (b.byteSize.toList.map (⟨·, false⟩) ++ b.elements.map (⟨·, true⟩)) := by
      simp [elementSum, Block.tokens, Token.elementValue]
    rw [count, elementSum_append, headers, elements, BitVec.zero_add, BitVec.zero_add]
  have last : elementSum [⟨terminator, false⟩] = 0#64 := by
    simp [elementSum, Token.elementValue]
  simp only [Encoding.sum, Encoding.elements, Encoding.tokens, elementSum_append, last,
    BitVec.add_zero]
  induction blocks with
  | nil => rfl
  | cons b blocks ih =>
      rw [List.map_cons, List.flatMap_cons, List.sum_append, ih, block, List.flatMap_cons,
        elementSum_append]

/-! ## From count to count -/

section Walk

variable {α : Type} (count : α → Option Word)

/-- Going from one count to another the loop reads `counts` as counts, and takes `taken`
for the elements that the positive ones ask for. -/
inductive Walk : List α → List α → List α → Prop
  | start : Walk [] [] []
  | negative {a : α} {n : Word} {items counts taken : List α} :
    count a = some n → n.toInt < 0 → Walk items counts taken →
    Walk (a :: items) (a :: counts) taken
  | positive {a : α} {n : Word} {asked items counts taken : List α} :
    count a = some n → n.toInt = asked.length → asked ≠ [] → Walk items counts taken →
    Walk (a :: (asked ++ items)) (a :: counts) (asked ++ taken)

/-- How the walk over a list ends. -/
inductive WalkEnd (items : List α) : Prop
  | stops {pre rest counts taken : List α} {a : α} :
    items = pre ++ a :: rest → count a = some 0#64 → Walk count pre counts taken →
    WalkEnd items
  | misreads {pre rest counts taken : List α} {a : α} :
    items = pre ++ a :: rest → count a = none → Walk count pre counts taken → WalkEnd items
  | runsOut {counts taken : List α} : Walk count items counts taken → WalkEnd items
  | runsShort {pre rest counts taken : List α} {a : α} {n : Word} :
    items = pre ++ a :: rest → count a = some n → (rest.length : Int) < n.toInt →
    Walk count pre counts taken → WalkEnd items

variable {count}

/-- A walk that starts with a stretch from count to count ends as the rest of it. -/
theorem WalkEnd.prepend (front : List α) {items : List α}
    (step : ∀ later counts taken, Walk count later counts taken →
      ∃ counts' taken', Walk count (front ++ later) counts' taken')
    (h : WalkEnd count items) : WalkEnd count (front ++ items) := by
  cases h with
  | stops split zero walk =>
      rcases step _ _ _ walk with ⟨_, _, walk'⟩
      exact .stops (by rw [split, List.append_assoc]) zero walk'
  | misreads split unread walk =>
      rcases step _ _ _ walk with ⟨_, _, walk'⟩
      exact .misreads (by rw [split, List.append_assoc]) unread walk'
  | runsOut walk =>
      rcases step _ _ _ walk with ⟨_, _, walk'⟩
      exact .runsOut walk'
  | runsShort split reads short walk =>
      rcases step _ _ _ walk with ⟨_, _, walk'⟩
      exact .runsShort (by rw [split, List.append_assoc]) reads short walk'

variable (count) in
theorem walkEnd (items : List α) : WalkEnd count items := by
  induction h : items.length using Nat.strongRecOn generalizing items with
  | ind size ih =>
      cases items with
      | nil => exact .runsOut .start
      | cons a items =>
          rw [List.length_cons] at h
          cases reads : count a with
          | none => exact .misreads (List.nil_append _).symm reads .start
          | some n =>
              rcases lt_trichotomy n.toInt 0 with negative | zero | positive
              · exact (ih _ (by omega) items rfl).prepend [a]
                  fun _ _ _ walk => ⟨_, _, .negative reads negative walk⟩
              · have : n = 0#64 := BitVec.eq_of_toInt_eq (by rw [zero, BitVec.toInt_zero])
                subst this
                exact .stops (List.nil_append _).symm reads .start
              · by_cases short : (items.length : Int) < n.toInt
                · exact .runsShort (List.nil_append _).symm reads short .start
                · have asked : n.toInt = (items.take n.toInt.toNat).length := by
                    rw [List.length_take]
                    omega
                  have someAsked : items.take n.toInt.toNat ≠ [] := by
                    intro none
                    rw [none, List.length_nil] at asked
                    omega
                  have rest := ih (items.drop n.toInt.toNat).length
                    (by rw [List.length_drop]; omega) _ rfl
                  have whole := rest.prepend (a :: items.take n.toInt.toNat)
                    fun _ _ _ walk => ⟨_, _, .positive reads asked someAsked walk⟩
                  rwa [List.cons_append, List.take_append_drop] at whole

end Walk

/-- The walk comes to a zero, and the headers it takes for elements make up for the
elements it reads as counts or leaves behind. -/
def Balanced (ts : List Token) : Prop :=
  ∃ pre z rest counts taken, ts = pre ++ z :: rest ∧ z.varint.value = 0#64 ∧
    Walk Token.count pre counts taken ∧
    headerSum (taken.map Token.slot) = elementSum counts + elementSum rest

/-- The walk reads counts from headers only, comes to a zero, takes headers for elements
that cancel out, and leaves no element behind. -/
def Aligned (layout : List Slot) : Prop :=
  ∃ pre rest counts taken, layout = pre ++ .header 0#64 :: rest ∧
    Walk Slot.count pre counts taken ∧ headerSum taken = 0#64 ∧
    ∀ slot ∈ rest, slot.isElement = false

/-- Where the walk over the layout reads a count, so does the walk over the varints. -/
theorem Walk.of_slots {slots counts taken : List Slot} (walk : Walk Slot.count slots counts taken)
    {ts : List Token} (layout : ts.map Token.slot = slots) :
    ∃ counts' taken', Walk Token.count ts counts' taken' ∧ counts'.map Token.slot = counts ∧
      taken'.map Token.slot = taken := by
  have countOf : ∀ {t : Token} {n : Word}, t.slot.count = some n → t.count = some n :=
    fun reads => congrArg some (Token.of_slot_header (Slot.eq_header_of_count reads)).1
  induction walk generalizing ts with
  | start =>
      rw [List.map_eq_nil_iff] at layout
      subst layout
      exact ⟨[], [], .start, rfl, rfl⟩
  | negative reads below _ ih =>
      rcases List.map_eq_cons_iff.mp layout with ⟨t, later, rfl, rfl, layoutLater⟩
      rcases ih layoutLater with ⟨counts, taken, walk, rfl, rfl⟩
      exact ⟨_, _, .negative (countOf reads) below walk, rfl, rfl⟩
  | positive reads turns nonempty _ ih =>
      rcases List.map_eq_cons_iff.mp layout with ⟨t, later, rfl, rfl, layoutLater⟩
      rcases List.map_eq_append_iff.mp layoutLater with ⟨asked, rest, rfl, rfl, layoutRest⟩
      rcases ih layoutRest with ⟨counts, taken, walk, rfl, rfl⟩
      rw [List.length_map] at turns
      have someAsked : asked ≠ [] := by simpa using nonempty
      exact ⟨_, _, .positive (countOf reads) turns someAsked walk, rfl, List.map_append⟩

/-- Varints whose layout is walked up to some slot are walked up to its varint. -/
theorem Walk.exists_tokens {pre rest counts taken : List Slot} {slot : Slot} {ts : List Token}
    (walk : Walk Slot.count pre counts taken) (split : ts.map Token.slot = pre ++ slot :: rest) :
    ∃ used t later counts' taken', ts = used ++ t :: later ∧ t.slot = slot ∧
      later.map Token.slot = rest ∧ Walk Token.count used counts' taken' ∧
      counts'.map Token.slot = counts ∧ taken'.map Token.slot = taken := by
  rcases List.map_eq_append_iff.mp split with ⟨used, others, tokens, layout, hothers⟩
  rcases List.map_eq_cons_iff.mp hothers with ⟨t, later, rfl, slot, hlater⟩
  rcases walk.of_slots layout with ⟨counts', taken', walk', hcounts, htaken⟩
  exact ⟨used, t, later, counts', taken', tokens, slot, hlater, walk', hcounts, htaken⟩

/-- Over a layout only headers are read as counts. -/
theorem Walk.counts_headers {slots counts taken : List Slot}
    (walk : Walk Slot.count slots counts taken) : ∀ slot ∈ counts, slot.isElement = false := by
  have header : ∀ {slot : Slot} {n : Word}, slot.count = some n → slot.isElement = false :=
    fun reads => by rw [Slot.eq_header_of_count reads, Slot.isElement]
  induction walk with
  | start => simp
  | negative reads _ _ ih =>
      intro slot member
      rcases List.mem_cons.mp member with rfl | member
      · exact header reads
      · exact ih slot member
  | positive reads _ _ _ ih =>
      intro slot member
      rcases List.mem_cons.mp member with rfl | member
      · exact header reads
      · exact ih slot member

/-- The walk splits the elements into those read as counts and those taken. -/
theorem Walk.elementSum_eq {ts counts taken : List Token}
    (walk : Walk Token.count ts counts taken) :
    elementSum ts = elementSum counts + elementSum taken := by
  induction walk with
  | start => rfl
  | negative _ _ _ ih =>
      rw [elementSum_cons, ih, elementSum_cons]
      ac_rfl
  | positive _ _ _ _ ih =>
      rw [elementSum_cons, elementSum_append, ih, elementSum_cons, elementSum_append]
      ac_rfl

theorem elementSum_eq_zero {ts : List Token}
    (headers : ∀ slot ∈ ts.map Token.slot, slot.isElement = false) : elementSum ts = 0#64 := by
  refine List.sum_eq_zero fun v hv => ?_
  rcases List.mem_map.mp hv with ⟨t, ht, rfl⟩
  have header := headers _ (List.mem_map_of_mem ht)
  rw [Token.isElement_slot] at header
  rw [Token.elementValue, header, if_neg Bool.false_ne_true]
  rfl

/-- An aligned layout balances whatever its elements are. -/
theorem Aligned.balanced {ts : List Token} (aligned : Aligned (ts.map Token.slot)) :
    Balanced ts := by
  rcases aligned with ⟨pre, rest, counts, taken, split, walk, swallowed, headers⟩
  rcases walk.exists_tokens split with ⟨used, z, later, counts', taken', rfl, hz, rfl, walk',
    rfl, rfl⟩
  refine ⟨used, z, later, counts', taken', rfl, (Token.of_slot_header hz).1, walk', ?_⟩
  rw [swallowed, elementSum_eq_zero walk.counts_headers, elementSum_eq_zero headers,
    BitVec.add_zero]

/-! ## The loop on its way -/

/-- The decode-sum loop from a count on. -/
def Krafka.resume (fuel : Nat) (sum : Word) (payload : Bytes) : Outcome (Word × Bytes) := do
  let (count, payload) ← Krafka.readVarint payload
  sumBlocks Krafka.readVarint 0#64 (bodyUnskipped Krafka.readVarint wrappingAdd) fuel count sum
    payload

theorem Krafka.decodeSum_eq_resume (payload : Bytes) :
    Krafka.decodeSum wrappingAdd payload = Krafka.resume (payload.length + 1) 0#64 payload :=
  rfl

theorem Krafka.readsVarints : ReadsVarints Krafka.readVarint :=
  readsVarints_readGroups krafkaRead

theorem Krafka.resume_varint (fuel : Nat) (sum : Word) (v : Varint) (more : Bytes) :
    Krafka.resume (fuel + 1) sum (v.bytes ++ more) =
      if v.value = 0#64 then .ok (sum, more)
      else
        sumTimes Krafka.readVarint wrappingAdd v.value.toInt.toNat sum more >>= fun r =>
          Krafka.resume fuel r.1 r.2 := by
  rw [Krafka.resume, Krafka.readsVarints v more]
  rfl

theorem Krafka.resume_zero (fuel : Nat) (sum : Word) {v : Varint} (zero : v.value = 0#64)
    (more : Bytes) : Krafka.resume (fuel + 1) sum (v.bytes ++ more) = .ok (sum, more) := by
  rw [Krafka.resume_varint, if_pos zero]

/-- A negative count is passed over. -/
theorem Krafka.resume_negative (fuel : Nat) (sum : Word) {v : Varint}
    (negative : v.value.toInt < 0) (more : Bytes) :
    Krafka.resume (fuel + 1) sum (v.bytes ++ more) = Krafka.resume fuel sum more := by
  have nonzero : v.value ≠ 0#64 := by
    intro h
    rw [h, BitVec.toInt_zero] at negative
    omega
  rw [Krafka.resume_varint, if_neg nonzero, Int.toNat_of_nonpos (by omega), sumTimes,
    Outcome.ok_bind]

theorem readsTo_tokens (ts : List Token) (more : Bytes) :
    ReadsTo Krafka.readVarint (tokenBytes ts ++ more) (ts.map fun t => t.varint.value) more := by
  have h := Krafka.readsVarints.readsTo (ts.map Token.varint) more
  rwa [List.flatMap_map, List.map_map] at h

def valueSum (ts : List Token) : Word := (ts.map fun t => t.varint.value).sum

/-- A positive count takes that many varints, whatever they are. -/
theorem Krafka.resume_positive (fuel : Nat) (sum : Word) {v : Varint} {asked : List Token}
    (positive : v.value.toInt = asked.length) (nonempty : asked ≠ []) (more : Bytes) :
    Krafka.resume (fuel + 1) sum (v.bytes ++ (tokenBytes asked ++ more)) =
      Krafka.resume fuel (sum + valueSum asked) more := by
  have nonzero : v.value ≠ 0#64 := by
    intro h
    have := List.length_pos_of_ne_nil nonempty
    rw [h, BitVec.toInt_zero] at positive
    omega
  have turns : v.value.toInt.toNat = (asked.map fun t => t.varint.value).length := by
    rw [positive, Int.toNat_natCast, List.length_map]
  rw [Krafka.resume_varint, if_neg nonzero, turns, sumTimes_of_readsTo (readsTo_tokens asked more),
    addAll_wrappingAdd]
  rfl

/-- Going from count to count the loop adds the varints it takes for elements. -/
theorem Walk.resume {used counts taken : List Token} (walk : Walk Token.count used counts taken) :
    ∃ turns ≤ used.length, ∀ fuel sum more,
      Krafka.resume (fuel + turns) sum (tokenBytes used ++ more) =
        Krafka.resume fuel (sum + valueSum taken) more := by
  induction walk with
  | start => exact ⟨0, le_rfl, fun fuel sum more => by simp [tokenBytes, valueSum]⟩
  | negative reads below _ ih =>
      rcases ih with ⟨turns, few, loop⟩
      cases reads
      refine ⟨turns + 1, by simpa using few, fun fuel sum more => ?_⟩
      rw [tokenBytes_cons, List.append_assoc, ← Nat.add_assoc,
        Krafka.resume_negative _ _ below, loop]
  | positive reads asksFor nonempty _ ih =>
      rcases ih with ⟨turns, few, loop⟩
      cases reads
      refine ⟨turns + 1, ?_, fun fuel sum more => ?_⟩
      · rw [List.length_cons, List.length_append]
        omega
      · rw [tokenBytes_cons, tokenBytes_append, List.append_assoc, List.append_assoc,
          ← Nat.add_assoc, Krafka.resume_positive _ _ asksFor nonempty, loop, valueSum, valueSum,
          valueSum, List.map_append, List.sum_append, BitVec.add_assoc]

/-- The loop on a payload whose first varints lead from count to count. -/
theorem Walk.decodeSum {used counts taken : List Token}
    (walk : Walk Token.count used counts taken) :
    ∃ turns, ∀ more, Krafka.decodeSum wrappingAdd (tokenBytes used ++ more) =
      Krafka.resume ((tokenBytes used ++ more).length - turns + 1) (valueSum taken) more := by
  rcases walk.resume with ⟨turns, few, loop⟩
  have bytes : used.length ≤ (tokenBytes used).length :=
    length_le_length_flatMap fun t _ => t.varint.length_pos
  refine ⟨turns, fun more => ?_⟩
  have split : (tokenBytes used ++ more).length + 1 =
      (tokenBytes used ++ more).length - turns + 1 + turns := by
    rw [List.length_append]
    omega
  rw [Krafka.decodeSum_eq_resume, split, loop, BitVec.zero_add]

/-- At a zero count the loop returns what it has added up. -/
theorem Walk.decodeSum_zero {used counts taken later : List Token} {z : Token}
    (walk : Walk Token.count used counts taken) (zero : z.varint.value = 0#64) :
    Krafka.decodeSum wrappingAdd (tokenBytes (used ++ z :: later)) =
      .ok (valueSum taken, tokenBytes later) := by
  rcases walk.decodeSum with ⟨turns, loop⟩
  rw [tokenBytes_append, loop, tokenBytes_cons, Krafka.resume_zero _ _ zero]

/-! ## Payloads the loop cannot finish -/

theorem Krafka.resume_nil (fuel : Nat) (sum : Word) : Krafka.resume fuel sum [] = .panic := rfl

/-- Fewer varints than turns: indexing panics at the end of the payload. -/
theorem sumTimes_tokenBytes_short (ts : List Token) {n : Nat} (short : ts.length < n)
    (sum : Word) : sumTimes Krafka.readVarint wrappingAdd n sum (tokenBytes ts) = .panic := by
  induction ts generalizing n sum with
  | nil =>
      obtain ⟨n, rfl⟩ := Nat.exists_eq_succ_of_ne_zero (by omega : n ≠ 0)
      rfl
  | cons t ts ih =>
      rw [List.length_cons] at short
      obtain ⟨n, rfl⟩ := Nat.exists_eq_succ_of_ne_zero (by omega : n ≠ 0)
      rw [tokenBytes_cons, sumTimes, Krafka.readsVarints t.varint]
      exact ih (by omega) _

theorem Krafka.resume_short (fuel : Nat) (sum : Word) {t : Token} {rest : List Token}
    (short : (rest.length : Int) < t.varint.value.toInt) :
    Krafka.resume (fuel + 1) sum (tokenBytes (t :: rest)) = .panic := by
  have nonzero : t.varint.value ≠ 0#64 := by
    intro h
    rw [h, BitVec.toInt_zero] at short
    omega
  rw [tokenBytes_cons, Krafka.resume_varint, if_neg nonzero,
    sumTimes_tokenBytes_short rest (by omega), Outcome.panic_bind]

/-- Without another count the loop panics. -/
theorem Walk.decodeSum_runsOut {ts counts taken : List Token}
    (walk : Walk Token.count ts counts taken) :
    Krafka.decodeSum wrappingAdd (tokenBytes ts) = .panic := by
  rcases walk.decodeSum with ⟨turns, loop⟩
  have whole := loop []
  rwa [List.append_nil, Krafka.resume_nil] at whole

/-- A count of more varints than are left makes the loop panic. -/
theorem Walk.decodeSum_short {used counts taken rest : List Token} {t : Token}
    (walk : Walk Token.count used counts taken)
    (short : (rest.length : Int) < t.varint.value.toInt) :
    Krafka.decodeSum wrappingAdd (tokenBytes (used ++ t :: rest)) = .panic := by
  rcases walk.decodeSum with ⟨turns, loop⟩
  rw [tokenBytes_append, loop, Krafka.resume_short _ _ short]

/-! ## Encodings of one layout -/

/-- Tokens with the slots of headers, or of elements, are headers, or elements. -/
theorem eq_map_of_slots {ts : List Token} {vs : List Varint} {flag : Bool}
    (h : ts.map Token.slot = (vs.map (⟨·, flag⟩)).map Token.slot) :
    ts = (ts.map Token.varint).map (⟨·, flag⟩) := by
  have flags := congrArg (List.map Slot.isElement) h
  simp only [List.map_map, Function.comp_def, Token.isElement_slot] at flags
  rw [List.map_map]
  refine (List.map_id ts).symm.trans (List.map_congr_left fun t ht => ?_)
  have flagged : t.isElement ∈ vs.map fun _ => flag := by
    rw [← flags]
    exact List.mem_map_of_mem ht
  obtain ⟨_, -, rfl⟩ := List.mem_map.mp flagged
  rfl

theorem Block.exists_of_slots (b : Block) {ts : List Token}
    (h : ts.map Token.slot = b.tokens.map Token.slot) : ∃ b' : Block, b'.tokens = ts := by
  rw [Block.tokens, List.map_cons, List.map_append] at h
  obtain ⟨t, rest, rfl, count, later⟩ := List.map_eq_cons_iff.mp h
  obtain ⟨sizes, elements, rfl, hsizes, helements⟩ := List.map_eq_append_iff.mp later
  have countHeader := Token.of_slot_header count
  have isHeader : t.isElement = false := by
    rw [← Token.isElement_slot, count]
    rfl
  have lengths : elements.length = b.elements.length := by
    simpa using congrArg List.length helements
  obtain ⟨byteSize, rfl, sameSign⟩ : ∃ byteSize : Option Varint,
      sizes = byteSize.toList.map (⟨·, false⟩) ∧ byteSize.isSome = b.byteSize.isSome := by
    have sizesEq := eq_map_of_slots hsizes
    have sizesLength := congrArg List.length hsizes
    cases hb : b.byteSize with
    | none =>
        rw [hb] at sizesLength
        exact ⟨none, List.eq_nil_of_length_eq_zero (by simpa using sizesLength), rfl⟩
    | some size =>
        rw [hb] at sizesLength
        obtain ⟨s, rfl⟩ := List.length_eq_one_iff.mp (by simpa using sizesLength)
        exact ⟨some s.varint, sizesEq, rfl⟩
  refine ⟨⟨t.varint, byteSize, elements.map Token.varint, ?_, ?_, ?_⟩, ?_⟩
  · intro none
    have := b.length_elements_pos
    rw [List.map_eq_nil_iff.mp none, List.length_nil] at lengths
    omega
  · rw [List.length_map, lengths]
    exact b.fits
  · rw [countHeader.1, sameSign, List.length_map, lengths]
    exact b.count_eq
  · rw [Block.tokens, ← eq_map_of_slots helements, ← isHeader]

/-- Tokens with the layout of an encoding are an encoding. -/
theorem Encoding.exists_of_layout (e : Encoding) {ts : List Token}
    (h : ts.map Token.slot = e.layout) : ∃ e' : Encoding, e'.tokens = ts := by
  rcases e with ⟨blocks, terminator, terminator_eq⟩
  rw [Encoding.layout, Encoding.tokens, List.map_append] at h
  obtain ⟨front, last, rfl, hfront, hlast⟩ := List.map_eq_append_iff.mp h
  obtain ⟨t, rfl, hslot⟩ := List.map_eq_singleton_iff.mp hlast
  replace hslot : t.slot = .header terminator.value := hslot
  have zero := Token.of_slot_header hslot
  have isHeader : t.isElement = false := by
    rw [← Token.isElement_slot, hslot]
    rfl
  suffices ∃ blocks' : List Block, blocks'.flatMap Block.tokens = front by
    obtain ⟨blocks', rfl⟩ := this
    exact ⟨⟨blocks', t.varint, zero.1.trans terminator_eq⟩, by rw [Encoding.tokens, ← isHeader]⟩
  simp only at hfront
  clear h hlast
  induction blocks generalizing front with
  | nil =>
      rw [List.flatMap_nil, List.map_nil, List.map_eq_nil_iff] at hfront
      exact ⟨[], hfront.symm⟩
  | cons b blocks ih =>
      rw [List.flatMap_cons, List.map_append] at hfront
      obtain ⟨first, rest, rfl, hfirst, hrest⟩ := List.map_eq_append_iff.mp hfront
      obtain ⟨b', rfl⟩ := b.exists_of_slots hfirst
      obtain ⟨blocks', rfl⟩ := ih rest hrest
      exact ⟨b' :: blocks', List.flatMap_cons ..⟩

/-! ## Changing one element -/

/-- Each length of a varint has two negative numbers encoded with it. -/
theorem exists_negative_pair {n : Nat} (pos : 0 < n) (short : n ≤ 10) :
    ∃ x y : Word, x ≠ y ∧ x.toInt < 0 ∧ y.toInt < 0 ∧ (canonical x).length = n ∧
      (canonical y).length = n := by
  have table : ∀ k : Fin 10,
      let x := unzigzag (BitVec.ofNat 64 (128 ^ k.val ||| 1))
      let y := unzigzag (BitVec.ofNat 64 ((128 ^ k.val ||| 1) + 2))
      x ≠ y ∧ x.toInt < 0 ∧ y.toInt < 0 ∧ (canonical x).length = k.val + 1 ∧
        (canonical y).length = k.val + 1 := by
    decide +kernel
  have h := table ⟨n - 1, by omega⟩
  rw [show n - 1 + 1 = n from Nat.sub_add_cancel pos] at h
  exact ⟨_, _, h⟩

/-- krafka's loop returns, with the sum its rdkafka sibling returns, and that is the
sum of the elements modulo 2^64. -/
def SameSum (e : Encoding) : Prop :=
  ∃ rest rest', Krafka.decodeSum wrappingAdd e.bytes = .ok (e.sum, rest) ∧
    Rdkafka.decodeSum wrappingAdd e.bytes = .ok (e.sum, rest')

theorem sameSum_iff (e : Encoding) :
    SameSum e ↔ ∃ rest, Krafka.decodeSum wrappingAdd e.bytes = .ok (e.sum, rest) := by
  constructor
  · intro same
    rcases same with ⟨rest, -, krafka, -⟩
    exact ⟨rest, krafka⟩
  · intro returns
    rcases returns with ⟨rest, krafka⟩
    have rdkafka := Rdkafka.decodeSum_encoding wrappingAdd e []
    rw [List.append_nil, addAll_wrappingAdd, BitVec.zero_add] at rdkafka
    exact ⟨rest, [], krafka, rdkafka⟩

/-- **The loop agrees with its sibling exactly on balanced varints.** -/
theorem sameSum_iff_balanced (e : Encoding) : SameSum e ↔ Balanced e.tokens := by
  rw [sameSum_iff, e.bytes_eq, e.sum_eq]
  have stopped : ∀ {pre rest counts taken : List Token} {z : Token},
      e.tokens = pre ++ z :: rest → z.varint.value = 0#64 → Walk Token.count pre counts taken →
      (valueSum taken = elementSum e.tokens ↔
        headerSum (taken.map Token.slot) = elementSum counts + elementSum rest) := by
    intro pre rest counts taken z split zero walk
    have zeroElement : z.elementValue = 0#64 := by
      rw [Token.elementValue, zero, ite_self]
    have regrouped : elementSum e.tokens =
        elementSum counts + elementSum rest + elementSum taken := by
      rw [split, elementSum_append, elementSum_cons, zeroElement, walk.elementSum_eq]
      simp only [BitVec.zero_add]
      ac_rfl
    rw [valueSum, sum_values_eq, regrouped]
    exact BitVec.add_left_inj _
  constructor
  · intro returns
    rcases returns with ⟨left, loop⟩
    cases walkEnd Token.count e.tokens with
    | stops split zero walk =>
        have zero := Option.some.inj zero
        rw [split, walk.decodeSum_zero zero, ← split] at loop
        injection loop with pair
        exact ⟨_, _, _, _, _, split, zero, walk,
          (stopped split zero walk).mp (congrArg Prod.fst pair)⟩
    | misreads _ unread _ => cases unread
    | runsOut walk =>
        rw [walk.decodeSum_runsOut] at loop
        cases loop
    | runsShort split reads short walk =>
        rw [← Option.some.inj reads] at short
        rw [split, walk.decodeSum_short short] at loop
        cases loop
  · intro balanced
    rcases balanced with ⟨pre, z, rest, counts, taken, split, zero, walk, sums⟩
    refine ⟨tokenBytes rest, ?_⟩
    rw [← (stopped split zero walk).mpr sums, split, walk.decodeSum_zero zero]

/-- If the loop gives the same sum for two values of an element, it does not agree
with its sibling on both. -/
theorem not_sameSum_of_blind {e : Encoding} (canonical : e.Canonical) {pre post : List Token}
    {t : Token} (split : e.tokens = pre ++ t :: post) (element : t.isElement = true)
    (blind : ∀ x y : Word, x.toInt < 0 → y.toInt < 0 →
      (KafkaTest.canonical x).length = (KafkaTest.canonical y).length → ∀ r r',
      Krafka.decodeSum wrappingAdd
        (tokenBytes (pre ++ ⟨.ofWord x, true⟩ :: post)) = .ok r →
      Krafka.decodeSum wrappingAdd
        (tokenBytes (pre ++ ⟨.ofWord y, true⟩ :: post)) = .ok r' → r.1 = r'.1) :
    ∃ e' : Encoding, e'.Canonical ∧ e'.layout = e.layout ∧ ¬ SameSum e' := by
  obtain ⟨x, y, distinct, xneg, yneg, xlength, ylength⟩ :=
    exists_negative_pair t.varint.length_pos t.varint.short
  have layoutOf : ∀ z : Word, (KafkaTest.canonical z).length = t.varint.bytes.length →
      (pre ++ ⟨.ofWord z, true⟩ :: post).map Token.slot = e.layout := fun z length => by
    rw [Encoding.layout, split, List.map_append, List.map_append, List.map_cons, List.map_cons]
    congr 2
    rw [Token.slot, Token.slot, if_pos rfl, if_pos element]
    exact congrArg Slot.element length
  have canonicalOf : ∀ (e' : Encoding) (z : Word),
      e'.tokens = pre ++ ⟨.ofWord z, true⟩ :: post → e'.Canonical := fun e' z tokens u hu => by
    rw [tokens, List.mem_append, List.mem_cons] at hu
    rcases hu with hu | rfl | hu
    · exact canonical u (by rw [split]; exact List.mem_append_left _ hu)
    · exact Varint.canonical_ofWord z
    · exact canonical u (by
        rw [split]
        exact List.mem_append_right _ (List.mem_cons_of_mem _ hu))
  have sumOf : ∀ (e' : Encoding) (z : Word), e'.tokens = pre ++ ⟨.ofWord z, true⟩ :: post →
      e'.sum = elementSum pre + (z + elementSum post) := fun e' z tokens => by
    rw [e'.sum_eq, tokens, elementSum_append, elementSum_cons, Token.elementValue, if_pos rfl,
      Varint.value_ofWord]
  obtain ⟨ex, xtokens⟩ := e.exists_of_layout (layoutOf x xlength)
  obtain ⟨ey, ytokens⟩ := e.exists_of_layout (layoutOf y ylength)
  by_cases xsame : SameSum ex
  · refine ⟨ey, canonicalOf ey y ytokens, ?_, fun ysame => distinct ?_⟩
    · rw [Encoding.layout, ytokens, layoutOf y ylength]
    · obtain ⟨xrest, xloop⟩ := (sameSum_iff ex).mp xsame
      obtain ⟨yrest, yloop⟩ := (sameSum_iff ey).mp ysame
      rw [ex.bytes_eq, xtokens] at xloop
      rw [ey.bytes_eq, ytokens] at yloop
      have same := blind x y xneg yneg (xlength.trans ylength.symm) _ _ xloop yloop
      simp only [sumOf ex x xtokens, sumOf ey y ytokens] at same
      exact (BitVec.add_left_inj _).mp ((BitVec.add_right_inj _).mp same)
  · exact ⟨ex, canonicalOf ex x xtokens, by rw [Encoding.layout, xtokens, layoutOf x xlength],
      xsame⟩

/-- An element behind the zero count is never read. -/
theorem Walk.exists_not_sameSum_of_left {e : Encoding} (canonical : e.Canonical)
    {used counts taken later : List Token} {z t : Token}
    (walk : Walk Token.count used counts taken) (tokens : e.tokens = used ++ z :: later)
    (zero : z.varint.value = 0#64) (behind : t ∈ later) (element : t.isElement = true) :
    ∃ e' : Encoding, e'.Canonical ∧ e'.layout = e.layout ∧ ¬ SameSum e' := by
  rcases List.append_of_mem behind with ⟨before, after, rfl⟩
  refine not_sameSum_of_blind canonical
    (by rw [tokens, ← List.cons_append, ← List.append_assoc]) element ?_
  intro x y _ _ _ r r' hx hy
  rw [List.append_assoc, List.cons_append, walk.decodeSum_zero zero] at hx hy
  cases hx
  cases hy
  rfl

/-- An element read as a count is passed over if it is negative. -/
theorem Walk.exists_not_sameSum_of_misread {e : Encoding} (canonical : e.Canonical)
    {used counts taken later : List Token} {t : Token}
    (walk : Walk Token.count used counts taken) (tokens : e.tokens = used ++ t :: later)
    (element : t.isElement = true) :
    ∃ e' : Encoding, e'.Canonical ∧ e'.layout = e.layout ∧ ¬ SameSum e' := by
  rcases walk.decodeSum with ⟨turns, loop⟩
  refine not_sameSum_of_blind canonical tokens element ?_
  intro x y xneg yneg length r r' hx hy
  rw [tokenBytes_append, loop, tokenBytes_cons,
    Krafka.resume_negative _ _ (by rwa [Varint.value_ofWord])] at hx hy
  simp only [List.length_append, Varint.ofWord, length] at hx hy
  rw [hx] at hy
  cases hy
  rfl

/-! ## When the loop agrees with its sibling -/

/-- Off an aligned layout some encoding with it separates the two loops. -/
theorem exists_not_sameSum {e : Encoding} (canonical : e.Canonical)
    (misaligned : ¬ Aligned e.layout) :
    ∃ e' : Encoding, e'.Canonical ∧ e'.layout = e.layout ∧ ¬ SameSum e' := by
  by_contra allSame
  have same : SameSum e := by
    by_contra h
    exact allSame ⟨e, canonical, rfl, h⟩
  rcases (sameSum_iff e).mp same with ⟨left, loop⟩
  rw [e.bytes_eq, e.sum_eq] at loop
  cases walkEnd Slot.count e.layout with
  | stops split zero walk =>
      rcases walk.exists_tokens split with ⟨used, z, later, counts, taken, tokens, rfl, rfl,
        walk', hcounts, rfl⟩
      have header := Slot.eq_header_of_count zero
      have zero := (Token.of_slot_header header).1
      by_cases headers : ∀ slot ∈ later.map Token.slot, slot.isElement = false
      · -- nothing is left over, so the swallowed headers are what the sums differ by
        rw [tokens, walk'.decodeSum_zero zero, elementSum_append, elementSum_cons,
          (Token.of_slot_header header).2, elementSum_eq_zero headers, walk'.elementSum_eq,
          elementSum_eq_zero (hcounts ▸ walk.counts_headers), valueSum, sum_values_eq] at loop
        simp only [BitVec.zero_add, BitVec.add_zero] at loop
        injection loop with pair
        have swallowed := BitVec.add_left_eq_self.mp (congrArg Prod.fst pair)
        exact misaligned ⟨_, _, _, _, header ▸ split, walk, swallowed, headers⟩
      · push Not at headers
        rcases headers with ⟨slot, hslot, element⟩
        rcases List.mem_map.mp hslot with ⟨t, behind, rfl⟩
        rw [Token.isElement_slot, ne_eq, Bool.not_eq_false] at element
        exact allSame (walk'.exists_not_sameSum_of_left canonical tokens zero behind element)
  | misreads split unread walk =>
      rcases walk.exists_tokens split with ⟨used, t, later, counts, taken, tokens, rfl, rfl,
        walk', -, -⟩
      have element : t.isElement = true := by
        rw [← Token.isElement_slot]
        exact Slot.isElement_of_count unread
      exact allSame (walk'.exists_not_sameSum_of_misread canonical tokens element)
  | runsOut walk =>
      rcases walk.of_slots rfl with ⟨counts, taken, walk', -, -⟩
      rw [walk'.decodeSum_runsOut] at loop
      cases loop
  | runsShort split reads short walk =>
      rcases walk.exists_tokens split with ⟨used, t, later, counts, taken, tokens, rfl, rfl,
        walk', -, -⟩
      rw [List.length_map, ← (Token.of_slot_header (Slot.eq_header_of_count reads)).1] at short
      rw [tokens, walk'.decodeSum_short short] at loop
      cases loop

/-- Elements are not headers. -/
theorem headerSum_elements (vs : List Varint) :
    headerSum ((vs.map (⟨·, true⟩)).map Token.slot) = 0#64 := by
  simp [headerSum, Function.comp_def, Token.slot, Slot.headerValue]

/-- Re-reading a byte size as a count does no harm where it is the number of
elements. -/
theorem Block.walk {b : Block} {slots counts taken : List Slot}
    (size : ∀ size, b.byteSize = some size → size.value.toInt = b.elements.length)
    (walk : Walk Slot.count slots counts taken) : ∃ counts' taken',
      Walk Slot.count (b.tokens.map Token.slot ++ slots) counts' taken' ∧
        headerSum taken' = headerSum taken := by
  have nonempty : (b.elements.map (⟨·, true⟩)).map Token.slot ≠ [] := by
    simpa using b.nonempty
  have passes : ∀ n : Word, n.toInt = b.elements.length → Walk Slot.count
      (.header n :: ((b.elements.map (⟨·, true⟩)).map Token.slot ++ slots)) (.header n :: counts)
      ((b.elements.map (⟨·, true⟩)).map Token.slot ++ taken) := by
    intro n hn
    have turns : n.toInt = ((b.elements.map (⟨·, true⟩)).map Token.slot).length := by
      rw [hn, List.length_map, List.length_map]
    exact .positive rfl turns nonempty walk
  have swallowed : headerSum ((b.elements.map (⟨·, true⟩)).map Token.slot ++ taken) =
      headerSum taken := by
    rw [headerSum_append, headerSum_elements, BitVec.zero_add]
  have count := b.count_eq
  cases hb : b.byteSize with
  | none =>
      rw [hb, Option.isSome_none, if_neg Bool.false_ne_true] at count
      have walk' := passes _ count
      refine ⟨.header b.count.value :: counts, _, ?_, swallowed⟩
      simpa [Block.tokens, hb, Token.slot] using walk'
  | some s =>
      rw [hb, Option.isSome_some, if_pos rfl] at count
      have := b.length_elements_pos
      have negative : b.count.value.toInt < 0 := by omega
      have reads : Slot.count (.header b.count.value) = some b.count.value := rfl
      have walk' := Walk.negative reads negative (passes _ (size s hb))
      refine ⟨.header b.count.value :: .header s.value :: counts, _, ?_, swallowed⟩
      simpa [Block.tokens, hb, Token.slot] using walk'

/-- If every byte size is the number of elements of its block, that is, if every
element behind a negative count takes one byte, the layout is aligned. -/
theorem aligned_of_byteSizes {e : Encoding} (sizes : ∀ b ∈ e.blocks, ∀ size,
    b.byteSize = some size → size.value.toInt = b.elements.length) : Aligned e.layout := by
  rcases e with ⟨blocks, terminator, terminator_eq⟩
  have walk : ∃ counts taken, Walk Slot.count ((blocks.flatMap Block.tokens).map Token.slot)
      counts taken ∧ headerSum taken = 0#64 := by
    simp only at sizes
    induction blocks with
    | nil => exact ⟨[], [], .start, rfl⟩
    | cons b blocks ih =>
        rcases ih fun b hb => sizes b (List.mem_cons_of_mem _ hb) with ⟨_, _, walk, zero⟩
        rcases b.walk (sizes b List.mem_cons_self) walk with ⟨counts, taken, walk', swallowed⟩
        rw [← List.map_append, ← List.flatMap_cons] at walk'
        exact ⟨counts, taken, walk', swallowed.trans zero⟩
  rcases walk with ⟨counts, taken, walk, zero⟩
  refine ⟨_, [], counts, taken, ?_, walk, zero, by simp⟩
  simp [Encoding.layout, Encoding.tokens, Token.slot, terminator_eq]

/-- **When negative counts do no harm.**  krafka's loop agrees with its rdkafka
sibling on an encoding exactly if its varints are balanced, and on every encoding of its
layout exactly if the layout is aligned. -/
theorem krafka_sameSum_iff_aligned (e : Encoding) (canonical : e.Canonical) :
    (SameSum e ↔ Balanced e.tokens) ∧
      ((∀ e' : Encoding, e'.Canonical → e'.layout = e.layout → SameSum e') ↔
        Aligned e.layout) := by
  refine ⟨sameSum_iff_balanced e, ?_, ?_⟩
  · intro all
    by_contra misaligned
    rcases exists_not_sameSum canonical misaligned with ⟨e', canonical', layout, differs⟩
    exact differs (all e' canonical' layout)
  · intro aligned e' _ layout
    rw [← layout] at aligned
    exact (sameSum_iff_balanced e').mpr aligned.balanced

/-- A block of one element announced by a negative count. -/
def negativeBlock (x : Word) : Block where
  count := .ofWord (-1#64)
  byteSize := some (.ofWord (BitVec.ofNat 64 (canonical x).length))
  elements := [.ofWord x]
  nonempty := by simp
  fits := by simp
  count_eq := by
    rw [Varint.value_ofWord]
    rfl

/-- The list of one element in an Avro writer's size-prefixed form. -/
def negativeEncoding (x : Word) : Encoding where
  blocks := [negativeBlock x]
  terminator := .ofWord 0#64
  terminator_eq := Varint.value_ofWord _

theorem canonical_negativeEncoding (x : Word) : (negativeEncoding x).Canonical := by
  intro t ht
  simp only [negativeEncoding, negativeBlock, Encoding.tokens, Block.tokens, List.flatMap_cons,
    List.flatMap_nil, Option.toList_some, List.map_cons, List.map_nil, List.cons_append,
    List.nil_append, List.append_nil, List.mem_cons, List.not_mem_nil, or_false] at ht
  rcases ht with rfl | rfl | rfl | rfl <;> exact Varint.canonical_ofWord _

/-- A two-byte element behind a negative count makes krafka's loop run off the end
of the payload. -/
theorem krafka_panics_on_negativeEncoding :
    (negativeEncoding 100#64).Canonical ∧
      Krafka.decodeSum wrappingAdd (negativeEncoding 100#64).bytes = .panic ∧
      ¬ SameSum (negativeEncoding 100#64) := by
  have panics : Krafka.decodeSum wrappingAdd (negativeEncoding 100#64).bytes = .panic := by
    decide +kernel
  refine ⟨canonical_negativeEncoding _, panics, ?_⟩
  intro same
  rcases same with ⟨rest, rest', loop, -⟩
  rw [panics] at loop
  cases loop

/-- One-byte elements are read all the same. -/
theorem krafka_sameSum_iff_aligned_one_byte : SameSum (negativeEncoding 3#64) := by
  have aligned : Aligned (negativeEncoding 3#64).layout := by
    refine aligned_of_byteSizes fun b hb size hsize => ?_
    rcases List.mem_singleton.mp hb with rfl
    cases hsize
    decide +kernel
  have agree := krafka_sameSum_iff_aligned (negativeEncoding 3#64) (canonical_negativeEncoding _)
  exact agree.2.mpr aligned _ (canonical_negativeEncoding _) rfl

end KafkaTest
