import KafkaTest.Leb128

/-!
# Summing a count-prefixed stream

Programs that sum a stream of blocks, each announced by a count, over numbers of any
kind and an arbitrary reader `read : σ → Outcome (V × σ)`:

* `sumTimes`: a fixed number of turns of `sum += read()`;
* `sumIndexed`: the turns of `for (int j = 0; j < bound; j++)`, with a 32-bit
  index and a 64-bit bound; whether `j++` wraps past the largest `int` or is undefined there is
  a choice of the `IndexDialect`;
* `sumBlocks`: `while (count != 0) { body; count = read(); }`;
* `skipIf`: `if (skips) read();`, the number being dropped.

`Outcome` keeps apart the three ways a loop can go: it returns, it panics (or comes to what its
language leaves undefined), or the fuel was too short to tell.  `ReadsTo read s vs t` says which
values a reader finds between two stream positions; the rules below evaluate each loop over such a
span.  The last section counts the calls of the reader (`spares_blocksFrom`).
-/

namespace KafkaTest

/-- How a computation goes. -/
inductive Outcome (α : Type)
  | ok (value : α)
  | panic
  | outOfFuel
  deriving DecidableEq

namespace Outcome

variable {α β : Type}

def bind : Outcome α → (α → Outcome β) → Outcome β
  | ok a, f => f a
  | panic, _ => panic
  | outOfFuel, _ => outOfFuel

instance : Monad Outcome where
  pure := ok
  bind := bind

@[simp] theorem pure_eq_ok (a : α) : (pure a : Outcome α) = ok a := rfl

@[simp] theorem ok_bind (a : α) (f : α → Outcome β) : (ok a >>= f) = f a := rfl

@[simp] theorem panic_bind (f : α → Outcome β) : (panic >>= f) = panic := rfl

@[simp] theorem outOfFuel_bind (f : α → Outcome β) : (outOfFuel >>= f) = outOfFuel := rfl

theorem bind_eq_ok {x : Outcome α} {f : α → Outcome β} {b : β} :
    (x >>= f) = ok b ↔ ∃ a, x = ok a ∧ f a = ok b := by
  cases x with
  | ok a => simp
  | panic => simp
  | outOfFuel => simp

theorem bind_ne_outOfFuel {x : Outcome α} {f : α → Outcome β} (hx : x ≠ outOfFuel)
    (hf : ∀ a, x = ok a → f a ≠ outOfFuel) : (x >>= f) ≠ outOfFuel := by
  cases x with
  | ok a => exact hf a rfl
  | panic => simp
  | outOfFuel => exact (hx rfl).elim

theorem bind_ne_panic {x : Outcome α} {f : α → Outcome β} (hx : x ≠ panic)
    (hf : ∀ a, f a ≠ panic) : (x >>= f) ≠ panic := by
  cases x with
  | ok a => exact hf a
  | panic => exact (hx rfl).elim
  | outOfFuel => simp

end Outcome

/-! ## Additions -/

/-- Machine addition. -/
def wrappingAdd (a b : Word) : Outcome Word := .ok (a + b)

/-- Addition that panics where machine addition would wrap. -/
def checkedAdd (a b : Word) : Outcome Word :=
  if a.saddOverflow b then .panic else .ok (a + b)

/-- `j++` of an `int`.  Below the largest one every language counts. -/
structure IndexDialect where
  next : BitVec 32 → Outcome (BitVec 32)
  next_eq : ∀ j, j.toInt + 1 < 2 ^ 31 → next j = .ok (j + 1#32)

section Loops

variable {σ V : Type} (read : σ → Outcome (V × σ)) (add : V → V → Outcome V)

/-- `if (skips) read();`. -/
def skipIf (skips : Bool) (s : σ) : Outcome σ :=
  if skips then do
    let (_, s) ← read s
    return s
  else return s

/-- `n` turns of `sum += read()`. -/
def sumTimes : Nat → V → σ → Outcome (V × σ)
  | 0, sum, s => .ok (sum, s)
  | n + 1, sum, s => do
    let (v, s) ← read s
    let sum ← add sum v
    sumTimes n sum s

/-- `for (int j = ..; j < bound; j++) sum += read()`: the index is a 32-bit integer, the
comparison is made on 64 bits. -/
def sumIndexed (index : IndexDialect) (bound : Word) :
    Nat → BitVec 32 → V → σ → Outcome (V × σ)
  | 0, _, _, _ => .outOfFuel
  | fuel + 1, j, sum, s =>
    if (j.signExtend 64).slt bound then do
      let (v, s) ← read s
      let sum ← add sum v
      let j ← index.next j
      sumIndexed index bound fuel j sum s
    else .ok (sum, s)

/-- `while (count != zero) { body; count = read(); }`. -/
def sumBlocks [DecidableEq V] (zero : V) (body : V → V → σ → Outcome (V × σ)) :
    Nat → V → V → σ → Outcome (V × σ)
  | 0, _, _, _ => .outOfFuel
  | fuel + 1, count, sum, s =>
    if count = zero then .ok (sum, s) else do
      let (sum, s) ← body count sum s
      let (count, s) ← read s
      sumBlocks zero body fuel count sum s

/-- `count = read(); while (count != zero) { body; count = read(); }`. -/
def blocksFrom [DecidableEq V] (zero : V) (body : V → V → σ → Outcome (V × σ)) (fuel : Nat)
    (sum : V) (s : σ) : Outcome (V × σ) := do
  let (count, s) ← read s
  sumBlocks read zero body fuel count sum s

/-- Reading from `s` finds the values `vs`, in order, and then stands at `t`. -/
def ReadsTo : σ → List V → σ → Prop
  | s, [], t => s = t
  | s, v :: vs, t => ∃ u, read s = .ok (v, u) ∧ ReadsTo u vs t

/-- Add the values to the sum, one after the other. -/
def addAll : V → List V → Outcome V
  | sum, [] => .ok sum
  | sum, v :: vs => do
    let sum ← add sum v
    addAll sum vs

end Loops

section Rules

variable {σ V : Type} {read : σ → Outcome (V × σ)} {add : V → V → Outcome V}

theorem ReadsTo.append {s t u : σ} {vs ws : List V} (left : ReadsTo read s vs t)
    (right : ReadsTo read t ws u) : ReadsTo read s (vs ++ ws) u := by
  induction vs generalizing s with
  | nil =>
      cases left
      exact right
  | cons v vs ih =>
      obtain ⟨m, hread, rest⟩ := left
      exact ⟨m, hread, ih rest⟩

theorem ReadsTo.of_append {s u : σ} {vs ws : List V}
    (h : ReadsTo read s (vs ++ ws) u) : ∃ t, ReadsTo read s vs t ∧ ReadsTo read t ws u := by
  induction vs generalizing s with
  | nil => exact ⟨s, rfl, h⟩
  | cons v vs ih =>
      obtain ⟨m, hread, rest⟩ := h
      obtain ⟨t, left, right⟩ := ih rest
      exact ⟨t, ⟨m, hread, left⟩, right⟩

/-- What a reader finds is determined by how much of it is read. -/
theorem ReadsTo.unique {s t u : σ} {vs ws : List V} (left : ReadsTo read s vs t)
    (right : ReadsTo read s ws u) (length : vs.length = ws.length) : vs = ws ∧ t = u := by
  induction vs generalizing s ws with
  | nil =>
      obtain rfl := List.length_eq_zero_iff.mp length.symm
      cases left
      cases right
      exact ⟨rfl, rfl⟩
  | cons v vs ih =>
      obtain ⟨w, ws, rfl⟩ := List.exists_cons_of_length_eq_add_one length.symm
      obtain ⟨m, hleft, left⟩ := left
      obtain ⟨m', hright, right⟩ := right
      rw [hleft] at hright
      cases hright
      obtain ⟨rfl, rfl⟩ := ih left right (Nat.succ.inj length)
      exact ⟨rfl, rfl⟩

/-- A reader that undoes an encoding finds the values of what is encoded. -/
theorem readsTo_flatMap {α β : Type} {read : List β → Outcome (V × List β)}
    {encode : α → List β} {value : α → V}
    (reads : ∀ a rest, read (encode a ++ rest) = .ok (value a, rest)) (items : List α)
    (rest : List β) : ReadsTo read (items.flatMap encode ++ rest) (items.map value) rest := by
  induction items with
  | nil => rfl
  | cons a items ih =>
      rw [List.flatMap_cons, List.append_assoc]
      exact ⟨_, reads a _, ih⟩

theorem addAll_append (sum : V) (vs ws : List V) :
    addAll add sum (vs ++ ws) = addAll add sum vs >>= fun sum => addAll add sum ws := by
  induction vs generalizing sum with
  | nil => rfl
  | cons v vs ih =>
      simp only [List.cons_append, addAll]
      cases add sum v with
      | ok next => exact ih next
      | panic => rfl
      | outOfFuel => rfl

/-- Machine addition adds modulo the word. -/
theorem addAll_wrappingAdd (sum : Word) (vs : List Word) :
    addAll wrappingAdd sum vs = .ok (sum + vs.sum) := by
  induction vs generalizing sum with
  | nil => simp [addAll]
  | cons v vs ih =>
      rw [addAll, wrappingAdd, Outcome.ok_bind, ih, List.sum_cons, BitVec.add_assoc]

/-- The wrapped sum is the exact sum modulo 2^64, read as a signed number. -/
theorem toInt_sum (vs : List Word) :
    vs.sum.toInt = ((vs.map BitVec.toInt).sum).bmod (2 ^ 64) := by
  induction vs with
  | nil => rfl
  | cons v vs ih =>
      rw [List.sum_cons, BitVec.toInt_add, ih, Int.add_bmod_bmod, List.map_cons,
        List.sum_cons]

/-- Checked addition gives the same sum as long as no partial sum leaves the signed
range. -/
theorem addAll_checkedAdd {sum : Word} {vs : List Word}
    (fits : ∀ k ≤ vs.length, -2 ^ 63 ≤ sum.toInt + ((vs.take k).map BitVec.toInt).sum ∧
      sum.toInt + ((vs.take k).map BitVec.toInt).sum < 2 ^ 63) :
    addAll checkedAdd sum vs = .ok (sum + vs.sum) := by
  induction vs generalizing sum with
  | nil => simp [addAll]
  | cons v vs ih =>
      have first := fits 1 (by simp)
      simp only [List.take_succ_cons, List.take_zero, List.map_cons, List.map_nil,
        List.sum_cons, List.sum_nil, add_zero] at first
      have noOverflow : ¬ sum.saddOverflow v = true := by
        simp only [BitVec.saddOverflow, Bool.or_eq_true, decide_eq_true_eq]
        omega
      have next : (sum + v).toInt = sum.toInt + v.toInt := by
        rw [BitVec.toInt_add, Int.bmod_eq_of_le (by omega) (by omega)]
      rw [addAll, checkedAdd, if_neg noOverflow, Outcome.ok_bind, ih, List.sum_cons,
        BitVec.add_assoc]
      intro k hk
      have later := fits (k + 1) (by simpa using hk)
      rw [List.take_succ_cons, List.map_cons, List.sum_cons, ← Int.add_assoc] at later
      rwa [next]

theorem sumTimes_of_readsTo {s t : σ} {vs : List V} (h : ReadsTo read s vs t)
    (sum : V) :
    sumTimes read add vs.length sum s = addAll add sum vs >>= fun sum => .ok (sum, t) := by
  induction vs generalizing s sum with
  | nil =>
      cases h
      rfl
  | cons v vs ih =>
      obtain ⟨m, hread, rest⟩ := h
      simp only [List.length_cons, sumTimes, hread, Outcome.ok_bind, addAll]
      cases add sum v with
      | ok next => exact ih rest next
      | panic => rfl
      | outOfFuel => rfl

theorem skipIf_eq_ok_iff {skips : Bool} {s t : σ} :
    skipIf read skips s = .ok t ↔
      ∃ vs, vs.length = (if skips then 1 else 0) ∧ ReadsTo read s vs t := by
  cases skips with
  | false =>
      constructor
      · intro h
        cases h
        exact ⟨[], rfl, rfl⟩
      · intro found
        obtain ⟨vs, empty, finds⟩ := found
        obtain rfl := List.length_eq_zero_iff.mp empty
        cases finds
        rfl
  | true =>
      constructor
      · intro h
        obtain ⟨⟨v, u⟩, hread, h⟩ := Outcome.bind_eq_ok.mp h
        cases h
        exact ⟨[v], rfl, _, hread, rfl⟩
      · intro found
        obtain ⟨vs, one, finds⟩ := found
        obtain ⟨v, rfl⟩ := List.length_eq_one_iff.mp one
        obtain ⟨u, hread, rfl⟩ := finds
        rw [skipIf, if_pos rfl, hread]
        rfl

/-- The turns come to an end exactly if the reader finds that many values and they add
up. -/
theorem sumTimes_eq_ok_iff {n : Nat} {sum : V} {s : σ} {r : V × σ} :
    sumTimes read add n sum s = .ok r ↔
      ∃ vs, vs.length = n ∧ ReadsTo read s vs r.2 ∧ addAll add sum vs = .ok r.1 := by
  constructor
  · intro h
    induction n generalizing sum s with
    | zero =>
        cases h
        exact ⟨[], rfl, rfl, rfl⟩
    | succ n ih =>
        obtain ⟨⟨v, u⟩, hread, h⟩ := Outcome.bind_eq_ok.mp h
        obtain ⟨next, hadd, h⟩ := Outcome.bind_eq_ok.mp h
        obtain ⟨vs, rfl, rest, adds⟩ := ih h
        refine ⟨v :: vs, rfl, ⟨u, hread, rest⟩, ?_⟩
        rw [addAll, hadd]
        exact adds
  · intro found
    rcases found with ⟨vs, rfl, finds, adds⟩
    rw [sumTimes_of_readsTo finds, adds]
    rfl

/-- With machine addition the sum is the sum modulo the word. -/
theorem sumTimes_wrappingAdd_eq_ok_iff {read : σ → Outcome (Word × σ)} {n : Nat} {sum : Word}
    {s : σ} {r : Word × σ} :
    sumTimes read wrappingAdd n sum s = .ok r ↔
      ∃ vs, vs.length = n ∧ ReadsTo read s vs r.2 ∧ r.1 = sum + vs.sum := by
  rw [sumTimes_eq_ok_iff]
  simp only [addAll_wrappingAdd, Outcome.ok.injEq, eq_comm]

/-! ## The index loop -/

theorem signExtend_slt_iff (j : BitVec 32) (bound : Word) :
    (j.signExtend 64).slt bound ↔ j.toInt < bound.toInt := by
  rw [BitVec.slt_iff_toInt_lt, BitVec.toInt_signExtend_of_le (by omega)]

theorem toInt_add_one {j : BitVec 32} {bound : Int} (more : j.toInt < bound)
    (fits : bound < 2 ^ 31) : (j + 1#32).toInt = j.toInt + 1 := by
  have one : (1#32).toInt = 1 := rfl
  have low := BitVec.le_toInt j
  rw [BitVec.toInt_add, one, Int.bmod_eq_of_le (by omega) (by omega)]

section IndexLoop

variable {index : IndexDialect}

/-- As long as the bound fits an `int`, the index loop makes one turn for each number
below it. -/
theorem sumIndexed_eq_sumTimes {bound : Word} (fits : bound.toInt < 2 ^ 31) {fuel : Nat}
    {j : BitVec 32} (enough : (bound.toInt - j.toInt).toNat < fuel) (sum : V) (s : σ) :
    sumIndexed read add index bound fuel j sum s =
      sumTimes read add (bound.toInt - j.toInt).toNat sum s := by
  induction fuel generalizing j sum s with
  | zero => omega
  | succ fuel ih =>
      rw [sumIndexed]
      by_cases more : j.toInt < bound.toInt
      · have counts := toInt_add_one more fits
        have turns : (bound.toInt - j.toInt).toNat =
            (bound.toInt - (j + 1#32).toInt).toNat + 1 := by omega
        rw [if_pos ((signExtend_slt_iff j bound).mpr more), turns, sumTimes]
        simp only [index.next_eq j (by omega), Outcome.ok_bind, ih (j := j + 1#32) (by omega)]
      · have turns : (bound.toInt - j.toInt).toNat = 0 := by omega
        rw [if_neg ((signExtend_slt_iff j bound).not.mpr more), turns, sumTimes]

/-- A bound that no `int` reaches is not reached. -/
theorem sumIndexed_ne_ok {bound : Word} (large : 2 ^ 31 ≤ bound.toInt) (fuel : Nat)
    (j : BitVec 32) (sum : V) (s : σ) (r : V × σ) :
    sumIndexed read add index bound fuel j sum s ≠ .ok r := by
  induction fuel generalizing j sum s with
  | zero => simp [sumIndexed]
  | succ fuel ih =>
      have below := BitVec.toInt_lt (x := j)
      have more : j.toInt < bound.toInt := by omega
      rw [sumIndexed, if_pos ((signExtend_slt_iff j bound).mpr more)]
      intro h
      obtain ⟨⟨v, u⟩, -, hadd⟩ := Outcome.bind_eq_ok.mp h
      obtain ⟨total, -, hnext⟩ := Outcome.bind_eq_ok.mp hadd
      obtain ⟨next, -, hrest⟩ := Outcome.bind_eq_ok.mp hnext
      exact ih _ _ _ hrest

/-- A loop that comes to its end had fuel for all of its turns. -/
theorem sumIndexed_enough {bound : Word} (fits : bound.toInt < 2 ^ 31) {fuel : Nat}
    {j : BitVec 32} {sum : V} {s : σ} {r : V × σ}
    (h : sumIndexed read add index bound fuel j sum s = .ok r) :
    (bound.toInt - j.toInt).toNat < fuel := by
  induction fuel generalizing j sum s with
  | zero => cases h
  | succ fuel ih =>
      by_cases more : j.toInt < bound.toInt
      · rw [sumIndexed, if_pos ((signExtend_slt_iff j bound).mpr more)] at h
        obtain ⟨⟨v, u⟩, -, hadd⟩ := Outcome.bind_eq_ok.mp h
        obtain ⟨total, -, hnext⟩ := Outcome.bind_eq_ok.mp hadd
        rw [index.next_eq j (by omega), Outcome.ok_bind] at hnext
        have := ih hnext
        have := toInt_add_one more fits
        omega
      · omega

/-- The index loop comes to its end exactly if its bound fits an `int`, it has the fuel,
and so many turns come to their end. -/
theorem sumIndexed_eq_ok_iff {bound : Word} {fuel : Nat} {sum : V} {s : σ} {r : V × σ} :
    sumIndexed read add index bound fuel 0#32 sum s = .ok r ↔
      (bound.toInt < 2 ^ 31 ∧ bound.toInt.toNat < fuel) ∧
        sumTimes read add bound.toInt.toNat sum s = .ok r := by
  have start : (bound.toInt - (0#32).toInt).toNat = bound.toInt.toNat := by simp
  by_cases fits : bound.toInt < 2 ^ 31
  · constructor
    · intro h
      have enough := sumIndexed_enough fits h
      rw [sumIndexed_eq_sumTimes fits enough, start] at h
      rw [start] at enough
      exact ⟨⟨fits, enough⟩, h⟩
    · intro h
      rw [sumIndexed_eq_sumTimes fits (by rw [start]; exact h.1.2), start]
      exact h.2
  · constructor
    · intro h
      exact (sumIndexed_ne_ok (by omega) _ _ _ _ _ h).elim
    · intro h
      exact (fits h.1.1).elim

theorem sumIndexed_of_readsTo {bound : Word} {s t : σ} {vs : List V} {j : BitVec 32}
    {fuel : Nat} (h : ReadsTo read s vs t) (turns : bound.toInt = j.toInt + vs.length)
    (fits : bound.toInt < 2 ^ 31) (enough : vs.length < fuel) (sum : V) :
    sumIndexed read add index bound fuel j sum s =
      addAll add sum vs >>= fun sum => .ok (sum, t) := by
  have count : (bound.toInt - j.toInt).toNat = vs.length := by omega
  rw [sumIndexed_eq_sumTimes fits (by omega), count]
  exact sumTimes_of_readsTo h sum

end IndexLoop

/-! ## Blocks -/

/-- One block, as the values a reader finds: the count, what stands between the
count and the elements, and the elements. -/
structure BlockValues (V : Type) where
  count : V
  header : List V
  elements : List V

def BlockValues.values (b : BlockValues V) : List V := b.count :: (b.header ++ b.elements)

/-- **Block rule.**  If the body sums each block, the loop sums them all and stops
right after the zero count. -/
theorem sumBlocks_of_readsTo [DecidableEq V] {zero : V} {body : V → V → σ → Outcome (V × σ)}
    {blocks : List (BlockValues V)} {s t : σ} {fuel : Nat}
    (counts : ∀ b ∈ blocks, b.count ≠ zero)
    (sums : ∀ b ∈ blocks, ∀ sum s t, ReadsTo read s (b.header ++ b.elements) t →
      body b.count sum s = addAll add sum b.elements >>= fun sum => .ok (sum, t))
    (h : ReadsTo read s (blocks.flatMap BlockValues.values ++ [zero]) t)
    (enough : blocks.length < fuel) :
    ∃ count u, read s = .ok (count, u) ∧ ∀ sum,
      sumBlocks read zero body fuel count sum u =
        addAll add sum (blocks.flatMap BlockValues.elements) >>= fun sum => .ok (sum, t) := by
  induction blocks generalizing s fuel with
  | nil =>
      obtain ⟨u, hread, rfl⟩ := h
      obtain ⟨fuel, rfl⟩ := Nat.exists_eq_succ_of_ne_zero (by omega : fuel ≠ 0)
      exact ⟨zero, u, hread, fun sum => by simp [sumBlocks, addAll]⟩
  | cons b blocks ih =>
      obtain ⟨fuel, rfl⟩ := Nat.exists_eq_succ_of_ne_zero (by omega : fuel ≠ 0)
      have enoughRest : blocks.length < fuel := by
        rw [List.length_cons] at enough
        omega
      rw [List.flatMap_cons, List.append_assoc] at h
      obtain ⟨m, ⟨u, hcount, hinner⟩, hrest⟩ := h.of_append
      obtain ⟨count, v, hread, hloop⟩ :=
        ih (fun b hb => counts b (List.mem_cons_of_mem _ hb))
          (fun b hb => sums b (List.mem_cons_of_mem _ hb)) hrest enoughRest
      refine ⟨b.count, u, hcount, fun sum => ?_⟩
      have hbody := sums b List.mem_cons_self sum u m hinner
      simp only [sumBlocks, counts b List.mem_cons_self, if_false, hbody,
        List.flatMap_cons, addAll_append]
      cases addAll add sum b.elements with
      | ok next => simp only [Outcome.ok_bind, hread, hloop]
      | panic => rfl
      | outOfFuel => rfl

theorem blocksFrom_of_read [DecidableEq V] {zero : V} {body : V → V → σ → Outcome (V × σ)}
    {count : V} {s t : σ} (hread : read s = .ok (count, t)) (fuel : Nat) (sum : V) :
    blocksFrom read zero body fuel sum s = sumBlocks read zero body fuel count sum t := by
  unfold blocksFrom
  rw [hread]
  rfl

/-! ## Loops that do not panic -/

section NoPanic

variable (never : ∀ s, read s ≠ .panic)

include never

theorem skipIf_ne_panic (skips : Bool) (s : σ) : skipIf read skips s ≠ .panic := by
  cases skips with
  | false => simp [skipIf]
  | true => exact Outcome.bind_ne_panic (never s) fun _ => by simp

theorem sumIndexed_ne_panic (addNever : ∀ a b, add a b ≠ .panic) {index : IndexDialect}
    (indexNever : ∀ j, index.next j ≠ .panic) (bound : Word) (fuel : Nat) (j : BitVec 32)
    (sum : V) (s : σ) : sumIndexed read add index bound fuel j sum s ≠ .panic := by
  induction fuel generalizing j sum s with
  | zero => simp [sumIndexed]
  | succ fuel ih =>
      rw [sumIndexed]
      split
      · exact Outcome.bind_ne_panic (never s) fun r =>
          Outcome.bind_ne_panic (addNever _ _) fun sum =>
            Outcome.bind_ne_panic (indexNever _) fun next => ih _ _ _
      · simp

theorem blocksFrom_ne_panic [DecidableEq V] {zero : V} {body : V → V → σ → Outcome (V × σ)}
    (bodyNever : ∀ count sum s, body count sum s ≠ .panic) (fuel : Nat) (sum : V) (s : σ) :
    blocksFrom read zero body fuel sum s ≠ .panic := by
  have loop : ∀ count sum s, sumBlocks read zero body fuel count sum s ≠ .panic := by
    induction fuel with
    | zero => simp [sumBlocks]
    | succ fuel ih =>
        intro count sum s
        rw [sumBlocks]
        split
        · simp
        · exact Outcome.bind_ne_panic (bodyNever _ _ _) fun r =>
            Outcome.bind_ne_panic (never _) fun r => ih _ _ _
  exact Outcome.bind_ne_panic (never s) fun r => loop _ _ _

end NoPanic

/-! ## Readers that consume -/

section Consuming

variable (size : σ → Nat)

theorem sumTimes_size_le (shrinks : ∀ s v t, read s = .ok (v, t) → size t < size s)
    {n : Nat} {sum sum' : V} {s t : σ} (h : sumTimes read add n sum s = .ok (sum', t)) :
    size t ≤ size s := by
  induction n generalizing sum s with
  | zero =>
      cases h
      exact le_rfl
  | succ n ih =>
      obtain ⟨⟨v, m⟩, hread, hadd⟩ := Outcome.bind_eq_ok.mp h
      obtain ⟨next, -, hrest⟩ := Outcome.bind_eq_ok.mp hadd
      have := shrinks s v m hread
      have := ih hrest
      omega

theorem sumTimes_ne_outOfFuel (total : ∀ s, read s ≠ .outOfFuel)
    (addTotal : ∀ a b, add a b ≠ .outOfFuel) (n : Nat) (sum : V) (s : σ) :
    sumTimes read add n sum s ≠ .outOfFuel := by
  induction n generalizing sum s with
  | zero => simp [sumTimes]
  | succ n ih =>
      refine Outcome.bind_ne_outOfFuel (total s) fun a _ => ?_
      exact Outcome.bind_ne_outOfFuel (addTotal _ _) fun next _ => ih _ _

/-- A loop that consumes input at every turn ends within the length of the input. -/
theorem sumBlocks_ne_outOfFuel [DecidableEq V] {zero : V}
    {body : V → V → σ → Outcome (V × σ)}
    (total : ∀ s, read s ≠ .outOfFuel)
    (shrinks : ∀ s v t, read s = .ok (v, t) → size t < size s)
    (bodyTotal : ∀ count sum s, body count sum s ≠ .outOfFuel)
    (bodyShrinks : ∀ count sum s sum' t, body count sum s = .ok (sum', t) → size t ≤ size s)
    {fuel : Nat} {count sum : V} {s : σ} (enough : size s < fuel) :
    sumBlocks read zero body fuel count sum s ≠ .outOfFuel := by
  induction fuel generalizing count sum s with
  | zero => omega
  | succ fuel ih =>
      rw [sumBlocks]
      split
      · simp
      · refine Outcome.bind_ne_outOfFuel (bodyTotal _ _ _) ?_
        intro r hbody
        rcases r with ⟨sum', t⟩
        refine Outcome.bind_ne_outOfFuel (total _) ?_
        intro r hread
        rcases r with ⟨count', u⟩
        have := bodyShrinks _ _ _ _ _ hbody
        have := shrinks _ _ _ hread
        exact ih (by omega)

/-- A block whose byte size may be skipped. -/
theorem sumBlocks_skipIf_ne_outOfFuel [DecidableEq V] {zero : V} {skips : V → Bool}
    {turns : V → Nat} (total : ∀ s, read s ≠ .outOfFuel)
    (shrinks : ∀ s v t, read s = .ok (v, t) → size t < size s)
    (addTotal : ∀ a b, add a b ≠ .outOfFuel) {fuel : Nat} {count sum : V} {s : σ}
    (enough : size s < fuel) :
    sumBlocks read zero (fun count sum s => skipIf read (skips count) s >>= fun s =>
      sumTimes read add (turns count) sum s) fuel count sum s ≠ .outOfFuel := by
  have skipTotal : ∀ skips s, skipIf read skips s ≠ .outOfFuel := by
    intro skips s
    cases skips with
    | true => exact Outcome.bind_ne_outOfFuel (total s) fun _ _ => by simp
    | false => simp [skipIf]
  have skipShrinks : ∀ skips s t, skipIf read skips s = .ok t → size t ≤ size s := by
    intro skips s t h
    cases skips with
    | true =>
        obtain ⟨⟨v, u⟩, hread, h⟩ := Outcome.bind_eq_ok.mp h
        cases h
        exact (shrinks s v _ hread).le
    | false =>
        cases h
        exact le_rfl
  refine sumBlocks_ne_outOfFuel size total shrinks (fun count sum s => ?_)
    (fun count sum s sum' t h => ?_) enough
  · exact Outcome.bind_ne_outOfFuel (skipTotal _ s) fun u _ =>
      sumTimes_ne_outOfFuel total addTotal _ _ _
  · obtain ⟨u, hskip, h⟩ := Outcome.bind_eq_ok.mp h
    exact (sumTimes_size_le size shrinks h).trans (skipShrinks _ s u hskip)

end Consuming

/-! ## Counting the calls -/

/-- A reader that may be called so many times. -/
def metered (read : σ → Outcome (V × σ)) : σ × Nat → Outcome (V × (σ × Nat))
  | (_, 0) => .outOfFuel
  | (s, calls + 1) => do
    let (v, s) ← read s
    return (v, (s, calls))

/-- The same outcome, with calls left for more than is left of the input. -/
inductive Spares {A : Type} (size : σ → Nat) :
    Outcome (A × σ) → Outcome (A × (σ × Nat)) → Prop
  | ok {a : A} {s : σ} {calls : Nat} : size s < calls → Spares size (.ok (a, s))
    (.ok (a, (s, calls)))
  | panic : Spares size .panic .panic
  | outOfFuel : Spares size .outOfFuel .outOfFuel

section Metered

variable {A B : Type} {size : σ → Nat}

theorem Spares.bind {x : Outcome (A × σ)} {y : Outcome (A × (σ × Nat))}
    {f : A × σ → Outcome (B × σ)} {g : A × (σ × Nat) → Outcome (B × (σ × Nat))}
    (first : Spares size x y)
    (later : ∀ a s calls, size s < calls → Spares size (f (a, s)) (g (a, (s, calls)))) :
    Spares size (x >>= f) (y >>= g) := by
  cases first with
  | ok spare => exact later _ _ _ spare
  | panic => exact .panic
  | outOfFuel => exact .outOfFuel

theorem Spares.ne_outOfFuel {x : Outcome (A × σ)} {y : Outcome (A × (σ × Nat))}
    (h : Spares size x y) (total : x ≠ .outOfFuel) : y ≠ .outOfFuel := by
  cases h with
  | ok _ => simp
  | panic => simp
  | outOfFuel => exact (total rfl).elim

theorem Spares.forget {x : Outcome (A × σ)} {y : Outcome (A × (σ × Nat))}
    (h : Spares size x y) : (y >>= fun r => .ok (r.1, r.2.1)) = x := by
  cases h with
  | ok _ => rfl
  | panic => rfl
  | outOfFuel => rfl

variable (shrinks : ∀ s v t, read s = .ok (v, t) → size t < size s)

include shrinks

theorem spares_metered {s : σ} {calls : Nat} (spare : size s < calls) :
    Spares size (read s) (metered read (s, calls)) := by
  obtain ⟨calls, rfl⟩ := Nat.exists_eq_succ_of_ne_zero (by omega : calls ≠ 0)
  rw [metered]
  cases hread : read s with
  | ok r =>
      have := shrinks s r.1 r.2 hread
      exact .ok (by omega)
  | panic => exact .panic
  | outOfFuel => exact .outOfFuel

theorem spares_sumTimes (n : Nat) (sum : V) {s : σ} {calls : Nat} (spare : size s < calls) :
    Spares size (sumTimes read add n sum s) (sumTimes (metered read) add n sum (s, calls)) := by
  induction n generalizing sum s calls with
  | zero => exact .ok spare
  | succ n ih =>
      refine (spares_metered shrinks spare).bind fun v t calls spare => ?_
      dsimp only
      cases add sum v with
      | ok next => exact ih next spare
      | panic => exact .panic
      | outOfFuel => exact .outOfFuel

/-- A number that may be dropped, and then the turns. -/
theorem spares_skipIf_sumTimes (skips : Bool) (n : Nat) (sum : V) {s : σ} {calls : Nat}
    (spare : size s < calls) :
    Spares size (skipIf read skips s >>= fun s => sumTimes read add n sum s)
      (skipIf (metered read) skips (s, calls) >>= fun s =>
        sumTimes (metered read) add n sum s) := by
  cases skips with
  | false => exact spares_sumTimes shrinks n sum spare
  | true =>
      have dropped : ∀ {τ : Type} (x : Outcome (V × τ)) (f : τ → Outcome (V × τ)),
          ((do let (_, t) ← x; return t) >>= f) = x >>= fun r => f r.2 := by
        intro τ x f
        cases x <;> rfl
      rw [skipIf, skipIf, if_pos rfl, if_pos rfl, dropped, dropped]
      exact (spares_metered shrinks spare).bind fun _ _ _ spare =>
        spares_sumTimes shrinks n sum spare

theorem spares_sumBlocks [DecidableEq V] {zero : V} {body : V → V → σ → Outcome (V × σ)}
    {meteredBody : V → V → σ × Nat → Outcome (V × (σ × Nat))}
    (bodySpares : ∀ count sum s calls, size s < calls →
      Spares size (body count sum s) (meteredBody count sum (s, calls)))
    (fuel : Nat) (count sum : V) {s : σ} {calls : Nat} (spare : size s < calls) :
    Spares size (sumBlocks read zero body fuel count sum s)
      (sumBlocks (metered read) zero meteredBody fuel count sum (s, calls)) := by
  induction fuel generalizing count sum s calls with
  | zero => exact .outOfFuel
  | succ fuel ih =>
      rw [sumBlocks, sumBlocks]
      split
      · exact .ok spare
      · refine (bodySpares count sum s calls spare).bind fun sum t calls spare => ?_
        exact (spares_metered shrinks spare).bind fun count u calls spare => ih count sum spare

/-- **One call for each letter, and one more**, are enough for a loop over blocks whose
reader consumes input. -/
theorem spares_blocksFrom [DecidableEq V] {zero : V} {body : V → V → σ → Outcome (V × σ)}
    {meteredBody : V → V → σ × Nat → Outcome (V × (σ × Nat))}
    (bodySpares : ∀ count sum s calls, size s < calls →
      Spares size (body count sum s) (meteredBody count sum (s, calls)))
    (fuel : Nat) (sum : V) {s : σ} {calls : Nat} (spare : size s < calls) :
    Spares size (blocksFrom read zero body fuel sum s)
      (blocksFrom (metered read) zero meteredBody fuel sum (s, calls)) :=
  (spares_metered shrinks spare).bind fun count _ _ spare =>
    spares_sumBlocks shrinks bodySpares fuel count sum spare

end Metered

end Rules

end KafkaTest
