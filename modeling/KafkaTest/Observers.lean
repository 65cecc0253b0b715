import KafkaTest.Machine

/-!
# Machines that are looked at

`Machine.watched m look` is a machine together with an observer: a process of its own that
looks at the state now and then, and does not change it.

* `watched_fst`, `watched_of_reachable`: the machine goes on as without the observer, and the
  observer need not look.
* `watched_log`: what an observer notes of a value that never falls is sorted, and is never
  ahead of the value.

An observer that takes what it finds changes the value.  `interleave_swapped` accounts for a
counter that some processes add to, and others swap for zero; `Proc.either` puts processes of
two kinds over one memory.
-/

namespace KafkaTest

namespace Machine

variable {S L O A : Type} {m : Machine S L} {look : S → O → A → Option O}

/-- A machine and its observer, one step of one of them at a time. -/
def watched (m : Machine S L) (look : S → O → A → Option O) : Machine (S × O) (L ⊕ A) :=
  fun s l =>
    match l with
    | .inl l => (m s.1 l).map fun s' => (s', s.2)
    | .inr a => (look s.1 s.2 a).map fun o => (s.1, o)

/-- The machine goes on as if it were alone. -/
theorem watched_fst {s t : S × O} (reached : (watched m look).Reachable s t) :
    m.Reachable s.1 t.1 := by
  refine reached.invariant (I := fun t => m.Reachable s.1 t.1) (.refl _) fun l t t' ih hstep => ?_
  cases l with
  | inl l =>
      obtain ⟨next, steps, rfl⟩ := Option.map_eq_some_iff.mp hstep
      exact ih.trans (.single l steps)
  | inr a =>
      obtain ⟨o, -, rfl⟩ := Option.map_eq_some_iff.mp hstep
      exact ih

/-- A run of the machine that nobody looks at. -/
theorem watched_of_reachable {s t : S} (reached : m.Reachable s t) (o : O) :
    (watched m look).Reachable (s, o) (t, o) := by
  refine reached.invariant (I := fun t => (watched m look).Reachable (s, o) (t, o)) (.refl _)
    fun l t t' ih hstep => ?_
  exact ih.trans (.single (.inl l) (Option.map_eq_some_iff.mpr ⟨t', hstep, rfl⟩))

/-- An invariant of the machine and its observer, one case for the steps of each. -/
theorem watched_invariant {s₀ : S} {o₀ : O} {t : S × O} {I : S → O → Prop}
    (reached : (watched m look).Reachable (s₀, o₀) t) (start : I s₀ o₀)
    (moves : ∀ l s s' o, m.Reachable s₀ s → I s o → m s l = some s' → I s' o)
    (looks : ∀ a s o o', m.Reachable s₀ s → I s o → look s o a = some o' → I s o') :
    I t.1 t.2 := by
  refine reached.induction (I := fun t => I t.1 t.2) start fun l t t' before ih hstep => ?_
  have alone := watched_fst before
  cases l with
  | inl l =>
      obtain ⟨next, steps, rfl⟩ := Option.map_eq_some_iff.mp hstep
      exact moves l _ _ _ alone ih steps
  | inr a =>
      obtain ⟨o, sees, rfl⟩ := Option.map_eq_some_iff.mp hstep
      exact looks a _ _ _ alone ih sees

/-- **What an observer notes** of a value that never falls is sorted, and the value is past
it. -/
theorem watched_log {s₀ : S} {o₀ : O} {t : S × O} (value : S → Nat) (log : O → List Nat)
    (reached : (watched m look).Reachable (s₀, o₀) t) (empty : log o₀ = [])
    (grows : ∀ l s s', m.Reachable s₀ s → m s l = some s' → value s ≤ value s')
    (notes : ∀ a s o o', look s o a = some o' → log o' = log o ∨ log o' = log o ++ [value s]) :
    (log t.2).Pairwise (· ≤ ·) ∧ ∀ c ∈ log t.2, c ≤ value t.1 := by
  refine watched_invariant (I := fun s o => (log o).Pairwise (· ≤ ·) ∧ ∀ c ∈ log o, c ≤ value s)
    reached ?_ ?_ ?_
  · rw [empty]
    exact ⟨.nil, fun c member => by cases member⟩
  · intro l s s' o before ih steps
    exact ⟨ih.1, fun c member => (ih.2 c member).trans (grows l s s' before steps)⟩
  · intro a s o o' _ ih sees
    obtain ⟨sorted, past⟩ := ih
    rcases notes a s o o' sees with same | more
    · rw [same]
      exact ⟨sorted, past⟩
    · rw [more]
      refine ⟨List.pairwise_append.mpr ⟨sorted, List.pairwise_singleton _ _, ?_⟩, ?_⟩
      · intro c member d last
        rw [List.mem_singleton.mp last]
        exact past c member
      · intro c member
        rcases List.mem_append.mp member with earlier | last
        · exact past c earlier
        · exact (List.mem_singleton.mp last).le

end Machine

/-! ## Processes of two kinds -/

namespace Proc

variable {C S S' L L' : Type} {p : Proc C S L} {q : Proc C S' L'}

/-- A process of the one kind or of the other, by its state. -/
def either (p : Proc C S L) (q : Proc C S' L') : Proc C (S ⊕ S') (L ⊕ L') := fun c s l =>
  match s, l with
  | .inl s, .inl l => (p c s l).map fun r => (r.1, .inl r.2)
  | .inr s, .inr l => (q c s l).map fun r => (r.1, .inr r.2)
  | _, _ => none

theorem either_eq_some {c c' : C} {s t : S ⊕ S'} {l : L ⊕ L'}
    (h : p.either q c s l = some (c', t)) :
    (∃ s₁ l₁ t₁, s = .inl s₁ ∧ l = .inl l₁ ∧ t = .inl t₁ ∧ p c s₁ l₁ = some (c', t₁)) ∨
      ∃ s₂ l₂ t₂, s = .inr s₂ ∧ l = .inr l₂ ∧ t = .inr t₂ ∧ q c s₂ l₂ = some (c', t₂) := by
  unfold either at h
  split at h
  · obtain ⟨r, steps, same⟩ := Option.map_eq_some_iff.mp h
    cases same
    exact .inl ⟨_, _, _, rfl, rfl, rfl, steps⟩
  · obtain ⟨r, steps, same⟩ := Option.map_eq_some_iff.mp h
    cases same
    exact .inr ⟨_, _, _, rfl, rfl, rfl, steps⟩
  · cases h

/-- A process of the first kind stays one. -/
theorem either_alone_inl {s : S} {t : S ⊕ S'}
    (reached : (p.either q).alone.Reachable (.inl s) t) :
    ∃ t₁, t = .inl t₁ ∧ p.alone.Reachable s t₁ := by
  refine reached.invariant (I := fun t => ∃ t₁, t = .inl t₁ ∧ p.alone.Reachable s t₁)
    ⟨s, rfl, .refl s⟩ fun l u u' found hstep => ?_
  obtain ⟨c', stepped⟩ := alone_eq_some.mp hstep
  obtain ⟨u₁, rfl, ih⟩ := found
  rcases either_eq_some stepped with ⟨s₁, l₁, t₁, same, -, rfl, steps⟩ | ⟨s₂, -, -, other, -⟩
  · cases same
    exact ⟨t₁, rfl, ih.trans (.single (l.1, l₁) (alone_eq_some.mpr ⟨c', steps⟩))⟩
  · cases other

/-- So does one of the second. -/
theorem either_alone_inr {s : S'} {t : S ⊕ S'}
    (reached : (p.either q).alone.Reachable (.inr s) t) :
    ∃ t₂, t = .inr t₂ ∧ q.alone.Reachable s t₂ := by
  refine reached.invariant (I := fun t => ∃ t₂, t = .inr t₂ ∧ q.alone.Reachable s t₂)
    ⟨s, rfl, .refl s⟩ fun l u u' found hstep => ?_
  obtain ⟨c', stepped⟩ := alone_eq_some.mp hstep
  obtain ⟨u₂, rfl, ih⟩ := found
  rcases either_eq_some stepped with ⟨s₁, -, -, other, -⟩ | ⟨s₂, l₂, t₂, same, -, rfl, steps⟩
  · cases other
  · cases same
    exact ⟨t₂, rfl, ih.trans (.single (l.1, l₂) (alone_eq_some.mpr ⟨c', steps⟩))⟩

end Proc

/-- **A counter that is emptied.**  What is in a counter and what was taken out of it is never
more than what was added, and is the same modulo the word of the counter: then nothing is lost
as long as the additions fit the word. -/
theorem interleave_swapped {C S L ι : Type} [DecidableEq ι] [Fintype ι] {p : ι → Proc C S L}
    (value : C → Nat) (added taken : S → Nat) {m : Nat} {g₀ g : Global C S ι}
    (reached : (interleave p).Reachable g₀ g)
    (start : value g₀.mem + ∑ i, taken (g₀.proc i) = ∑ i, added (g₀.proc i))
    (step : ∀ i c s l c' s', p i c s l = some (c', s') → ∃ n k, added s' = added s + n ∧
      taken s' = taken s + k ∧ value c' + k ≤ value c + n ∧
      (value c' + k) % m = (value c + n) % m) :
    value g.mem + ∑ i, taken (g.proc i) ≤ ∑ i, added (g.proc i) ∧
      (value g.mem + ∑ i, taken (g.proc i)) % m = (∑ i, added (g.proc i)) % m := by
  refine reached.invariant (I := fun g => value g.mem + ∑ i, taken (g.proc i) ≤
      ∑ i, added (g.proc i) ∧
    (value g.mem + ∑ i, taken (g.proc i)) % m = (∑ i, added (g.proc i)) % m)
    ⟨start.le, congrArg (· % m) start⟩ fun label s s' ih hstep => ?_
  rcases label with ⟨i, l⟩
  obtain ⟨t, ht, hproc⟩ := interleave_eq_some.mp hstep
  obtain ⟨n, k, grows, takes, less, same⟩ := step i _ _ _ _ _ ht
  have sumAdded := sum_update added s.proc i t
  have sumTaken := sum_update taken s.proc i t
  rw [← hproc] at sumAdded sumTaken
  have allAdded : ∑ j, added (s'.proc j) = ∑ j, added (s.proc j) + n := by omega
  have allTaken : ∑ j, taken (s'.proc j) = ∑ j, taken (s.proc j) + k := by omega
  obtain ⟨bound, modulo⟩ := ih
  refine ⟨by omega, ?_⟩
  calc (value s'.mem + ∑ j, taken (s'.proc j)) % m
      = (value s'.mem + k + ∑ j, taken (s.proc j)) % m := by rw [allTaken]; congr 1; omega
    _ = (value s.mem + n + ∑ j, taken (s.proc j)) % m := by rw [Nat.add_mod, same, ← Nat.add_mod]
    _ = (value s.mem + ∑ j, taken (s.proc j) + n) % m := by congr 1; omega
    _ = (∑ j, added (s'.proc j)) % m := by rw [Nat.add_mod, modulo, ← Nat.add_mod, allAdded]

end KafkaTest
