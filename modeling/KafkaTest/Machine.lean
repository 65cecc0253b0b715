import Mathlib

/-!
# Executable machines and their interleavings

`Machine S L` is a transition function: `m s l` is the state after the label
`l`, or `none` where `l` is not enabled.  `Machine.run` replays a list of labels;
`Machine.Reachable` forgets the list.

`Proc C S L` is one sequential process with a private state `S` over a shared
memory `C`.  It can be looked at in two ways:

* `Proc.alone`: the process in an arbitrary environment.  Each label carries the
  value of the shared memory the process finds, so nothing is assumed about the
  other processes.
* `interleave p`: a family of processes over one shared memory, one step of one
  process at a time.

`interleave_run_alone` relates the two: every component of an interleaved run is
a run of that process alone, so what holds of a process in every environment
holds of each component of the whole.
-/

namespace KafkaTest

/-- A machine, by its transition function; `none` is "not enabled". -/
abbrev Machine (S L : Type) := S → L → Option S

namespace Machine

variable {S L : Type} {m : Machine S L}

/-- Replay a list of labels, in order. -/
def run (m : Machine S L) : S → List L → Option S
  | s, [] => some s
  | s, l :: ls => (m s l).bind fun s' => run m s' ls

/-- Some list of labels leads from `s₀` to `s`. -/
def Reachable (m : Machine S L) (s₀ s : S) : Prop :=
  ∃ ls, m.run s₀ ls = some s

@[simp] theorem run_nil (s : S) : m.run s [] = some s := rfl

theorem run_cons {s s' : S} {l : L} {ls : List L} :
    m.run s (l :: ls) = some s' ↔ ∃ t, m s l = some t ∧ m.run t ls = some s' := by
  simp only [run, Option.bind_eq_some_iff]

theorem run_append {s s' : S} {ls ls' : List L} :
    m.run s (ls ++ ls') = some s' ↔
      ∃ t, m.run s ls = some t ∧ m.run t ls' = some s' := by
  induction ls generalizing s with
  | nil => simp
  | cons l ls ih =>
      simp only [List.cons_append, run_cons, ih]
      constructor
      · intro whole
        rcases whole with ⟨u, hu, t, ht, hs'⟩
        exact ⟨t, ⟨u, hu, ht⟩, hs'⟩
      · intro whole
        rcases whole with ⟨t, ⟨u, hu, ht⟩, hs'⟩
        exact ⟨u, hu, t, ht, hs'⟩

theorem run_concat {s s' : S} {l : L} {ls : List L} :
    m.run s (ls ++ [l]) = some s' ↔ ∃ t, m.run s ls = some t ∧ m t l = some s' := by
  simp [run_append, run_cons]

/-- **Run induction.**  A property of the labels replayed so far and of the state
they lead to, which holds at the start and is kept by each step, holds of every
run. -/
theorem run_induction {s₀ : S} {I : List L → S → Prop} (start : I [] s₀)
    (step : ∀ ls l s s', I ls s → m s l = some s' → I (ls ++ [l]) s')
    {ls : List L} {s : S} (hrun : m.run s₀ ls = some s) : I ls s := by
  induction ls using List.reverseRecOn generalizing s with
  | nil =>
      cases hrun
      exact start
  | append_singleton ls l ih =>
      obtain ⟨t, ht, hl⟩ := run_concat.mp hrun
      exact step ls l t s (ih ht) hl

/-- An inductive invariant holds at the end of every run. -/
theorem run_invariant {s₀ : S} {I : S → Prop} (start : I s₀)
    (step : ∀ l s s', I s → m s l = some s' → I s')
    {ls : List L} {s : S} (hrun : m.run s₀ ls = some s) : I s :=
  run_induction (I := fun _ s => I s) start (fun _ l s s' => step l s s') hrun

theorem Reachable.refl (s : S) : m.Reachable s s := ⟨[], rfl⟩

theorem Reachable.trans {s t u : S} (left : m.Reachable s t) (right : m.Reachable t u) :
    m.Reachable s u := by
  obtain ⟨ls, hls⟩ := left
  obtain ⟨ls', hls'⟩ := right
  exact ⟨ls ++ ls', run_append.mpr ⟨t, hls, hls'⟩⟩

theorem Reachable.single {s t : S} (l : L) (h : m s l = some t) : m.Reachable s t :=
  ⟨[l], run_cons.mpr ⟨t, h, rfl⟩⟩

theorem Reachable.invariant {s₀ s : S} {I : S → Prop} (reached : m.Reachable s₀ s)
    (start : I s₀) (step : ∀ l s s', I s → m s l = some s' → I s') : I s := by
  obtain ⟨ls, hls⟩ := reached
  exact run_invariant start step hls

/-- An invariant whose step may use that the state before it was reached. -/
theorem Reachable.induction {s₀ s : S} {I : S → Prop} (reached : m.Reachable s₀ s) (start : I s₀)
    (step : ∀ l s s', m.Reachable s₀ s → I s → m s l = some s' → I s') : I s := by
  have both := reached.invariant (I := fun s => m.Reachable s₀ s ∧ I s) ⟨.refl _, start⟩
    fun l s s' h hstep => ⟨h.1.trans (.single l hstep), step l s s' h.1 h.2 hstep⟩
  exact both.2

end Machine

/-- A sequential process over a shared memory: from the memory it finds and its
own state, a label leads to the memory it leaves and its next state. -/
abbrev Proc (C S L : Type) := C → S → L → Option (C × S)

namespace Proc

variable {C S L : Type}

/-- The process in an arbitrary environment: each label carries the memory found. -/
def alone (p : Proc C S L) : Machine S (C × L) :=
  fun s l => (p l.1 s l.2).map Prod.snd

theorem alone_eq_some {p : Proc C S L} {s s' : S} {l : C × L} :
    p.alone s l = some s' ↔ ∃ c', p l.1 s l.2 = some (c', s') := by
  simp [alone]

/-- The process with the memory to itself. -/
def solo (p : Proc C S L) : Machine (C × S) L := fun s l => p s.1 s.2 l

/-- The process with a log: `emit s l` is what the step `l` from `s` writes into it. -/
def observe {E : Type} (p : Proc C S L) (emit : S → L → List E) : Proc C (S × List E) L :=
  fun c s l => (p c s.1 l).map fun r => (r.1, r.2, s.2 ++ emit s.1 l)

theorem observe_eq_some {E : Type} {p : Proc C S L} {emit : S → L → List E} {c c' : C}
    {s s' : S × List E} {l : L} :
    p.observe emit c s l = some (c', s') ↔
      p c s.1 l = some (c', s'.1) ∧ s'.2 = s.2 ++ emit s.1 l := by
  rcases s' with ⟨s', log'⟩
  simp only [observe, Option.map_eq_some_iff, Prod.exists, Prod.mk.injEq]
  constructor
  · intro stepped
    rcases stepped with ⟨c, s, hp, rfl, rfl, rfl⟩
    exact ⟨hp, rfl⟩
  · intro stepped
    rcases stepped with ⟨hp, rfl⟩
    exact ⟨c', s', hp, rfl, rfl, rfl⟩

end Proc

/-- A shared memory and the private states of the processes over it. -/
structure Global (C S ι : Type) where
  mem : C
  proc : ι → S

section Interleave

variable {C S L ι : Type} [DecidableEq ι]

/-- One process takes one step on the shared memory. -/
def interleave (p : ι → Proc C S L) : Machine (Global C S ι) (ι × L) :=
  fun g l => (p l.1 g.mem (g.proc l.1) l.2).map fun r =>
    ⟨r.1, Function.update g.proc l.1 r.2⟩

theorem interleave_eq_some {p : ι → Proc C S L} {g g' : Global C S ι} {i : ι} {l : L} :
    interleave p g (i, l) = some g' ↔
      ∃ s', p i g.mem (g.proc i) l = some (g'.mem, s') ∧
        g'.proc = Function.update g.proc i s' := by
  rcases g' with ⟨mem', proc'⟩
  simp only [interleave, Option.map_eq_some_iff, Global.mk.injEq, Prod.exists]
  constructor
  · intro stepped
    rcases stepped with ⟨c, s', hp, rfl, rfl⟩
    exact ⟨s', hp, rfl⟩
  · intro stepped
    rcases stepped with ⟨s', hp, hproc⟩
    exact ⟨mem', s', hp, rfl, hproc.symm⟩

/-- Every component of an interleaved run is a run of that process alone. -/
theorem interleave_run_alone {p : ι → Proc C S L} {g₀ g : Global C S ι}
    (reached : (interleave p).Reachable g₀ g) (i : ι) :
    (p i).alone.Reachable (g₀.proc i) (g.proc i) := by
  refine reached.invariant (I := fun g => (p i).alone.Reachable (g₀.proc i) (g.proc i))
    (.refl _) ?_
  intro label s s' ih hstep
  rcases label with ⟨j, l⟩
  obtain ⟨t, hp, hproc⟩ := interleave_eq_some.mp hstep
  rw [hproc]
  by_cases hij : i = j
  · subst hij
    rw [Function.update_self]
    exact ih.trans (.single (s.mem, l) (Proc.alone_eq_some.mpr ⟨_, hp⟩))
  · rwa [Function.update_of_ne hij]

/-- A run of processes with logs is a run without them. -/
theorem interleave_observe {E : Type} {p : ι → Proc C S L} {emit : S → L → List E}
    {g₀ g : Global C (S × List E) ι}
    (reached : (interleave fun i => (p i).observe emit).Reachable g₀ g) :
    (interleave p).Reachable ⟨g₀.mem, fun i => (g₀.proc i).1⟩
      ⟨g.mem, fun i => (g.proc i).1⟩ := by
  refine reached.invariant (I := fun g => (interleave p).Reachable
    ⟨g₀.mem, fun i => (g₀.proc i).1⟩ ⟨g.mem, fun i => (g.proc i).1⟩) (.refl _) ?_
  intro label s s' ih hstep
  rcases label with ⟨i, l⟩
  obtain ⟨t, ht, hproc⟩ := interleave_eq_some.mp hstep
  obtain ⟨hp, -⟩ := Proc.observe_eq_some.mp ht
  refine ih.trans (.single (i, l) (interleave_eq_some.mpr ⟨t.1, hp, ?_⟩))
  funext j
  simp only [hproc, Function.update_apply]
  split <;> rfl

/-- What a process can do with the memory to itself, it can do among others. -/
theorem interleave_of_solo {p : ι → Proc C S L} {i : ι} {g : Global C S ι} {r : C × S}
    (reached : (p i).solo.Reachable (g.mem, g.proc i) r) :
    ∃ g', (interleave p).Reachable g g' ∧ g'.mem = r.1 ∧
      g'.proc = Function.update g.proc i r.2 := by
  refine reached.invariant (I := fun r => ∃ g', (interleave p).Reachable g g' ∧ g'.mem = r.1 ∧
    g'.proc = Function.update g.proc i r.2) ⟨g, .refl g, rfl, ?_⟩ ?_
  · rw [Function.update_eq_self]
  · intro l s s' found hstep
    rcases found with ⟨g', ih, mem, proc⟩
    refine ⟨⟨s'.1, Function.update g'.proc i s'.2⟩,
      ih.trans (.single (i, l) (interleave_eq_some.mpr ⟨s'.2, ?_, rfl⟩)), rfl, ?_⟩
    · rw [mem, proc, Function.update_self]
      exact hstep
    · rw [proc, Function.update_idem]

/-- A sum over the processes after one of them has moved. -/
theorem sum_update [Fintype ι] {M : Type} [AddCommMonoid M] (f : S → M) (proc : ι → S)
    (i : ι) (s : S) :
    ∑ j, f (Function.update proc i s j) + f (proc i) = ∑ j, f (proc j) + f s := by
  have pulled : ∀ g : ι → M, ∑ j, g j = g i + ∑ j ∈ Finset.univ.erase i, g j := fun g =>
    (Finset.add_sum_erase _ g (Finset.mem_univ i)).symm
  have others : ∑ j ∈ Finset.univ.erase i, f (Function.update proc i s j) =
      ∑ j ∈ Finset.univ.erase i, f (proc j) :=
    Finset.sum_congr rfl fun j hj => by
      rw [Function.update_of_ne (Finset.ne_of_mem_erase hj)]
  rw [pulled, others, pulled fun j => f (proc j), Function.update_self]
  abel

/-- A shared counter that wraps at `m` is the sum of what the processes added to it. -/
theorem interleave_counter [Fintype ι] {p : ι → Proc Nat S L} {m : Nat} (added : S → Nat)
    {g₀ g : Global Nat S ι} (reached : (interleave p).Reachable g₀ g)
    (start : g₀.mem = (∑ i, added (g₀.proc i)) % m)
    (step : ∀ i c s l c' s', (p i).alone.Reachable (g₀.proc i) s → p i c s l = some (c', s') →
      ∃ n, added s' = added s + n ∧ (c' = c ∧ n = 0 ∨ c' = (c + n) % m)) :
    g.mem = (∑ i, added (g.proc i)) % m := by
  refine reached.induction (I := fun g => g.mem = (∑ i, added (g.proc i)) % m) start ?_
  intro label s s' before ih hstep
  rcases label with ⟨i, l⟩
  obtain ⟨t, ht, hproc⟩ := interleave_eq_some.mp hstep
  obtain ⟨n, grows, counter⟩ := step i _ _ _ _ _ (interleave_run_alone before i) ht
  have sums := sum_update added s.proc i t
  rw [← hproc] at sums
  have total : ∑ j, added (s'.proc j) = ∑ j, added (s.proc j) + n := by omega
  rw [total]
  rcases counter with ⟨same, rfl⟩ | more
  · rw [same, ih, Nat.add_zero]
  · rw [more, ih, Nat.mod_add_mod]

/-- A shared counter is the sum of what the processes added to it. -/
theorem interleave_sum [Fintype ι] {p : ι → Proc C S L} {M : Type} [AddCancelCommMonoid M]
    (value : C → M) (added : S → M) {g₀ g : Global C S ι}
    (reached : (interleave p).Reachable g₀ g)
    (start : value g₀.mem = ∑ i, added (g₀.proc i))
    (step : ∀ i g l c' s', (interleave p).Reachable g₀ g → p i g.mem (g.proc i) l = some (c', s') →
      ∃ n, added s' = added (g.proc i) + n ∧ value c' = value g.mem + n) :
    value g.mem = ∑ i, added (g.proc i) := by
  refine reached.induction (I := fun g => value g.mem = ∑ i, added (g.proc i)) start ?_
  intro label s s' before ih hstep
  rcases label with ⟨i, l⟩
  obtain ⟨t, ht, hproc⟩ := interleave_eq_some.mp hstep
  obtain ⟨n, grows, counter⟩ := step i s l _ t before ht
  have sums := sum_update added s.proc i t
  rw [← hproc, grows, ← add_assoc, add_right_comm] at sums
  rw [counter, ih, add_right_cancel sums]

/-- **Overshoot.**  A process has at most one addition to make without another look at
the counter.  If each step leaves the counter below `total`, or pays for what it adds,
the counter and the additions outstanding stay below `total` and the processes. -/
theorem interleave_overshoot [Fintype ι] {p : ι → Proc C S L} (value : C → Nat)
    (credit : S → Nat) {total : Nat} {g₀ g : Global C S ι}
    (reached : (interleave p).Reachable g₀ g) (atMost : ∀ s, credit s ≤ 1)
    (start : value g₀.mem + ∑ i, credit (g₀.proc i) < total + Fintype.card ι)
    (step : ∀ i c s l c' s', (p i).alone.Reachable (g₀.proc i) s →
      value c < total + Fintype.card ι → p i c s l = some (c', s') →
      value c' < total ∨ value c' + credit s' ≤ value c + credit s) :
    value g.mem + ∑ i, credit (g.proc i) < total + Fintype.card ι := by
  refine reached.induction
    (I := fun g => value g.mem + ∑ i, credit (g.proc i) < total + Fintype.card ι) start ?_
  intro label s s' before ih hstep
  rcases label with ⟨i, l⟩
  obtain ⟨t, ht, hproc⟩ := interleave_eq_some.mp hstep
  have bound : value s.mem < total + Fintype.card ι := by omega
  rcases step i _ _ _ _ _ (interleave_run_alone before i) bound ht with below | paid
  · have outstanding : ∑ j, credit (s'.proc j) ≤ Fintype.card ι := by
      have ones := Finset.sum_le_sum fun j (_ : j ∈ Finset.univ) => atMost (s'.proc j)
      rwa [Finset.sum_const, Finset.card_univ, smul_eq_mul, mul_one] at ones
    omega
  · have sums := sum_update credit s.proc i t
    rw [← hproc] at sums
    omega

/-- What a process has seen of the shared memory stays true, if no step undoes it. -/
theorem interleave_seen {p : ι → Proc C S L} {P : S → Prop} {Q : C → Prop}
    {g₀ g : Global C S ι} (reached : (interleave p).Reachable g₀ g)
    (start : ∀ i, ¬ P (g₀.proc i))
    (step : ∀ i g l c' s', (interleave p).Reachable g₀ g → p i g.mem (g.proc i) l = some (c', s') →
      (Q g.mem → Q c') ∧ (P s' → P (g.proc i) ∨ Q c')) :
    ∀ i, P (g.proc i) → Q g.mem := by
  refine reached.induction (I := fun g => ∀ i, P (g.proc i) → Q g.mem)
    (fun i h => (start i h).elim) ?_
  intro label s s' before ih hstep k seen
  rcases label with ⟨i, l⟩
  obtain ⟨t, ht, hproc⟩ := interleave_eq_some.mp hstep
  obtain ⟨stable, sees⟩ := step i s l _ t before ht
  rw [hproc] at seen
  by_cases hik : k = i
  · subst hik
    rw [Function.update_self] at seen
    exact (sees seen).elim (fun earlier => stable (ih k earlier)) id
  · rw [Function.update_of_ne hik] at seen
    exact stable (ih k seen)

/-- Processes that do no more than others reach no more. -/
theorem interleave_mono {p q : ι → Proc C S L}
    (steps : ∀ i c s l r, p i c s l = some r → q i c s l = some r) {g₀ g : Global C S ι}
    (reached : (interleave p).Reachable g₀ g) : (interleave q).Reachable g₀ g := by
  refine reached.invariant (I := fun g => (interleave q).Reachable g₀ g) (.refl _)
    fun label s s' ih hstep => ?_
  rcases label with ⟨i, l⟩
  obtain ⟨t, ht, hproc⟩ := interleave_eq_some.mp hstep
  exact ih.trans (.single (i, l) (interleave_eq_some.mpr ⟨t, steps i _ _ _ _ ht, hproc⟩))

/-- **Completion.**  If each process that is not over yet has a step that takes it closer to its
end, there is a run in which all of them come to it. -/
theorem interleave_exists_over [Fintype ι] {p : ι → Proc C S L} {I : Global C S ι → Prop}
    (isOver : S → Prop) (effort : ι → S → Nat)
    (progress : ∀ g i, I g → ¬ isOver (g.proc i) → ∃ l g', interleave p g (i, l) = some g' ∧
      I g' ∧ effort i (g'.proc i) < effort i (g.proc i)) {g : Global C S ι} (start : I g) :
    ∃ g', (interleave p).Reachable g g' ∧ I g' ∧ ∀ i, isOver (g'.proc i) := by
  generalize bound : ∑ i, effort i (g.proc i) = n
  induction n using Nat.strong_induction_on generalizing g with
  | h n ih =>
      by_cases done : ∀ i, isOver (g.proc i)
      · exact ⟨g, .refl g, start, done⟩
      · obtain ⟨i, running⟩ := not_forall.mp done
        obtain ⟨l, g', hstep, inv, closer⟩ := progress g i start running
        obtain ⟨t, -, hproc⟩ := interleave_eq_some.mp hstep
        have others : ∀ j ∈ Finset.univ, effort j (g'.proc j) ≤ effort j (g.proc j) := by
          intro j _
          by_cases same : j = i
          · rw [same]
            exact closer.le
          · rw [hproc, Function.update_of_ne same]
        have less := Finset.sum_lt_sum others ⟨i, Finset.mem_univ i, closer⟩
        obtain ⟨g'', goes, inv', ended⟩ := ih _ (bound ▸ less) inv rfl
        exact ⟨g'', (Machine.Reachable.single (i, l) hstep).trans goes, inv', ended⟩

end Interleave

end KafkaTest
