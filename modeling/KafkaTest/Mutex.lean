import KafkaTest.Machine

/-!
# Critical sections

A `LockedProgram` touches its shared memory only under a lock.  It runs at two grains:

* `LockedProgram.atomic`: a critical section is one step;
* `LockedProgram.locked`: the lock is taken, the memory is read, what becomes of it is
  written back, and the lock is released, each in a step of its own, while the other
  processes go on.

`locked_reachable_iff` says that both lead to the same states, seen where nobody is inside
a section, and `locked_atomic` that a state in the middle of one is that of the section not
yet done, or done.  What is proved of the atomic program then holds of the locked one.
`exists_released` says that the lock always comes back.
-/

namespace KafkaTest

/-- A program over a memory behind a lock: the steps of its own, and the critical sections,
each with what it makes of the memory. -/
structure LockedProgram (C S L : Type) where
  work : S → L → Option S
  access : S → L → Option (C → C × S)

/-- A memory, and who holds its lock. -/
structure Guarded (C ι : Type) where
  value : C
  holder : Option ι

/-- Where a process stands: outside, or in the critical section of a step, with the lock
taken, the memory read, or the memory written. -/
inductive Section (C S L : Type)
  | outside (s : S)
  | entered (s : S) (l : L)
  | loaded (s : S) (l : L) (c : C)
  | stored (s : S)

namespace Section

variable {C S L : Type}

/-- The process holds the lock. -/
def inside : Section C S L → Bool
  | outside _ => false
  | _ => true

/-- The process as if a section were one step, made when the memory is written. -/
def state : Section C S L → S
  | outside s | entered s _ | loaded s _ _ | stored s => s

theorem eq_outside {t : Section C S L} (out : t.inside = false) : t = outside t.state := by
  cases t with
  | outside s => rfl
  | _ => cases out

/-- What a process does at the grain of the lock. -/
inductive Label (L : Type)
  | work (l : L)
  | acquire (l : L)
  | read
  | write
  | release

end Section

namespace LockedProgram

variable {C S L ι : Type}

/-- The program with each critical section as one step. -/
def atomic (p : LockedProgram C S L) : Proc C S L := fun c s l =>
  match p.access s l with
  | some access => some (access c)
  | none => (p.work s l).map fun s' => (c, s')

/-- One step of the process `i` at the grain of the lock. -/
def locked [DecidableEq ι] (p : LockedProgram C S L) (i : ι) :
    Proc (Guarded C ι) (Section C S L) (Section.Label L) := fun g t l =>
  match l, t with
  | .work l, .outside s =>
      if p.access s l = none then (p.work s l).map fun s' => (g, .outside s') else none
  | .acquire l, .outside s =>
      if p.access s l ≠ none ∧ g.holder = none then
        some ({ g with holder := some i }, .entered s l)
      else none
  | .read, .entered s l => some (g, .loaded s l g.value)
  | .write, .loaded s l c =>
      (p.access s l).map fun access =>
        ({ g with value := (access c).1 }, .stored (access c).2)
  | .release, .stored s => some ({ g with holder := none }, .outside s)
  | _, _ => none

/-- The steps at the grain of the lock, one constructor for each of them. -/
inductive Move (p : LockedProgram C S L) (i : ι) (g : Guarded C ι) :
    Section C S L → Section.Label L → Guarded C ι → Section C S L → Prop
  | work {s s' : S} {l : L} (untouched : p.access s l = none) (works : p.work s l = some s') :
      Move p i g (.outside s) (.work l) g (.outside s')
  | acquire {s : S} {l : L} (touches : p.access s l ≠ none) (free : g.holder = none) :
      Move p i g (.outside s) (.acquire l) { g with holder := some i } (.entered s l)
  | read {s : S} {l : L} : Move p i g (.entered s l) .read g (.loaded s l g.value)
  | write {s : S} {l : L} {c : C} {access : C → C × S} (accesses : p.access s l = some access) :
      Move p i g (.loaded s l c) .write { g with value := (access c).1 } (.stored (access c).2)
  | release {s : S} :
      Move p i g (.stored s) .release { g with holder := none } (.outside s)

theorem locked_move [DecidableEq ι] {p : LockedProgram C S L} {i : ι} {g g' : Guarded C ι}
    {t t' : Section C S L} {l : Section.Label L} (h : p.locked i g t l = some (g', t')) :
    p.Move i g t l g' t' := by
  unfold locked at h
  split at h
  · simp only [Option.ite_none_right_eq_some, Option.map_eq_some_iff, Prod.mk.injEq] at h
    obtain ⟨untouched, s', works, rfl, rfl⟩ := h
    exact .work untouched works
  · simp only [Option.ite_none_right_eq_some, Option.some.injEq, Prod.mk.injEq] at h
    obtain ⟨⟨touches, free⟩, rfl, rfl⟩ := h
    exact .acquire touches free
  · cases h
    exact .read
  · simp only [Option.map_eq_some_iff, Prod.mk.injEq] at h
    obtain ⟨access, accesses, rfl, rfl⟩ := h
    exact .write accesses
  · cases h
    exact .release
  · cases h

/-! ## Mutual exclusion -/

section Family

variable {P : ι → LockedProgram C S L}

/-- All processes outside, over a free lock. -/
def outside (g : Global C S ι) : Global (Guarded C ι) (Section C S L) ι :=
  ⟨⟨g.mem, none⟩, fun i => .outside (g.proc i)⟩

/-- The memory and the processes with each section as not yet done, or done. -/
def view (g : Global (Guarded C ι) (Section C S L) ι) : Global C S ι :=
  ⟨g.mem.value, fun i => (g.proc i).state⟩

/-- The holder of the lock is who is inside, and what it has read is still there. -/
structure Inv (P : ι → LockedProgram C S L) (g : Global (Guarded C ι) (Section C S L) ι) :
    Prop where
  holder : ∀ i, (g.proc i).inside ↔ g.mem.holder = some i
  fresh : ∀ i s l c, g.proc i = .loaded s l c → c = g.mem.value
  entered : ∀ i s l, g.proc i = .entered s l → (P i).access s l ≠ none
  loaded : ∀ i s l c, g.proc i = .loaded s l c → (P i).access s l ≠ none

theorem inv_outside (P : ι → LockedProgram C S L) (g : Global C S ι) : Inv P (outside g) where
  holder i := by simp [outside, Section.inside]
  fresh i s l c h := by cases h
  entered i s l h := by cases h
  loaded i s l c h := by cases h

/-- Nobody else is inside while the lock is free, or held by `i`. -/
theorem Inv.others {g : Global (Guarded C ι) (Section C S L) ι} (inv : Inv P g) {i j : ι}
    (lock : g.mem.holder = none ∨ g.mem.holder = some i) (other : j ≠ i) :
    (g.proc j).inside = false := by
  apply Bool.eq_false_iff.mpr
  intro inside
  rw [inv.holder j] at inside
  rcases lock with lock | lock
  · rw [lock] at inside
    cases inside
  · rw [lock, Option.some.injEq] at inside
    exact other inside.symm

variable [DecidableEq ι]

/-- A step that takes, keeps or gives back the lock, with what it has read up to date. -/
theorem Inv.update {g : Global (Guarded C ι) (Section C S L) ι} (inv : Inv P g) {i : ι}
    (lock : g.mem.holder = none ∨ g.mem.holder = some i) {m : Guarded C ι} {t : Section C S L}
    (holder : m.holder = if t.inside then some i else none)
    (fresh : ∀ s l c, t = .loaded s l c → c = m.value)
    (entered : ∀ s l, t = .entered s l → (P i).access s l ≠ none)
    (loaded : ∀ s l c, t = .loaded s l c → (P i).access s l ≠ none) :
    Inv P ⟨m, Function.update g.proc i t⟩ := by
  have out : ∀ j, j ≠ i → g.proc j = .outside (g.proc j).state := by
    intro j other
    exact Section.eq_outside (inv.others lock other)
  constructor
  · intro j
    by_cases same : j = i
    · subst same
      simp only [Function.update_self, holder]
      cases t.inside <;> simp
    · have outside := inv.others lock same
      simp only [Function.update_of_ne same, outside, holder]
      split <;> simp [Ne.symm same]
  · intro j s l c h
    by_cases same : j = i
    · subst same
      simp only [Function.update_self] at h
      exact fresh s l c h
    · simp only [Function.update_of_ne same] at h
      rw [out j same] at h
      cases h
  · intro j s l h
    by_cases same : j = i
    · subst same
      simp only [Function.update_self] at h
      exact entered s l h
    · simp only [Function.update_of_ne same] at h
      rw [out j same] at h
      cases h
  · intro j s l c h
    by_cases same : j = i
    · subst same
      simp only [Function.update_self] at h
      exact loaded s l c h
    · simp only [Function.update_of_ne same] at h
      rw [out j same] at h
      cases h

/-- A step outside leaves the lock alone. -/
theorem Inv.work {g : Global (Guarded C ι) (Section C S L) ι} (inv : Inv P g) {i : ι}
    (out : (g.proc i).inside = false) (s : S) :
    Inv P ⟨g.mem, Function.update g.proc i (.outside s)⟩ := by
  have before := inv.holder i
  rw [out] at before
  have keeps : ∀ j t, Function.update g.proc i (.outside s) j = t → t.inside → g.proc j = t := by
    intro j t here inside
    by_cases same : j = i
    · subst same
      rw [Function.update_self] at here
      rw [← here] at inside
      cases inside
    · rwa [Function.update_of_ne same] at here
  refine ⟨fun j => ?_, fun j s l c h => ?_, fun j s l h => ?_, fun j s l c h => ?_⟩
  · by_cases same : j = i
    · subst same
      simp only [Function.update_self]
      exact before
    · simp only [Function.update_of_ne same]
      exact inv.holder j
  · exact inv.fresh j s l c (keeps j _ h rfl)
  · exact inv.entered j s l (keeps j _ h rfl)
  · exact inv.loaded j s l c (keeps j _ h rfl)

theorem Inv.move {g : Global (Guarded C ι) (Section C S L) ι} (inv : Inv P g) {i : ι}
    {l : Section.Label L} {m : Guarded C ι} {t t' : Section C S L} (here : g.proc i = t)
    (move : (P i).Move i g.mem t l m t') : Inv P ⟨m, Function.update g.proc i t'⟩ := by
  have holds := inv.holder i
  rw [here] at holds
  cases move with
  | work untouched works => exact inv.work (by rw [here]; rfl) _
  | acquire touches free =>
      refine inv.update (.inl free) rfl (fun _ _ _ h => by cases h) (fun _ _ h => ?_)
        (fun _ _ _ h => by cases h)
      cases h
      exact touches
  | read =>
      have mine := holds.mp rfl
      refine inv.update (.inr mine) mine (fun _ _ _ h => ?_) (fun _ _ h => by cases h)
        (fun _ _ _ h => ?_)
      · cases h
        rfl
      · cases h
        exact inv.entered i _ _ here
  | write accesses =>
      have mine := holds.mp rfl
      exact inv.update (.inr mine) mine (fun _ _ _ h => by cases h) (fun _ _ h => by cases h)
        (fun _ _ _ h => by cases h)
  | release =>
      exact inv.update (.inr (holds.mp rfl)) rfl (fun _ _ _ h => by cases h)
        (fun _ _ h => by cases h) (fun _ _ _ h => by cases h)

/-- The program at the grain of the lock. -/
abbrev lockedSystem (P : ι → LockedProgram C S L) :
    Machine (Global (Guarded C ι) (Section C S L) ι) (ι × Section.Label L) :=
  interleave fun i => (P i).locked i

/-- The program with its sections as single steps. -/
abbrev atomicSystem (P : ι → LockedProgram C S L) : Machine (Global C S ι) (ι × L) :=
  interleave fun i => (P i).atomic

theorem Inv.of_reachable {g₀ : Global C S ι} {g : Global (Guarded C ι) (Section C S L) ι}
    (reached : (lockedSystem P).Reachable (outside g₀) g) : Inv P g := by
  refine reached.invariant (inv_outside P g₀) fun label s s' inv hstep => ?_
  rcases label with ⟨i, l⟩
  obtain ⟨t, ht, hproc⟩ := interleave_eq_some.mp hstep
  rcases s' with ⟨mem, proc⟩
  rw [show proc = _ from hproc]
  exact inv.move rfl (locked_move ht)

/-- **Mutual exclusion.**  No two processes are inside at a time. -/
theorem inside_unique {g₀ : Global C S ι} {g : Global (Guarded C ι) (Section C S L) ι}
    (reached : (lockedSystem P).Reachable (outside g₀) g) {i j : ι} (left : (g.proc i).inside)
    (right : (g.proc j).inside) : i = j := by
  have inv := Inv.of_reachable reached
  rw [inv.holder] at left right
  exact Option.some.inj (left.symm.trans right)

/-! ## Atomicity -/

theorem view_update (g : Global (Guarded C ι) (Section C S L) ι) (i : ι) (m : Guarded C ι)
    (t : Section C S L) :
    view ⟨m, Function.update g.proc i t⟩ = ⟨m.value, Function.update (view g).proc i t.state⟩ := by
  unfold view
  congr 1
  funext j
  exact Function.apply_update (fun _ => Section.state) g.proc i t j

/-- A step at the grain of the lock is a step of the atomic program, or is not seen. -/
theorem Inv.view_move {g : Global (Guarded C ι) (Section C S L) ι} (inv : Inv P g) {i : ι}
    {l : Section.Label L} {m : Guarded C ι} {t t' : Section C S L} (here : g.proc i = t)
    (move : (P i).Move i g.mem t l m t') :
    (atomicSystem P).Reachable (view g) (view ⟨m, Function.update g.proc i t'⟩) := by
  have unseen : t'.state = t.state → m.value = g.mem.value →
      (atomicSystem P).Reachable (view g) (view ⟨m, Function.update g.proc i t'⟩) := by
    intro same value
    have before : t'.state = (view g).proc i := by rw [same, ← here]; rfl
    rw [view_update, before, Function.update_eq_self, value]
    exact .refl _
  have state : (view g).proc i = t.state := congrArg Section.state here
  cases move with
  | @work s s' l untouched works =>
      rw [view_update]
      refine .single (i, l) (interleave_eq_some.mpr ⟨s', ?_, rfl⟩)
      simp only [atomic, state, Section.state, untouched, works, Option.map_some]
      rfl
  | acquire touches free => exact unseen rfl rfl
  | read => exact unseen rfl rfl
  | @write s l c access accesses =>
      rw [view_update]
      have value : c = (view g).mem := inv.fresh i s l c here
      subst value
      refine .single (i, l) (interleave_eq_some.mpr ⟨_, ?_, rfl⟩)
      simp only [atomic, state, Section.state, accesses]
  | release => exact unseen rfl rfl

/-- **Refinement.**  What is reached at the grain of the lock is, seen with each section as
not yet done or done, reached by the atomic program. -/
theorem locked_atomic {g₀ : Global C S ι} {g : Global (Guarded C ι) (Section C S L) ι}
    (reached : (lockedSystem P).Reachable (outside g₀) g) :
    (atomicSystem P).Reachable g₀ (view g) := by
  refine reached.induction (I := fun g => (atomicSystem P).Reachable g₀ (view g)) (.refl _)
    fun label s s' before ih hstep => ?_
  rcases label with ⟨i, l⟩
  obtain ⟨t, ht, hproc⟩ := interleave_eq_some.mp hstep
  have steps := (Inv.of_reachable before).view_move rfl (locked_move ht)
  rw [← hproc] at steps
  exact ih.trans steps

/-- A step of the atomic program is a whole section at the grain of the lock. -/
theorem reachable_outside_of_step {g g' : Global C S ι} {i : ι} {l : L}
    (hstep : atomicSystem P g (i, l) = some g') :
    (lockedSystem P).Reachable (outside g) (outside g') := by
  obtain ⟨s', hp, hproc⟩ := interleave_eq_some.mp hstep
  have solo : ((P i).locked i).solo.Reachable (⟨g.mem, none⟩, .outside (g.proc i))
      (⟨g'.mem, none⟩, .outside s') := by
    unfold atomic at hp
    split at hp
    · rename_i access accesses
      obtain ⟨mem, rfl⟩ := Prod.mk.inj (Option.some.inj hp)
      have touches : (P i).access (g.proc i) l ≠ none := by simp [accesses]
      have taken : ((P i).locked i).solo.Reachable (⟨g.mem, none⟩, .outside (g.proc i))
          (⟨g.mem, some i⟩, .entered (g.proc i) l) :=
        .single (.acquire l) (if_pos ⟨touches, rfl⟩)
      have read : ((P i).locked i).solo.Reachable (⟨g.mem, some i⟩, .entered (g.proc i) l)
          (⟨g.mem, some i⟩, .loaded (g.proc i) l g.mem) := .single .read rfl
      have written : ((P i).locked i).solo.Reachable
          (⟨g.mem, some i⟩, .loaded (g.proc i) l g.mem)
          (⟨(access g.mem).1, some i⟩, .stored (access g.mem).2) := by
        refine .single .write ?_
        simp only [Proc.solo, locked, accesses, Option.map_some]
      rw [← mem]
      exact taken.trans (read.trans (written.trans (.single .release rfl)))
    · rename_i untouched
      obtain ⟨s, works, same⟩ := Option.map_eq_some_iff.mp hp
      obtain ⟨mem, rfl⟩ := Prod.mk.inj same
      refine .single (.work l) ?_
      simp only [Proc.solo, locked, untouched, works, if_true, Option.map_some, mem]
  obtain ⟨found, reached, mem, proc⟩ := interleave_of_solo
    (p := fun i => (P i).locked i) (g := outside g) solo
  have same : found = outside g' := by
    rcases found with ⟨m, q⟩
    simp only at mem proc
    rw [mem, proc]
    unfold outside
    congr 1
    funext j
    rw [hproc]
    exact (Function.apply_update (fun _ => Section.outside) g.proc i s' j).symm
  rwa [same] at reached

/-- **The grain of the lock makes no difference.**  With nobody inside a section, the states
reached are those of the atomic program. -/
theorem locked_reachable_iff {g₀ g : Global C S ι} :
    (lockedSystem P).Reachable (outside g₀) (outside g) ↔ (atomicSystem P).Reachable g₀ g := by
  refine ⟨locked_atomic, fun reached => ?_⟩
  refine reached.invariant (I := fun g => (lockedSystem P).Reachable (outside g₀) (outside g))
    (.refl _) fun label s s' ih hstep => ?_
  rcases label with ⟨i, l⟩
  exact ih.trans (reachable_outside_of_step hstep)

/-- **The lock comes back.**  Whoever is inside can go on to the end of its section, and
leaves the lock free and everybody else where they were. -/
theorem exists_released {g₀ : Global C S ι} {g : Global (Guarded C ι) (Section C S L) ι}
    (reached : (lockedSystem P).Reachable (outside g₀) g) :
    ∃ g', (lockedSystem P).Reachable g g' ∧ g' = outside (view g') ∧
      ∀ j, (g.proc j).inside = false → g'.proc j = g.proc j := by
  have inv := Inv.of_reachable reached
  by_cases free : g.mem.holder = none
  · refine ⟨g, .refl _, ?_, fun _ _ => rfl⟩
    rcases g with ⟨⟨value, holder⟩, proc⟩
    cases free
    unfold outside view
    congr 1
    funext j
    refine Section.eq_outside (Bool.eq_false_iff.mpr fun inside => ?_)
    cases (inv.holder j).mp inside
  · obtain ⟨i, mine⟩ := Option.ne_none_iff_exists'.mp free
    have stored : ∀ c s, ((P i).locked i).solo.Reachable (⟨c, some i⟩, .stored s)
        (⟨c, none⟩, .outside s) := fun c s => .single .release rfl
    have loaded : ∀ c s l, (P i).access s l ≠ none → ∃ c' s', ((P i).locked i).solo.Reachable
        (⟨c, some i⟩, .loaded s l c) (⟨c', none⟩, .outside s') := by
      intro c s l touches
      obtain ⟨access, accesses⟩ := Option.ne_none_iff_exists'.mp touches
      have written : ((P i).locked i).solo.Reachable (⟨c, some i⟩, .loaded s l c)
          (⟨(access c).1, some i⟩, .stored (access c).2) := by
        refine .single .write ?_
        simp only [Proc.solo, locked, accesses, Option.map_some]
      exact ⟨_, _, written.trans (stored _ _)⟩
    have mem : g.mem = ⟨g.mem.value, some i⟩ := by rw [← mine]
    obtain ⟨c', s', solo⟩ : ∃ c' s', ((P i).locked i).solo.Reachable (g.mem, g.proc i)
        (⟨c', none⟩, .outside s') := by
      rw [mem]
      cases here : g.proc i with
      | outside s =>
          have inside := (inv.holder i).mpr mine
          rw [here] at inside
          cases inside
      | entered s l =>
          obtain ⟨c', s', ends⟩ := loaded g.mem.value s l (inv.entered i s l here)
          exact ⟨c', s', .trans (.single .read rfl) ends⟩
      | loaded s l c =>
          obtain rfl := inv.fresh i s l c here
          exact loaded _ s l (inv.loaded i s l _ here)
      | stored s => exact ⟨_, _, stored _ s⟩
    obtain ⟨g', steps, mem', proc⟩ := interleave_of_solo
      (p := fun i => (P i).locked i) (g := g) solo
    rcases g' with ⟨m, q⟩
    simp only at mem' proc
    subst mem' proc
    refine ⟨_, steps, ?_, fun j out => ?_⟩
    · unfold outside view
      congr 1
      funext j
      by_cases same : j = i
      · subst same
        simp only [Function.update_self, Section.state]
      · simp only [Function.update_of_ne same]
        exact Section.eq_outside (inv.others (.inr mine) same)
    · have other : j ≠ i := by
        rintro rfl
        rw [(inv.holder j).mpr mine] at out
        cases out
      exact Function.update_of_ne other _ _

end Family

end LockedProgram

end KafkaTest
