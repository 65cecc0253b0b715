import KafkaTest.Machine

/-!
# A pool of futures with a FIFO ready queue

`FuturePool α β` is the collection a single task drives by hand: futures named by
`α`, each resolving to a `β`.  A future is in exactly one of two places, the ready
queue or the parked ones.

* `push` appends an unpolled future to the ready queue; nothing is polled.
* `poll` polls the future at the head of the ready queue.  It either resolves and
  leaves the pool, or stays pending and is parked until its waker runs.
* `wake` appends a parked future to the ready queue again.

The pool also remembers what was pushed, what was polled for the first time and
what resolved, each in the order it happened.  The two fields `inOrder` and
`conserved` say that these histories account for the pool: first polls follow the
push order although woken futures share the queue with unpolled ones, and a future
that was polled has either resolved once or is still in the pool once.
-/

namespace KafkaTest

/-- What polling a future answers. -/
inductive Poll (β : Type)
  | pending
  | ready (value : β)
  deriving DecidableEq

/-- A future in the ready queue, and whether it has been polled before. -/
structure QueuedFuture (α : Type) where
  fut : α
  polled : Bool
  deriving DecidableEq

/-- The futures of a ready queue that have never been polled. -/
def freshOf {α : Type} (ready : List (QueuedFuture α)) : List α :=
  (ready.filter fun q => !q.polled).map QueuedFuture.fut

/-- The futures of a ready queue that were polled, parked and woken. -/
def wokenOf {α : Type} (ready : List (QueuedFuture α)) : List α :=
  (ready.filter fun q => q.polled).map QueuedFuture.fut

section Queue

variable {α : Type}

@[simp] theorem freshOf_nil : freshOf ([] : List (QueuedFuture α)) = [] := rfl

@[simp] theorem wokenOf_nil : wokenOf ([] : List (QueuedFuture α)) = [] := rfl

@[simp] theorem freshOf_append (xs ys : List (QueuedFuture α)) :
    freshOf (xs ++ ys) = freshOf xs ++ freshOf ys := by
  simp [freshOf]

@[simp] theorem wokenOf_append (xs ys : List (QueuedFuture α)) :
    wokenOf (xs ++ ys) = wokenOf xs ++ wokenOf ys := by
  simp [wokenOf]

@[simp] theorem freshOf_cons_fresh (a : α) (rest : List (QueuedFuture α)) :
    freshOf (⟨a, false⟩ :: rest) = a :: freshOf rest := by
  simp [freshOf]

@[simp] theorem freshOf_cons_woken (a : α) (rest : List (QueuedFuture α)) :
    freshOf (⟨a, true⟩ :: rest) = freshOf rest := by
  simp [freshOf]

@[simp] theorem wokenOf_cons_fresh (a : α) (rest : List (QueuedFuture α)) :
    wokenOf (⟨a, false⟩ :: rest) = wokenOf rest := by
  simp [wokenOf]

@[simp] theorem wokenOf_cons_woken (a : α) (rest : List (QueuedFuture α)) :
    wokenOf (⟨a, true⟩ :: rest) = a :: wokenOf rest := by
  simp [wokenOf]

theorem length_freshOf_add_wokenOf (ready : List (QueuedFuture α)) :
    (freshOf ready).length + (wokenOf ready).length = ready.length := by
  induction ready with
  | nil => rfl
  | cons q rest ih =>
      rcases q with ⟨a, _ | _⟩
      · simp only [freshOf_cons_fresh, wokenOf_cons_fresh, List.length_cons]
        omega
      · simp only [freshOf_cons_woken, wokenOf_cons_woken, List.length_cons]
        omega

end Queue

/-- The pool, with the histories that account for it. -/
structure FuturePool (α β : Type) where
  ready : List (QueuedFuture α)
  parked : List α
  pushed : List α
  started : List α
  finished : List (α × β)
  inOrder : started ++ freshOf ready = pushed
  conserved : (finished.map Prod.fst ++ parked ++ wokenOf ready).Perm started

namespace FuturePool

variable {α β : Type}

/-- `FuturesUnordered::new()`. -/
def empty : FuturePool α β where
  ready := []
  parked := []
  pushed := []
  started := []
  finished := []
  inOrder := rfl
  conserved := .nil

/-- The futures that were pushed and never polled, oldest first. -/
def fresh (p : FuturePool α β) : List α := freshOf p.ready

/-- The number of futures in the pool. -/
def len (p : FuturePool α β) : Nat := p.ready.length + p.parked.length

/-- Append an unpolled future; it is not polled here. -/
def push (p : FuturePool α β) (a : α) : FuturePool α β where
  ready := p.ready ++ [⟨a, false⟩]
  parked := p.parked
  pushed := p.pushed ++ [a]
  started := p.started
  finished := p.finished
  inOrder := by simp [← p.inOrder]
  conserved := by simpa using p.conserved

/-- The history of first polls after the future `q` has been polled. -/
def startedAfter (started : List α) (q : QueuedFuture α) : List α :=
  if q.polled then started else started ++ [q.fut]

theorem startedAfter_append_freshOf (started : List α) (q : QueuedFuture α)
    (rest : List (QueuedFuture α)) :
    startedAfter started q ++ freshOf rest = started ++ freshOf (q :: rest) := by
  rcases q with ⟨a, _ | _⟩ <;> simp [startedAfter]

/-- Polling a future takes it out of the ready queue and, if it had never been
polled, adds it to the first polls. -/
theorem perm_startedAfter {started others : List α} {q : QueuedFuture α}
    {rest : List (QueuedFuture α)}
    (h : (others ++ wokenOf (q :: rest)).Perm started) :
    (q.fut :: (others ++ wokenOf rest)).Perm (startedAfter started q) := by
  rcases q with ⟨a, _ | _⟩
  · simp only [startedAfter, wokenOf_cons_fresh] at h ⊢
    exact (h.cons a).trans (List.perm_append_singleton a started).symm
  · simp only [startedAfter, wokenOf_cons_woken] at h ⊢
    exact List.perm_middle.symm.trans h

/-- Poll the future at the head of the ready queue; `none` if the queue is empty. -/
def poll (p : FuturePool α β) (answer : Poll β) : Option (FuturePool α β) :=
  match hready : p.ready with
  | [] => none
  | q :: rest =>
    have inOrder : startedAfter p.started q ++ freshOf rest = p.pushed := by
      rw [startedAfter_append_freshOf, ← hready, p.inOrder]
    have conserved :
        (q.fut :: (p.finished.map Prod.fst ++ p.parked ++ wokenOf rest)).Perm
          (startedAfter p.started q) :=
      perm_startedAfter (hready ▸ p.conserved)
    match answer with
    | .pending => some
        { ready := rest
          parked := p.parked ++ [q.fut]
          pushed := p.pushed
          started := startedAfter p.started q
          finished := p.finished
          inOrder := inOrder
          conserved := by
            refine List.Perm.trans ?_ conserved
            simp only [List.append_assoc]
            rw [← List.append_assoc, ← List.append_assoc (p.finished.map Prod.fst)]
            exact List.perm_middle }
    | .ready value => some
        { ready := rest
          parked := p.parked
          pushed := p.pushed
          started := startedAfter p.started q
          finished := p.finished ++ [(q.fut, value)]
          inOrder := inOrder
          conserved := by
            refine List.Perm.trans ?_ conserved
            simp only [List.map_append, List.map_cons, List.map_nil, List.append_assoc]
            exact List.perm_middle }

/-- Run the waker of the `i`-th parked future: it joins the tail of the ready
queue.  `none` if there is no such future. -/
def wake (p : FuturePool α β) (i : Nat) : Option (FuturePool α β) :=
  if h : i < p.parked.length then some
    { ready := p.ready ++ [⟨p.parked[i], true⟩]
      parked := p.parked.eraseIdx i
      pushed := p.pushed
      started := p.started
      finished := p.finished
      inOrder := by simpa using p.inOrder
      conserved := by
        refine List.Perm.trans ?_ p.conserved
        simp only [wokenOf_append, wokenOf_cons_woken, wokenOf_nil, List.append_assoc]
        refine List.Perm.append_left _ ?_
        refine List.Perm.trans ?_ ((List.getElem_cons_eraseIdx_perm h).append_right _)
        exact (List.Perm.append_left _ (List.perm_append_comm)).trans
          (List.perm_middle.trans (by simp)) }
  else none

/-! ## What each operation does -/

section Spec

variable {p p' : FuturePool α β} {a : α}

@[simp] theorem len_empty : (empty : FuturePool α β).len = 0 := rfl

@[simp] theorem pushed_push : (p.push a).pushed = p.pushed ++ [a] := rfl

@[simp] theorem ready_push : (p.push a).ready = p.ready ++ [⟨a, false⟩] := rfl

@[simp] theorem finished_push : (p.push a).finished = p.finished := rfl

@[simp] theorem len_push : (p.push a).len = p.len + 1 := by
  simp only [len, push, List.length_append, List.length_singleton]
  omega

/-- Polling moves the head of the ready queue, and only that. -/
theorem poll_eq_some {answer : Poll β} (h : p.poll answer = some p') :
    ∃ q rest, p.ready = q :: rest ∧ p'.ready = rest ∧ p'.pushed = p.pushed ∧
      p'.started = startedAfter p.started q ∧
      match answer with
      | .pending => p'.parked = p.parked ++ [q.fut] ∧ p'.finished = p.finished
      | .ready value =>
          p'.parked = p.parked ∧ p'.finished = p.finished ++ [(q.fut, value)] := by
  unfold poll at h
  split at h
  · cases h
  · rename_i q rest hready
    refine ⟨q, rest, hready, ?_⟩
    cases answer with
    | pending => cases h; exact ⟨rfl, rfl, rfl, rfl, rfl⟩
    | ready value => cases h; exact ⟨rfl, rfl, rfl, rfl, rfl⟩

/-- The head of a nonempty ready queue can be polled, whatever it answers. -/
theorem exists_poll {q : QueuedFuture α} {rest : List (QueuedFuture α)}
    (hready : p.ready = q :: rest) (answer : Poll β) : ∃ p', p.poll answer = some p' := by
  unfold poll
  split
  · rename_i hnil
    rw [hnil] at hready
    cases hready
  · cases answer <;> exact ⟨_, rfl⟩

theorem poll_pending_spec (h : p.poll .pending = some p') :
    p'.pushed = p.pushed ∧ p'.finished = p.finished ∧ p'.len = p.len := by
  obtain ⟨q, rest, hready, hready', hpushed, -, hparked, hfinished⟩ := poll_eq_some h
  refine ⟨hpushed, hfinished, ?_⟩
  simp only [len, hready, hready', hparked, List.length_append, List.length_cons,
    List.length_nil]
  omega

theorem poll_ready_spec {value : β} (h : p.poll (.ready value) = some p') :
    p'.pushed = p.pushed ∧ (∃ a, p'.finished = p.finished ++ [(a, value)]) ∧
      p'.len + 1 = p.len := by
  obtain ⟨q, rest, hready, hready', hpushed, -, hparked, hfinished⟩ := poll_eq_some h
  refine ⟨hpushed, ⟨q.fut, hfinished⟩, ?_⟩
  simp only [len, hready, hready', hparked, List.length_cons]
  omega

theorem wake_spec {i : Nat} (h : p.wake i = some p') :
    p'.pushed = p.pushed ∧ p'.finished = p.finished ∧ p'.len = p.len := by
  unfold wake at h
  split at h
  · rename_i hi
    cases h
    refine ⟨rfl, rfl, ?_⟩
    simp only [len, List.length_append, List.length_singleton, List.length_eraseIdx_of_lt hi]
    omega
  · cases h

/-- A nonempty pool can complete a future: its head is polled, at once or as soon as a
waker has run. -/
theorem exists_ready_of_len_ne_zero (nonempty : p.len ≠ 0) :
    ∃ p', (p' = p ∨ ∃ i, p.wake i = some p') ∧
      ∀ answer : Poll β, ∃ p'', p'.poll answer = some p'' := by
  cases hready : p.ready with
  | cons q rest => exact ⟨p, .inl rfl, exists_poll hready⟩
  | nil =>
      have parked : 0 < p.parked.length := by
        rw [len, hready, List.length_nil] at nonempty
        omega
      have woken : ∃ p', p.wake 0 = some p' ∧ p'.ready = [⟨p.parked[0], true⟩] := by
        rw [wake, dif_pos parked]
        exact ⟨_, rfl, by simp [hready]⟩
      obtain ⟨p', hwake, hready'⟩ := woken
      exact ⟨p', .inr ⟨0, hwake⟩, exists_poll hready'⟩

end Spec

/-! ## What the histories say of the pool -/

/-- Every pushed future has resolved or is still in the pool. -/
theorem length_pushed (p : FuturePool α β) : p.pushed.length = p.finished.length + p.len := by
  have order := congrArg List.length p.inOrder
  have kept := p.conserved.length_eq
  have split := length_freshOf_add_wokenOf p.ready
  simp only [List.length_append, List.length_map] at order kept
  simp only [len]
  omega

/-- An empty pool has polled everything in push order, and everything pushed has
resolved exactly once. -/
theorem of_len_eq_zero {p : FuturePool α β} (h : p.len = 0) :
    p.started = p.pushed ∧ (p.finished.map Prod.fst).Perm p.pushed := by
  have hready : p.ready = [] := List.eq_nil_of_length_eq_zero (by unfold len at h; omega)
  have hparked : p.parked = [] := List.eq_nil_of_length_eq_zero (by unfold len at h; omega)
  have order := p.inOrder
  have kept := p.conserved
  rw [hready, freshOf_nil, List.append_nil] at order
  rw [hready, hparked, wokenOf_nil, List.append_nil, List.append_nil, order] at kept
  exact ⟨order, kept⟩

/-- First polls are a prefix of the pushes: a future is never polled before one
pushed earlier. -/
theorem started_prefix (p : FuturePool α β) : p.started <+: p.pushed :=
  ⟨p.fresh, p.inOrder⟩

end FuturePool

end KafkaTest
