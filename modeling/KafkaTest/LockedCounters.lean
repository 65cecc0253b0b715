import KafkaTest.BatchedStop
import KafkaTest.Mutex
import KafkaTest.Throughput

/-!
# Counters behind a lock

Two of the programs count in a plain variable under a lock: the workers of the Python program in
a `multiprocessing.Value`, whose getter takes the lock of `get_lock()`, and the threads and the
reporter of the Ruby producer in `$send_counter`, under `$counter_mutex`.  Each is a
`LockedProgram`, which reads and writes the counter in steps of its own, while others go on.

* `python_locked_counter`: no addition is lost, and the workers stop as with an atomic counter.
* `python_lock_refines`: which splits of the records are counted to the end.
* `ruby_locked_counter`: what the reports add up to.
-/

namespace KafkaTest

/-! ## Python -/

/-- A worker of the Python program, at the grain of the lock of its counter. -/
def Python.lockedWorker (total : Nat) : LockedProgram Nat BatchWorker BatchProgram.Label where
  work s l :=
    match l, s.pc with
    | .poll message, .polling => some { s with pc := Python.worker.afterPoll message }
    | .produce answer, .producing buf =>
        some
          (match Python.worker.afterProduce answer with
          | .again => { s with pc := .producing buf }
          | .count => BatchProgram.count s
          | .crash => { s with pc := .crashed })
    | _, _ => none
  access s l :=
    match l, s.pc with
    -- `counter.value < TOTAL_RECORDS`
    | .test, .testing =>
        some fun counter => (counter, { s with pc := if total ≤ counter then .left else .polling })
    -- `with counter.get_lock(): counter.value += local_count`
    | .add, .adding =>
        some fun counter =>
          let counter := (counter + s.localCounter) % 2 ^ 64
          (counter, Python.worker.add total counter s)
    | _, _ => none

/-- With a section as one step, that is the worker over an atomic counter. -/
theorem Python.atomic_lockedWorker (total : Nat) :
    (Python.lockedWorker total).atomic = Python.worker.worker total := by
  funext counter s l
  unfold LockedProgram.atomic Python.lockedWorker BatchProgram.worker
  cases l with
  | produce answer =>
      cases answered : Python.worker.afterProduce answer <;>
        cases pc : s.pc <;> simp [pc, answered]
  | _ => cases pc : s.pc <;> simp [pc]

/-- All workers of the Python program. -/
abbrev Python.lockedWorkers (total n : Nat) :
    Machine (Global (Guarded Nat (Fin n)) (Section Nat BatchWorker BatchProgram.Label) (Fin n))
      (Fin n × Section.Label BatchProgram.Label) :=
  LockedProgram.lockedSystem fun _ => Python.lockedWorker total

theorem Python.lockedWorkers_atomic {total n : Nat}
    {g : Global (Guarded Nat (Fin n)) (Section Nat BatchWorker BatchProgram.Label) (Fin n)}
    (reached : (Python.lockedWorkers total n).Reachable
      (LockedProgram.outside (BatchWorkers.start Python.worker n)) g) :
    (BatchWorkers.step Python.worker total n).Reachable (BatchWorkers.start Python.worker n)
      (LockedProgram.view g) := by
  have atomic := LockedProgram.locked_atomic reached
  unfold LockedProgram.atomicSystem at atomic
  simp only [Python.atomic_lockedWorker] at atomic
  exact atomic

/-- With the lock free the workers reach exactly the states that they reach when each section is
one step. -/
theorem Python.lockedWorkers_outside_iff {total n : Nat} {g : BatchWorkers n} :
    (Python.lockedWorkers total n).Reachable
        (LockedProgram.outside (BatchWorkers.start Python.worker n)) (LockedProgram.outside g) ↔
      (BatchWorkers.step Python.worker total n).Reachable (BatchWorkers.start Python.worker n)
        g := by
  unfold Python.lockedWorkers
  rw [LockedProgram.locked_reachable_iff]
  unfold LockedProgram.atomicSystem
  simp only [Python.atomic_lockedWorker]
  exact Iff.rfl

/-- **The Python counter.**  In every interleaving of the reads and the writes of the workers, no
two are at the counter at a time, and no addition is lost: the counter is what the workers have
added, all of it whole thousands, less than one for each worker past the total, and who has
left has seen the total counted.  Whoever is at the counter can go on and release the lock. -/
theorem python_locked_counter {n total : Nat} (positive : 0 < total)
    (small : total + 1000 * n + 2000 ≤ 2 ^ 64)
    {g : Global (Guarded Nat (Fin n)) (Section Nat BatchWorker BatchProgram.Label) (Fin n)}
    (reached : (Python.lockedWorkers total n).Reachable
      (LockedProgram.outside (BatchWorkers.start Python.worker n)) g) :
    (∀ i j, (g.proc i).inside → (g.proc j).inside → i = j) ∧
      g.mem.value = ∑ i, (g.proc i).state.added ∧ 1000 ∣ g.mem.value ∧
      g.mem.value < total + 1000 * n ∧
      (∀ i, (g.proc i).state.pc = .left → total ≤ g.mem.value) ∧
      ∃ g', (Python.lockedWorkers total n).Reachable g g' ∧ g'.mem.holder = none ∧
        ∀ j, (g.proc j).inside = false → g'.proc j = g.proc j := by
  have atomic := Python.lockedWorkers_atomic reached
  have thousands := BatchWorkers.thousands_lt positive small atomic
  have sum := BatchWorkers.counter_eq_sum positive small atomic
  have whole := BatchWorkers.dvd_counter positive small atomic
  have value : (LockedProgram.view g).mem = g.mem.value := rfl
  obtain ⟨g', goes, released, others⟩ := LockedProgram.exists_released reached
  refine ⟨fun i j left right => LockedProgram.inside_unique reached left right, sum, whole,
    by omega, fun i left => BatchWorkers.total_le_of_left positive small atomic left, g', goes, ?_,
    others⟩
  rw [released]
  rfl

/-- Two workers have added a thousand records each. -/
theorem python_locked_counter_two :
    ∃ g, (Python.lockedWorkers 2000 2).Reachable
        (LockedProgram.outside (BatchWorkers.start Python.worker 2)) g ∧
      (∀ i, (g.proc i).state.added = 1000) ∧ g.mem.value = 2000 := by
  obtain ⟨g, atomic, added, -⟩ := BatchWorkers.exists_thousands .python (n := 2) (by decide)
  have reached := Python.lockedWorkers_outside_iff.mpr atomic
  have sum := (python_locked_counter (by decide) (by decide) reached).2.1
  refine ⟨_, reached, added, sum.trans ?_⟩
  rw [Fin.sum_univ_two]
  exact congrArg₂ (· + ·) (added 0) (added 1)

/-- **Remainders at the grain of the lock.**  With the lock free the workers reach exactly the
states that they reach when each section is one step.  So here, too, a split of the records over
the workers gets the counter to the total in every run exactly if every share is a multiple of a
thousand. -/
theorem python_lock_refines {n total : Nat} (small : total < 2 ^ 64) (share : Fin n → Nat)
    (sum : ∑ i, share i = total) :
    (∀ g : BatchWorkers n, (Python.lockedWorkers total n).Reachable
        (LockedProgram.outside (BatchWorkers.start Python.worker n)) (LockedProgram.outside g) ↔
        (BatchWorkers.step Python.worker total n).Reachable (BatchWorkers.start Python.worker n)
          g) ∧
      ((∀ g, (Python.lockedWorkers total n).Reachable
          (LockedProgram.outside (BatchWorkers.start Python.worker n)) g →
          (∀ i, (g.proc i).state.processed = share i) → (∀ i, (g.proc i).state.settled) →
          total ≤ g.mem.value) ↔ ∀ i, 1000 ∣ share i) := by
  refine ⟨fun g => Python.lockedWorkers_outside_iff, fun delivers => ?_,
    fun multiples g reached shares settled => ?_⟩
  · apply Batched.dvd_of_delivers (b := .python) small sum
    intro g reached shares settled
    exact delivers _ (Python.lockedWorkers_outside_iff.mpr reached) shares settled
  · have atomic := Python.lockedWorkers_atomic reached
    have all : BatchWorkers.processed (LockedProgram.view g) = total := by
      rw [← sum]
      exact Finset.sum_congr rfl fun i _ => shares i
    refine (BatchWorkers.total_le_counter_iff atomic small all settled).mpr fun i => ?_
    exact (shares i).symm ▸ multiples i

/-- Two workers with one record each: they end, with the counter below the total. -/
theorem python_lock_refines_two : ∃ g,
    (Python.lockedWorkers 2 2).Reachable
        (LockedProgram.outside (BatchWorkers.start Python.worker 2)) g ∧
      (∀ i, (g.proc i).state.processed = 1) ∧ (∀ i, (g.proc i).state.settled) ∧
        g.mem.value < 2 := by
  have splits := (@python_lock_refines 2 2 (by decide) (fun _ => 1) rfl).2
  by_contra never
  have delivers : ∀ i : Fin 2, 1000 ∣ 1 := splits.mp fun g reached shares settled =>
    not_lt.mp fun below => never ⟨g, reached, shares, settled, below⟩
  exact absurd (delivers 0) (by decide)

/-! ## Ruby -/

/-- The steps of the Ruby producer and its reporter, at the grain of `$counter_mutex`. -/
def RubyProducer.locked : LockedProgram Board (TallyThread Draw ⊕ Reporter)
    (ThreadLabel Draw ⊕ ReporterLabel) where
  work s l :=
    match s, l with
    | .inl _, .inl .add => none
    | .inl t, .inl l => (RubyProducer.loop.thread ⟨0, true⟩ t l).map fun r => .inl r.2
    | _, _ => none
  access s l :=
    match s, l with
    -- `$counter_mutex.synchronize { $send_counter += local_counter }`
    | .inl t, .inl .add =>
      match t.pc with
      | .adding rest =>
          some fun b =>
            ({ b with counter := b.counter + t.localCounter },
              .inl { t with
                added := t.added + t.localCounter, localCounter := 0, pc := .batch rest })
      | _ => none
    -- `count = $send_counter; $send_counter = 0`, by a reporter that is never shut down
    | .inr r, .inr .report =>
        if r.shut = false then
          some fun b => ({ b with counter := 0 }, .inr { r with taken := r.taken ++ [b.counter] })
        else none
    | _, _ => none

/-- Only an addition touches the shared memory of a loop without a flag. -/
theorem TallyProgram.thread_board {α : Type} {p : TallyProgram α} (never : p.testsRunning = false)
    (b b' : Board) (t : TallyThread α) {l : ThreadLabel α} (other : l ≠ .add) :
    p.thread b t l = (p.thread b' t l).map fun r => (b, r.2) := by
  cases l with
  | add => exact (other rfl).elim
  | next fuel =>
      cases pc : t.pc with
      | batch rest => cases rest <;> simp [thread, pc, Function.comp_def]
      | _ => simp [thread, pc]
  | send accepted => cases accepted <;> cases pc : t.pc <;> simp [thread, pc]
  | poll records =>
      cases pc : t.pc with
      | polling =>
          simp only [thread, pc]
          split <;> rfl
      | _ => simp [thread, pc]
  | _ => cases pc : t.pc <;> simp [thread, pc, never, apply_ite]

/-- With a section as one step, that is a thread over an atomic counter. -/
theorem RubyProducer.locked_thread (b : Board) (t : TallyThread Draw) (l : ThreadLabel Draw) :
    RubyProducer.locked.atomic b (.inl t) (.inl l) =
      (RubyProducer.loop.thread b t l).map fun r => (r.1, .inl r.2) := by
  have board := TallyProgram.thread_board (p := RubyProducer.loop) rfl b ⟨0, true⟩ t (l := l)
  cases l with
  | add =>
      cases pc : t.pc <;>
        simp [LockedProgram.atomic, locked, TallyProgram.thread, RubyProducer.loop, pc]
  | _ =>
      rw [board (by simp)]
      simp [LockedProgram.atomic, locked, Function.comp_def]

/-- The reporter, too, swaps the counter in one step then. -/
theorem RubyProducer.locked_report {b : Board} {r : Reporter} (unshut : r.shut = false) :
    RubyProducer.locked.atomic b (.inr r) (.inr .report) =
      some ({ b with counter := 0 }, .inr { r with taken := r.taken ++ [b.counter] }) := by
  simp [LockedProgram.atomic, locked, unshut]

/-- So that is one of the loops with a reporter. -/
theorem RubyProducer.locked_atomic {b : Board} {s : TallyThread Draw ⊕ Reporter}
    {l : ThreadLabel Draw ⊕ ReporterLabel} {r : Board × (TallyThread Draw ⊕ Reporter)}
    (hstep : RubyProducer.locked.atomic b s l = some r) :
    RubyProducer.loop.party b s l = some r := by
  rcases s with t | reporter
  · rcases l with l | l
    · rwa [locked_thread] at hstep
    · cases hstep
  · rcases l with l | l
    · cases hstep
    · cases l with
      | report =>
          by_cases unshut : reporter.shut = false
          · rw [locked_report unshut] at hstep
            rw [← hstep]
            simp [Proc.either, TallyProgram.reporter, unshut]
          · simp [LockedProgram.atomic, locked, unshut] at hstep
      | hook => cases hstep
      | shutdown => cases hstep

/-- The threads of the Ruby producer, and its reporter. -/
abbrev RubyProducer.lockedParties (n : Nat) :
    Machine (Global (Guarded Board (Option (Fin n)))
        (Section Board (TallyThread Draw ⊕ Reporter) (ThreadLabel Draw ⊕ ReporterLabel))
        (Option (Fin n)))
      (Option (Fin n) × Section.Label (ThreadLabel Draw ⊕ ReporterLabel)) :=
  LockedProgram.lockedSystem fun _ => RubyProducer.locked

/-- **The Ruby counter.**  In every interleaving of the reads and the writes of the threads and
the reporter, no two are at the counter at a time, and the reports never count more than what
was sent; they fall short of it as if the reporter swapped the counter in one step.  Whoever is
at the counter can go on and release the lock. -/
theorem ruby_locked_counter {n : Nat}
    {g : Global (Guarded Board (Option (Fin n)))
      (Section Board (TallyThread Draw ⊕ Reporter) (ThreadLabel Draw ⊕ ReporterLabel))
      (Option (Fin n))}
    (reached : (RubyProducer.lockedParties n).Reachable
      (LockedProgram.outside (Tally.start Draw n)) g) :
    (∀ i j, (g.proc i).inside → (g.proc j).inside → i = j) ∧
      5 * (Tally.printed (LockedProgram.view g)).sum ≤ Tally.handled (LockedProgram.view g) ∧
      Tally.handled (LockedProgram.view g) ≤ 5 * (Tally.printed (LockedProgram.view g)).sum +
        4 * (Tally.taken (LockedProgram.view g)).length + g.mem.value.counter + 1000 * n ∧
      ∃ g', (RubyProducer.lockedParties n).Reachable g g' ∧ g'.mem.holder = none ∧
        ∀ j, (g.proc j).inside = false → g'.proc j = g.proc j := by
  have atomic : (Tally.step RubyProducer.loop n).Reachable (Tally.start Draw n)
      (LockedProgram.view g) :=
    interleave_mono (fun i c s l r steps => RubyProducer.locked_atomic steps)
      (LockedProgram.locked_atomic reached)
  obtain ⟨bound, short⟩ := Tally.accounts atomic (.inl rfl)
  obtain ⟨g', goes, released, others⟩ := LockedProgram.exists_released reached
  refine ⟨fun i j left right => LockedProgram.inside_unique reached left right, bound, short, g',
    goes, ?_, others⟩
  rw [released]
  rfl

/-- What a thread does with the counter to itself, it does at the counter behind the lock. -/
theorem RubyProducer.locked_solo {b b' : Board} {t t' : TallyThread Draw}
    (reached : RubyProducer.loop.thread.solo.Reachable (b, t) (b', t')) :
    RubyProducer.locked.atomic.solo.Reachable (b, .inl t) (b', .inl t') := by
  refine reached.invariant (I := fun r =>
    RubyProducer.locked.atomic.solo.Reachable (b, .inl t) (r.1, .inl r.2)) (.refl _)
    fun l r r' ih hstep => ih.trans (.single (.inl l) ?_)
  have steps : RubyProducer.loop.thread r.1 r.2 l = some r' := hstep
  unfold Proc.solo
  rw [locked_thread, steps]
  rfl

/-- A thread that starts sends a thousand records and adds them. -/
theorem RubyProducer.exists_thousand (counter : Nat) :
    ∃ t, RubyProducer.locked.atomic.solo.Reachable (⟨counter, true⟩, .inl TallyProgram.start)
      (⟨counter + 1000, true⟩, .inl t) ∧ t.handled = 1000 := by
  let draw : Draw := ⟨[7, 70], by decide, by decide⟩
  have handles : RubyProducer.loop.handle 0 draw = some (.send _) := rfl
  obtain ⟨t, reached, handled, -⟩ :=
    TallyProgram.exists_added (b := ⟨counter, true⟩) handles (by simp [RubyProducer.loop])
  have sum : (counter + RubyProducer.loop.batch) % RubyProducer.loop.modulus = counter + 1000 :=
    Nat.mod_zero _
  dsimp only at reached
  rw [sum] at reached
  exact ⟨t, locked_solo reached, handled⟩

/-- Two threads add a thousand records each, and the reporter takes them. -/
theorem ruby_locked_counter_two :
    ∃ g, (RubyProducer.lockedParties 2).Reachable (LockedProgram.outside (Tally.start Draw 2)) g ∧
      Tally.printed (LockedProgram.view g) = [400] ∧ Tally.handled (LockedProgram.view g) = 2000 ∧
      5 * (Tally.printed (LockedProgram.view g)).sum ≤ Tally.handled (LockedProgram.view g) := by
  obtain ⟨t₀, first, handled₀⟩ := RubyProducer.exists_thousand 0
  obtain ⟨t₁, second, handled₁⟩ := RubyProducer.exists_thousand 1000
  obtain ⟨g₁, reached₁, mem₁, proc₁⟩ := interleave_of_solo (i := some 0) (g := Tally.start Draw 2)
    (p := fun _ => RubyProducer.locked.atomic) first
  have before₁ : g₁.proc (some 1) = .inl TallyProgram.start := by
    rw [proc₁]
    rfl
  obtain ⟨g₂, reached₂, mem₂, proc₂⟩ := interleave_of_solo (i := some 1) (g := g₁)
    (p := fun _ => RubyProducer.locked.atomic) (by
      rw [mem₁, before₁]
      exact second)
  have before₂ : g₂.proc none = .inr ⟨[], false⟩ := by
    rw [proc₂, proc₁]
    rfl
  obtain ⟨g₃, reached₃, -, proc₃⟩ := interleave_of_solo (i := none) (g := g₂)
    (p := fun _ => RubyProducer.locked.atomic) (.single (.inr .report) (by
      rw [mem₂, before₂]
      exact RubyProducer.locked_report rfl))
  have reached := LockedProgram.locked_reachable_iff.mpr ((reached₁.trans reached₂).trans reached₃)
  have reporter : g₃.proc none = .inr ⟨[2000], false⟩ := by
    rw [proc₃]
    rfl
  have threads : g₃.proc (some 0) = .inl t₀ ∧ g₃.proc (some 1) = .inl t₁ := by
    rw [proc₃, proc₂, proc₁]
    exact ⟨rfl, rfl⟩
  have printed : Tally.printed g₃ = [400] := by
    unfold Tally.printed Tally.taken
    rw [reporter]
    rfl
  have handled : Tally.handled g₃ = 2000 := by
    unfold Tally.handled
    rw [Fintype.sum_option, Fin.sum_univ_two, reporter, threads.1, threads.2]
    simp [Tally.countedBy, handled₀, handled₁]
  exact ⟨_, reached, printed, handled, (ruby_locked_counter reached).2.1⟩

end KafkaTest
