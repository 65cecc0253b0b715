import KafkaTest.Pipeline

/-!
# Backpressure in a worker

Both buffers of a worker are bounded: the channel by its capacity, the pool of sends by
the guard of the receiving branch.  The guard is also what could leave the produce task
without a branch to wait for, and the consume task waiting for it.

`Worker.Bounded` holds the bounds, along with the fact that a thread past its start has
its produce task.  With the handshake of `Worker.Inv` this gives
`Worker.canProduce_of_queued`: as long as a result is queued, the task goes on.
-/

namespace KafkaTest

namespace Worker

/-! ## The bounds -/

theorem Move.length_queue_le {total counter counter' : Nat} {s s' : Worker} {l : Label}
    (move : Move total counter s l counter' s') (bound : s.queue.length ≤ window) :
    s'.queue.length ≤ window := by
  cases move with
  | send item rest sending room =>
      simp only [enqueue, List.length_append, List.length_singleton]
      omega
  | recv item queue selecting isOpen room front =>
      rw [front, List.length_cons] at bound
      exact Nat.le_of_succ_le bound
  | _ => exact bound

theorem Move.len_inFlight_le {total counter counter' : Nat} {s s' : Worker} {l : Label}
    (move : Move total counter s l counter' s') (bound : s.produce.inFlight.len ≤ window) :
    s'.produce.inFlight.len ≤ window := by
  cases move with
  | recv item queue selecting isOpen room front =>
      simp only [receive, FuturePool.len_push]
      exact room
  | complete answer inFlight selecting polled =>
      cases answer with
      | pending => exact (FuturePool.poll_pending_spec polled).2.2.trans_le bound
      | ready result =>
          have shrinks := (FuturePool.poll_ready_spec polled).2.2
          simp only [Produce.afterPoll]
          omega
  | wake i inFlight running woken => exact (FuturePool.wake_spec woken).2.2.trans_le bound
  | _ => exact bound

/-- The produce task is spawned before the loop is entered. -/
theorem Move.spawned {total counter counter' : Nat} {s s' : Worker} {l : Label}
    (move : Move total counter s l counter' s')
    (before : s.produce.pc = .unspawned → s.consume.pc = .starting ∨ s.consume.pc = .ended none)
    (unspawned : s'.produce.pc = .unspawned) :
    s'.consume.pc = .starting ∨ s'.consume.pc = .ended none := by
  cases move with
  | enter starting => cases unspawned
  | startFails starting => exact .inr rfl
  | shutdown unwinding awaiting => exact .inr rfl
  | check pc | poll _ pc | batchEnd pc | turn _ _ pc | sendFails _ _ pc | send _ _ pc
  | dropTx _ pc | join _ pc =>
      rcases before unspawned with h | h <;> rw [pc] at h <;> cases h
  | recv item queue selecting isOpen room front =>
      rw [show s.produce.pc = .unspawned from unspawned] at selecting
      cases selecting
  | recvNone selecting isOpen empty dropped => exact before unspawned
  | complete answer inFlight selecting polled =>
      cases answer with
      | pending => exact before unspawned
      | ready result =>
          simp only [Produce.afterPoll, selecting] at unspawned
          split at unspawned <;> cases unspawned
  | wake i inFlight running woken => exact before unspawned
  | publish publishing => cases unspawned
  | finish selecting closed empty => cases unspawned

/-- The channel and the pool are within the window. -/
structure Bounded (s : Worker) : Prop where
  queue : s.queue.length ≤ window
  inFlight : s.produce.inFlight.len ≤ window
  spawned : s.produce.pc = .unspawned → s.consume.pc = .starting ∨ s.consume.pc = .ended none

theorem Bounded.of_reachable {total : Nat} {s : Worker}
    (reached : (step total).alone.Reachable start s) : s.Bounded := by
  refine reached.invariant ⟨by simp [start], by simp [start], fun _ => .inl rfl⟩
    fun l s s' bounded hstep => ?_
  obtain ⟨counter', hstep⟩ := Proc.alone_eq_some.mp hstep
  have move := step_move hstep
  exact ⟨move.length_queue_le bounded.queue, move.len_inFlight_le bounded.inFlight,
    move.spawned bounded.spawned⟩

/-! ## Going on -/

/-- The step is enabled, whatever the shared counter holds. -/
def Enabled (total : Nat) (s : Worker) (l : Label) : Prop :=
  ∀ counter, (step total counter s l).isSome

/-- The step leads to `s'`, whatever the shared counter holds. -/
def Leads (total : Nat) (s : Worker) (l : Label) (s' : Worker) : Prop :=
  ∀ counter, ∃ counter', step total counter s l = some (counter', s')

/-- At its `select!` the produce task can receive a result, or complete a send whose
waker has run or runs now. -/
def CanSelect (total : Nat) (s : Worker) : Prop :=
  s.Enabled total .recv ∨
    ∃ s', (s' = s ∨ ∃ i, s.Leads total (.wake i) s') ∧
      ∀ result, s'.Enabled total (.complete (.ready result))

/-- The produce task goes on: by a branch of its `select!`, or by the `fetch_add` that is
left of the last completion and by a branch after it. -/
def CanProduce (total : Nat) (s : Worker) : Prop :=
  s.CanSelect total ∨ ∃ s', s.Leads total .publish s' ∧ s'.CanSelect total

theorem enabled_recv {total : Nat} {s : Worker} (selecting : s.produce.pc = .selecting)
    (isOpen : s.produce.channelOpen = true) (queued : s.queue ≠ [])
    (room : s.produce.inFlight.len < window) : s.Enabled total .recv := by
  intro counter
  obtain ⟨item, queue, front⟩ := List.exists_cons_of_ne_nil queued
  simp only [step, if_pos (And.intro selecting (And.intro isOpen room)), front,
    Option.isSome_some]

/-- A full window leaves sends to complete. -/
theorem canSelect_of_nonempty {total : Nat} {s : Worker} (selecting : s.produce.pc = .selecting)
    (nonempty : s.produce.inFlight.len ≠ 0) : s.CanSelect total := by
  obtain ⟨inFlight, woken, polls⟩ := FuturePool.exists_ready_of_len_ne_zero nonempty
  refine .inr ⟨{ s with produce := { s.produce with inFlight := inFlight } }, ?_, ?_⟩
  · rcases woken with same | ⟨i, woken⟩
    · rw [same]
      exact .inl rfl
    · refine .inr ⟨i, fun counter => ⟨counter, ?_⟩⟩
      simp only [step, if_pos (Or.inl (b := s.produce.pc = .publishing) selecting), woken,
        Option.map_some]
  · intro result counter
    obtain ⟨later, polled⟩ := polls (.ready result)
    simp only [step, if_pos selecting, polled, Option.map_some, Option.isSome_some]

theorem canSelect_of_queued {total : Nat} {s : Worker} (selecting : s.produce.pc = .selecting)
    (isOpen : s.produce.channelOpen = true) (queued : s.queue ≠ []) : s.CanSelect total := by
  by_cases room : s.produce.inFlight.len < window
  · exact .inl (enabled_recv selecting isOpen queued room)
  · refine canSelect_of_nonempty selecting fun empty => room ?_
    simp [empty, window]

theorem leads_publish {total : Nat} {s : Worker} (publishing : s.produce.pc = .publishing) :
    s.Leads total .publish { s with produce := s.produce.publish } := fun counter =>
  ⟨fetchAdd counter s.produce.localCounter, by simp only [step, if_pos publishing]⟩

/-- A queued result keeps the channel open and the produce task running. -/
theorem Inv.running_of_queued {s : Worker} (inv : s.Inv) (bounded : s.Bounded)
    (queued : s.queue ≠ []) (started : s.consume.pc ≠ .starting)
    (alive : s.consume.pc ≠ .ended none) :
    s.produce.channelOpen = true ∧ (s.produce.pc = .selecting ∨ s.produce.pc = .publishing) := by
  have isOpen : s.produce.channelOpen = true := by
    rw [← Bool.not_eq_false]
    exact fun isClosed => queued (inv.handshake.closed isClosed).2
  refine ⟨isOpen, ?_⟩
  cases pc : s.produce.pc with
  | selecting => exact .inl rfl
  | publishing => exact .inr rfl
  | unspawned => exact ((bounded.spawned pc).elim started alive).elim
  | finished =>
      rw [(inv.produce.drained pc).1] at isOpen
      cases isOpen
  | panicked => exact (inv.produce.sound pc).elim
  | cancelled => exact (alive (inv.handshake.cancelled pc)).elim

theorem Inv.canProduce_of_queued {total : Nat} {s : Worker} (inv : s.Inv) (bounded : s.Bounded)
    (queued : s.queue ≠ []) (started : s.consume.pc ≠ .starting)
    (alive : s.consume.pc ≠ .ended none) : s.CanProduce total := by
  obtain ⟨isOpen, selecting | publishing⟩ := inv.running_of_queued bounded queued started alive
  · exact .inl (canSelect_of_queued selecting isOpen queued)
  · exact .inr ⟨_, leads_publish publishing, canSelect_of_queued rfl isOpen queued⟩

end Worker

/-- **Bounded and never stuck.**  In every reachable state the channel and the pool of
sends hold at most the window; `select!` is not evaluated with both branches disabled;
and while `tx.send` waits for room in the channel, or a loop that was left has results
queued, the produce task goes on.  A thread that is unwinding from a panic counts as
one that has left its loop. -/
theorem worker_backpressure {total : Nat} {s : Worker}
    (reached : (Worker.step total).alone.Reachable Worker.start s) :
    s.queue.length ≤ Worker.window ∧ s.produce.inFlight.len ≤ Worker.window ∧
      (s.produce.pc ≠ .panicked ∧ ∀ counter, Worker.step total counter s .selectPanics = none) ∧
      (∀ item rest, s.consume.pc = .sending item rest → ¬ s.queue.length < Worker.window →
        s.CanProduce total) ∧
      (s.consume.pc.exit.isSome ∨ s.consume.pc = .unwinding → s.queue ≠ [] →
        s.CanProduce total) := by
  have inv := Worker.Inv.of_reachable reached
  have bounded := Worker.Bounded.of_reachable reached
  refine ⟨bounded.queue, bounded.inFlight, ⟨inv.produce.sound, fun counter => ?_⟩, ?_, ?_⟩
  · cases panics : Worker.step total counter s .selectPanics with
    | none => rfl
    | some r => cases Worker.step_move panics
  · intro item rest sending full
    refine inv.canProduce_of_queued bounded ?_ (by simp [sending]) (by simp [sending])
    intro empty
    exact full (by simp [empty, Worker.window])
  · intro left queued
    refine inv.canProduce_of_queued bounded queued ?_ ?_ <;> intro pc <;>
      simp [pc, ConsumePc.exit] at left

/-- A worker that leaves over the counter with a result still in the channel. -/
def leftQueued : List (Nat × Worker.Label) :=
  [(0, .start true), (0, .check), (0, .poll (.ok [⟨some [0x02#8, 0x06#8, 0x00#8]⟩])),
    (0, .next), (0, .send), (0, .next), (50, .check)]

theorem worker_backpressure_leftQueued : ∃ s : Worker,
    (Worker.step 50).alone.run Worker.start leftQueued = some s ∧
      s.queue = [([0x06#8], 0)] ∧ s.CanProduce 50 := by
  have leaves : ((Worker.step 50).alone.run Worker.start leftQueued).map
      (fun s => (s.consume.pc, s.queue)) =
        some (.left .counterReached, [([0x06#8], 0)]) := by
    decide +kernel
  obtain ⟨s, hrun, hs⟩ := Option.map_eq_some_iff.mp leaves
  obtain ⟨left, queued⟩ := Prod.mk.inj hs
  obtain ⟨-, -, -, -, goesOn⟩ := worker_backpressure ⟨_, hrun⟩
  exact ⟨s, hrun, queued, goesOn (.inl (by rw [left]; rfl)) (by simp [queued])⟩

end KafkaTest
