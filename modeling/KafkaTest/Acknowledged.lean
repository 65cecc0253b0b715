import KafkaTest.Pipeline

/-!
# Acknowledged sends

Neither phase of the krafka processor looks at what a send resolves to.  The produce
task counts every completion, so what a worker adds to the counter is the number of
acknowledged sends exactly if no send failed; where a panic of the thread has cancelled
the task, exactly if as many sends failed as the task had not published yet
(`Worker.added_eq_acknowledged_iff`).  The loader comes to its flush whether its
sends succeeded or not.

`Worker.Batching` says that the counter is published in full thousands, so that what a
cancelled task leaves unpublished is the remainder of its completions.
-/

namespace KafkaTest

/-! ## Outcomes of a pool -/

/-- The number of sends that resolved `Ok`. -/
def acknowledged (sends : FuturePool (Bytes × Nat) SendResult) : Nat :=
  sends.finished.countP fun send => send.2 = .ok

/-- The number of sends that resolved `Err`. -/
def failed (sends : FuturePool (Bytes × Nat) SendResult) : Nat :=
  sends.finished.countP fun send => ¬ send.2 = .ok

theorem length_finished_eq (sends : FuturePool (Bytes × Nat) SendResult) :
    sends.finished.length = acknowledged sends + failed sends := by
  rw [acknowledged, failed, List.length_eq_countP_add_countP fun send => send.2 = .ok]
  simp

theorem failed_eq_zero_iff (sends : FuturePool (Bytes × Nat) SendResult) :
    failed sends = 0 ↔ ∀ send ∈ sends.finished, send.2 = .ok := by
  simp [failed, List.countP_eq_zero]

/-! ## Full thousands -/

/-- The completions not published yet are fewer than a thousand, or the thousand about
to be published. -/
structure Produce.Batching (p : Produce) : Prop where
  whole : p.pc ≠ .finished → p.added % 1000 = 0
  below : p.pc ≠ .publishing → p.localCounter < 1000
  full : p.pc = .publishing → p.localCounter = 1000

namespace Produce.Batching

variable {p : Produce}

/-- The task moves on, away from neither end. -/
theorem keep (batching : p.Batching) {p' : Produce} (added : p'.added = p.added)
    (localCounter : p'.localCounter = p.localCounter)
    (publishing : p'.pc = .publishing ↔ p.pc = .publishing)
    (finished : p'.pc = .finished ↔ p.pc = .finished) : p'.Batching where
  whole running := by
    rw [added]
    exact batching.whole fun h => running (finished.mpr h)
  below idle := by
    rw [localCounter]
    exact batching.below fun h => idle (publishing.mpr h)
  full busy := by
    rw [localCounter]
    exact batching.full (publishing.mp busy)

theorem afterPoll (batching : p.Batching) (selecting : p.pc = .selecting)
    (inFlight : FuturePool (Bytes × Nat) SendResult) (answer : Poll SendResult) :
    (p.afterPoll inFlight answer).Batching := by
  have below := batching.below (by simp [selecting])
  have whole := batching.whole (by simp [selecting])
  cases answer with
  | pending => exact batching.keep rfl rfl .rfl .rfl
  | ready result =>
      by_cases full : 1000 ≤ p.localCounter + 1
      · rw [Produce.afterPoll, if_pos full]
        refine ⟨fun _ => whole, fun idle => (idle rfl).elim, fun _ => ?_⟩
        simp only
        omega
      · rw [Produce.afterPoll, if_neg full]
        refine ⟨fun _ => whole, fun _ => Nat.lt_of_not_le full, fun busy => ?_⟩
        rw [show p.pc = .publishing from busy] at selecting
        cases selecting

theorem publish (batching : p.Batching) (publishing : p.pc = .publishing) :
    p.publish.Batching := by
  have full := batching.full publishing
  have whole := batching.whole (by simp [publishing])
  refine ⟨fun _ => ?_, fun _ => by simp [Produce.publish], (fun busy => by cases busy)⟩
  simp only [Produce.publish]
  omega

theorem finish (batching : p.Batching) (selecting : p.pc = .selecting) : p.finish.Batching :=
  ⟨fun running => (running rfl).elim, fun _ => batching.below (by simp [selecting]),
    (fun busy => by cases busy)⟩

theorem shutdown (batching : p.Batching) : p.shutdown.Batching := by
  by_cases selecting : p.pc = .selecting
  · rw [Produce.shutdown, if_pos selecting]
    exact batching.keep rfl rfl (by simp [selecting]) (by simp [selecting])
  · rw [Produce.shutdown, if_neg selecting]
    exact batching.keep rfl rfl .rfl .rfl

end Produce.Batching

namespace Worker

/-- The produce task is spawned with the loop, and does not outlive a panic. -/
structure Batching (s : Worker) : Prop where
  produce : s.produce.Batching
  starting : s.consume.pc = .starting → s.produce.pc = .unspawned
  stopped : s.consume.pc = .ended none → s.produce.pc = .unspawned ∨ s.produce.pc.done

namespace Batching

variable {s : Worker}

/-- The consume task moves on inside its run. -/
theorem advance (batching : s.Batching) {c : Consume} {queue : List (Bytes × Nat)}
    (started : c.pc ≠ .starting) (alive : c.pc ≠ .ended none) :
    Batching { s with consume := c, queue := queue } :=
  ⟨batching.produce, fun h => (started h).elim, fun h => (alive h).elim⟩

/-- A produce task at work has a thread that runs. -/
theorem work (batching : s.Batching)
    (running : s.produce.pc = .selecting ∨ s.produce.pc = .publishing) {p : Produce}
    {queue : List (Bytes × Nat)} (batching' : p.Batching) :
    Batching { s with produce := p, queue := queue } := by
  refine ⟨batching', fun starting => ?_, fun crashed => ?_⟩
  · rcases running with h | h <;> rw [batching.starting starting] at h <;> cases h
  · rcases batching.stopped crashed with idle | done
    · rcases running with h | h <;> rw [idle] at h <;> cases h
    · rcases running with h | h <;> rw [h] at done <;> cases done

theorem turn (batching : s.Batching) (record : Record) (rest : List Record) :
    Batching { s with consume := s.consume.turn record rest } := by
  refine batching.advance ?_ ?_ <;>
    rcases s.consume.afterDecode_cases record rest with ⟨-, -, hpc⟩ | ⟨buf, -, -, hpc⟩ |
      ⟨-, -, hpc⟩ <;>
    simp [Consume.turn, hpc]

theorem move {total counter counter' : Nat} {s' : Worker} {l : Label} (batching : s.Batching)
    (move : Move total counter s l counter' s') : s'.Batching := by
  cases move with
  | enter starting =>
      have unspawned := batching.starting starting
      refine ⟨batching.produce.keep rfl rfl ?_ ?_, (fun h => by cases h), (fun h => by cases h)⟩ <;>
        simp [unspawned, enter]
  | startFails starting =>
      exact ⟨batching.produce, (fun h => by cases h), fun _ => .inl (batching.starting starting)⟩
  | check top =>
      refine batching.advance ?_ ?_ <;> simp only [Consume.check] <;> split <;> simp
  | poll answer polling =>
      cases answer with
      | err => exact batching.advance (by simp [Consume.poll]) (by simp [Consume.poll])
      | ok records =>
        cases records with
        | nil => refine batching.advance ?_ ?_ <;> simp only [Consume.poll] <;> split <;> simp
        | cons record records =>
            exact batching.advance (by simp [Consume.poll]) (by simp [Consume.poll])
  | batchEnd batch => exact batching.advance (by simp) (by simp)
  | turn record rest batch => exact batching.turn record rest
  | sendFails item rest sending done => exact batching.advance (by simp) (by simp)
  | send item rest sending room => exact batching.advance (by simp [goto]) (by simp [goto])
  | dropTx exit left => exact batching.advance (by simp) (by simp)
  | join exit joining done => exact batching.advance (by simp) (by simp)
  | shutdown unwinding awaiting =>
      refine ⟨batching.produce.shutdown, (fun h => by cases h), fun _ => ?_⟩
      simp only [Produce.shutdown]
      cases pc : s.produce.pc <;> simp_all [ProducePc.done]
  | recv item queue selecting isOpen room front =>
      exact batching.work (.inl selecting) (batching.produce.keep rfl rfl .rfl .rfl)
  | recvNone selecting isOpen empty dropped =>
      exact batching.work (.inl selecting) (batching.produce.keep rfl rfl .rfl .rfl)
  | complete answer inFlight selecting polled =>
      exact batching.work (.inl selecting) (batching.produce.afterPoll selecting inFlight answer)
  | wake i inFlight running woken =>
      exact batching.work running (batching.produce.keep rfl rfl .rfl .rfl)
  | publish publishing =>
      exact batching.work (.inr publishing) (batching.produce.publish publishing)
  | finish selecting isClosed empty =>
      exact batching.work (.inl selecting) (batching.produce.finish selecting)

theorem of_reachable {total : Nat} (reached : (step total).alone.Reachable start s) :
    s.Batching := by
  refine reached.invariant ⟨⟨by simp [start], by simp [start], by simp [start]⟩, fun _ => rfl,
    (fun h => by cases h)⟩ fun l s s' batching hstep => ?_
  obtain ⟨counter', hstep⟩ := Proc.alone_eq_some.mp hstep
  exact batching.move (step_move hstep)

end Batching

/-- The completions that a produce task, once over, has not published: none if it has
finished, else the remainder of a thousand. -/
def unpublished (s : Worker) : Nat :=
  if s.produce.pc = .finished then 0 else s.produce.inFlight.finished.length % 1000

/-- Once the thread has ended, everything else was published. -/
theorem added_add_unpublished {total : Nat} {s : Worker}
    (reached : (step total).alone.Reachable start s) {exit : Option Exit}
    (ended : s.consume.pc = .ended exit) :
    s.produce.added + s.unpublished = s.produce.inFlight.finished.length := by
  have inv := Inv.of_reachable reached
  have batching := Batching.of_reachable reached
  rw [unpublished]
  split
  · rename_i finished
    exact inv.produce.all finished
  · rename_i running
    have counted := inv.produce.counted running
    have whole := batching.produce.whole running
    have idle : s.produce.pc ≠ .publishing := by
      intro publishing
      cases exit with
      | some exit =>
          rw [inv.handshake.joined exit ended] at publishing
          cases publishing
      | none => rcases batching.stopped ended with h | h <;> rw [publishing] at h <;> cases h
    have below := batching.produce.below idle
    omega

/-- A thread that ended after leaving its loop has published everything. -/
theorem unpublished_of_ended {total : Nat} {s : Worker}
    (reached : (step total).alone.Reachable start s) {exit : Exit}
    (ended : s.consume.pc = .ended (some exit)) : s.unpublished = 0 :=
  if_pos ((Inv.of_reachable reached).handshake.joined exit ended)

theorem added_eq_acknowledged_iff {total : Nat} {s : Worker}
    (reached : (step total).alone.Reachable start s) {exit : Option Exit}
    (ended : s.consume.pc = .ended exit) :
    s.produce.added = acknowledged s.produce.inFlight ↔
      failed s.produce.inFlight = s.unpublished := by
  have added := added_add_unpublished reached ended
  have split := length_finished_eq s.produce.inFlight
  omega

end Worker

/-! ## The loader -/

/-- `producer.flush().await.expect(..)` returns, and the completion line is printed. -/
def Loader.completes (s : Loader) (flush : SendResult) : Prop :=
  s.pc = .flushing ∧ flush = .ok

/-- At the flush each of the records has had one send resolved. -/
theorem Loader.length_finished {total : Nat} {s : Loader}
    (reached : (Loader.step total).Reachable Loader.start s) (flushing : s.pc = .flushing) :
    s.inFlight.finished.length = total := by
  have inv := Loader.Inv.of_reachable reached
  obtain ⟨-, finished⟩ := FuturePool.of_len_eq_zero (inv.empty flushing)
  have length := finished.length_eq
  rw [inv.pushed, List.length_map, List.length_zipIdx, inv.complete (.inr flushing)] at length
  exact length

/-- **What is counted is what was acknowledged exactly if nothing failed.**  When a
worker's thread has ended, what it added to the shared counter is the number of its
acknowledged sends exactly if as many sends failed as it left unpublished: none, if it
left its loop.  When Phase 1 prints its completion line, all of its sends were
acknowledged exactly if none of them failed. -/
theorem counts_acknowledged_iff (total : Nat) :
    (∀ (s : Worker) (exit : Option Exit),
      (Worker.step total).alone.Reachable Worker.start s → s.consume.pc = .ended exit →
        (s.produce.added = acknowledged s.produce.inFlight ↔
          failed s.produce.inFlight = s.unpublished) ∧
        (exit.isSome → s.unpublished = 0)) ∧
    ∀ (s : Loader) (flush : SendResult),
      (Loader.step total).Reachable Loader.start s → s.completes flush →
        (acknowledged s.inFlight = total ↔ ∀ send ∈ s.inFlight.finished, send.2 ≠ .err) := by
  refine ⟨fun s exit reached ended => ⟨?_, fun left => ?_⟩, fun s flush reached completes => ?_⟩
  · exact Worker.added_eq_acknowledged_iff reached ended
  · obtain ⟨exit, rfl⟩ := Option.isSome_iff_exists.mp left
    exact Worker.unpublished_of_ended reached ended
  · have all := Loader.length_finished reached completes.1
    have split := length_finished_eq s.inFlight
    have none := failed_eq_zero_iff s.inFlight
    have ok : ∀ result : SendResult, result = .ok ↔ result ≠ .err := by
      intro result
      cases result <;> simp
    simp only [← ok, ← none]
    omega

/-- A worker that is handed one record and then finds its partition empty. -/
def oneRecord : List (Nat × Worker.Label) :=
  [(0, .start true), (0, .check), (0, .poll (.ok [⟨some [0x02#8, 0x06#8, 0x00#8]⟩])),
    (0, .next), (0, .send), (0, .next), (0, .recv), (0, .complete .pending),
    (0, .check), (0, .poll (.ok [])), (0, .check), (0, .poll .err), (0, .check),
    (0, .poll (.ok [])), (0, .wake 0), (0, .check), (0, .poll (.ok [])), (0, .dropTx),
    (0, .complete (.ready .ok)), (0, .recv), (0, .finish), (1, .join)]

/-- One acknowledged record of each phase. -/
theorem counts_acknowledged_iff_one :
    (∃ s : Worker, (Worker.step 50).alone.run Worker.start oneRecord = some s ∧
      s.produce.added = acknowledged s.produce.inFlight) ∧
    ∃ s : Loader, (Loader.step 1).run Loader.start
      [.generate ⟨[7, 70], by decide, by decide⟩, .rangeEnd, .poll (.ready .ok), .noneLeft] =
        some s ∧ acknowledged s.inFlight = 1 := by
  have ends : ((Worker.step 50).alone.run Worker.start oneRecord).map
      (fun s => (s.consume.pc, failed s.produce.inFlight, s.unpublished)) =
        some (.ended (some .emptyPolls), 0, 0) := by
    decide +kernel
  have flushes : ((Loader.step 1).run Loader.start
      [.generate ⟨[7, 70], by decide, by decide⟩, .rangeEnd, .poll (.ready .ok), .noneLeft]).map
        (fun s => (s.pc, s.inFlight.finished.map Prod.snd)) = some (.flushing, [.ok]) := by
    decide +kernel
  obtain ⟨s, hrun, hs⟩ := Option.map_eq_some_iff.mp ends
  obtain ⟨t, hload, ht⟩ := Option.map_eq_some_iff.mp flushes
  simp only [Prod.mk.injEq] at hs ht
  obtain ⟨ended, none, published⟩ := hs
  obtain ⟨flushing, results⟩ := ht
  refine ⟨⟨s, hrun, ((counts_acknowledged_iff 50).1 s _ ⟨_, hrun⟩ ended).1.mpr ?_⟩, t, hload,
    ((counts_acknowledged_iff 1).2 t .ok ⟨_, hload⟩ ⟨flushing, rfl⟩).mpr fun send member => ?_⟩
  · rw [none, published]
  · have result := List.mem_map_of_mem (f := Prod.snd) member
    rw [results, List.mem_singleton] at result
    rw [result]
    simp

/-- A worker whose only send fails, and leaves after three empty polls. -/
def failedSend : List (Nat × Worker.Label) :=
  [(0, .start true), (0, .check), (0, .poll (.ok [⟨some [0x02#8, 0x06#8, 0x00#8]⟩])),
    (0, .next), (0, .send), (0, .next), (0, .recv), (0, .complete (.ready .err)),
    (0, .check), (0, .poll (.ok [])), (0, .check), (0, .poll (.ok [])), (0, .check),
    (0, .poll (.ok [])), (0, .dropTx), (0, .recv), (0, .finish), (1, .join)]

/-- Phase 1 with one record, whose send fails. -/
def failedLoad (draw : Draw) : List Loader.Label :=
  [.generate draw, .rangeEnd, .poll (.ready .err), .noneLeft]

/-- A failed send is counted, and a failed load completes. -/
theorem counts_failed :
    (∃ s : Worker, (Worker.step totalRecords).alone.run Worker.start failedSend = some s ∧
      s.consume.pc = .ended (some .emptyPolls) ∧ s.produce.added = 1 ∧
      acknowledged s.produce.inFlight = 0) ∧
    ∃ s : Loader, (Loader.step 1).run Loader.start
      (failedLoad ⟨[7, 70], by decide, by decide⟩) = some s ∧ s.completes .ok ∧
        acknowledged s.inFlight = 0 := by
  have ends : ((Worker.step totalRecords).alone.run Worker.start failedSend).map
      (fun s => (s.consume.pc, s.produce.added, acknowledged s.produce.inFlight)) =
        some (.ended (some .emptyPolls), 1, 0) := by
    decide +kernel
  have flushes : ((Loader.step 1).run Loader.start
      (failedLoad ⟨[7, 70], by decide, by decide⟩)).map
      (fun s => (s.pc, acknowledged s.inFlight)) = some (.flushing, 0) := by
    decide +kernel
  obtain ⟨s, hrun, hs⟩ := Option.map_eq_some_iff.mp ends
  obtain ⟨t, hload, ht⟩ := Option.map_eq_some_iff.mp flushes
  simp only [Prod.mk.injEq] at hs ht
  exact ⟨⟨s, hrun, hs⟩, t, hload, ⟨ht.1, rfl⟩, ht.2⟩

end KafkaTest
