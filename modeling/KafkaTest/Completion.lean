import KafkaTest.Backpressure
import KafkaTest.Workers

/-!
# Runs that can be completed

A krafka worker that has not ended can always go on, and can be brought to its end: `effort` is a
bound on the steps to it, and `Worker.exists_step` makes one of them, with the records left in the
partition handed out before any empty poll.

`full_report_iff` says from which states the run can still end with a report of all records: those
in which no worker has given up on records of its partition.
-/

namespace KafkaTest

/-! ## Effort -/

/-- The steps left of a consume task, if it makes no more than `tests` for its empty polls. -/
def ConsumePc.effort (tests : Nat) : ConsumePc → Nat
  | starting => tests + 6
  | top => tests + 4
  | polling => tests + 3
  | batch rest => tests + 6 * rest.length + 5
  | sending _ rest => tests + 6 * rest.length + 10
  | left _ => 2
  | joining _ | unwinding => 1
  | ended _ => 0

def Consume.effort (c : Consume) : Nat := c.pc.effort (2 * (3 - c.consecutiveEmpty))

def ProducePc.effort : ProducePc → Nat
  | publishing => 2
  | unspawned | selecting => 1
  | _ => 0

/-- A future is woken before it is completed. -/
def Produce.effort (p : Produce) : Nat :=
  p.pc.effort + p.channelOpen.toNat + 2 * p.inFlight.ready.length + 3 * p.inFlight.parked.length

/-- The loop was left over empty polls, or in a panic. -/
def ConsumePc.gaveUp : ConsumePc → Bool
  | left .emptyPolls | joining .emptyPolls | ended (some .emptyPolls) | unwinding | ended none =>
      true
  | _ => false

namespace Worker

/-- The steps left of both tasks, the channel and the partition. -/
def effort (log : List Record) (s : Worker) : Nat :=
  s.consume.effort + (4 * s.queue.length + s.produce.effort) +
    16 * (log.length - s.consume.polled.length)

variable (total counter : Nat) {log : List Record} {s : Worker}

/-! ## The produce task goes on -/

/-- Completing a future is a step towards the end, and so is waking it first. -/
theorem exists_complete (selecting : s.produce.pc = .selecting)
    (nonempty : s.produce.inFlight.len ≠ 0) :
    ∃ l s', step total counter s l = some (counter, s') ∧ l.handed = [] ∧
      s'.consume = s.consume ∧ s'.queue = s.queue ∧ s'.produce.effort < s.produce.effort := by
  cases ready : s.produce.inFlight.ready with
  | nil =>
      have parked : 0 < s.produce.inFlight.parked.length := by
        rw [FuturePool.len, ready, List.length_nil] at nonempty
        omega
      have woken : ∃ inFlight, s.produce.inFlight.wake 0 = some inFlight ∧
          inFlight.ready.length = 1 ∧
          inFlight.parked.length + 1 = s.produce.inFlight.parked.length := by
        rw [FuturePool.wake, dif_pos parked]
        refine ⟨_, rfl, by simp [ready], ?_⟩
        simp only [List.length_eraseIdx_of_lt parked]
        omega
      obtain ⟨inFlight, woken, one, fewer⟩ := woken
      refine ⟨.wake 0, { s with produce := { s.produce with inFlight := inFlight } }, ?_, rfl, rfl,
        rfl, ?_⟩
      · simp only [step, if_pos (Or.inl (b := s.produce.pc = .publishing) selecting), woken,
          Option.map_some]
      · simp only [Produce.effort, ready, List.length_nil]
        omega
  | cons q rest =>
      obtain ⟨inFlight, polled⟩ := FuturePool.exists_poll ready (.ready SendResult.ok)
      obtain ⟨q', rest', same, ready', -, -, parked, -⟩ := FuturePool.poll_eq_some polled
      rw [ready] at same
      cases same
      refine ⟨.complete (.ready .ok),
        { s with produce := s.produce.afterPoll inFlight (.ready .ok) }, ?_, rfl, rfl, rfl, ?_⟩
      · simp only [step, if_pos selecting, polled, Option.map_some]
      · simp only [Produce.effort, Produce.afterPoll, selecting, ready, ready', parked,
          List.length_cons]
        split <;> simp only [ProducePc.effort] <;> omega

/-- What is left of the produce task, with the channel in front of it. -/
theorem exists_produce
    (running : s.produce.pc = .selecting ∨ s.produce.pc = .publishing)
    (isOpen : s.queue ≠ [] → s.produce.channelOpen = true)
    (work : s.produce.pc = .publishing ∨ s.produce.inFlight.len ≠ 0 ∨ s.queue ≠ [] ∨
      s.produce.channelOpen = false ∨ s.consume.pc.txDropped) :
    ∃ l counter' s', step total counter s l = some (counter', s') ∧ l.handed = [] ∧
      s'.consume = s.consume ∧
      4 * s'.queue.length + s'.produce.effort < 4 * s.queue.length + s.produce.effort := by
  by_cases publishing : s.produce.pc = .publishing
  · refine ⟨.publish, _, { s with produce := s.produce.publish }, if_pos publishing, rfl, rfl, ?_⟩
    simp only [Produce.effort, Produce.publish, publishing, ProducePc.effort]
    omega
  · have selecting := running.resolve_right publishing
    by_cases empty : s.produce.inFlight.len = 0
    · have room : s.produce.inFlight.len < window := by simp [empty, window]
      cases queue : s.queue with
      | cons item queue' =>
          have receives := isOpen (by simp [queue])
          refine ⟨.recv, counter, s.receive item queue', ?_, rfl, rfl, ?_⟩
          · simp only [step, if_pos (And.intro selecting (And.intro receives room)), queue]
          · simp only [Produce.effort, receive, FuturePool.push, List.length_append,
              List.length_cons, List.length_nil]
            omega
      | nil =>
          cases channel : s.produce.channelOpen with
          | false =>
              refine ⟨.finish, _, { s with produce := s.produce.finish },
                if_pos ⟨selecting, channel, empty⟩, rfl, rfl, ?_⟩
              simp only [Produce.effort, Produce.finish, selecting, ProducePc.effort, queue,
                List.length_nil]
              omega
          | true =>
              have dropped : s.consume.pc.txDropped := by
                simpa [publishing, empty, queue, channel] using work
              refine ⟨.recv, counter, s.close, ?_, rfl, rfl, ?_⟩
              · simp only [step, if_pos (And.intro selecting (And.intro channel room)), queue,
                  if_pos dropped]
              · simp only [Produce.effort, close, channel, queue, List.length_nil, Bool.toNat_true,
                  Bool.toNat_false]
                omega
    · obtain ⟨l, s', steps, handed, consume, queue, less⟩ :=
        exists_complete total counter selecting empty
      refine ⟨l, counter, s', steps, handed, consume, ?_⟩
      rw [queue]
      omega

/-! ## The consume task goes on -/

/-- The consume task takes a step of its own, once there is room in the channel. -/
theorem exists_consume (inv : s.Inv) (handed : s.consume.polled <+: log)
    (values : ∀ r ∈ log, r.wellFormed) (alive : ¬ s.consume.pc.isEnded)
    (room : s.queue.length < window)
    (joins : ∀ exit, s.consume.pc = .joining exit → s.produce.pc.done)
    (awaiting : s.consume.pc = .unwinding → s.produce.pc ≠ .publishing) :
    ∃ l s', step total counter s l = some (counter, s') ∧ s.consume.polled ++ l.handed <+: log ∧
      s'.effort log < s.effort log ∧
      (s'.consume.pc.gaveUp → s.consume.pc.gaveUp ∨ s'.consume.polled = log) := by
  have unhanded : s.consume.polled ++ [] <+: log := by rwa [List.append_nil]
  cases pc : s.consume.pc with
  | starting =>
      refine ⟨.start true, s.enter, by simp [step, pc], unhanded, ?_, fun h => by cases h⟩
      unfold effort enter goto Consume.effort Produce.effort
      simp only [pc, ConsumePc.effort, ProducePc.effort]
      omega
  | top =>
      refine ⟨.check, _, if_pos pc, unhanded, ?_, fun h => ?_⟩
      · unfold effort Consume.check Consume.effort
        dsimp only
        split <;> simp only [pc, ConsumePc.effort] <;> omega
      · unfold Consume.check at h
        dsimp only at h
        split at h <;> cases h
  | polling =>
      obtain ⟨unread, rfl⟩ := handed
      refine ⟨.poll (.ok unread), _, if_pos pc, List.prefix_rfl, ?_, fun h => .inr ?_⟩
      · unfold effort Consume.effort
        cases unread with
        | nil =>
            by_cases full : 3 ≤ s.consume.consecutiveEmpty + 1
            · simp only [Consume.poll, pc, if_pos full, ConsumePc.effort, List.append_nil]
              omega
            · simp only [Consume.poll, pc, if_neg full, ConsumePc.effort, List.append_nil]
              omega
        | cons record records =>
            simp only [Consume.poll, pc, ConsumePc.effort, List.length_append, List.length_cons]
            omega
      · cases unread with
        | nil => exact (List.append_nil _).symm
        | cons record records => rfl
  | batch rest =>
      cases rest with
      | nil =>
          refine ⟨.next, s.goto .top, by simp only [step, pc], unhanded, ?_, fun h => by cases h⟩
          unfold effort Consume.effort goto
          simp only [pc, ConsumePc.effort]
          omega
      | cons record rest =>
          have whole := inv.consume.whole (by rw [pc]; rfl)
          rw [pc] at whole
          have member : record ∈ log := handed.subset (by simp [← whole, ConsumePc.rest])
          have decodes := Record.decodes_of_wellFormed (values record member)
          refine ⟨.next, { s with consume := s.consume.turn record rest },
            by simp only [step, pc], unhanded, ?_, ?_⟩
          · unfold effort Consume.effort Consume.turn
            rcases s.consume.afterDecode_cases record rest with ⟨-, -, next⟩ | ⟨buf, -, -, next⟩ |
              ⟨bad, -, -⟩
            · simp only [pc, next, ConsumePc.effort, List.length_cons]
              omega
            · simp only [pc, next, ConsumePc.effort, List.length_cons]
              omega
            · rw [decodes] at bad
              cases bad
          · intro gaveUp
            unfold Consume.turn at gaveUp
            rcases s.consume.afterDecode_cases record rest with ⟨-, -, next⟩ | ⟨buf, -, -, next⟩ |
              ⟨bad, -, -⟩
            · rw [next] at gaveUp
              cases gaveUp
            · rw [next] at gaveUp
              cases gaveUp
            · rw [decodes] at bad
              cases bad
  | sending item rest =>
      have waits := inv.not_done (by rw [pc]; rfl)
      refine ⟨.send, s.enqueue item rest, ?_, unhanded, ?_, fun h => by cases h⟩
      · simp only [step, pc, waits, if_pos room]
        rfl
      · unfold effort Consume.effort enqueue goto
        simp only [pc, ConsumePc.effort, List.length_append, List.length_singleton]
        omega
  | left exit =>
      refine ⟨.dropTx, s.goto (.joining exit), by simp only [step, pc], unhanded, ?_, fun h => ?_⟩
      · unfold effort Consume.effort goto
        simp only [pc, ConsumePc.effort]
        omega
      · cases exit <;> first | exact .inl rfl | cases h
  | joining exit =>
      refine ⟨.join, s.goto (.ended (some exit)), ?_, unhanded, ?_, fun h => ?_⟩
      · simp only [step, pc, if_pos (joins exit pc)]
      · unfold effort Consume.effort goto
        simp only [pc, ConsumePc.effort]
        omega
      · cases exit <;> first | exact .inl rfl | cases h
  | unwinding =>
      refine ⟨.shutdown, { s.goto (.ended none) with produce := s.produce.shutdown },
        if_pos ⟨pc, awaiting pc⟩, unhanded, ?_, fun _ => .inl rfl⟩
      unfold effort Consume.effort goto Produce.effort Produce.shutdown
      simp only [pc, ConsumePc.effort]
      split
      · simp only [ProducePc.effort]
        omega
      · omega
  | ended exit =>
      rw [pc] at alive
      exact (alive rfl).elim

/-- A channel that holds results is being read. -/
theorem Inv.queue_nil {s : Worker} (inv : s.Inv) (bounded : s.Bounded)
    (alive : ¬ s.consume.pc.isEnded)
    (still : s.produce.pc ≠ .selecting ∧ s.produce.pc ≠ .publishing) : s.queue = [] := by
  by_contra queued
  have crashed : s.consume.pc ≠ .ended none := fun ended => alive (by rw [ended]; rfl)
  by_cases starting : s.consume.pc = .starting
  · have none := inv.consume.consumed_of_polled_nil (inv.consume.starting starting)
    have split := inv.split
    rw [inv.consume.computed, none, List.append_assoc] at split
    have empty := (List.append_eq_nil_iff.mp split.symm).2
    exact queued (List.append_eq_nil_iff.mp empty).1
  · rcases (inv.running_of_queued bounded queued starting crashed).2 with pc | pc
    · exact still.1 pc
    · exact still.2 pc

/-- **A worker that has not ended has a step towards its end.**  It gives up, if at all, with
nothing left in its partition. -/
theorem exists_step (inv : s.Inv) (bounded : s.Bounded) (handed : s.consume.polled <+: log)
    (values : ∀ r ∈ log, r.wellFormed) (alive : ¬ s.consume.pc.isEnded) :
    ∃ l counter' s', onPartition log total counter s l = some (counter', s') ∧
      s'.effort log < s.effort log ∧
      (s'.consume.pc.gaveUp → s.consume.pc.gaveUp ∨ s'.consume.polled = log) := by
  by_cases busy : (s.produce.pc = .selecting ∨ s.produce.pc = .publishing) ∧
      (s.produce.pc = .publishing ∨ s.produce.inFlight.len ≠ 0 ∨ s.queue ≠ [] ∨
        s.produce.channelOpen = false ∨ s.consume.pc.txDropped)
  · obtain ⟨running, work⟩ := busy
    have isOpen : s.queue ≠ [] → s.produce.channelOpen = true := by
      intro queued
      rw [← Bool.not_eq_false]
      exact fun isClosed => queued (inv.handshake.closed isClosed).2
    obtain ⟨l, counter', s', steps, unhanded, consume, less⟩ :=
      exists_produce total counter running isOpen work
    refine ⟨l, counter', s', onPartition_eq_some.mpr ⟨?_, steps⟩, ?_, fun gaveUp => .inl ?_⟩
    · rwa [unhanded, List.append_nil]
    · unfold effort
      rw [consume]
      omega
    · rwa [consume] at gaveUp
  · have spawned : s.produce.pc = .unspawned → s.consume.pc = .starting := fun unspawned =>
      (bounded.spawned unspawned).resolve_right fun ended => alive (by rw [ended]; rfl)
    have empty : s.queue = [] := by
      by_contra queued
      exact queued (inv.queue_nil bounded alive
        ⟨fun pc => busy ⟨.inl pc, .inr (.inr (.inl queued))⟩, fun pc => busy ⟨.inr pc, .inl pc⟩⟩)
    have joins : ∀ exit, s.consume.pc = .joining exit → s.produce.pc.done := by
      intro exit joining
      have dropped : s.consume.pc.txDropped := by rw [joining]; rfl
      cases pc : s.produce.pc with
      | unspawned =>
          rw [spawned pc] at joining
          cases joining
      | selecting => exact (busy ⟨.inl pc, .inr (.inr (.inr (.inr dropped)))⟩).elim
      | publishing => exact (busy ⟨.inr pc, .inl pc⟩).elim
      | finished => rfl
      | panicked => rfl
      | cancelled => rfl
    obtain ⟨l, s', steps, fits, less, gaveUp⟩ :=
      exists_consume total counter inv handed values alive
        (by simp [empty, window]) joins fun _ publishing =>
          busy ⟨.inr publishing, .inl publishing⟩
    exact ⟨l, counter, s', onPartition_eq_some.mpr ⟨fits, steps⟩, less, gaveUp⟩

/-- Who has given up takes up no further record. -/
theorem Move.gaveUp {total counter counter' : Nat} {s s' : Worker} {l : Label}
    (move : Move total counter s l counter' s') (gaveUp : s.consume.pc.gaveUp) :
    s'.consume.pc.gaveUp ∧ s'.consume.polled = s.consume.polled := by
  cases move with
  | enter pc | startFails pc | check pc | poll _ pc | batchEnd pc | turn _ _ pc
  | sendFails _ _ pc | send _ _ pc =>
      rw [pc] at gaveUp
      cases gaveUp
  | dropTx exit pc | join exit pc =>
      rw [pc] at gaveUp
      cases exit <;> first | exact ⟨rfl, rfl⟩ | cases gaveUp
  | shutdown unwinding awaiting => exact ⟨rfl, rfl⟩
  | recv | recvNone | complete | wake | publish | finish => exact ⟨gaveUp, rfl⟩

end Worker

/-! ## All workers -/

namespace Workers

variable {n total : Nat} {topic : List (List Record)} {g : Workers n}

/-- From every state there is a run to the end, in which nobody gives up who has not done so yet
unless its partition is drained. -/
theorem exists_ended (values : ∀ log ∈ topic, ∀ r ∈ log, r.wellFormed)
    (reached : (step topic total n).Reachable (start n) g) :
    ∃ g', (step topic total n).Reachable g g' ∧
      (∀ i, (g'.proc i).consume.pc.gaveUp →
        (g.proc i).consume.pc.gaveUp ∨ (g'.proc i).consume.polled = partitionOf topic i) ∧
      ∀ i, (g'.proc i).consume.pc.isEnded := by
  let Given : Workers n → Prop := fun h => ∀ i, (h.proc i).consume.pc.gaveUp →
    (g.proc i).consume.pc.gaveUp ∨ (h.proc i).consume.polled = partitionOf topic i
  have progress : ∀ h i, ((step topic total n).Reachable (start n) h ∧ Given h) →
      ¬ (h.proc i).consume.pc.isEnded → ∃ l h', step topic total n h (i, l) = some h' ∧
        ((step topic total n).Reachable (start n) h' ∧ Given h') ∧
        (h'.proc i).effort (partitionOf topic i) < (h.proc i).effort (partitionOf topic i) := by
    intro h i inv alive
    obtain ⟨before, given⟩ := inv
    obtain ⟨worker, handed⟩ := Workers.inv before i
    obtain ⟨alone, -⟩ := Worker.onPartition_reachable (interleave_run_alone before i)
    obtain ⟨l, counter', s', steps, less, gaveUp⟩ :=
      Worker.exists_step total h.mem worker
        (Worker.Bounded.of_reachable alone) handed (wellFormed_partitionOf values i) alive
    have hstep : step topic total n h (i, l) = some ⟨counter', Function.update h.proc i s'⟩ :=
      interleave_eq_some.mpr ⟨s', steps, rfl⟩
    refine ⟨l, _, hstep, ⟨before.trans (.single (i, l) hstep), fun k up => ?_⟩, ?_⟩
    · by_cases same : k = i
      · subst same
        simp only [Function.update_self] at up ⊢
        rcases gaveUp up with earlier | drained
        · -- what was drained stays so
          rcases given k earlier with already | drained
          · exact .inl already
          · obtain ⟨-, stepped⟩ := Worker.onPartition_eq_some.mp steps
            exact .inr (((Worker.step_move stepped).gaveUp earlier).2.trans drained)
        · exact .inr drained
      · simp only [Function.update_of_ne same] at up ⊢
        exact given k up
    · simpa using less
  have unchanged : Given g := fun i gaveUp => .inl gaveUp
  obtain ⟨g', goes, ⟨-, gaveUp⟩, ended⟩ := interleave_exists_over
    (I := fun h => (step topic total n).Reachable (start n) h ∧ Given h)
    (fun s => s.consume.pc.isEnded) (fun i s => s.effort (partitionOf topic i)) progress
    ⟨reached, unchanged⟩
  exact ⟨g', goes, gaveUp, ended⟩

/-- Who has given up has got all of its partition that it will ever get. -/
theorem polled_of_gaveUp {g' : Workers n} (goes : (step topic total n).Reachable g g') {i : Fin n}
    (gaveUp : (g.proc i).consume.pc.gaveUp) :
    (g'.proc i).consume.polled = (g.proc i).consume.polled := by
  have alone := interleave_run_alone goes i
  refine (alone.invariant (I := fun s => s.consume.pc.gaveUp ∧
    s.consume.polled = (g.proc i).consume.polled) ⟨gaveUp, rfl⟩ fun l s s' ih hstep => ?_).2
  obtain ⟨counter', hstep⟩ := Proc.alone_eq_some.mp hstep
  obtain ⟨-, hstep⟩ := Worker.onPartition_eq_some.mp hstep
  obtain ⟨still, same⟩ := (Worker.step_move hstep).gaveUp ih.1
  exact ⟨still, same.trans ih.2⟩

/-- With one partition for each worker, the workers find the whole topic. -/
theorem sum_length_partitionOf (partitions : topic.length = n) :
    ∑ i : Fin n, (partitionOf topic i).length = topic.flatten.length := by
  have sum := sum_partitionOf topic n
  rw [List.drop_of_length_le (by omega)] at sum
  rw [List.length_flatten]
  simpa using sum

/-- When all threads have ended, each over the counter or with its partition drained, they have
completed their partitions and counted what the topic holds. -/
theorem completed_of_ended (partitions : topic.length = n) (small : total < 2 ^ 64)
    (size : topic.flatten.length ≤ total) (values : ∀ log ∈ topic, ∀ r ∈ log, r.wellFormed)
    (reached : (step topic total n).Reachable (start n) g)
    (ended : ∀ i, (g.proc i).consume.pc.isEnded)
    (final : ∀ i, (g.proc i).consume.pc.exit = some .counterReached ∨
      (g.proc i).consume.polled = partitionOf topic i) :
    (∀ i, (g.proc i).Completed (partitionOf topic i)) ∧ g.mem = topic.flatten.length := by
  have sum := sum_length_partitionOf partitions
  have drained : ∀ i, (g.proc i).consume.polled = partitionOf topic i := by
    intro i
    rcases final i with exit | drained
    · have enough := le_finished_of_counterReached reached exit
      have completed := completed_of_le_finished reached (by omega) i
      obtain ⟨inv, handed⟩ := Workers.inv reached i
      have inside := inv.consumed_prefix
      rw [completed.1] at inside
      exact handed.eq_of_length (Nat.le_antisymm handed.length_le inside.length_le)
    · exact drained
  have counter := counter_of_ended reached values (by omega) ended
  simp only [drained] at counter
  have enough := counter_le reached
  exact ⟨completed_of_le_finished reached (by omega), counter.trans sum⟩

/-- A worker that has ended without having given up has left over the counter. -/
theorem counterReached_of_ended (reached : (step topic total n).Reachable (start n) g) {i : Fin n}
    (ended : (g.proc i).consume.pc.isEnded) (kept : ¬ (g.proc i).consume.pc.gaveUp) :
    (g.proc i).consume.pc.exit = some .counterReached := by
  have closed := (Workers.inv reached i).1.handshake.exit
  cases pc : (g.proc i).consume.pc with
  | ended exit =>
      rw [pc] at kept closed
      cases exit with
      | none => exact (kept rfl).elim
      | some exit =>
          cases exit with
          | counterReached => rfl
          | emptyPolls => exact (kept rfl).elim
          | channelClosed => exact (closed rfl).elim
  | starting | top | polling | batch | sending | left | joining | unwinding =>
      rw [pc] at ended
      cases ended

end Workers

/-- **Which runs can still end with a full report.**  On a topic of one partition for each worker
that holds exactly `total` records, each with a payload that decodes, no state is a dead end:
from each there is a run in which all threads come to their end.  There is one that reports
`total` exactly if no worker has given up, over empty polls or in a panic, on records of its
partition. -/
theorem full_report_iff {n total : Nat} {topic : List (List Record)} (small : total < 2 ^ 64)
    (partitions : topic.length = n) (size : topic.flatten.length = total)
    (values : ∀ log ∈ topic, ∀ r ∈ log, r.wellFormed) {g : Workers n}
    (reached : (Workers.step topic total n).Reachable (Workers.start n) g) :
    (∃ g', (Workers.step topic total n).Reachable g g' ∧
        ∀ i, (g'.proc i).consume.pc.isEnded) ∧
      ((∃ g', (Workers.step topic total n).Reachable g g' ∧
          Workers.report true g' = some total) ↔
        ∀ i, (g.proc i).consume.pc.gaveUp →
          (g.proc i).consume.polled = partitionOf topic i) := by
  obtain ⟨g', goes, gaveUp, ended⟩ := Workers.exists_ended values reached
  refine ⟨⟨g', goes, ended⟩, fun reports i given => ?_, fun kept => ⟨g', goes, ?_⟩⟩
  · obtain ⟨g'', goes, reports⟩ := reports
    rw [Workers.report, Option.ite_none_right_eq_some, Option.some.injEq] at reports
    obtain ⟨⟨-, ended⟩, full⟩ := reports
    have later := reached.trans goes
    have sum := Workers.sum_length_partitionOf partitions
    have bound : ∀ i ∈ Finset.univ, (g''.proc i).consume.polled.length ≤
        (partitionOf topic i).length := fun i _ => (Workers.inv later i).2.length_le
    have counter := Workers.counter_of_ended later values (by omega) ended
    have lengths := (Finset.sum_eq_sum_iff_of_le bound).mp (by omega) i (Finset.mem_univ i)
    rw [← Workers.polled_of_gaveUp goes given]
    exact (Workers.inv later i).2.eq_of_length lengths
  · have later := reached.trans goes
    have final : ∀ i, (g'.proc i).consume.pc.exit = some .counterReached ∨
        (g'.proc i).consume.polled = partitionOf topic i := by
      intro i
      by_cases given : (g'.proc i).consume.pc.gaveUp
      · rcases gaveUp i given with earlier | drained
        · exact .inr ((Workers.polled_of_gaveUp goes earlier).trans (kept i earlier))
        · exact .inr drained
      · exact .inl (Workers.counterReached_of_ended later (ended i) given)
    obtain ⟨-, counter⟩ :=
      Workers.completed_of_ended partitions small size.le values later ended final
    rw [Workers.report, if_pos ⟨rfl, ended⟩, counter, size]

/-- A worker that gives up on an empty partition stands in nobody's way. -/
theorem full_report_iff_empty : ∃ g : Workers 2,
    (Workers.step [[three], []] 1 2).run (Workers.start 2)
      ([.start true, .check, .poll (.ok []), .check, .poll (.ok []), .check,
        .poll (.ok [])].map fun l => (1, l)) = some g ∧
      (g.proc 1).consume.pc = .left .emptyPolls ∧
      ∃ g', (Workers.step [[three], []] 1 2).Reachable g g' ∧
        Workers.report true g' = some 1 := by
  have leaves : ((Workers.step [[three], []] 1 2).run (Workers.start 2)
      ([.start true, .check, .poll (.ok []), .check, .poll (.ok []), .check,
        .poll (.ok [])].map fun l => (1, l))).map (fun g => ((g.proc 0).consume.pc,
          (g.proc 1).consume.pc, (g.proc 1).consume.polled)) =
            some (.starting, .left .emptyPolls, []) := by
    decide +kernel
  obtain ⟨g, hrun, hg⟩ := Option.map_eq_some_iff.mp leaves
  simp only [Prod.mk.injEq] at hg
  obtain ⟨starting, left, polled⟩ := hg
  refine ⟨g, hrun, left, ?_⟩
  apply (full_report_iff (n := 2) (by decide) rfl rfl (by decide +kernel) ⟨_, hrun⟩).2.mpr
  refine Fin.forall_fin_two.mpr ⟨fun gaveUp => ?_, fun _ => polled⟩
  rw [starting] at gaveUp
  cases gaveUp

end KafkaTest
