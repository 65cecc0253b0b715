import KafkaTest.Pipeline

/-!
# Phase 2 of the krafka processor: all workers

`Workers n` is a run of `n` worker threads over one `PROCESSED_COUNTER`; worker `i`
reads partition `i` of the input topic, and finds nothing if the topic has no such
partition.  `Workers.report` is what `main` does after the joins.

The counter only ever lags: it is the sum of what the workers added, each of them
added at most its completed sends, and it completed at most what its partition holds
(`counter_eq`, `counter_le`, `finished_le`).  So the counter reaches the number of
records of the topic only after the last send.  The other way round, a thread that
ended has added all it was handed, which is what the report turns on.
-/

namespace KafkaTest

/-- The log of the partition that worker `i` is assigned to. -/
def partitionOf (topic : List (List Record)) (i : Nat) : List Record := topic.getD i []

/-- The worker threads and their shared counter. -/
abbrev Workers (n : Nat) := Global Nat Worker (Fin n)

/-- A thread is over. -/
def ConsumePc.isEnded : ConsumePc → Bool
  | ended _ => true
  | _ => false

/-- All records of the log were summed, and the send of each result resolved once. -/
def Worker.Completed (log : List Record) (s : Worker) : Prop :=
  s.consume.consumed = log ∧ s.consume.computed = resultsOf log ∧
    (s.produce.inFlight.finished.map Prod.fst).Perm (resultsOf log).zipIdx

namespace Worker

/-! ## One worker among others -/

section Moves

variable {total counter counter' : Nat} {s s' : Worker} {l : Label}

theorem Move.length_finished_le (move : Move total counter s l counter' s') :
    s.produce.inFlight.finished.length ≤ s'.produce.inFlight.finished.length := by
  cases move with
  | complete answer inFlight selecting polled =>
      cases answer with
      | pending =>
          obtain ⟨-, finished, -⟩ := FuturePool.poll_pending_spec polled
          exact (congrArg List.length finished).ge
      | ready value =>
          obtain ⟨-, ⟨a, finished⟩, -⟩ := FuturePool.poll_ready_spec polled
          have length := congrArg List.length finished
          rw [List.length_append] at length
          exact Nat.le_of_add_right_le length.ge
  | wake i inFlight running woken =>
      obtain ⟨-, finished, -⟩ := FuturePool.wake_spec woken
      exact (congrArg List.length finished).ge
  | _ => exact le_rfl

/-- The loop is left over the counter only at a test that finds it full. -/
theorem Move.counterReached (move : Move total counter s l counter' s')
    (exit : s'.consume.pc.exit = some .counterReached) :
    s.consume.pc.exit = some .counterReached ∨ total ≤ counter := by
  cases move with
  | check top =>
      by_cases full : total ≤ counter
      · exact .inr full
      · simp only [Consume.check, if_neg full] at exit
        cases exit
  | poll answer polling =>
      cases answer with
      | err => cases exit
      | ok records =>
        cases records with
        | nil =>
            simp only [Consume.poll] at exit
            split at exit <;> cases exit
        | cons record records => cases exit
  | turn record rest batch =>
      simp only [Consume.turn] at exit
      rcases s.consume.afterDecode_cases record rest with ⟨-, -, hpc⟩ | ⟨buf, -, -, hpc⟩ |
        ⟨-, -, hpc⟩ <;>
      · rw [hpc] at exit
        cases exit
  | dropTx e left =>
      rw [left]
      exact .inl exit
  | join e joining done =>
      rw [joining]
      exact .inl exit
  | enter | startFails | batchEnd | sendFails | send | shutdown => cases exit
  | recv | recvNone | complete | wake | publish | finish => exact .inl exit

end Moves

section Bounds

variable {s : Worker} {log : List Record}

theorem Inv.added_le (inv : s.Inv) : s.produce.added ≤ s.produce.inFlight.finished.length := by
  by_cases pc : s.produce.pc = .finished
  · exact (inv.produce.all pc).le
  · exact Nat.le_of_add_right_le (inv.produce.counted pc).le

theorem Inv.finished_le_computed (inv : s.Inv) :
    s.produce.inFlight.finished.length ≤ s.consume.computed.length := by
  have split := congrArg List.length inv.split
  have pushed := s.produce.inFlight.length_pushed
  simp only [List.length_append, List.length_zipIdx] at split
  omega

theorem Inv.consumed_prefix (inv : s.Inv) : s.consume.consumed <+: s.consume.polled :=
  (List.prefix_append _ _).trans inv.consume.handed

theorem Inv.computed_le_consumed (inv : s.Inv) :
    s.consume.computed.length ≤ s.consume.consumed.length := by
  rw [inv.consume.computed]
  exact List.length_filterMap_le _ _

/-- A worker completes at most what its partition holds, and if it gets that far it
has done all of it. -/
theorem Inv.finished_le (inv : s.Inv) (handed : s.consume.polled <+: log) :
    s.produce.inFlight.finished.length ≤ log.length :=
  (inv.finished_le_computed.trans inv.computed_le_consumed).trans
    (inv.consumed_prefix.trans handed).length_le

theorem Inv.completed (inv : s.Inv) (handed : s.consume.polled <+: log)
    (all : s.produce.inFlight.finished.length = log.length) : s.Completed log := by
  have computed := inv.finished_le_computed
  have consumed := inv.computed_le_consumed
  have inLog := inv.consumed_prefix.trans handed
  have fits := inLog.length_le
  have whole : s.consume.consumed = log := inLog.eq_of_length (by omega)
  have results : s.consume.computed = resultsOf log := by rw [inv.consume.computed, whole]
  refine ⟨whole, results, ?_⟩
  -- nothing is left in the pool, the channel or a blocked send
  have split := inv.split
  have lengths := congrArg List.length split
  have pushed := s.produce.inFlight.length_pushed
  simp only [List.length_append, List.length_zipIdx] at lengths
  have queue : s.queue = [] := List.eq_nil_of_length_eq_zero (by omega)
  have blocked : s.consume.pc.blocked = [] := List.eq_nil_of_length_eq_zero (by omega)
  rw [queue, blocked, List.append_nil, List.append_nil, results] at split
  rw [split]
  exact (FuturePool.of_len_eq_zero (by omega)).2

/-- A thread over well-formed records that has ended has added all it was handed. -/
theorem Inv.added_of_ended (inv : s.Inv) (handed : s.consume.polled <+: log)
    (values : ∀ r ∈ log, r.wellFormed) (ended : s.consume.pc.isEnded) :
    s.produce.added = s.consume.polled.length := by
  have valuesOf : ∀ r ∈ s.consume.consumed, r.wellFormed := fun r hr =>
    values r ((inv.consumed_prefix.trans handed).subset hr)
  have length : s.consume.computed.length = s.consume.consumed.length := by
    rw [inv.consume.computed, length_resultsOf fun r hr =>
      Record.decodes_of_wellFormed (valuesOf r hr), valueCount_eq_length valuesOf]
  have ended : ∃ exit, s.consume.pc = .ended exit := by
    cases pc : s.consume.pc <;> rw [pc] at ended <;> first | exact ⟨_, rfl⟩ | cases ended
  obtain ⟨exit, ended⟩ := ended
  cases exit with
  | some exit =>
      have whole := inv.consume.whole (by rw [ended]; rfl)
      rw [ended] at whole
      rw [(inv.accounted ended).2, length, ← (List.append_nil _).symm.trans whole]
  | none =>
      rcases inv.consume.malformed (by rw [ended]; rfl) with none | ⟨_, bad, consumed, -, malformed⟩
      · have nothing := inv.consume.consumed_of_polled_nil none
        have bound := inv.added_le.trans inv.finished_le_computed
        rw [length, nothing, List.length_nil] at bound
        rw [none, List.length_nil]
        omega
      · rw [Record.decodes_of_wellFormed (valuesOf bad (by simp [consumed]))] at malformed
        cases malformed

end Bounds

end Worker

namespace Workers

variable {n total : Nat} {topic : List (List Record)} {g : Workers n}

def start (n : Nat) : Workers n := ⟨0, fun _ => Worker.start⟩

/-- One step of one worker. -/
def step (topic : List (List Record)) (total n : Nat) :
    Machine (Workers n) (Fin n × Worker.Label) :=
  interleave fun i => Worker.onPartition (partitionOf topic i) total

/-- What `PROCESSED_COUNTER` holds when `main` prints the result block: after all
threads are joined, in benchmark mode. -/
def report (isBenchmark : Bool) (g : Workers n) : Option Nat :=
  if isBenchmark ∧ ∀ i, (g.proc i).consume.pc.isEnded then some g.mem else none

/-- The number of sends completed by all workers. -/
def finished (g : Workers n) : Nat := ∑ i, (g.proc i).produce.inFlight.finished.length

section Reached

variable (reached : (step topic total n).Reachable (start n) g)

include reached

/-- Each worker of the run is a worker on its partition. -/
theorem inv (i : Fin n) :
    (g.proc i).Inv ∧ (g.proc i).consume.polled <+: partitionOf topic i := by
  obtain ⟨alone, handed⟩ := Worker.onPartition_reachable (interleave_run_alone reached i)
  exact ⟨Worker.Inv.of_reachable alone, handed⟩

/-- The counter is the sum of what the workers added. -/
theorem counter_eq : g.mem = (∑ i, (g.proc i).produce.added) % 2 ^ 64 := by
  refine interleave_counter (fun t : Worker => t.produce.added) reached
    (by simp [start, Worker.start]) fun i c s l c' s' _ hstep => ?_
  obtain ⟨-, hstep⟩ := Worker.onPartition_eq_some.mp hstep
  exact (Worker.step_move hstep).fetchAdd

theorem counter_le : g.mem ≤ g.finished := by
  rw [counter_eq reached]
  refine (Nat.mod_le _ _).trans (Finset.sum_le_sum fun i _ => ?_)
  exact (inv reached i).1.added_le

/-- Whoever left over the counter, left after that many sends. -/
theorem le_finished_of_counterReached {i : Fin n}
    (exit : (g.proc i).consume.pc.exit = some .counterReached) : total ≤ g.finished := by
  refine reached.induction
    (I := fun g => ∀ i, (g.proc i).consume.pc.exit = some .counterReached → total ≤ g.finished)
    (by simp [start, Worker.start, ConsumePc.exit]) ?_ i exit
  intro label s s' reached ih hstep k exit
  rcases label with ⟨j, l⟩
  obtain ⟨w, hw, hproc⟩ := interleave_eq_some.mp hstep
  obtain ⟨-, hw⟩ := Worker.onPartition_eq_some.mp hw
  have move := Worker.step_move hw
  have grows : s.finished ≤ s'.finished := by
    have sums := sum_update (fun t : Worker => t.produce.inFlight.finished.length) s.proc j w
    have more := move.length_finished_le
    rw [← hproc] at sums
    rw [finished, finished]
    omega
  by_cases hjk : k = j
  · subst hjk
    rw [hproc, Function.update_self] at exit
    rcases move.counterReached exit with before | full
    · exact (ih k before).trans grows
    · exact (full.trans (counter_le reached)).trans grows
  · rw [hproc, Function.update_of_ne hjk] at exit
    exact (ih k exit).trans grows

end Reached

/-- The partitions of the workers, as far as the topic has them. -/
theorem sum_partitionOf (topic : List (List Record)) (n : Nat) :
    ∑ i : Fin n, (partitionOf topic i).length + ((topic.drop n).map List.length).sum =
      (topic.map List.length).sum := by
  induction n with
  | zero => simp
  | succ n ih =>
      rw [Fin.sum_univ_castSucc]
      simp only [Fin.val_castSucc, Fin.val_last]
      by_cases h : n < topic.length
      · rw [List.drop_eq_getElem_cons h, List.map_cons, List.sum_cons] at ih
        have last : (partitionOf topic n).length = topic[n].length := by
          rw [partitionOf, List.getD_eq_getElem _ _ h]
        omega
      · rw [List.drop_of_length_le (by omega)] at ih ⊢
        have last : (partitionOf topic n).length = 0 := by
          rw [partitionOf, List.getD_eq_default _ _ (by omega), List.length_nil]
        omega

/-- What a worker finds is as well-formed as the topic. -/
theorem wellFormed_partitionOf (values : ∀ log ∈ topic, ∀ r ∈ log, r.wellFormed) (i : Nat) :
    ∀ r ∈ partitionOf topic i, r.wellFormed := by
  rw [partitionOf]
  by_cases inside : i < topic.length
  · rw [List.getD_eq_getElem _ _ inside]
    exact values _ (List.getElem_mem inside)
  · rw [List.getD_eq_default _ _ (by omega)]
    simp

/-- If the sends completed are as many as the records of the workers' partitions, each
worker has completed its own. -/
theorem completed_of_le_finished (reached : (step topic total n).Reachable (start n) g)
    (enough : ∑ i : Fin n, (partitionOf topic i).length ≤ g.finished) (i : Fin n) :
    (g.proc i).Completed (partitionOf topic i) := by
  have bound : ∀ i ∈ Finset.univ, (g.proc i).produce.inFlight.finished.length ≤
      (partitionOf topic i).length := fun i _ =>
    (inv reached i).1.finished_le (inv reached i).2
  have same : g.finished = ∑ i : Fin n, (partitionOf topic i).length :=
    le_antisymm (Finset.sum_le_sum bound) enough
  have all := (Finset.sum_eq_sum_iff_of_le bound).mp same
  exact (inv reached i).1.completed (inv reached i).2 (all i (Finset.mem_univ i))

/-- When all threads have ended, the counter is the number of records they were handed. -/
theorem counter_of_ended (reached : (step topic total n).Reachable (start n) g)
    (values : ∀ log ∈ topic, ∀ r ∈ log, r.wellFormed)
    (small : ∑ i : Fin n, (partitionOf topic i).length < 2 ^ 64)
    (ended : ∀ i, (g.proc i).consume.pc.isEnded) :
    g.mem = ∑ i, (g.proc i).consume.polled.length := by
  have added : ∀ i ∈ Finset.univ,
      (g.proc i).produce.added = (g.proc i).consume.polled.length := fun i _ =>
    (inv reached i).1.added_of_ended (inv reached i).2 (wellFormed_partitionOf values i) (ended i)
  have few : ∑ i, (g.proc i).consume.polled.length ≤ ∑ i : Fin n, (partitionOf topic i).length :=
    Finset.sum_le_sum fun i _ => (inv reached i).2.length_le
  rw [counter_eq reached, Finset.sum_congr rfl added, Nat.mod_eq_of_lt (few.trans_lt small)]

end Workers

/-- **No worker stops early over the counter, and a complete run counts everything.**
On a topic of one partition for each worker that holds exactly `total` records, the
counter never exceeds the number of completed sends; once it has reached `total`, or
some worker has left over it, every record was summed and its result sent; and when
each worker has left over it or after draining its partition, moreover the counter is
`total`. -/
theorem workers_complete {n total : Nat} {topic : List (List Record)} (small : total < 2 ^ 64)
    (partitions : topic.length = n) (size : (topic.map List.length).sum = total)
    (values : ∀ log ∈ topic, ∀ r ∈ log, r.wellFormed) {g : Workers n}
    (reached : (Workers.step topic total n).Reachable (Workers.start n) g) :
    g.mem ≤ g.finished ∧
      ((total ≤ g.mem ∨ ∃ i, (g.proc i).consume.pc.exit = some .counterReached) →
        ∀ i, (g.proc i).Completed (partitionOf topic i)) ∧
      ((∀ i, (g.proc i).consume.pc = .ended (some .counterReached) ∨
          ((g.proc i).consume.pc = .ended (some .emptyPolls) ∧
            (g.proc i).consume.polled = partitionOf topic i)) →
        (∀ i, (g.proc i).Completed (partitionOf topic i)) ∧ g.mem = total) := by
  have sum : ∑ i : Fin n, (partitionOf topic i).length = total := by
    have sum := Workers.sum_partitionOf topic n
    rw [List.drop_of_length_le (by omega)] at sum
    simpa [size] using sum
  have stops : (total ≤ g.mem ∨ ∃ i, (g.proc i).consume.pc.exit = some .counterReached) →
      ∀ i, (g.proc i).Completed (partitionOf topic i) := by
    intro full
    have enough : total ≤ g.finished := by
      rcases full with full | ⟨i, exit⟩
      · exact full.trans (Workers.counter_le reached)
      · exact Workers.le_finished_of_counterReached reached exit
    exact Workers.completed_of_le_finished reached (sum.trans_le enough)
  refine ⟨Workers.counter_le reached, stops, fun final => ?_⟩
  have drained : ∀ i, (g.proc i).consume.polled = partitionOf topic i := by
    intro i
    rcases final i with left | ⟨-, drained⟩
    · have completed := stops (.inr ⟨i, by rw [left]; rfl⟩) i
      have whole := (Workers.inv reached i).1.consume.whole (by rw [left]; rfl)
      rw [left] at whole
      exact ((List.append_nil _).symm.trans whole).symm.trans completed.1
    · exact drained
  have ended : ∀ i, (g.proc i).consume.pc.isEnded := by
    intro i
    rcases final i with left | ⟨left, -⟩ <;> rw [left] <;> rfl
  have counter : g.mem = total := by
    rw [Workers.counter_of_ended reached values (sum.trans_lt small) ended, ← sum]
    exact Finset.sum_congr rfl fun i _ => congrArg List.length (drained i)
  exact ⟨stops (.inl counter.ge), counter⟩

/-- The list `[3]`, as a record. -/
def three : Record := ⟨some [0x02#8, 0x06#8, 0x00#8]⟩

/-- A record in the first of two partitions: its worker sends it and leaves after three
empty polls, the other worker then leaves over the counter. -/
def twoWorkers : List (Fin 2 × Worker.Label) :=
  ([.start true, .check, .poll (.ok [three]), .next, .send, .next, .recv,
    .complete (.ready .ok), .check, .poll (.ok []), .check, .poll (.ok []), .check,
    .poll (.ok []), .dropTx, .recv, .finish, .join].map fun l => (0, l)) ++
  ([.start true, .check, .dropTx, .recv, .finish, .join].map fun l => (1, l))

theorem workers_complete_twoWorkers : ∃ g : Workers 2,
    (Workers.step [[three], []] 1 2).run (Workers.start 2) twoWorkers = some g ∧
      (g.proc 0).Completed [three] ∧ g.mem = 1 := by
  have ends : ((Workers.step [[three], []] 1 2).run (Workers.start 2) twoWorkers).map
      (fun g => ((g.proc 0).consume.pc, (g.proc 0).consume.polled, (g.proc 1).consume.pc)) =
        some (.ended (some .emptyPolls), [three], .ended (some .counterReached)) := by
    decide +kernel
  obtain ⟨g, hrun, hg⟩ := Option.map_eq_some_iff.mp ends
  simp only [Prod.mk.injEq] at hg
  obtain ⟨left, drained, full⟩ := hg
  obtain ⟨-, -, final⟩ := workers_complete (n := 2) (by decide) rfl rfl (by decide +kernel)
    ⟨_, hrun⟩
  obtain ⟨completed, counter⟩ :=
    final (Fin.forall_fin_two.mpr ⟨.inr ⟨left, drained⟩, .inl full⟩)
  exact ⟨g, hrun, completed 0, counter⟩

/-- **What the report tells.**  Whenever the result block is printed the counter is
`total` exactly if every worker was handed its whole partition and no partition
without a worker holds a record. -/
theorem report_eq_total_iff {n total : Nat} {topic : List (List Record)} (small : total < 2 ^ 64)
    (size : (topic.map List.length).sum = total)
    (values : ∀ log ∈ topic, ∀ r ∈ log, r.wellFormed) {g : Workers n}
    (reached : (Workers.step topic total n).Reachable (Workers.start n) g) {counter : Nat}
    (reported : g.report true = some counter) :
    counter = total ↔ (∀ i, (g.proc i).consume.polled = partitionOf topic i) ∧
      ∀ log ∈ topic.drop n, log = [] := by
  rw [Workers.report, Option.ite_none_right_eq_some, Option.some.injEq] at reported
  obtain ⟨⟨-, ended⟩, rfl⟩ := reported
  have sum := Workers.sum_partitionOf topic n
  rw [size] at sum
  have bound : ∀ i ∈ Finset.univ, (g.proc i).consume.polled.length ≤
      (partitionOf topic i).length := fun i _ => (Workers.inv reached i).2.length_le
  have counter := Workers.counter_of_ended reached values (by omega) ended
  constructor
  · intro full
    have all := Finset.sum_le_sum bound
    have same : ∑ i, (g.proc i).consume.polled.length =
        ∑ i : Fin n, (partitionOf topic i).length := by omega
    refine ⟨fun i => (Workers.inv reached i).2.eq_of_length
      ((Finset.sum_eq_sum_iff_of_le bound).mp same i (Finset.mem_univ i)), ?_⟩
    have unassigned : ((topic.drop n).map List.length).sum = 0 := by omega
    intro log member
    have zero := List.sum_eq_zero_iff.mp unassigned _ (List.mem_map_of_mem member)
    exact List.eq_nil_of_length_eq_zero zero
  · intro complete
    rcases complete with ⟨drained, unassigned⟩
    have none : ((topic.drop n).map List.length).sum = 0 := by
      rw [List.sum_eq_zero_iff]
      intro k member
      obtain ⟨log, hlog, rfl⟩ := List.mem_map.mp member
      rw [unassigned log hlog, List.length_nil]
    rw [counter, Finset.sum_congr rfl fun i _ => by rw [drained i]]
    omega

theorem report_eq_total_iff_twoWorkers : ∃ g : Workers 2,
    (Workers.step [[three], []] 1 2).run (Workers.start 2) twoWorkers = some g ∧
      g.report true = some 1 ∧
      ((g.proc 0).consume.polled = [three] ∧ (g.proc 1).consume.polled = []) := by
  have ends : ((Workers.step [[three], []] 1 2).run (Workers.start 2) twoWorkers).map
      (fun g => g.report true) = some (some 1) := by
    decide +kernel
  obtain ⟨g, hrun, reported⟩ := Option.map_eq_some_iff.mp ends
  obtain ⟨drained, -⟩ := (report_eq_total_iff (by decide) rfl (by decide +kernel) ⟨_, hrun⟩
    reported).mp rfl
  exact ⟨g, hrun, reported, drained 0, drained 1⟩

/-- One worker on a partition with all the records, which the broker is three times too
slow to hand out. -/
def slowBroker : List (Fin 1 × Worker.Label) :=
  [.start true, .check, .poll (.ok []), .check, .poll (.ok []), .check, .poll (.ok []),
    .dropTx, .recv, .finish, .join].map fun l => (0, l)

theorem report_of_slowBroker : ∃ (topic : List (List Record)) (g : Workers 1),
    (topic.map List.length).sum = totalRecords ∧ (∀ log ∈ topic, ∀ r ∈ log, r.wellFormed) ∧
      (Workers.step topic totalRecords 1).run (Workers.start 1) slowBroker = some g ∧
      g.report true = some 0 ∧ 0 ≠ totalRecords := by
  refine ⟨[List.replicate totalRecords three], ?_⟩
  have ends : ((Workers.step [List.replicate totalRecords three] totalRecords 1).run
      (Workers.start 1) slowBroker).map (fun g => g.report true) = some (some 0) := by
    decide +kernel
  obtain ⟨g, hrun, reported⟩ := Option.map_eq_some_iff.mp ends
  refine ⟨g, by simp, ?_, hrun, reported, by decide⟩
  intro log hlog r hr
  obtain rfl := List.mem_singleton.mp hlog
  obtain rfl := List.eq_of_mem_replicate hr
  decide +kernel

end KafkaTest
