import KafkaTest.Pipeline

/-!
# A malformed record in a partition

Decoding a truncated payload panics.  The panic takes the runtime down with it, and
with the runtime the produce task and whatever it has not yet sent and counted: the
path skips the `drop(tx)` and the `produce_task.await` that every other way out of
the loop goes through.

`keepsResults_iff` says exactly which partitions this cannot hurt.  For one direction
`Inv.accounted_of_silent` shows that there was nothing to lose; for the other
`exists_lost` drives a worker over the records before the malformed one so that a
result is still in the channel when it panics.
-/

namespace KafkaTest

namespace Worker

/-- On this partition, whenever the thread has ended, every result it computed has
been sent and counted. -/
def KeepsResults (total : Nat) (log : List Record) : Prop :=
  ∀ s, (onPartition log total).alone.Reachable start s →
    (∃ exit, s.consume.pc = .ended exit) → s.Accounted

/-- Nothing is lost where nothing was computed. -/
theorem Inv.accounted_of_computed_nil {s : Worker} (inv : s.Inv) (none : s.consume.computed = []) :
    s.Accounted := by
  have split := inv.split
  rw [none] at split
  have pushed : s.produce.inFlight.pushed = [] := by
    rw [List.zipIdx_nil] at split
    exact (List.append_eq_nil_iff.mp (List.append_eq_nil_iff.mp split.symm).1).1
  have finished : s.produce.inFlight.finished = [] := by
    have length := s.produce.inFlight.length_pushed
    rw [pushed, List.length_nil] at length
    exact List.eq_nil_of_length_eq_zero (by omega)
  have added : s.produce.added = 0 := by
    by_cases pc : s.produce.pc = .finished
    · rw [inv.produce.all pc, finished, List.length_nil]
    · have counted := inv.produce.counted pc
      rw [finished, List.length_nil] at counted
      omega
  rw [Accounted, finished, none, added]
  exact ⟨.nil, rfl⟩

/-- A result left in the channel is lost. -/
theorem Inv.not_accounted_of_queue {s : Worker} (inv : s.Inv) (queued : s.queue ≠ []) :
    ¬ s.Accounted := by
  intro accounted
  rcases accounted with ⟨resolved, -⟩
  have length := congrArg List.length inv.split
  have pushed := s.produce.inFlight.length_pushed
  have queue := List.length_pos_of_ne_nil queued
  have same := resolved.length_eq
  simp only [List.length_append, List.length_zipIdx, List.length_map] at length same
  omega

/-- A panic before which only records without value were consumed loses nothing. -/
theorem Inv.accounted_of_silent {s : Worker} (inv : s.Inv) {log : List Record}
    (handed : s.consume.polled <+: log) (crashed : s.consume.pc.crashed)
    (silent : ∀ r ∈ log.takeWhile Record.decodes, r.value = none) : s.Accounted := by
  refine inv.accounted_of_computed_nil ?_
  rw [inv.consume.computed]
  rcases inv.consume.malformed crashed with nothing | ⟨before, bad, consumed, decode, malformed⟩
  · rw [inv.consume.consumed_of_polled_nil nothing]
    rfl
  · have consumedPrefix : s.consume.consumed <+: log :=
      (List.prefix_append _ _).trans (inv.consume.handed.trans handed)
    rw [consumed] at consumedPrefix
    obtain ⟨after, hlog⟩ := consumedPrefix
    have taken : log.takeWhile Record.decodes = before := by
      rw [← hlog, List.append_assoc, List.takeWhile_append_of_pos decode]
      simp [malformed]
    rw [taken] at silent
    have badResult : bad.result = none := by
      rw [Record.decodes, Bool.or_eq_false_iff] at malformed
      exact Option.isSome_eq_false_iff.mp malformed.2 |> Option.isNone_iff_eq_none.mp
    rw [consumed, resultsOf, List.filterMap_eq_nil_iff]
    intro r hr
    rcases List.mem_append.mp hr with hr | hr
    · rw [Record.result, silent r hr]
      rfl
    · rw [List.mem_singleton.mp hr]
      exact badResult

/-! ## A run that loses a result -/

section Backlog

variable {log : List Record} {total : Nat} {s : Worker}

/-- The produce task is idle with an empty pool, and has left a result in the
channel if there ever was one. -/
structure Backlog (log : List Record) (s : Worker) : Prop where
  handed : s.consume.polled <+: log
  selecting : s.produce.pc = .selecting
  isOpen : s.produce.channelOpen = true
  idle : s.produce.inFlight.len = 0
  short : s.queue.length ≤ 1
  held : s.consume.computed ≠ [] → s.queue ≠ []

theorem reachable_step {s' : Worker} (counter counter' : Nat) (l : Label)
    (handed : s.consume.polled ++ l.handed <+: log)
    (hstep : step total counter s l = some (counter', s')) :
    (onPartition log total).alone.Reachable s s' :=
  .single (counter, l) (Proc.alone_eq_some.mpr ⟨counter', onPartition_eq_some.mpr ⟨handed, hstep⟩⟩)

/-- The produce task takes a result out of the channel and completes its send. -/
theorem exists_drained (handed : s.consume.polled <+: log) (selecting : s.produce.pc = .selecting)
    (isOpen : s.produce.channelOpen = true) (idle : s.produce.inFlight.len = 0)
    {item : Bytes × Nat} (queue : s.queue = [item]) :
    ∃ s', (onPartition log total).alone.Reachable s s' ∧ s'.consume = s.consume ∧
      s'.queue = [] ∧ s'.produce.pc = .selecting ∧ s'.produce.channelOpen = true ∧
      s'.produce.inFlight.len = 0 := by
  have room : s.produce.inFlight.len < window := by simp [idle, window]
  have unhanded : s.consume.polled ++ [] <+: log := by rwa [List.append_nil]
  have received : (onPartition log total).alone.Reachable s (s.receive item []) :=
    reachable_step 0 0 .recv unhanded (by simp [step, selecting, isOpen, room, queue])
  have ready : (s.produce.inFlight.push item).ready = [⟨item, false⟩] := by
    rw [FuturePool.len] at idle
    have none : s.produce.inFlight.ready = [] := List.eq_nil_of_length_eq_zero (by omega)
    rw [FuturePool.ready_push, none, List.nil_append]
  obtain ⟨inFlight, polled⟩ := FuturePool.exists_poll ready (.ready SendResult.ok)
  obtain ⟨-, -, len⟩ := FuturePool.poll_ready_spec polled
  rw [FuturePool.len_push, idle] at len
  have empty : inFlight.len = 0 := by omega
  let completed : Worker := { s.receive item [] with
    produce := (s.receive item []).produce.afterPoll inFlight (.ready .ok) }
  have sent : (onPartition log total).alone.Reachable s completed :=
    received.trans (reachable_step 0 0 (.complete (.ready .ok)) unhanded
      (by simp [step, receive, selecting, polled, completed]))
  by_cases full : 1000 ≤ s.produce.localCounter + 1
  · refine ⟨{ completed with produce := completed.produce.publish },
      sent.trans (reachable_step 0 (fetchAdd 0 completed.produce.localCounter) .publish unhanded
        ?_), rfl, rfl, rfl, isOpen, empty⟩
    have publishing : completed.produce.pc = .publishing := by
      simp [completed, receive, Produce.afterPoll, full]
    rw [step, if_pos publishing]
  · refine ⟨completed, sent, rfl, rfl, ?_, isOpen, empty⟩
    simp [completed, receive, Produce.afterPoll, full, selecting]

/-- `tx.send` returns at once if the channel is empty. -/
theorem reachable_enqueue (handed : s.consume.polled <+: log) {item : Bytes × Nat}
    {rest : List Record} (sending : s.consume.pc = .sending item rest)
    (selecting : s.produce.pc = .selecting) (queue : s.queue = []) :
    (onPartition log total).alone.Reachable s (s.enqueue item rest) := by
  have unhanded : s.consume.polled ++ [] <+: log := by rwa [List.append_nil]
  refine reachable_step 0 0 .send unhanded ?_
  simp [step, sending, selecting, ProducePc.done, queue, window]

/-- From before a record that decodes to before the next one, with its result left in
the channel. -/
theorem Backlog.turn {record : Record} {rest : List Record} (h : Backlog log s)
    (decodes : record.decodes) (batch : s.consume.pc = .batch (record :: rest)) :
    ∃ s', (onPartition log total).alone.Reachable s s' ∧ Backlog log s' ∧
      s'.consume.pc = .batch rest ∧
      s'.consume.computed = s.consume.computed ++ record.result.toList := by
  have turned : ∀ t : Worker, t.consume = s.consume →
      (onPartition log total).alone.Reachable t
        { t with consume := t.consume.turn record rest } := by
    intro t same
    have unhanded : t.consume.polled ++ [] <+: log := by
      rw [same, List.append_nil]
      exact h.handed
    rw [← same] at batch
    exact reachable_step 0 0 .next unhanded (by simp only [step, batch])
  rcases s.consume.afterDecode_cases record rest with ⟨-, result, hpc⟩ | ⟨buf, -, result, hpc⟩ |
    ⟨bad, -, -⟩
  · refine ⟨_, turned s rfl, ⟨h.handed, h.selecting, h.isOpen, h.idle, h.short, ?_⟩, hpc, rfl⟩
    simpa [Consume.turn, result] using h.held
  · -- empty the channel first, so that there is room for the new result and only for it
    obtain ⟨t, reached, consume, queue, selecting, isOpen, idle⟩ :
        ∃ t, (onPartition log total).alone.Reachable s t ∧ t.consume = s.consume ∧
          t.queue = [] ∧ t.produce.pc = .selecting ∧ t.produce.channelOpen = true ∧
          t.produce.inFlight.len = 0 := by
      cases queue : s.queue with
      | nil => exact ⟨s, .refl s, rfl, queue, h.selecting, h.isOpen, h.idle⟩
      | cons item others =>
          have short := h.short
          rw [queue, List.length_cons] at short
          have single : others = [] := List.eq_nil_of_length_eq_zero (by omega)
          rw [single] at queue
          exact exists_drained h.handed h.selecting h.isOpen h.idle queue
    rw [← consume] at hpc ⊢
    have handed : t.consume.polled <+: log := by
      rw [consume]
      exact h.handed
    have decoded := turned t consume
    refine ⟨_, reached.trans (decoded.trans (reachable_enqueue
      (s := { t with consume := t.consume.turn record rest }) handed hpc selecting queue)),
      ⟨handed, selecting, isOpen, idle, ?_, ?_⟩, rfl, rfl⟩ <;> simp [enqueue, queue]
  · rw [decodes] at bad
    cases bad

/-- A worker gets through records that decode, one after the other. -/
theorem Backlog.exists_batch {before rest : List Record} (h : Backlog log s)
    (decode : ∀ r ∈ before, r.decodes) (batch : s.consume.pc = .batch (before ++ rest)) :
    ∃ s', (onPartition log total).alone.Reachable s s' ∧ Backlog log s' ∧
      s'.consume.pc = .batch rest ∧
      s'.consume.computed = s.consume.computed ++ resultsOf before := by
  induction before generalizing s with
  | nil => exact ⟨s, .refl s, h, batch, by simp [resultsOf]⟩
  | cons r before ih =>
      obtain ⟨t, first, ht, batch', computed⟩ := h.turn (decode r List.mem_cons_self) batch
      obtain ⟨u, others, hu, batch'', computed'⟩ :=
        ih ht (fun q hq => decode q (List.mem_cons_of_mem _ hq)) batch'
      refine ⟨u, first.trans others, hu, batch'', ?_⟩
      rw [computed', computed, List.append_assoc, resultsOf, resultsOf, List.filterMap_cons]
      cases r.result <;> rfl

/-- A worker that was handed the first records of its partition in one poll. -/
theorem exists_fetched {first : Record} {others : List Record} (positive : 0 < total)
    (handed : first :: others <+: log) :
    ∃ s, (onPartition log total).alone.Reachable start s ∧ Backlog log s ∧
      s.consume.pc = .batch (first :: others) := by
  let polling : Worker := start.enter.goto .polling
  let fetched : Worker := { polling with consume := polling.consume.poll (.ok (first :: others)) }
  have enters : (onPartition log total).alone.Reachable start start.enter :=
    reachable_step 0 0 (.start true) List.nil_prefix rfl
  have checks : (onPartition log total).alone.Reachable start.enter polling := by
    refine reachable_step 0 0 .check List.nil_prefix ?_
    have more : ¬ total ≤ 0 := by omega
    simp only [step, Consume.check, if_neg more]
    rfl
  have polls : (onPartition log total).alone.Reachable polling fetched :=
    reachable_step 0 0 (.poll (.ok (first :: others))) handed rfl
  refine ⟨fetched, enters.trans (checks.trans polls), ?_, rfl⟩
  exact ⟨handed, rfl, rfl, rfl, Nat.zero_le _, fun computed => (computed rfl).elim⟩

/-- At a malformed record the worker panics, and the shutdown drops its channel. -/
theorem Backlog.exists_ended {bad : Record} (h : Backlog log s)
    (malformed : bad.decodes = false) (batch : s.consume.pc = .batch [bad]) :
    ∃ s', (onPartition log total).alone.Reachable s s' ∧ s'.consume.pc = .ended none ∧
      s'.queue = s.queue := by
  have unwinds : s.consume.afterDecode bad [] = .unwinding := by
    rcases s.consume.afterDecode_cases bad [] with ⟨decodes, -⟩ | ⟨_, decodes, -⟩ | ⟨-, -, hpc⟩
    · rw [malformed] at decodes
      cases decodes
    · rw [malformed] at decodes
      cases decodes
    · exact hpc
  have unhanded : s.consume.polled ++ [] <+: log := by
    rw [List.append_nil]
    exact h.handed
  let unwound : Worker := { s with consume := s.consume.turn bad [] }
  let ended : Worker := { unwound.goto (.ended none) with produce := unwound.produce.shutdown }
  have panics : (onPartition log total).alone.Reachable s unwound :=
    reachable_step 0 0 .next unhanded (by simp only [step, batch, unwound])
  have shuts : (onPartition log total).alone.Reachable unwound ended := by
    refine reachable_step 0 0 .shutdown unhanded ?_
    have awaiting : s.produce.pc ≠ .publishing := by simp [h.selecting]
    rw [step, if_pos ⟨unwinds, awaiting⟩]
  exact ⟨ended, panics.trans shuts, rfl, rfl⟩

/-- A worker that meets a malformed record after one with a value may lose a result. -/
theorem exists_lost {before after : List Record} {bad : Record} (positive : 0 < total)
    (hlog : log = before ++ bad :: after) (decode : ∀ r ∈ before, r.decodes)
    (malformed : bad.decodes = false) {r : Record} (member : r ∈ before)
    (carries : r.value ≠ none) :
    ∃ s, (onPartition log total).alone.Reachable start s ∧ s.consume.pc = .ended none ∧
      ¬ s.Accounted := by
  have handed : before ++ [bad] <+: log := ⟨after, by simp [hlog]⟩
  obtain ⟨first, others, hbatch⟩ : ∃ first others, before ++ [bad] = first :: others := by
    cases before with
    | nil => exact ⟨bad, [], rfl⟩
    | cons first others => exact ⟨first, others ++ [bad], rfl⟩
  rw [hbatch] at handed
  obtain ⟨t, polls, backlog, fetched⟩ := exists_fetched positive handed
  rw [← hbatch] at fetched
  obtain ⟨s, decodes, backlog', batch, computed⟩ := backlog.exists_batch decode fetched
  obtain ⟨ended, panics, crashed, queue⟩ := backlog'.exists_ended malformed batch
  have reached := polls.trans (decodes.trans panics)
  refine ⟨ended, reached, crashed, ?_⟩
  have nonempty : s.consume.computed ≠ [] := by
    have result : r.result.isSome := by
      rw [Record.isSome_result_eq (decode r member)]
      exact Option.isSome_iff_ne_none.mpr carries
    obtain ⟨buf, hbuf⟩ := Option.isSome_iff_exists.mp result
    have computes : buf ∈ resultsOf before := List.mem_filterMap.mpr ⟨r, member, hbuf⟩
    rw [computed]
    exact List.append_ne_nil_of_right_ne_nil _ (List.ne_nil_of_mem computes)
  refine (Inv.of_reachable (onPartition_reachable reached).1).not_accounted_of_queue ?_
  rw [queue]
  exact backlog'.held nonempty

end Backlog

end Worker

/-- **When a malformed record does no harm.**  The results of a partition are safe from
a panic, whatever the interleaving, exactly if every record decodes or no record
before the first malformed one carries a value. -/
theorem keepsResults_iff {total : Nat} (positive : 0 < total) (log : List Record) :
    Worker.KeepsResults total log ↔
      (∀ r ∈ log, r.decodes) ∨ ∀ r ∈ log.takeWhile Record.decodes, r.value = none := by
  constructor
  · intro keeps
    by_contra hcon
    rw [not_or] at hcon
    obtain ⟨malformed, carrying⟩ := hcon
    obtain ⟨r, member, carries⟩ := by
      simpa only [not_forall, exists_prop] using carrying
    have split := List.takeWhile_append_dropWhile (p := Record.decodes) (l := log)
    cases dropped : log.dropWhile Record.decodes with
    | nil =>
        rw [List.dropWhile_eq_nil_iff] at dropped
        exact malformed dropped
    | cons bad after =>
        have bad_malformed : bad.decodes = false := by
          have head := List.head_dropWhile_not (p := Record.decodes) (l := log) (by simp [dropped])
          simpa [dropped] using head
        rw [dropped] at split
        obtain ⟨s, reached, ended, lost⟩ := Worker.exists_lost positive split.symm
          (fun q hq => List.mem_takeWhile_imp hq) bad_malformed member carries
        exact lost (keeps s reached ⟨_, ended⟩)
  · intro safe s reached done
    rcases done with ⟨exit, ended⟩
    obtain ⟨alone, handed⟩ := Worker.onPartition_reachable reached
    have inv := Worker.Inv.of_reachable alone
    cases exit with
    | some exit => exact inv.accounted ended
    | none =>
        have crashed : s.consume.pc.crashed := by rw [ended]; rfl
        rcases safe with decode | silent
        · rcases inv.consume.malformed crashed with nothing | ⟨before, bad, consumed, -, malformed⟩
          · refine inv.accounted_of_computed_nil ?_
            rw [inv.consume.computed, inv.consume.consumed_of_polled_nil nothing]
            rfl
          · have member : bad ∈ s.consume.consumed := by simp [consumed]
            have consumedPrefix :=
              (List.prefix_append _ _).trans (inv.consume.handed.trans handed)
            rw [decode bad (consumedPrefix.subset member)] at malformed
            cases malformed
        · exact inv.accounted_of_silent handed crashed silent

/-- A malformed record in front of everything is harmless. -/
theorem keepsResults_iff_truncated_first :
    Worker.KeepsResults 50 [⟨none⟩, ⟨some [0x80#8]⟩, ⟨some [0x02#8, 0x06#8, 0x00#8]⟩] :=
  (keepsResults_iff (by decide) _).mpr (.inr (by decide +kernel))

/-- The list `[3]` and then a truncated payload: the worker panics with the result of
the first still in the channel, and the shutdown drops it. -/
def truncatedSecond : List Record :=
  [⟨some [0x02#8, 0x06#8, 0x00#8]⟩, ⟨some [0x80#8]⟩]

theorem not_keepsResults_truncatedSecond :
    ¬ Worker.KeepsResults totalRecords truncatedSecond := by
  intro keeps
  have ends : ((Worker.onPartition truncatedSecond totalRecords).alone.run Worker.start
      [(0, .start true), (0, .check), (0, .poll (.ok truncatedSecond)), (0, .next), (0, .send),
        (0, .next), (0, .shutdown)]).map
      (fun s => (s.consume.pc, s.produce.added, s.consume.computed.length)) =
        some (.ended none, 0, 1) := by
    decide +kernel
  obtain ⟨s, hrun, hs⟩ := Option.map_eq_some_iff.mp ends
  simp only [Prod.mk.injEq] at hs
  obtain ⟨ended, added, computed⟩ := hs
  obtain ⟨-, counted⟩ := keeps s ⟨_, hrun⟩ ⟨none, ended⟩
  omega

end KafkaTest
