import KafkaTest.Loader

/-!
# Phase 2 of the krafka processor: one worker

A worker is two tasks joined by a bounded channel.  The consume task polls its
partition, decodes and sums each record and sends the result buffer into the channel;
the produce task moves results into its pool of sends, counts completed sends and
adds them to `PROCESSED_COUNTER` a thousand at a time.

`Worker.step` is the worker as a process over the shared counter, one transition for
each point where the tasks can interleave with each other or with the rest of the
program.  It is the same in benchmark and in continuous mode: nothing in either task
reads `is_benchmark`.  A result is named by its buffer and by the place of its record
among the value-carrying ones.  Three of the fields are histories that no transition
reads: what was polled, what was computed and how much was added to the counter.

`Worker.Move` lists the transitions, and `step_move` says that there are no others.
-/

namespace KafkaTest

/-! ## Records -/

/-- A consumed record. -/
structure Record where
  value : Option Bytes
  deriving DecidableEq

/-- The result buffer of a payload; `none` if decoding it panics, as the loop always comes to an end
(`Krafka.decodeSum_ne_outOfFuel`). -/
def resultOf (value : Bytes) : Option Bytes :=
  match Krafka.decodeSum wrappingAdd value with
  | .ok (sum, _) => some (Krafka.writeVarint [] sum)
  | _ => none

namespace Record

def result (r : Record) : Option Bytes := r.value.bind resultOf

/-- Decoding the record does not panic. -/
def decodes (r : Record) : Bool := r.value.isNone || r.result.isSome

/-- The record carries a value, and decoding it does not panic. -/
def wellFormed (r : Record) : Bool := r.result.isSome

theorem isSome_result_eq {r : Record} (h : r.decodes) : r.result.isSome = r.value.isSome := by
  rw [decodes, Record.result] at h
  cases value : r.value with
  | none => simp [Record.result, value]
  | some v =>
      rw [Record.result, value]
      simpa [value] using h

theorem wellFormed_iff {r : Record} : r.wellFormed ↔ r.decodes ∧ r.value.isSome := by
  rw [wellFormed, decodes, result]
  cases r.value <;> simp

theorem decodes_of_wellFormed {r : Record} (h : r.wellFormed) : r.decodes :=
  (wellFormed_iff.mp h).1

end Record

/-- The results of the records that carry a value, in order. -/
def resultsOf (records : List Record) : List Bytes := records.filterMap Record.result

/-- How many of the records carry a value. -/
def valueCount (records : List Record) : Nat := records.countP fun r => r.value.isSome

theorem resultsOf_append (xs ys : List Record) :
    resultsOf (xs ++ ys) = resultsOf xs ++ resultsOf ys := List.filterMap_append

theorem length_resultsOf {records : List Record} (decode : ∀ r ∈ records, r.decodes) :
    (resultsOf records).length = valueCount records := by
  induction records with
  | nil => rfl
  | cons r records ih =>
      have head := Record.isSome_result_eq (decode r List.mem_cons_self)
      have tail := ih fun q hq => decode q (List.mem_cons_of_mem _ hq)
      rw [resultsOf] at tail ⊢
      rw [valueCount] at tail ⊢
      rw [List.filterMap_cons, List.countP_cons, ← tail, ← head]
      cases r.result <;> simp

theorem valueCount_eq_length {records : List Record} (values : ∀ r ∈ records, r.wellFormed) :
    valueCount records = records.length :=
  List.countP_eq_length.mpr fun r hr => (Record.wellFormed_iff.mp (values r hr)).2

/-- What `consumer.poll` answers. -/
inductive PollResult
  | ok (records : List Record)
  | err
  deriving DecidableEq

/-! ## The two tasks -/

/-- Why the consume loop was left. -/
inductive Exit
  | counterReached
  | emptyPolls
  | channelClosed
  deriving DecidableEq

/-- Where the consume task stands: connecting, at the counter test, in `poll`, before
the next record of a batch, in `tx.send`, out of the loop, in `produce_task.await`, or
panicked with the runtime still up; the last constructor is the end of the thread. -/
inductive ConsumePc
  | starting
  | top
  | polling
  | batch (rest : List Record)
  | sending (item : Bytes × Nat) (rest : List Record)
  | left (exit : Exit)
  | joining (exit : Exit)
  | unwinding
  | ended (exit : Option Exit)
  deriving DecidableEq

namespace ConsumePc

/-- `tx` has been dropped. -/
def txDropped : ConsumePc → Bool
  | joining _ | unwinding | ended _ => true
  | _ => false

/-- The thread has panicked. -/
def crashed : ConsumePc → Bool
  | unwinding | ended none => true
  | _ => false

/-- How the loop was left, once it was. -/
def exit : ConsumePc → Option Exit
  | left e | joining e => some e
  | ended e => e
  | _ => none

/-- The records of the current batch still to be consumed. -/
def rest : ConsumePc → List Record
  | batch rest | sending _ rest => rest
  | _ => []

/-- The result held by a `tx.send` that has not returned. -/
def blocked : ConsumePc → List (Bytes × Nat)
  | sending item _ => [item]
  | _ => []

end ConsumePc

/-- Where the produce task stands: not spawned, at `select!`, before the `fetch_add`
of a full thousand, or over. -/
inductive ProducePc
  | unspawned
  | selecting
  | publishing
  | finished
  | panicked
  | cancelled
  deriving DecidableEq

/-- The task is over, and its receiver dropped. -/
def ProducePc.done : ProducePc → Bool
  | finished | panicked | cancelled => true
  | _ => false

/-- The consume task, with the records it was handed and the results it computed. -/
structure Consume where
  pc : ConsumePc
  consecutiveEmpty : Nat
  polled : List Record
  consumed : List Record
  computed : List Bytes

namespace Consume

/-- `if PROCESSED_COUNTER.load() >= TOTAL_RECORDS { break }`. -/
def check (c : Consume) (total counter : Nat) : Consume :=
  { c with pc := if total ≤ counter then .left .counterReached else .polling }

/-- From the answer of `poll` back to the top, out of the loop, or into a batch. -/
def poll (c : Consume) : PollResult → Consume
  | .err => { c with pc := .top }
  | .ok [] =>
      { c with
        consecutiveEmpty := c.consecutiveEmpty + 1
        pc := if 3 ≤ c.consecutiveEmpty + 1 then .left .emptyPolls else .top }
  | .ok (record :: records) =>
      { c with
        consecutiveEmpty := 0
        polled := c.polled ++ record :: records
        pc := .batch (record :: records) }

/-- Where decoding a record leads: past a record without value, to `tx.send`, or into
a panic. -/
def afterDecode (c : Consume) (record : Record) (rest : List Record) : ConsumePc :=
  if record.value.isNone then .batch rest
  else match record.result with
    | some buf => .sending (buf, c.computed.length) rest
    | none => .unwinding

theorem afterDecode_cases (c : Consume) (record : Record) (rest : List Record) :
    (record.decodes ∧ record.result = none ∧ c.afterDecode record rest = .batch rest) ∨
    (∃ buf, record.decodes ∧ record.result = some buf ∧
      c.afterDecode record rest = .sending (buf, c.computed.length) rest) ∨
    (record.decodes = false ∧ record.result = none ∧
      c.afterDecode record rest = .unwinding) := by
  rw [afterDecode, Record.decodes, Record.result]
  cases record.value with
  | none => exact .inl ⟨rfl, rfl, rfl⟩
  | some v =>
      rw [Option.bind_some]
      cases resultOf v with
      | some buf => exact .inr (.inl ⟨buf, rfl, rfl, rfl⟩)
      | none => exact .inr (.inr ⟨rfl, rfl, rfl⟩)

/-- One turn of `for record in &records`, up to `tx.send`. -/
def turn (c : Consume) (record : Record) (rest : List Record) : Consume :=
  { c with
    consumed := c.consumed ++ [record]
    computed := c.computed ++ record.result.toList
    pc := c.afterDecode record rest }

end Consume

/-- `PROCESSED_COUNTER.fetch_add(n)`. -/
def fetchAdd (counter n : Nat) : Nat := (counter + n) % 2 ^ 64

/-- The produce task, with the sum of what it added to the counter. -/
structure Produce where
  pc : ProducePc
  channelOpen : Bool
  inFlight : FuturePool (Bytes × Nat) SendResult
  localCounter : Nat
  added : Nat

namespace Produce

/-- `in_flight.next()` polls one future; a completion is counted. -/
def afterPoll (p : Produce) (inFlight : FuturePool (Bytes × Nat) SendResult) :
    Poll SendResult → Produce
  | .pending => { p with inFlight := inFlight }
  | .ready _ =>
      { p with
        inFlight := inFlight
        localCounter := p.localCounter + 1
        pc := if 1000 ≤ p.localCounter + 1 then .publishing else p.pc }

/-- `PROCESSED_COUNTER.fetch_add(local_counter); local_counter = 0`. -/
def publish (p : Produce) : Produce :=
  { p with added := p.added + p.localCounter, localCounter := 0, pc := .selecting }

/-- The last `fetch_add`, and the end of the task. -/
def finish (p : Produce) : Produce :=
  { p with added := p.added + p.localCounter, pc := .finished }

/-- What a shutdown of the runtime makes of a task that stands at an await. -/
def shutdown (p : Produce) : Produce :=
  { p with pc := if p.pc = .selecting then .cancelled else p.pc }

end Produce

/-- One worker: its two tasks and the channel between them. -/
structure Worker where
  consume : Consume
  queue : List (Bytes × Nat)
  produce : Produce

namespace Worker

/-- `WORKER_WINDOW`: the capacity of the channel, and of the pool of sends. -/
def window : Nat := 10000

/-- The consume task connecting, or with a panic if it cannot; a counter test; an
answer of `poll`; the next record, or the end, of a batch; `tx.send` returning;
`drop(tx)`; `produce_task.await` returning; the runtime going down under a panic.
Then the produce task: `rx.recv()` returning; `in_flight.next()` polling one future;
a waker running; the `fetch_add` of a full thousand; the end of its loop; and `select!`
with both branches disabled. -/
inductive Label
  | start (connected : Bool)
  | check
  | poll (answer : PollResult)
  | next
  | send
  | dropTx
  | join
  | shutdown
  | recv
  | complete (answer : Poll SendResult)
  | wake (i : Nat)
  | publish
  | finish
  | selectPanics
  deriving DecidableEq

def start : Worker where
  consume := ⟨.starting, 0, [], [], []⟩
  queue := []
  produce := ⟨.unspawned, true, .empty, 0, 0⟩

def goto (s : Worker) (pc : ConsumePc) : Worker :=
  { s with consume := { s.consume with pc := pc } }

/-- The produce task is spawned and the loop entered. -/
def enter (s : Worker) : Worker :=
  { s.goto .top with produce := { s.produce with pc := .selecting } }

/-- A value sent into the channel. -/
def enqueue (s : Worker) (item : Bytes × Nat) (rest : List Record) : Worker :=
  { s.goto (.batch rest) with queue := s.queue ++ [item] }

/-- `rx.recv()` returns `Some(buf)`, which is pushed into the pool. -/
def receive (s : Worker) (item : Bytes × Nat) (queue : List (Bytes × Nat)) : Worker :=
  { s with
    queue := queue
    produce := { s.produce with inFlight := s.produce.inFlight.push item } }

/-- `rx.recv()` returns `None`. -/
def close (s : Worker) : Worker := { s with produce := { s.produce with channelOpen := false } }

/-- One transition of a worker that is to stop at `total`. -/
def step (total : Nat) : Proc Nat Worker Label := fun counter s l =>
  match l with
  | .start connected =>
      if s.consume.pc = .starting then
        some (counter, if connected then s.enter else s.goto (.ended none))
      else none
  | .check =>
      if s.consume.pc = .top then
        some (counter, { s with consume := s.consume.check total counter })
      else none
  | .poll answer =>
      if s.consume.pc = .polling then
        some (counter, { s with consume := s.consume.poll answer })
      else none
  | .next =>
      match s.consume.pc with
      | .batch [] => some (counter, s.goto .top)
      | .batch (record :: rest) =>
          some (counter, { s with consume := s.consume.turn record rest })
      | _ => none
  | .send =>
      match s.consume.pc with
      | .sending item rest =>
          if s.produce.pc.done then some (counter, s.goto (.left .channelClosed))
          else if s.queue.length < window then some (counter, s.enqueue item rest)
          else none
      | _ => none
  | .dropTx =>
      match s.consume.pc with
      | .left exit => some (counter, s.goto (.joining exit))
      | _ => none
  | .join =>
      match s.consume.pc with
      | .joining exit =>
          if s.produce.pc.done then some (counter, s.goto (.ended (some exit))) else none
      | _ => none
  | .shutdown =>
      if s.consume.pc = .unwinding ∧ s.produce.pc ≠ .publishing then
        some (counter, { s.goto (.ended none) with produce := s.produce.shutdown })
      else none
  | .recv =>
      if s.produce.pc = .selecting ∧ s.produce.channelOpen ∧ s.produce.inFlight.len < window then
        match s.queue with
        | item :: queue => some (counter, s.receive item queue)
        | [] => if s.consume.pc.txDropped then some (counter, s.close) else none
      else none
  | .complete answer =>
      if s.produce.pc = .selecting then
        (s.produce.inFlight.poll answer).map fun inFlight =>
          (counter, { s with produce := s.produce.afterPoll inFlight answer })
      else none
  | .wake i =>
      if s.produce.pc = .selecting ∨ s.produce.pc = .publishing then
        (s.produce.inFlight.wake i).map fun inFlight =>
          (counter, { s with produce := { s.produce with inFlight := inFlight } })
      else none
  | .publish =>
      if s.produce.pc = .publishing then
        some (fetchAdd counter s.produce.localCounter, { s with produce := s.produce.publish })
      else none
  | .finish =>
      if s.produce.pc = .selecting ∧ s.produce.channelOpen = false ∧
          s.produce.inFlight.len = 0 then
        some (if 0 < s.produce.localCounter then fetchAdd counter s.produce.localCounter
          else counter, { s with produce := s.produce.finish })
      else none
  | .selectPanics =>
      if s.produce.pc = .selecting ∧
          (s.produce.channelOpen = true ∨ s.produce.inFlight.len ≠ 0) ∧
          ¬ (s.produce.channelOpen = true ∧ s.produce.inFlight.len < window) ∧
          s.produce.inFlight.len = 0 then
        some (counter, { s with produce := { s.produce with pc := .panicked } })
      else none

/-- The transitions, one constructor for each thing that can happen. -/
inductive Move (total counter : Nat) (s : Worker) : Label → Nat → Worker → Prop
  | enter (starting : s.consume.pc = .starting) :
      Move total counter s (.start true) counter s.enter
  | startFails (starting : s.consume.pc = .starting) :
      Move total counter s (.start false) counter (s.goto (.ended none))
  | check (top : s.consume.pc = .top) :
      Move total counter s .check counter { s with consume := s.consume.check total counter }
  | poll (answer : PollResult) (polling : s.consume.pc = .polling) :
      Move total counter s (.poll answer) counter { s with consume := s.consume.poll answer }
  | batchEnd (batch : s.consume.pc = .batch []) :
      Move total counter s .next counter (s.goto .top)
  | turn (record : Record) (rest : List Record) (batch : s.consume.pc = .batch (record :: rest)) :
      Move total counter s .next counter { s with consume := s.consume.turn record rest }
  | sendFails (item : Bytes × Nat) (rest : List Record)
      (sending : s.consume.pc = .sending item rest) (done : s.produce.pc.done) :
      Move total counter s .send counter (s.goto (.left .channelClosed))
  | send (item : Bytes × Nat) (rest : List Record) (sending : s.consume.pc = .sending item rest)
      (room : s.queue.length < window) :
      Move total counter s .send counter (s.enqueue item rest)
  | dropTx (exit : Exit) (left : s.consume.pc = .left exit) :
      Move total counter s .dropTx counter (s.goto (.joining exit))
  | join (exit : Exit) (joining : s.consume.pc = .joining exit) (done : s.produce.pc.done) :
      Move total counter s .join counter (s.goto (.ended (some exit)))
  | shutdown (unwinding : s.consume.pc = .unwinding) (awaiting : s.produce.pc ≠ .publishing) :
      Move total counter s .shutdown counter
        { s.goto (.ended none) with produce := s.produce.shutdown }
  | recv (item : Bytes × Nat) (queue : List (Bytes × Nat)) (selecting : s.produce.pc = .selecting)
      (isOpen : s.produce.channelOpen = true) (room : s.produce.inFlight.len < window)
      (front : s.queue = item :: queue) :
      Move total counter s .recv counter (s.receive item queue)
  | recvNone (selecting : s.produce.pc = .selecting) (isOpen : s.produce.channelOpen = true)
      (empty : s.queue = []) (dropped : s.consume.pc.txDropped) :
      Move total counter s .recv counter s.close
  | complete (answer : Poll SendResult) (inFlight : FuturePool (Bytes × Nat) SendResult)
      (selecting : s.produce.pc = .selecting)
      (polled : s.produce.inFlight.poll answer = some inFlight) :
      Move total counter s (.complete answer) counter
        { s with produce := s.produce.afterPoll inFlight answer }
  | wake (i : Nat) (inFlight : FuturePool (Bytes × Nat) SendResult)
      (running : s.produce.pc = .selecting ∨ s.produce.pc = .publishing)
      (woken : s.produce.inFlight.wake i = some inFlight) :
      Move total counter s (.wake i) counter
        { s with produce := { s.produce with inFlight := inFlight } }
  | publish (publishing : s.produce.pc = .publishing) :
      Move total counter s .publish (fetchAdd counter s.produce.localCounter)
        { s with produce := s.produce.publish }
  | finish (selecting : s.produce.pc = .selecting) (closed : s.produce.channelOpen = false)
      (empty : s.produce.inFlight.len = 0) :
      Move total counter s .finish
        (if 0 < s.produce.localCounter then fetchAdd counter s.produce.localCounter else counter)
        { s with produce := s.produce.finish }

theorem step_move {total counter counter' : Nat} {s s' : Worker} {l : Label}
    (h : step total counter s l = some (counter', s')) : Move total counter s l counter' s' := by
  cases l with
  | start connected =>
      simp only [step, Option.ite_none_right_eq_some, Option.some.injEq, Prod.mk.injEq] at h
      obtain ⟨starting, rfl, rfl⟩ := h
      cases connected with
      | true => exact .enter starting
      | false => exact .startFails starting
  | check =>
      simp only [step, Option.ite_none_right_eq_some, Option.some.injEq, Prod.mk.injEq] at h
      obtain ⟨top, rfl, rfl⟩ := h
      exact .check top
  | poll answer =>
      simp only [step, Option.ite_none_right_eq_some, Option.some.injEq, Prod.mk.injEq] at h
      obtain ⟨polling, rfl, rfl⟩ := h
      exact .poll answer polling
  | next =>
      simp only [step] at h
      split at h
      · rename_i batch
        cases h
        exact .batchEnd batch
      · rename_i record rest batch
        cases h
        exact .turn record rest batch
      · cases h
  | send =>
      simp only [step] at h
      split at h
      · rename_i item rest sending
        split at h
        · rename_i done
          cases h
          exact .sendFails item rest sending done
        · simp only [Option.ite_none_right_eq_some, Option.some.injEq, Prod.mk.injEq] at h
          obtain ⟨room, rfl, rfl⟩ := h
          exact .send item rest sending room
      · cases h
  | dropTx =>
      simp only [step] at h
      split at h
      · rename_i exit left
        cases h
        exact .dropTx exit left
      · cases h
  | join =>
      simp only [step] at h
      split at h
      · rename_i exit joining
        simp only [Option.ite_none_right_eq_some, Option.some.injEq, Prod.mk.injEq] at h
        obtain ⟨done, rfl, rfl⟩ := h
        exact .join exit joining done
      · cases h
  | shutdown =>
      simp only [step, Option.ite_none_right_eq_some, Option.some.injEq, Prod.mk.injEq] at h
      obtain ⟨⟨unwinding, awaiting⟩, rfl, rfl⟩ := h
      exact .shutdown unwinding awaiting
  | recv =>
      simp only [step, Option.ite_none_right_eq_some] at h
      obtain ⟨⟨selecting, isOpen, room⟩, h⟩ := h
      split at h
      · rename_i item queue front
        cases h
        exact .recv item queue selecting isOpen room front
      · rename_i empty
        simp only [Option.ite_none_right_eq_some, Option.some.injEq, Prod.mk.injEq] at h
        obtain ⟨dropped, rfl, rfl⟩ := h
        exact .recvNone selecting isOpen empty dropped
  | complete answer =>
      simp only [step, Option.ite_none_right_eq_some, Option.map_eq_some_iff,
        Prod.mk.injEq] at h
      obtain ⟨selecting, inFlight, polled, rfl, rfl⟩ := h
      exact .complete answer inFlight selecting polled
  | wake i =>
      simp only [step, Option.ite_none_right_eq_some, Option.map_eq_some_iff,
        Prod.mk.injEq] at h
      obtain ⟨running, inFlight, woken, rfl, rfl⟩ := h
      exact .wake i inFlight running woken
  | publish =>
      simp only [step, Option.ite_none_right_eq_some, Option.some.injEq, Prod.mk.injEq] at h
      obtain ⟨publishing, rfl, rfl⟩ := h
      exact .publish publishing
  | finish =>
      simp only [step, Option.ite_none_right_eq_some, Option.some.injEq, Prod.mk.injEq] at h
      obtain ⟨⟨selecting, closed, empty⟩, rfl, rfl⟩ := h
      exact .finish selecting closed empty
  | selectPanics =>
      -- an empty pool has room, so a running loop has a branch enabled
      simp only [step, Option.ite_none_right_eq_some] at h
      obtain ⟨⟨-, runs, disabled, empty⟩, -⟩ := h
      rcases runs with isOpen | nonempty
      · exact (disabled ⟨isOpen, by simp [empty, window]⟩).elim
      · exact (nonempty empty).elim

end Worker

end KafkaTest
