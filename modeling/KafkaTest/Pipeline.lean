import KafkaTest.Worker

/-!
# The pipeline of a worker loses nothing

What a worker keeps to in every environment.  `Consume.Inv` accounts for the records
and the results, `Produce.Inv` for the sends and the counter, `Worker.Handshake` for
the way the two tasks close the channel between them; `Worker.Inv` adds that the
results computed so far are exactly those in the pool, in the channel and in a
blocked `tx.send`, in that order.

`Worker.Inv.of_reachable` gives all of it in every reachable state, and
`Worker.Inv.accounted` what is left of it once the thread has ended.
-/

namespace KafkaTest

/-! ## The consume task -/

/-- The records handed out are consumed in order, and give the results. -/
structure Consume.Inv (c : Consume) : Prop where
  handed : c.consumed ++ c.pc.rest <+: c.polled
  whole : c.pc.crashed = false → c.consumed ++ c.pc.rest = c.polled
  computed : c.computed = resultsOf c.consumed
  decode : c.pc.crashed = false → ∀ r ∈ c.consumed, r.decodes
  malformed : c.pc.crashed → c.polled = [] ∨ ∃ before bad,
    c.consumed = before ++ [bad] ∧ (∀ r ∈ before, r.decodes) ∧ bad.decodes = false
  starting : c.pc = .starting → c.polled = []

namespace Consume.Inv

variable {c : Consume}

/-- Going on with the same records left. -/
theorem goto (inv : c.Inv) {pc : ConsumePc} (sound : c.pc.crashed = false)
    (rest : pc.rest = c.pc.rest) (sound' : pc.crashed = false) (started : pc ≠ .starting) :
    Consume.Inv { c with pc := pc } where
  handed := by simpa [rest] using inv.handed
  whole _ := by simpa [rest] using inv.whole sound
  computed := inv.computed
  decode _ := inv.decode sound
  malformed crashed := by
    rw [show pc.crashed = true from crashed] at sound'
    cases sound'
  starting h := (started h).elim

theorem check (inv : c.Inv) (top : c.pc = .top) (total counter : Nat) :
    (c.check total counter).Inv := by
  refine inv.goto (by rw [top]; rfl) ?_ ?_ ?_ <;> split <;> simp [top, ConsumePc.rest,
    ConsumePc.crashed]

theorem poll (inv : c.Inv) (polling : c.pc = .polling) (answer : PollResult) :
    (c.poll answer).Inv := by
  have sound : c.pc.crashed = false := by rw [polling]; rfl
  have rest : c.pc.rest = [] := by rw [polling]; rfl
  cases answer with
  | err => exact inv.goto sound rest.symm rfl (by simp)
  | ok records =>
    cases records with
    | nil =>
      let next : ConsumePc := if 3 ≤ c.consecutiveEmpty + 1 then .left .emptyPolls else .top
      have moved : Consume.Inv { c with pc := next } := by
        refine inv.goto sound ?_ ?_ ?_ <;> simp only [next] <;> split
        · exact rest.symm
        · exact rest.symm
        · rfl
        · rfl
        · simp
        · simp
      exact ⟨moved.handed, moved.whole, moved.computed, moved.decode, moved.malformed,
        moved.starting⟩
    | cons record records =>
      have whole := inv.whole sound
      rw [rest, List.append_nil] at whole
      have next : c.consumed ++ record :: records = c.polled ++ record :: records := by
        rw [whole]
      exact ⟨⟨[], by simpa [Consume.poll, ConsumePc.rest] using next⟩, fun _ => next,
        inv.computed, fun _ => inv.decode sound, (fun h => by cases h), (fun h => by cases h)⟩

theorem turn (inv : c.Inv) {record : Record} {rest : List Record}
    (batch : c.pc = .batch (record :: rest)) : (c.turn record rest).Inv := by
  have sound : c.pc.crashed = false := by rw [batch]; rfl
  have whole := inv.whole sound
  have decode := inv.decode sound
  rw [batch] at whole
  have regrouped : c.consumed ++ [record] ++ rest = c.polled := by
    rw [List.append_assoc]
    exact whole
  have computed : (c.turn record rest).computed = resultsOf (c.turn record rest).consumed := by
    simp only [Consume.turn]
    rw [resultsOf_append, inv.computed, resultsOf, resultsOf, List.filterMap_cons]
    cases record.result <;> rfl
  have going : record.decodes → ∀ pc : ConsumePc, pc.rest = rest → pc.crashed = false →
      pc ≠ .starting → Consume.Inv { c.turn record rest with pc := pc } := by
    intro decodes pc hrest hcrashed started
    have whole' : c.consumed ++ [record] ++ pc.rest = c.polled := by rw [hrest, regrouped]
    refine ⟨⟨[], by rw [List.append_nil]; exact whole'⟩, fun _ => whole', computed,
      fun _ r hr => ?_, fun crashed => ?_, fun starting => (started starting).elim⟩
    · rcases List.mem_append.mp hr with hr | hr
      · exact decode r hr
      · rw [List.mem_singleton.mp hr]
        exact decodes
    · rw [show pc.crashed = true from crashed] at hcrashed
      cases hcrashed
  rcases c.afterDecode_cases record rest with ⟨decodes, -, hpc⟩ | ⟨buf, decodes, -, hpc⟩ |
    ⟨bad, -, hpc⟩
  · simpa [Consume.turn, hpc] using going decodes (.batch rest) rfl rfl (by simp)
  · simpa [Consume.turn, hpc] using
      going decodes (.sending (buf, c.computed.length) rest) rfl rfl (by simp)
  · refine ⟨⟨rest, ?_⟩, fun sound' => ?_, computed, fun sound' => ?_,
      fun _ => .inr ⟨c.consumed, record, rfl, decode, bad⟩, fun starting => ?_⟩
    · simp only [Consume.turn, hpc, ConsumePc.rest, List.append_nil]
      exact regrouped
    · simp [Consume.turn, hpc, ConsumePc.crashed] at sound'
    · simp [Consume.turn, hpc, ConsumePc.crashed] at sound'
    · simp [Consume.turn, hpc] at starting

/-- A thread that cannot connect has consumed nothing. -/
theorem startFails (inv : c.Inv) (starting : c.pc = .starting) :
    Consume.Inv { c with pc := .ended none } := by
  have whole := inv.whole (by rw [starting]; rfl)
  rw [starting, inv.starting starting] at whole
  have nothing : c.consumed = [] := (List.append_eq_nil_iff.mp whole).1
  exact ⟨by simp [nothing, ConsumePc.rest], (fun h => by cases h), inv.computed,
    (fun h => by cases h), fun _ => .inl (inv.starting starting), (fun h => by cases h)⟩

/-- The end of a panic. -/
theorem endCrash (inv : c.Inv) (unwinding : c.pc = .unwinding) :
    Consume.Inv { c with pc := .ended none } := by
  have handed := inv.handed
  have malformed := inv.malformed (by rw [unwinding]; rfl)
  rw [unwinding] at handed
  exact ⟨handed, (fun h => by cases h), inv.computed, (fun h => by cases h),
    fun _ => malformed, (fun h => by cases h)⟩

/-- Nothing is consumed that was not handed out. -/
theorem consumed_of_polled_nil (inv : c.Inv) (none : c.polled = []) : c.consumed = [] := by
  have handed := inv.handed
  rw [none] at handed
  exact (List.append_eq_nil_iff.mp (List.prefix_nil.mp handed)).1

end Consume.Inv

/-! ## The produce task -/

/-- Every completed send is counted, locally or in the shared counter. -/
structure Produce.Inv (p : Produce) : Prop where
  counted : p.pc ≠ .finished → p.added + p.localCounter = p.inFlight.finished.length
  all : p.pc = .finished → p.added = p.inFlight.finished.length
  drained : p.pc = .finished → p.channelOpen = false ∧ p.inFlight.len = 0
  sound : p.pc ≠ .panicked

namespace Produce.Inv

variable {p : Produce}

/-- Nothing is completed or added as long as the task runs on. -/
theorem keep (inv : p.Inv) {p' : Produce} (running : p.pc.done = false)
    (running' : p'.pc.done = false)
    (added : p'.added + p'.localCounter = p.added + p.localCounter)
    (finished : p'.inFlight.finished = p.inFlight.finished) : p'.Inv := by
  have notFinished : p.pc ≠ .finished := fun h => by
    rw [h] at running
    cases running
  refine ⟨fun _ => ?_, fun h => ?_, fun h => ?_, fun h => ?_⟩
  · rw [added, finished]
    exact inv.counted notFinished
  all_goals
    rw [h] at running'
    cases running'

theorem complete (inv : p.Inv) {inFlight : FuturePool (Bytes × Nat) SendResult}
    {answer : Poll SendResult} (selecting : p.pc = .selecting)
    (polled : p.inFlight.poll answer = some inFlight) : (p.afterPoll inFlight answer).Inv := by
  have counted := inv.counted (by rw [selecting]; simp)
  cases answer with
  | pending =>
      obtain ⟨-, finished, -⟩ := FuturePool.poll_pending_spec polled
      exact inv.keep (by rw [selecting]; rfl) (by simp only [Produce.afterPoll, selecting]; rfl)
        rfl finished
  | ready value =>
      obtain ⟨-, ⟨a, finished⟩, -⟩ := FuturePool.poll_ready_spec polled
      have running : (p.afterPoll inFlight (.ready value)).pc ≠ .finished ∧
          (p.afterPoll inFlight (.ready value)).pc ≠ .panicked := by
        simp only [Produce.afterPoll, selecting]
        split <;> simp
      refine ⟨fun _ => ?_, fun h => (running.1 h).elim, fun h => (running.1 h).elim, running.2⟩
      simp only [Produce.afterPoll, finished, List.length_append, List.length_singleton]
      omega

theorem finish (inv : p.Inv) (selecting : p.pc = .selecting) (closed : p.channelOpen = false)
    (empty : p.inFlight.len = 0) : p.finish.Inv :=
  ⟨fun h => (h rfl).elim, fun _ => inv.counted (by rw [selecting]; simp),
    fun _ => ⟨closed, empty⟩, by simp [Produce.finish]⟩

theorem shutdown (inv : p.Inv) : p.shutdown.Inv := by
  by_cases selecting : p.pc = .selecting
  · have counted := inv.counted (by rw [selecting]; simp)
    rw [Produce.shutdown, if_pos selecting]
    exact ⟨fun _ => counted, (by simp), (by simp), (by simp)⟩
  · rw [Produce.shutdown, if_neg selecting]
    exact inv

end Produce.Inv

/-! ## The worker -/

namespace Worker

/-- How the tasks close the channel: the produce task sees it closed only after the
sender is gone and the queue is empty; it is cancelled only under a panic; the thread
ends normally only after it; and a send never finds the receiver gone. -/
structure Handshake (s : Worker) : Prop where
  closed : s.produce.channelOpen = false → s.consume.pc.txDropped ∧ s.queue = []
  cancelled : s.produce.pc = .cancelled → s.consume.pc = .ended none
  joined : ∀ exit, s.consume.pc = .ended (some exit) → s.produce.pc = .finished
  exit : s.consume.pc.exit ≠ some .channelClosed

namespace Handshake

variable {s : Worker}

/-- The consume task moves on while it holds the sender, or just gives it up. -/
theorem advance (h : s.Handshake) (alive : s.consume.pc.txDropped = false) {c : Consume}
    {queue : List (Bytes × Nat)} (going : ∀ exit, c.pc ≠ .ended (some exit))
    (exit : c.pc.exit ≠ some .channelClosed) :
    Handshake { s with consume := c, queue := queue } where
  closed isClosed := by
    rw [(h.closed isClosed).1] at alive
    cases alive
  cancelled isCancelled := by
    rw [h.cancelled isCancelled] at alive
    cases alive
  joined e ended := (going e ended).elim
  exit := exit

/-- The produce task moves on. -/
theorem work (h : s.Handshake) (running : s.produce.pc.done = false) {p : Produce}
    {queue : List (Bytes × Nat)} (running' : p.pc ≠ .cancelled)
    (closed : p.channelOpen = false → s.consume.pc.txDropped ∧ queue = []) :
    Handshake { s with produce := p, queue := queue } where
  closed := closed
  cancelled isCancelled := (running' isCancelled).elim
  joined e ended := by
    rw [h.joined e ended] at running
    cases running
  exit := h.exit

end Handshake

/-- Everything a worker keeps to. -/
structure Inv (s : Worker) : Prop where
  consume : s.consume.Inv
  produce : s.produce.Inv
  handshake : s.Handshake
  split : s.consume.computed.zipIdx =
    s.produce.inFlight.pushed ++ s.queue ++ s.consume.pc.blocked

theorem inv_start : Inv start where
  consume := ⟨by simp [start, ConsumePc.rest], by simp [start, ConsumePc.rest], rfl,
    by simp [start], by simp [start], fun _ => rfl⟩
  produce := ⟨by simp [start, FuturePool.empty], by simp [start], by simp [start], by simp [start]⟩
  handshake := ⟨by simp [start], by simp [start], by simp [start], by simp [start, ConsumePc.exit]⟩
  split := rfl

/-- As long as the consume task holds the sender and has started, its receiver is
there. -/
theorem Inv.not_done {s : Worker} (inv : s.Inv) (alive : s.consume.pc.txDropped = false) :
    s.produce.pc.done = false := by
  cases pc : s.produce.pc with
  | unspawned => rfl
  | selecting => rfl
  | publishing => rfl
  | finished =>
      rw [(inv.handshake.closed (inv.produce.drained pc).1).1] at alive
      cases alive
  | panicked => exact (inv.produce.sound pc).elim
  | cancelled =>
      rw [inv.handshake.cancelled pc] at alive
      cases alive

/-- A task that is over once the sender is gone, other than by a panic, has finished. -/
theorem Inv.finished {s : Worker} (inv : s.Inv) (done : s.produce.pc.done)
    (sound : s.consume.pc ≠ .ended none) : s.produce.pc = .finished := by
  cases pc : s.produce.pc with
  | finished => rfl
  | panicked => exact (inv.produce.sound pc).elim
  | cancelled => exact (sound (inv.handshake.cancelled pc)).elim
  | unspawned | selecting | publishing =>
      rw [pc] at done
      cases done

/-- The consume task goes on, with the same results, records and channel. -/
theorem Inv.goto {s : Worker} (inv : s.Inv) {pc : ConsumePc}
    (alive : s.consume.pc.txDropped = false)
    (rest : pc.rest = s.consume.pc.rest) (blocked : pc.blocked = s.consume.pc.blocked)
    (sound : s.consume.pc.crashed = false) (sound' : pc.crashed = false)
    (started : pc ≠ .starting) (going : ∀ exit, pc ≠ .ended (some exit))
    (exit : pc.exit ≠ some .channelClosed) : (s.goto pc).Inv where
  consume := inv.consume.goto sound rest sound' started
  produce := inv.produce
  handshake := inv.handshake.advance alive going exit
  split := by
    have split := inv.split
    simp only [Worker.goto]
    rw [blocked]
    exact split

theorem Inv.check {s : Worker} (inv : s.Inv) (top : s.consume.pc = .top) (total counter : Nat) :
    Inv { s with consume := s.consume.check total counter } where
  consume := inv.consume.check top total counter
  produce := inv.produce
  handshake := by
    refine inv.handshake.advance (by rw [top]; rfl) (fun e => ?_) ?_ <;>
      simp only [Consume.check] <;> split <;> simp [ConsumePc.exit]
  split := by
    have split := inv.split
    rw [top] at split
    simp only [Consume.check]
    rw [split]
    split <;> rfl

theorem Inv.poll {s : Worker} (inv : s.Inv) (polling : s.consume.pc = .polling)
    (answer : PollResult) : Inv { s with consume := s.consume.poll answer } where
  consume := inv.consume.poll polling answer
  produce := inv.produce
  handshake := by
    have alive : s.consume.pc.txDropped = false := by rw [polling]; rfl
    cases answer with
    | err => exact inv.handshake.advance alive (fun _ h => by cases h) (fun h => by cases h)
    | ok records =>
      cases records with
      | nil =>
          refine inv.handshake.advance alive (fun e => ?_) ?_ <;>
            simp only [Consume.poll] <;> split <;> simp [ConsumePc.exit]
      | cons record records =>
          exact inv.handshake.advance alive (fun _ h => by cases h) (fun h => by cases h)
  split := by
    have split := inv.split
    rw [polling] at split
    cases answer with
    | err => exact split
    | ok records =>
      cases records with
      | nil =>
          simp only [Consume.poll]
          rw [split]
          split <;> rfl
      | cons record records => exact split

theorem Inv.turn {s : Worker} (inv : s.Inv) {record : Record} {rest : List Record}
    (batch : s.consume.pc = .batch (record :: rest)) :
    Inv { s with consume := s.consume.turn record rest } := by
  have alive : s.consume.pc.txDropped = false := by rw [batch]; rfl
  have split := inv.split
  rw [batch] at split
  simp only [ConsumePc.blocked, List.append_nil] at split
  refine ⟨inv.consume.turn batch, inv.produce, inv.handshake.advance alive ?_ ?_, ?_⟩ <;>
    rcases s.consume.afterDecode_cases record rest with ⟨-, result, hpc⟩ | ⟨buf, -, result, hpc⟩ |
      ⟨-, result, hpc⟩ <;>
    simp [Consume.turn, hpc, result, ConsumePc.exit, ConsumePc.blocked, List.zipIdx_append, split]

theorem Inv.send {s : Worker} (inv : s.Inv) {item : Bytes × Nat} {rest : List Record}
    (sending : s.consume.pc = .sending item rest) : (s.enqueue item rest).Inv where
  consume := inv.consume.goto (by rw [sending]; rfl) (by rw [sending]; rfl) rfl (by simp)
  produce := inv.produce
  handshake := inv.handshake.advance (by rw [sending]; rfl) (by simp [Worker.goto])
    (by simp [Worker.goto, ConsumePc.exit])
  split := by
    have split := inv.split
    rw [sending] at split
    simpa [Worker.enqueue, Worker.goto, ConsumePc.blocked] using split

/-- The produce task goes on, taking what it pushes from the queue. -/
theorem Inv.work {s : Worker} (inv : s.Inv) (running : s.produce.pc.done = false) (p : Produce)
    (queue : List (Bytes × Nat)) (pinv : p.Inv) (running' : p.pc ≠ .cancelled)
    (closed : p.channelOpen = false → s.consume.pc.txDropped ∧ queue = [])
    (moved : p.inFlight.pushed ++ queue = s.produce.inFlight.pushed ++ s.queue) :
    Inv { s with produce := p, queue := queue } where
  consume := inv.consume
  produce := pinv
  handshake := inv.handshake.work running running' closed
  split := by
    simp only [moved]
    exact inv.split

theorem Inv.enter {s : Worker} (inv : s.Inv) (starting : s.consume.pc = .starting) :
    s.enter.Inv := by
  have running := inv.not_done (by rw [starting]; rfl)
  have moved : (s.goto .top).Inv := inv.goto (by rw [starting]; rfl) (by rw [starting]; rfl)
    (by rw [starting]; rfl) (by rw [starting]; rfl) rfl (by simp) (by simp) (fun h => by cases h)
  refine moved.work running { s.produce with pc := .selecting } s.queue
    (inv.produce.keep running rfl rfl rfl) (by simp) (fun isClosed => ?_) rfl
  have dropped := (inv.handshake.closed isClosed).1
  rw [starting] at dropped
  cases dropped

theorem Inv.join {s : Worker} (inv : s.Inv) {exit : Exit} (joining : s.consume.pc = .joining exit)
    (done : s.produce.pc.done) : (s.goto (.ended (some exit))).Inv := by
  have finished := inv.finished done (by rw [joining]; simp)
  have exit := inv.handshake.exit
  have split := inv.split
  rw [joining] at exit split
  refine ⟨inv.consume.goto (by rw [joining]; rfl) (by rw [joining]; rfl) rfl (by simp),
    inv.produce, ⟨fun isClosed => ⟨rfl, (inv.handshake.closed isClosed).2⟩, fun cancelled => ?_,
      fun _ _ => finished, exit⟩, split⟩
  rw [show s.produce.pc = .cancelled from cancelled] at finished
  cases finished

theorem Inv.complete {s : Worker} (inv : s.Inv) {answer : Poll SendResult}
    {inFlight : FuturePool (Bytes × Nat) SendResult} (selecting : s.produce.pc = .selecting)
    (polled : s.produce.inFlight.poll answer = some inFlight) :
    Inv { s with produce := s.produce.afterPoll inFlight answer } := by
  have running : s.produce.pc.done = false := by rw [selecting]; rfl
  obtain ⟨-, -, -, -, pushed, -⟩ := FuturePool.poll_eq_some polled
  have pinv := inv.produce.complete selecting polled
  refine inv.work running _ s.queue pinv ?_ ?_ ?_
  · cases answer <;> simp only [Produce.afterPoll, selecting]
    · simp
    · split <;> simp
  · cases answer <;> exact inv.handshake.closed
  · cases answer <;> rw [← pushed] <;> rfl

theorem Inv.move {total counter counter' : Nat} {s s' : Worker} {l : Label} (inv : s.Inv)
    (move : Move total counter s l counter' s') : s'.Inv := by
  have closed := inv.handshake.closed
  cases move with
  | enter starting => exact inv.enter starting
  | startFails starting =>
      have split := inv.split
      rw [starting] at split
      exact ⟨inv.consume.startFails starting, inv.produce,
        inv.handshake.advance (by rw [starting]; rfl) (by simp) (fun h => by cases h), split⟩
  | check top => exact inv.check top total counter
  | poll answer polling => exact inv.poll polling answer
  | batchEnd batch =>
      exact inv.goto (by rw [batch]; rfl) (by rw [batch]; rfl) (by rw [batch]; rfl)
        (by rw [batch]; rfl) rfl (by simp) (by simp) (fun h => by cases h)
  | turn record rest batch => exact inv.turn batch
  | sendFails item rest sending done =>
      rw [inv.not_done (by rw [sending]; rfl)] at done
      cases done
  | send item rest sending room => exact inv.send sending
  | dropTx exit left =>
      have unchanged := inv.handshake.exit
      rw [left] at unchanged
      exact inv.goto (by rw [left]; rfl) (by rw [left]; rfl) (by rw [left]; rfl)
        (by rw [left]; rfl) rfl (by simp) (by simp) unchanged
  | join exit joining done => exact inv.join joining done
  | shutdown unwinding awaiting =>
      have split := inv.split
      rw [unwinding] at split
      exact ⟨inv.consume.endCrash unwinding, inv.produce.shutdown,
        ⟨fun isClosed => ⟨rfl, (closed isClosed).2⟩, fun _ => rfl,
          (fun _ h => by cases h), (fun h => by cases h)⟩, split⟩
  | recv item queue selecting isOpen room front =>
      have running : s.produce.pc.done = false := by rw [selecting]; rfl
      refine inv.work running { s.produce with inFlight := s.produce.inFlight.push item } queue
        (inv.produce.keep running running rfl rfl) (by simp [selecting]) (fun isClosed => ?_)
        (by simp [front])
      rw [show s.produce.channelOpen = false from isClosed] at isOpen
      cases isOpen
  | recvNone selecting isOpen empty dropped =>
      have running : s.produce.pc.done = false := by rw [selecting]; rfl
      exact inv.work running { s.produce with channelOpen := false } s.queue
        (inv.produce.keep running running rfl rfl) (by simp [selecting])
        (fun _ => ⟨dropped, empty⟩) rfl
  | complete answer inFlight selecting polled => exact inv.complete selecting polled
  | wake i inFlight running woken =>
      have running : s.produce.pc.done = false := by
        rcases running with h | h <;> rw [h] <;> rfl
      obtain ⟨pushed, finished, -⟩ := FuturePool.wake_spec woken
      refine inv.work running { s.produce with inFlight := inFlight } s.queue
        (inv.produce.keep running running rfl finished) (fun cancelled => ?_) closed
        (by rw [← pushed])
      rw [show s.produce.pc = .cancelled from cancelled] at running
      cases running
  | publish publishing =>
      have running : s.produce.pc.done = false := by rw [publishing]; rfl
      exact inv.work running s.produce.publish s.queue
        (inv.produce.keep running rfl rfl rfl) (fun h => by cases h) closed rfl
  | finish selecting isClosed empty =>
      have running : s.produce.pc.done = false := by rw [selecting]; rfl
      exact inv.work running s.produce.finish s.queue
        (inv.produce.finish selecting isClosed empty) (fun h => by cases h) closed rfl

theorem Inv.of_reachable {total : Nat} {s : Worker}
    (reached : (step total).alone.Reachable start s) : s.Inv := by
  refine reached.invariant inv_start fun l s s' inv hstep => ?_
  obtain ⟨counter', hstep⟩ := Proc.alone_eq_some.mp hstep
  exact inv.move (step_move hstep)

/-- Every result computed has had its send resolved once, and was counted. -/
def Accounted (s : Worker) : Prop :=
  (s.produce.inFlight.finished.map Prod.fst).Perm s.consume.computed.zipIdx ∧
    s.produce.added = s.consume.computed.length

/-- A thread that ended normally has accounted for its results. -/
theorem Inv.accounted {s : Worker} (inv : s.Inv) {exit : Exit}
    (ended : s.consume.pc = .ended (some exit)) : s.Accounted := by
  have finished := inv.handshake.joined exit ended
  obtain ⟨isClosed, empty⟩ := inv.produce.drained finished
  have split := inv.split
  rw [(inv.handshake.closed isClosed).2, ended] at split
  simp only [ConsumePc.blocked, List.append_nil] at split
  obtain ⟨-, kept⟩ := FuturePool.of_len_eq_zero empty
  rw [← split] at kept
  refine ⟨kept, ?_⟩
  have length := kept.length_eq
  rw [List.length_map, List.length_zipIdx] at length
  rw [inv.produce.all finished, length]

/-- The shared counter grows by what the worker adds to it. -/
theorem Move.fetchAdd {total counter counter' : Nat} {s s' : Worker} {l : Label}
    (move : Move total counter s l counter' s') : ∃ n, s'.produce.added = s.produce.added + n ∧
      (counter' = counter ∧ n = 0 ∨ counter' = fetchAdd counter n) := by
  cases move with
  | complete answer inFlight selecting polled =>
      cases answer <;> exact ⟨0, rfl, .inl ⟨rfl, rfl⟩⟩
  | publish publishing => exact ⟨s.produce.localCounter, rfl, .inr rfl⟩
  | finish selecting isClosed empty =>
      refine ⟨s.produce.localCounter, rfl, ?_⟩
      split
      · exact .inr rfl
      · exact .inl ⟨rfl, by omega⟩
  | _ => exact ⟨0, rfl, .inl ⟨rfl, rfl⟩⟩

/-! ## On a partition -/

/-- The records that `poll` hands out. -/
def Label.handed : Label → List Record
  | .poll (.ok records) => records
  | _ => []

/-- The worker on its partition: `poll` hands out the next records of the log. -/
def onPartition (log : List Record) (total : Nat) : Proc Nat Worker Label := fun counter s l =>
  if s.consume.polled ++ l.handed <+: log then step total counter s l else none

theorem onPartition_eq_some {log : List Record} {total counter counter' : Nat} {s s' : Worker}
    {l : Label} : onPartition log total counter s l = some (counter', s') ↔
      s.consume.polled ++ l.handed <+: log ∧ step total counter s l = some (counter', s') := by
  rw [onPartition, Option.ite_none_right_eq_some]

theorem Move.polled {total counter counter' : Nat} {s s' : Worker} {l : Label}
    (move : Move total counter s l counter' s') :
    s'.consume.polled = s.consume.polled ++ l.handed := by
  cases move with
  | poll answer polling =>
      cases answer with
      | err => exact (List.append_nil _).symm
      | ok records =>
        cases records with
        | nil => exact (List.append_nil _).symm
        | cons record records => rfl
  | _ => exact (List.append_nil _).symm

/-- A worker on a partition is a worker, and has been handed a prefix of the log. -/
theorem onPartition_reachable {log : List Record} {total : Nat} {s : Worker}
    (reached : (onPartition log total).alone.Reachable start s) :
    (step total).alone.Reachable start s ∧ s.consume.polled <+: log := by
  refine reached.invariant (I := fun s => (step total).alone.Reachable start s ∧
    s.consume.polled <+: log) ⟨.refl _, List.nil_prefix⟩ ?_
  intro label s s' before hstep
  rcases label with ⟨counter, l⟩
  rcases before with ⟨reached, -⟩
  obtain ⟨counter', hstep⟩ := Proc.alone_eq_some.mp hstep
  obtain ⟨handed, hstep⟩ := onPartition_eq_some.mp hstep
  refine ⟨reached.trans (.single (counter, l) (Proc.alone_eq_some.mpr ⟨_, hstep⟩)), ?_⟩
  rw [(step_move hstep).polled]
  exact handed

end Worker

/-- **A worker keeps the record order and loses nothing.**  In every reachable state
the results computed so far are those whose send was polled, those pushed and not yet
polled, those in the channel and the one in a blocked `tx.send`, in this order.  Once
the thread has ended after leaving its loop, which it never does over a closed channel,
every value-carrying record it was handed has had one send resolved and was counted
once in what the worker added to the shared counter. -/
theorem worker_inOrder {total : Nat} {s : Worker}
    (reached : (Worker.step total).alone.Reachable Worker.start s) :
    s.consume.computed = resultsOf s.consume.consumed ∧
      s.consume.computed.zipIdx = s.produce.inFlight.started ++ s.produce.inFlight.fresh ++
        s.queue ++ s.consume.pc.blocked ∧
      s.consume.pc.blocked.length ≤ 1 ∧
      (∀ exit, s.consume.pc = .ended (some exit) →
        exit ≠ .channelClosed ∧ s.consume.consumed = s.consume.polled ∧
        (s.produce.inFlight.finished.map Prod.fst).Perm s.consume.computed.zipIdx ∧
        s.consume.computed.length = valueCount s.consume.consumed ∧
        s.produce.added = valueCount s.consume.consumed) ∧
      ∀ counter l counter' s', counter < 2 ^ 64 →
        Worker.step total counter s l = some (counter', s') →
        ∃ n, s'.produce.added = s.produce.added + n ∧ counter' = fetchAdd counter n := by
  have inv := Worker.Inv.of_reachable reached
  refine ⟨inv.consume.computed, ?_, ?_, fun exit ended => ?_, ?_⟩
  · rw [inv.split, ← s.produce.inFlight.inOrder]
    rfl
  · cases s.consume.pc <;> simp [ConsumePc.blocked]
  · have sound : s.consume.pc.crashed = false := by rw [ended]; rfl
    obtain ⟨resolved, added⟩ := inv.accounted ended
    have exits := inv.handshake.exit
    have whole := inv.consume.whole sound
    have length := length_resultsOf (inv.consume.decode sound)
    rw [ended] at exits whole
    rw [← inv.consume.computed] at length
    exact ⟨fun h => exits (congrArg some h), by simpa [ConsumePc.rest] using whole, resolved,
      length, added.trans length⟩
  · intro counter l counter' s' small hstep
    obtain ⟨n, added, ⟨rfl, rfl⟩ | rfl⟩ := (Worker.step_move hstep).fetchAdd
    · exact ⟨0, added, (Nat.mod_eq_of_lt small).symm⟩
    · exact ⟨n, added, rfl⟩

/-- A worker that is handed two records and then finds its partition empty.  The second send
resolves while the first one is pending. -/
def secondFirst : List (Nat × Worker.Label) :=
  [(0, .start true), (0, .check),
    (0, .poll (.ok [⟨some [0x02#8, 0x06#8, 0x00#8]⟩, ⟨some [0x02#8, 0x08#8, 0x00#8]⟩])),
    (0, .next), (0, .send), (0, .next), (0, .send), (0, .next), (0, .recv), (0, .recv),
    (0, .complete .pending), (0, .complete (.ready .ok)),
    (0, .check), (0, .poll (.ok [])), (0, .check), (0, .poll .err), (0, .check),
    (0, .poll (.ok [])), (0, .check), (0, .poll (.ok [])), (0, .wake 0), (0, .dropTx),
    (0, .complete (.ready .ok)), (0, .recv), (0, .finish), (2, .join)]

theorem worker_inOrder_secondFirst : ∃ s : Worker,
    (Worker.step 50).alone.run Worker.start secondFirst = some s ∧
      s.consume.pc = .ended (some .emptyPolls) ∧
      s.produce.inFlight.finished.map Prod.fst = [([0x08#8], 1), ([0x06#8], 0)] ∧
      [([0x08#8], 1), ([0x06#8], 0)].Perm s.consume.computed.zipIdx ∧ s.produce.added = 2 := by
  have ends : ((Worker.step 50).alone.run Worker.start secondFirst).map
      (fun s => (s.consume.pc, valueCount s.consume.consumed,
        s.produce.inFlight.finished.map Prod.fst)) =
          some (.ended (some .emptyPolls), 2, [([0x08#8], 1), ([0x06#8], 0)]) := by
    decide +kernel
  obtain ⟨s, hrun, hs⟩ := Option.map_eq_some_iff.mp ends
  simp only [Prod.mk.injEq] at hs
  obtain ⟨ended, count, finished⟩ := hs
  obtain ⟨-, -, -, accounted, -⟩ := worker_inOrder ⟨_, hrun⟩
  obtain ⟨-, -, resolved, -, added⟩ := accounted _ ended
  exact ⟨s, hrun, ended, finished, finished ▸ resolved, added.trans count⟩

end KafkaTest
