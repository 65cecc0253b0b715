import KafkaTest.BatchedStop
import KafkaTest.QueueFull
import KafkaTest.Throughput

/-!
# Calls of produce that are made again

The load loop of the Go processor and the one of `producer.py` make a call again while the queue
of the client is full, and go on with the next record after any other error; the load loop of
the Python processor dies of any error.  The workers do the same, those of rdkafka-Rust ignore
every answer.

`Served` is what these loops have in common: one record after the other, each with any number of
calls that do not count and a last one that does.  A record is then accepted at most once, and
lost exactly if an error counted (`Served.accepted_eq_iff`).

* `load_accepts`: the three load loops, with the bytes they write.
* `worker_accepts`: the workers of Phase 2.  What their client accepts are the results of the
  messages they polled, in order.
-/

namespace KafkaTest

/-- The loop is done with the record. -/
def AfterProduce.counts : AfterProduce → Bool
  | count => true
  | _ => false

/-! ## One record after the other -/

/-- Calls for some records: those that do not count are made again, or are the last. -/
inductive Served (after : ProduceAnswer → AfterProduce) : List Bytes → List ProduceCall → Prop
  | nil : Served after [] []
  | again {bufs : List Bytes} {calls : List ProduceCall} {answer : ProduceAnswer} (buf : Bytes) :
      Served after bufs calls → (after answer).counts = false →
      Served after bufs (calls ++ [⟨bufs.length, buf, answer⟩])
  | count {bufs : List Bytes} {calls : List ProduceCall} {answer : ProduceAnswer} (buf : Bytes) :
      Served after bufs calls → (after answer).counts = true →
      Served after (bufs ++ [buf]) (calls ++ [⟨bufs.length, buf, answer⟩])

namespace ProduceCall

theorem accepted_append_one (calls : List ProduceCall) {call : ProduceCall}
    (takes : call.answer = .accepted) :
    accepted (calls ++ [call]) = accepted calls ++ [(call.buf, call.record)] := by
  simp [accepted, takes]

theorem accepted_append_none (calls : List ProduceCall) {call : ProduceCall}
    (refuses : call.answer ≠ .accepted) : accepted (calls ++ [call]) = accepted calls := by
  simp [accepted, refuses]

end ProduceCall

namespace Served

variable {after : ProduceAnswer → AfterProduce} {bufs : List Bytes} {calls : List ProduceCall}

/-- The calls that counted although the client did not take the record. -/
def lost (after : ProduceAnswer → AfterProduce) (calls : List ProduceCall) : Nat :=
  calls.countP fun call => call.answer ≠ .accepted ∧ (after call.answer).counts

theorem refused_of_again {answer : ProduceAnswer} (accepts : (after .accepted).counts)
    (again : (after answer).counts = false) : answer ≠ .accepted := by
  rintro rfl
  rw [accepts] at again
  cases again

/-- What is accepted are records in order, each at most once. -/
theorem accepted_sublist (accepts : (after .accepted).counts) (served : Served after bufs calls) :
    (ProduceCall.accepted calls).Sublist bufs.zipIdx := by
  induction served with
  | nil => exact List.Sublist.slnil
  | again buf served again ih =>
      rw [ProduceCall.accepted_append_none _ (refused_of_again accepts again)]
      exact ih
  | count buf served counts ih =>
      rename_i bufs calls answer
      rw [List.zipIdx_append, Nat.zero_add]
      by_cases takes : answer = .accepted
      · rw [ProduceCall.accepted_append_one _ takes]
        exact ih.append (List.Sublist.refl _)
      · rw [ProduceCall.accepted_append_none _ takes]
        exact ih.trans (List.sublist_append_left _ _)

/-- Each record is accepted or lost. -/
theorem length_accepted (accepts : (after .accepted).counts) (served : Served after bufs calls) :
    (ProduceCall.accepted calls).length + lost after calls = bufs.length := by
  unfold lost
  induction served with
  | nil => rfl
  | again buf served again ih =>
      rw [ProduceCall.accepted_append_none _ (refused_of_again accepts again),
        List.countP_append, List.countP_singleton]
      simpa [again] using ih
  | count buf served counts ih =>
      rename_i bufs calls answer
      rw [List.countP_append, List.countP_singleton, List.length_append, List.length_singleton]
      by_cases takes : answer = .accepted
      · rw [ProduceCall.accepted_append_one _ takes, List.length_append, List.length_singleton,
          if_neg (by simp [takes])]
        omega
      · rw [ProduceCall.accepted_append_none _ takes, if_pos (by simp [takes, counts])]
        omega

/-- The client accepts every record exactly if none is given up. -/
theorem accepted_eq_iff (accepts : (after .accepted).counts) (served : Served after bufs calls) :
    ProduceCall.accepted calls = bufs.zipIdx ↔
      ∀ call ∈ calls, (after call.answer).counts → call.answer = .accepted := by
  have length := served.length_accepted accepts
  have all : ProduceCall.accepted calls = bufs.zipIdx ↔ lost after calls = 0 := by
    constructor
    · intro same
      rw [same, List.length_zipIdx] at length
      omega
    · intro none
      refine (served.accepted_sublist accepts).eq_of_length ?_
      rw [List.length_zipIdx]
      omega
  rw [all]
  unfold lost
  rw [List.countP_eq_zero]
  refine forall_congr' fun call => forall_congr' fun member => ?_
  simp only [decide_eq_true_eq, not_and]
  tauto

end Served

/-! ## The load loops -/

/-- What distinguishes the load loop of one program; a loop without a `total` goes on for good. -/
structure LoadProgram where
  producer : Producer
  afterProduce : ProduceAnswer → AfterProduce
  total : Option Nat

/-- Where a load loop stands: before a turn of the `for` loop, in its call of produce, at the
flush, or dead. -/
inductive LoadPc
  | filling
  | producing (buf : Bytes)
  | flushing
  | crashed
  deriving DecidableEq

/-- A load loop, with the records it is done with and the calls it made. -/
structure LoadLoop where
  pc : LoadPc
  loaded : List Bytes
  calls : List ProduceCall

namespace LoadProgram

inductive Label
  | generate (draw : Draw)
  | produce (answer : ProduceAnswer)
  | rangeEnd

/-- What is drawn in a run, in order. -/
def draws (ls : List Label) : List Draw :=
  ls.filterMap fun l =>
    match l with
    | .generate draw => some draw
    | _ => none

def start : LoadLoop := ⟨.filling, [], []⟩

/-- The range is not used up. -/
def more (p : LoadProgram) (s : LoadLoop) : Bool :=
  p.total.all fun total => s.loaded.length < total

/-- The client answers the call. -/
def produce (p : LoadProgram) (s : LoadLoop) (buf : Bytes) (answer : ProduceAnswer) : LoadLoop :=
  let calls := s.calls ++ [⟨s.loaded.length, buf, answer⟩]
  match p.afterProduce answer with
  | .again => { s with calls := calls }
  | .count => { pc := .filling, loaded := s.loaded ++ [buf], calls := calls }
  | .crash => { s with pc := .crashed, calls := calls }

/-- One transition of a load loop. -/
def step (p : LoadProgram) : Machine LoadLoop Label := fun s l =>
  match l, s.pc with
  | .generate draw, .filling =>
      if p.more s then
        match p.producer.record draw.numbers with
        | .ok buf => some { s with pc := .producing buf }
        | _ => some { s with pc := .crashed }
      else none
  | .produce answer, .producing buf => some (p.produce s buf answer)
  | .rangeEnd, .filling => if p.more s then none else some { s with pc := .flushing }
  | _, _ => none

end LoadProgram

/-- `stream-test-go`, Phase 1 in `main` of `cmd/processor`. -/
def Go.phase1 (total : Nat) : LoadProgram where
  producer := .go
  afterProduce
    | .queueFull => .again
    | _ => .count
  total := some total

/-- `stream-test-python`, Phase 1 in `processor.py`: any error raises. -/
def Python.phase1 (total : Nat) : LoadProgram where
  producer := .python
  afterProduce
    | .accepted => .count
    | _ => .crash
  total := some total

/-- `stream-test-python`, `producer_worker` in `producer.py`: `except BufferError` polls and
calls again, `except Exception` breaks. -/
def PythonProducer.producerWorker : LoadProgram where
  producer := .pythonProducer
  afterProduce
    | .queueFull => .again
    | _ => .count
  total := none

/-- The programs whose load loops look at the answer. -/
inductive Loading
  | go
  | python
  | pythonProducer
  deriving DecidableEq

def Loading.program (total : Nat) : Loading → LoadProgram
  | go => Go.phase1 total
  | python => Python.phase1 total
  | pythonProducer => PythonProducer.producerWorker

/-- The answers that do not make a loop go on without the record. -/
theorem Loading.keeps_iff (L : Loading) {total : Nat} {answer : ProduceAnswer} :
    (((L.program total).afterProduce answer).counts → answer = .accepted) ↔
      L = .python ∨ answer ≠ .failed := by
  cases L <;> cases answer <;>
    simp [program, Go.phase1, Python.phase1, PythonProducer.producerWorker, AfterProduce.counts]

theorem Loading.crash_iff (L : Loading) {total : Nat} {answer : ProduceAnswer} :
    (L.program total).afterProduce answer = .crash ↔ L = .python ∧ answer ≠ .accepted := by
  cases L <;> cases answer <;>
    simp [program, Go.phase1, Python.phase1, PythonProducer.producerWorker]

/-- The load loops have one record of a draw. -/
theorem Producer.record_numbers (P : Producer) (d : Draw) : P.record d.numbers = .ok d.payload := by
  have few : d.numbers.length < 2 ^ 31 := by
    have := d.atMost
    rw [Draw.numbers, List.length_map]
    omega
  rw [Producer.record_eq few P, ← Producer.record_eq few .krafka, d.payload_eq_load]
  rfl

/-- What has been drawn and is not done: the record of the call, or the one the loop died of. -/
def LoadPc.AtHand : LoadPc → List Bytes → Prop
  | producing buf, last => last = [buf]
  | crashed, last => last.length = 1
  | _, last => last = []

namespace LoadLoop

/-- What holds of a load loop whenever it is observed, after so many draws. -/
structure Inv (p : LoadProgram) (draws : List Draw) (s : LoadLoop) : Prop where
  served : Served p.afterProduce s.loaded s.calls
  drawn : ∃ last, draws.map Draw.payload = s.loaded ++ last ∧ s.pc.AtHand last
  more : ∀ buf, s.pc = .producing buf → p.more s
  complete : s.pc = .flushing → p.more s = false
  within : ∀ total, p.total = some total → s.loaded.length ≤ total
  crashed : s.pc = .crashed ↔ ∃ call ∈ s.calls, p.afterProduce call.answer = .crash

variable {p : LoadProgram} {draws draws' : List Draw} {s s' : LoadLoop}

theorem inv_start (p : LoadProgram) : Inv p [] LoadProgram.start where
  served := .nil
  drawn := ⟨[], rfl, rfl⟩
  more buf producing := by cases producing
  complete flushing := by cases flushing
  within _ _ := Nat.zero_le _
  crashed := by simp [LoadProgram.start]

/-- A loop that goes elsewhere, without a call. -/
theorem Inv.goto (inv : Inv p draws s) {pc : LoadPc} (alive : s.pc ≠ .crashed)
    (alive' : pc ≠ .crashed)
    (drawn : ∃ last, draws'.map Draw.payload = s.loaded ++ last ∧ pc.AtHand last)
    (more : ∀ buf, pc = .producing buf → p.more s) (complete : pc = .flushing → p.more s = false) :
    Inv p draws' { s with pc := pc } where
  served := inv.served
  drawn := drawn
  more := more
  complete := complete
  within := inv.within
  crashed := by
    rw [← inv.crashed]
    exact ⟨fun h => (alive' h).elim, fun h => (alive h).elim⟩

/-- The calls after one more, which is answered. -/
theorem exists_crash_append (calls : List ProduceCall) (call : ProduceCall) :
    (∃ c ∈ calls ++ [call], p.afterProduce c.answer = .crash) ↔
      (∃ c ∈ calls, p.afterProduce c.answer = .crash) ∨ p.afterProduce call.answer = .crash := by
  simp only [List.mem_append, List.mem_singleton, or_and_right, exists_or, exists_eq_left]

theorem Inv.produce (inv : Inv p draws s) {buf : Bytes} (producing : s.pc = .producing buf)
    (answer : ProduceAnswer) : Inv p draws (p.produce s buf answer) := by
  have more := inv.more buf producing
  obtain ⟨last, drawn, atHand⟩ := inv.drawn
  have same : last = [buf] := by
    rwa [producing] at atHand
  subst same
  have none : ¬ ∃ call ∈ s.calls, p.afterProduce call.answer = .crash := by
    rw [← inv.crashed, producing]
    simp
  unfold LoadProgram.produce
  cases taken : p.afterProduce answer with
  | again =>
      refine ⟨.again buf inv.served (by rw [taken]; rfl), inv.drawn, inv.more, inv.complete,
        inv.within, ?_⟩
      rw [exists_crash_append, taken, producing]
      simp [none]
  | count =>
      refine ⟨.count buf inv.served (by rw [taken]; rfl), ⟨[], ?_, rfl⟩, ?_, ?_, ?_, ?_⟩
      · rw [List.append_nil]
        exact drawn
      · intro buf producing
        cases producing
      · intro flushing
        cases flushing
      · intro total bounded
        unfold LoadProgram.more at more
        rw [bounded, Option.all_some, decide_eq_true_eq] at more
        rw [List.length_append]
        exact more
      · rw [exists_crash_append, taken]
        simp [none]
  | crash =>
      refine ⟨.again buf inv.served (by rw [taken]; rfl), ⟨[buf], drawn, rfl⟩, ?_, ?_,
        inv.within, ?_⟩
      · intro buf producing
        cases producing
      · intro flushing
        cases flushing
      · rw [exists_crash_append, taken]
        simp

theorem Inv.step {l : LoadProgram.Label} (inv : Inv p draws s) (hstep : p.step s l = some s') :
    Inv p (draws ++ LoadProgram.draws [l]) s' := by
  unfold LoadProgram.step at hstep
  split at hstep
  · rename_i draw filling
    rw [Producer.record_numbers, Option.ite_none_right_eq_some] at hstep
    obtain ⟨more, same⟩ := hstep
    cases same
    obtain ⟨last, drawn, none⟩ := inv.drawn
    rw [filling] at none
    rw [none, List.append_nil] at drawn
    refine inv.goto (by simp [filling]) (by simp) ⟨[draw.payload], ?_, rfl⟩ (fun _ _ => more)
      (by simp)
    rw [List.map_append, drawn]
    rfl
  · rename_i answer buf producing
    cases hstep
    exact (List.append_nil draws).symm ▸ inv.produce producing answer
  · rename_i filling
    rw [Option.ite_none_left_eq_some] at hstep
    obtain ⟨used, same⟩ := hstep
    cases same
    obtain ⟨last, drawn, none⟩ := inv.drawn
    rw [filling] at none
    exact inv.goto (by simp [filling]) (by simp)
      ⟨last, (List.append_nil draws).symm ▸ drawn, none⟩ (by simp) fun _ => by simpa using used
  · cases hstep

theorem Inv.of_run {ls : List LoadProgram.Label}
    (hrun : p.step.run LoadProgram.start ls = some s) : Inv p (LoadProgram.draws ls) s := by
  refine Machine.run_induction (I := fun ls s => Inv p (LoadProgram.draws ls) s) (inv_start p)
    (fun ls l s s' inv hstep => ?_) hrun
  have more := inv.step hstep
  unfold LoadProgram.draws at more ⊢
  rwa [List.filterMap_append]

/-- A loop that flushes is done with its range. -/
theorem Inv.length_eq (inv : Inv p draws s) {total : Nat} (bounded : p.total = some total)
    (flushing : s.pc = .flushing) : s.loaded.length = total := by
  have used := inv.complete flushing
  have within := inv.within total bounded
  unfold LoadProgram.more at used
  rw [bounded, Option.all_some, decide_eq_false_iff_not] at used
  omega

/-- At most one record is not done. -/
theorem Inv.length_draws_le (inv : Inv p draws s) : draws.length ≤ s.loaded.length + 1 := by
  obtain ⟨last, drawn, atHand⟩ := inv.drawn
  have lengths := congrArg List.length drawn
  rw [List.length_map, List.length_append] at lengths
  have one : last.length ≤ 1 := by
    cases pc : s.pc with
    | filling | flushing =>
        rw [pc] at atHand
        exact atHand ▸ Nat.zero_le 1
    | producing buf =>
        rw [pc] at atHand
        exact atHand ▸ le_rfl
    | crashed =>
        rw [pc] at atHand
        exact atHand.le
  omega

end LoadLoop

/-- **What a load loop gets accepted.**  In every run the records it is done with are those drawn,
in order and up to the one at hand, the same bytes in each program, and the client accepts them in
order, each at most once.  It accepts all of them exactly if no call failed for another reason
than a full queue; in Python it always does, as the loader dies exactly of its first error.  At
the flush the range is used up, and nothing drawn is left over. -/
theorem load_accepts (L : Loading) {total : Nat} {ls : List LoadProgram.Label} {s : LoadLoop}
    (hrun : (L.program total).step.run LoadProgram.start ls = some s) :
    s.loaded <+: (LoadProgram.draws ls).map Draw.payload ∧
      (LoadProgram.draws ls).length ≤ s.loaded.length + 1 ∧
      (ProduceCall.accepted s.calls).Sublist s.loaded.zipIdx ∧
      (ProduceCall.accepted s.calls = s.loaded.zipIdx ↔
        L = .python ∨ ∀ call ∈ s.calls, call.answer ≠ .failed) ∧
      (s.pc = .crashed ↔ L = .python ∧ ∃ call ∈ s.calls, call.answer ≠ .accepted) ∧
      (s.pc = .flushing →
        s.loaded = (LoadProgram.draws ls).map Draw.payload ∧ s.loaded.length = total) := by
  have inv := LoadLoop.Inv.of_run hrun
  have accepts : ((L.program total).afterProduce .accepted).counts := by cases L <;> rfl
  obtain ⟨last, drawn, atHand⟩ := inv.drawn
  refine ⟨⟨last, drawn.symm⟩, inv.length_draws_le, inv.served.accepted_sublist accepts, ?_, ?_,
    fun flushing => ⟨?_, ?_⟩⟩
  · rw [inv.served.accepted_eq_iff accepts]
    constructor
    · intro kept
      by_cases python : L = .python
      · exact .inl python
      · refine .inr fun call member => ?_
        exact (L.keeps_iff.mp (kept call member)).resolve_left python
    · intro failed call member
      exact L.keeps_iff.mpr (failed.imp_right fun none => none call member)
  · rw [inv.crashed]
    simp only [Loading.crash_iff, exists_and_left, and_left_comm]
  · rw [flushing] at atHand
    rw [drawn, atHand, List.append_nil]
  · cases L with
    | pythonProducer => exact absurd (inv.complete flushing) (by simp [Loading.program,
        PythonProducer.producerWorker, LoadProgram.more])
    | _ => exact inv.length_eq rfl flushing

/-- One record, for which the queue is full at first. -/
def fullAtFirst (draw : Draw) : List LoadProgram.Label :=
  [.generate draw, .produce .queueFull, .produce .accepted, .rangeEnd]

theorem load_accepts_fullAtFirst : ∃ s : LoadLoop,
    (Go.phase1 1).step.run LoadProgram.start
        (fullAtFirst ⟨[7, 70], by decide, by decide⟩) = some s ∧
      s.loaded = [Draw.payload ⟨[7, 70], by decide, by decide⟩] ∧
      (ProduceCall.accepted s.calls).Sublist s.loaded.zipIdx := by
  have flushes : ((Go.phase1 1).step.run LoadProgram.start
      (fullAtFirst ⟨[7, 70], by decide, by decide⟩)).map LoadLoop.pc = some .flushing := by
    decide +kernel
  obtain ⟨s, hrun, flushing⟩ := Option.map_eq_some_iff.mp flushes
  obtain ⟨-, -, inOrder, -, -, complete⟩ := load_accepts .go hrun
  exact ⟨s, hrun, (complete flushing).1, inOrder⟩

/-! ## The workers -/

/-- What is observed of a worker: it is handed a message, or makes a call. -/
inductive WorkerEvent
  | polled (value : Option Bytes)
  | called (call : ProduceCall)

namespace WorkerEvent

variable {log log' : List WorkerEvent}

def message : WorkerEvent → Option (Option Bytes)
  | polled value => some value
  | called _ => none

def call : WorkerEvent → Option ProduceCall
  | polled _ => none
  | called call => some call

/-- The messages handed to the worker. -/
def messages (log : List WorkerEvent) : List (Option Bytes) := log.filterMap message

/-- The calls of the worker. -/
def calls (log : List WorkerEvent) : List ProduceCall := log.filterMap call

theorem messages_append : messages (log ++ log') = messages log ++ messages log' :=
  List.filterMap_append

theorem calls_append : calls (log ++ log') = calls log ++ calls log' :=
  List.filterMap_append

end WorkerEvent

/-- The result to produce, if there is one. -/
def Handled.result : Handled → List Bytes
  | send buf => [buf]
  | _ => []

/-- What the call of produce is about. -/
def BatchPc.atHand : BatchPc → List Bytes
  | producing buf => [buf]
  | _ => []

namespace BatchProgram

/-- The results of some messages. -/
def results (p : BatchProgram) (messages : List (Option Bytes)) : List Bytes :=
  messages.flatMap fun value => (p.handle value).result

/-- What a step of a worker shows. -/
def events (s : BatchWorker) : Label → List WorkerEvent
  | .poll (some value) => [.polled value]
  | l => (calls s l).map .called

theorem events_produce {s : BatchWorker} {buf : Bytes} (producing : s.pc = .producing buf)
    (answer : ProduceAnswer) :
    events s (.produce answer) = [.called ⟨s.processed, buf, answer⟩] := by
  simp [events, calls, producing]

/-- What holds of a worker and its log whenever they are observed. -/
def Followed (p : BatchProgram) (s : BatchWorker × List WorkerEvent) : Prop :=
  ∃ bufs pending, Served p.afterProduce bufs (WorkerEvent.calls s.2) ∧
    bufs.length = s.1.processed ∧ p.results (WorkerEvent.messages s.2) = bufs ++ pending ∧
    pending.length ≤ 1 ∧ (s.1.pc ≠ .crashed → pending = s.1.pc.atHand)

theorem results_append (p : BatchProgram) (messages messages' : List (Option Bytes)) :
    p.results (messages ++ messages') = p.results messages ++ p.results messages' :=
  List.flatMap_append

variable {p : BatchProgram} {total counter counter' : Nat} {s s' : BatchWorker}
  {log : List WorkerEvent}

/-- A worker that goes elsewhere, and shows nothing. -/
theorem Followed.goto (followed : p.Followed (s, log)) (alive : s.pc ≠ .crashed)
    (none : s.pc.atHand = []) (none' : s'.pc.atHand = []) (same : s'.processed = s.processed) :
    p.Followed (s', log ++ []) := by
  obtain ⟨bufs, pending, served, processed, results, atMost, atHand⟩ := followed
  rw [List.append_nil]
  exact ⟨bufs, pending, served, processed.trans same.symm, results, atMost,
    fun _ => by rw [atHand alive, none, none']⟩

/-- A message is handed to a worker. -/
theorem Followed.polled (followed : p.Followed (s, log)) (polling : s.pc = .polling)
    {value : Option Bytes} {handled : Handled} (handles : p.handle value = handled) {pc : BatchPc}
    (atHand' : pc ≠ .crashed → pc.atHand = handled.result) :
    p.Followed ({ s with pc := pc }, log ++ [.polled value]) := by
  obtain ⟨bufs, pending, served, processed, results, -, atHand⟩ := followed
  have none : pending = [] := by
    rw [atHand (by simp [polling]), polling]
    rfl
  have calls : WorkerEvent.calls (log ++ [.polled value]) = WorkerEvent.calls log := by
    rw [WorkerEvent.calls_append]
    exact List.append_nil _
  have messages : WorkerEvent.messages (log ++ [.polled value]) =
      WorkerEvent.messages log ++ [value] := WorkerEvent.messages_append
  have one : p.results [value] = (p.handle value).result := List.append_nil _
  refine ⟨bufs, handled.result, calls ▸ served, processed, ?_, ?_, fun alive => ?_⟩
  · rw [messages, results_append, results, none, List.append_nil, one, handles]
  · cases handled <;> simp [Handled.result]
  · exact (atHand' alive).symm

/-- A call is answered. -/
theorem Followed.called {buf : Bytes} {answer : ProduceAnswer} (followed : p.Followed (s, log))
    (producing : s.pc = .producing buf)
    (move : p.Move total counter s (.produce answer) counter' s') :
    p.Followed (s', log ++ [.called ⟨s.processed, buf, answer⟩]) := by
  obtain ⟨bufs, pending, served, processed, results, -, atHand⟩ := followed
  have one : pending = [buf] := by
    rw [atHand (by simp [producing]), producing]
    rfl
  have calls : WorkerEvent.calls (log ++ [.called ⟨s.processed, buf, answer⟩]) =
      WorkerEvent.calls log ++ [⟨bufs.length, buf, answer⟩] := by
    rw [WorkerEvent.calls_append, processed]
    rfl
  have messages : WorkerEvent.messages (log ++ [.called ⟨s.processed, buf, answer⟩]) =
      WorkerEvent.messages log := by
    rw [WorkerEvent.messages_append]
    exact List.append_nil _
  unfold Followed
  dsimp only
  rw [calls, messages, results, one]
  cases move with
  | again _ same producing' answered =>
      obtain rfl : buf = same := by simpa [producing] using producing'
      exact ⟨bufs, [buf], .again buf served (by rw [answered]; rfl), processed, rfl, le_rfl,
        fun _ => rfl⟩
  | count _ same producing' answered =>
      refine ⟨bufs ++ [buf], [], .count buf served (by rw [answered]; rfl), ?_,
        (List.append_nil _).symm, Nat.zero_le _, fun _ => ?_⟩
      · rw [List.length_append, processed]
        rfl
      · unfold count
        dsimp only
        split <;> rfl
  | fails _ same producing' answered =>
      exact ⟨bufs, [buf], .again buf served (by rw [answered]; rfl), processed, rfl, le_rfl,
        fun alive => (alive rfl).elim⟩

theorem Followed.move {l : Label} (followed : p.Followed (s, log))
    (move : p.Move total counter s l counter' s') : p.Followed (s', log ++ events s l) := by
  have whole := move
  cases move with
  | stops testing full => exact followed.goto (by simp [testing]) (by rw [testing]; rfl) rfl rfl
  | goesOn testing more => exact followed.goto (by simp [testing]) (by rw [testing]; rfl) rfl rfl
  | nothing polling => exact followed.goto (by simp [polling]) (by rw [polling]; rfl) rfl rfl
  | skips value polling handled => exact followed.polled polling handled fun _ => rfl
  | handles value buf polling handled => exact followed.polled polling handled fun _ => rfl
  | dies value polling handled =>
      exact followed.polled polling handled fun alive => (alive rfl).elim
  | again answer buf producing answered =>
      rw [events_produce producing]
      exact followed.called producing whole
  | count answer buf producing answered =>
      rw [events_produce producing]
      exact followed.called producing whole
  | fails answer buf producing answered =>
      rw [events_produce producing]
      exact followed.called producing whole
  | add adding =>
      refine followed.goto (by simp [adding]) (by rw [adding]; rfl) ?_ ?_
      all_goals
        unfold add
        split <;> rfl

theorem Followed.of_reachable {s : BatchWorker × List WorkerEvent}
    (reached : ((p.worker total).observe events).alone.Reachable (p.start, []) s) :
    p.Followed s := by
  refine reached.invariant ⟨[], [], .nil, rfl, rfl, Nat.zero_le _, fun _ => ?_⟩
    fun l s s' followed hstep => ?_
  · unfold start
    dsimp only
    split <;> rfl
  · obtain ⟨counter', hstep⟩ := Proc.alone_eq_some.mp hstep
    obtain ⟨hworker, hlog⟩ := Proc.observe_eq_some.mp hstep
    rcases s' with ⟨s', log⟩
    obtain rfl : log = s.2 ++ events s.1 l.2 := hlog
    exact followed.move (worker_move hworker)

end BatchProgram

theorem BatchWorker.atHand_of_settled {s : BatchWorker} (settled : s.settled) :
    s.pc ≠ .crashed ∧ s.pc.atHand = [] := by
  unfold BatchWorker.settled at settled
  cases pc : s.pc <;> simp_all [BatchPc.atHand]

namespace BatchWorkers

/-- The workers, each with the log of what it was handed and of its calls. -/
def followed (p : BatchProgram) (total n : Nat) :
    Machine (Global Nat (BatchWorker × List WorkerEvent) (Fin n)) (Fin n × BatchProgram.Label) :=
  interleave fun _ => (p.worker total).observe BatchProgram.events

def followedStart (p : BatchProgram) (n : Nat) :
    Global Nat (BatchWorker × List WorkerEvent) (Fin n) :=
  ⟨0, fun _ => (p.start, [])⟩

end BatchWorkers

/-- No record is given up: the Go worker gives up on an error other than a full queue, the one
of rdkafka-Rust on any, the Python worker on none. -/
def Batched.KeepsAll : Batched → List ProduceCall → Prop
  | go, calls => ∀ call ∈ calls, call.answer ≠ .failed
  | rdkafka, calls => ∀ call ∈ calls, call.answer = .accepted
  | python, _ => True

theorem Batched.keepsAll_iff (b : Batched) {calls : List ProduceCall} :
    (∀ call ∈ calls, (b.program.afterProduce call.answer).counts → call.answer = .accepted) ↔
      b.KeepsAll calls := by
  cases b with
  | go =>
      refine forall₂_congr fun call _ => ?_
      cases call.answer <;> simp [program, Go.startWorker, AfterProduce.counts]
  | rdkafka =>
      refine forall₂_congr fun call _ => ?_
      simp [program, Rdkafka.worker, AfterProduce.counts]
  | python =>
      refine iff_of_true (fun call _ => ?_) trivial
      cases call.answer <;> simp [program, Python.worker, AfterProduce.counts]

/-- **What a worker gets accepted.**  In every interleaving the messages polled by a worker have at
most one result more than it has processed, and none more between two records.  The client takes
the results processed in order, each at most once, and all of them exactly if the worker gave up
no record. -/
theorem worker_accepts (b : Batched) {n total : Nat}
    {g : Global Nat (BatchWorker × List WorkerEvent) (Fin n)}
    (reached : (BatchWorkers.followed b.program total n).Reachable
      (BatchWorkers.followedStart b.program n) g) (i : Fin n) :
    let processed := (g.proc i).1.processed
    let results := b.program.results (WorkerEvent.messages (g.proc i).2)
    let calls := WorkerEvent.calls (g.proc i).2
    processed ≤ results.length ∧ results.length ≤ processed + 1 ∧
      ((g.proc i).1.settled → results.length = processed) ∧
      (ProduceCall.accepted calls).Sublist (results.take processed).zipIdx ∧
      (ProduceCall.accepted calls = (results.take processed).zipIdx ↔ b.KeepsAll calls) := by
  obtain ⟨bufs, pending, served, counted, all, atMost, atHand⟩ :=
    BatchProgram.Followed.of_reachable (interleave_run_alone reached i)
  have accepts : (b.program.afterProduce .accepted).counts := by cases b <;> rfl
  intro processed results calls
  have taken : results.take processed = bufs := by
    unfold results processed
    rw [← counted, all]
    exact List.take_left
  have length : results.length = processed + pending.length := by
    unfold results processed
    rw [← counted, all, List.length_append]
  refine ⟨by omega, by omega, fun settled => ?_, ?_, ?_⟩
  · have idle := BatchWorker.atHand_of_settled settled
    rw [atHand idle.1, idle.2] at length
    exact length
  · rw [taken]
    exact served.accepted_sublist accepts
  · rw [taken, served.accepted_eq_iff accepts, b.keepsAll_iff]

theorem worker_accepts_queueFull :
    ∃ g, (BatchWorkers.followed Go.startWorker 1 1).run
        (BatchWorkers.followedStart Go.startWorker 1)
        [(0, .test), (0, .poll (some (some [0#8]))), (0, .produce .queueFull),
          (0, .produce .accepted)] = some g ∧
      (ProduceCall.accepted (WorkerEvent.calls (g.proc 0).2)).Sublist
        ((Go.startWorker.results (WorkerEvent.messages (g.proc 0).2)).take 1).zipIdx := by
  have counts : ((BatchWorkers.followed Go.startWorker 1 1).run
      (BatchWorkers.followedStart Go.startWorker 1)
      [(0, .test), (0, .poll (some (some [0#8]))), (0, .produce .queueFull),
        (0, .produce .accepted)]).map (fun g => (g.proc 0).1.processed) = some 1 := by
    decide +kernel
  obtain ⟨g, hrun, processed⟩ := Option.map_eq_some_iff.mp counts
  obtain ⟨-, -, -, inOrder, -⟩ := worker_accepts .go ⟨_, hrun⟩ 0
  rw [processed] at inOrder
  exact ⟨g, hrun, inOrder⟩

end KafkaTest
