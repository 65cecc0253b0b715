import KafkaTest.Grammars
import KafkaTest.Retry

/-!
# What the workers deliver

A worker of Phase 2 is handed messages that one of the producers wrote.  Whatever the other
workers do, its results are the sums of these messages, in the order in which it polled them,
and any consumer reads them back.

* `batched_deliver`: the workers of Go, rdkafka-Rust and Python.
* `single_deliver`: the workers of the C processor and of `StreamSumBenchmark`, whose decode loops
  take a number of turns that depends on the counts they read.
-/

namespace KafkaTest

/-! ## Messages and results -/

/-- A message that a producer wrote for some numbers. -/
def Producer.Wrote (message : Option Bytes) (xs : List (BitVec 32)) : Prop :=
  xs.length < 2 ^ 31 ∧ ∃ (P : Producer) (record : Bytes),
    P.record xs = .ok record ∧ message = some record

/-- A result that stands for the exact sum of some numbers. -/
def Sums (buf : Bytes) (xs : List (BitVec 32)) : Prop :=
  ∃ sum : Word, sum.toInt = (xs.map BitVec.toInt).sum ∧ buf = canonical sum

/-- What a consumer prints for a sum. -/
def answerOf (xs : List (BitVec 32)) : Outcome (Int × Bytes) :=
  .ok ((xs.map BitVec.toInt).sum, [])

theorem Sums.readVarint {buf : Bytes} {xs : List (BitVec 32)} (sums : Sums buf xs) (R : Consumer) :
    R.readVarint buf = answerOf xs := by
  obtain ⟨sum, exact, rfl⟩ := sums
  rw [R.readVarint_canonical, exact]
  rfl

/-- What is accepted of some results, as a consumer reads it. -/
theorem Sums.accepted {bufs : List Bytes} {lists : List (List (BitVec 32))}
    {calls : List ProduceCall} (sums : List.Forall₂ Sums bufs lists)
    (accepted : (ProduceCall.accepted calls).Sublist bufs.zipIdx) (R : Consumer) :
    ((ProduceCall.accepted calls).map fun a => R.readVarint a.1).Sublist (lists.map answerOf) ∧
      ((ProduceCall.accepted calls).map (fun a => R.readVarint a.1) = lists.map answerOf ↔
        ProduceCall.accepted calls = bufs.zipIdx) := by
  have read : bufs.zipIdx.map (fun a => R.readVarint a.1) = lists.map answerOf := by
    have reads : bufs.zipIdx.map (fun a => R.readVarint a.1) = bufs.map R.readVarint := by
      rw [← Function.comp_def R.readVarint Prod.fst, ← List.map_map, List.zipIdx_map_fst]
    rw [reads]
    clear reads accepted
    induction sums with
    | nil => rfl
    | cons first _ ih => rw [List.map_cons, List.map_cons, ih, first.readVarint R]
  refine ⟨read ▸ accepted.map _, fun all => ?_, fun all => ?_⟩
  · refine accepted.eq_of_length ?_
    have length := congrArg List.length (all.trans read.symm)
    rwa [List.length_map, List.length_map] at length
  · rw [all, read]

/-! ## Go, rdkafka-Rust and Python -/

/-- What a worker that counts in thousands makes of a payload. -/
def Batched.processor : Batched → Processor
  | go => .go
  | rdkafka => .rdkafka
  | python => .python

theorem Batched.handle_eq (b : Batched) (fuel : Nat) (payload : Bytes) :
    b.program.handle (some payload) = handledOf (b.processor.process fuel payload) := by
  cases b <;> rfl

theorem Batched.crash_iff (b : Batched) {answer : ProduceAnswer} :
    b.program.afterProduce answer = .crash ↔ b = .python ∧ answer ≠ .accepted := by
  cases b <;> cases answer <;> simp [program, Go.startWorker, Rdkafka.worker, Python.worker]

theorem Batched.handle_of_wrote (b : Batched) {message : Option Bytes} {xs : List (BitVec 32)}
    (wrote : Producer.Wrote message xs) :
    ∃ buf, b.program.handle message = .send buf ∧ Sums buf xs := by
  obtain ⟨few, P, record, writes, rfl⟩ := wrote
  rw [P.record_eq few, Outcome.ok.injEq] at writes
  obtain ⟨sum, exact, process⟩ := Processor.process_payload few
  refine ⟨canonical sum, ?_, sum, exact, rfl⟩
  rw [b.handle_eq (record.length + 10), ← writes, process b.processor _ le_rfl]
  rfl

/-- The results of written messages are their sums, and no worker dies of one. -/
theorem Batched.results_of_written (b : Batched) {messages : List (Option Bytes)}
    {lists : List (List (BitVec 32))} (written : List.Forall₂ Producer.Wrote messages lists) :
    List.Forall₂ Sums (b.program.results messages) lists ∧
      ∀ value ∈ messages, b.program.handle value ≠ .crash := by
  induction written with
  | nil => exact ⟨.nil, List.forall_mem_nil _⟩
  | cons wrote _ ih =>
      obtain ⟨buf, handles, sums⟩ := b.handle_of_wrote wrote
      refine ⟨?_, List.forall_mem_cons.mpr ⟨by simp [handles], ih.2⟩⟩
      unfold BatchProgram.results
      rw [List.flatMap_cons, handles]
      exact .cons sums ih.1

/-- The log of a dead worker shows what it died of. -/
theorem BatchProgram.cause_of_crashed {p : BatchProgram} {total : Nat}
    {s : BatchWorker × List WorkerEvent}
    (reached : ((p.worker total).observe events).alone.Reachable (p.start, []) s)
    (crashed : s.1.pc = .crashed) :
    (∃ value ∈ WorkerEvent.messages s.2, p.handle value = .crash) ∨
      ∃ call ∈ WorkerEvent.calls s.2, p.afterProduce call.answer = .crash := by
  refine reached.invariant (I := fun s => s.1.pc = .crashed →
    (∃ value ∈ WorkerEvent.messages s.2, p.handle value = .crash) ∨
      ∃ call ∈ WorkerEvent.calls s.2, p.afterProduce call.answer = .crash) ?_ ?_ crashed
  · intro crashed
    unfold start at crashed
    dsimp only at crashed
    split at crashed <;> cases crashed
  · rintro ⟨c, l⟩ s s' _ hstep crashed
    obtain ⟨counter', hstep⟩ := Proc.alone_eq_some.mp hstep
    obtain ⟨hworker, hlog⟩ := Proc.observe_eq_some.mp hstep
    rw [hlog, WorkerEvent.messages_append, WorkerEvent.calls_append]
    rcases s' with ⟨s', log'⟩
    simp only at hworker crashed
    cases worker_move hworker with
    | dies value polling handled =>
        exact .inl ⟨value, List.mem_append_right _ (List.mem_singleton.mpr rfl), handled⟩
    | fails answer buf producing answered =>
        refine .inr ⟨⟨s.1.processed, buf, answer⟩, List.mem_append_right _ ?_, answered⟩
        rw [events_produce producing]
        exact List.mem_singleton.mpr rfl
    | count answer buf producing answered =>
        unfold count at crashed
        dsimp only at crashed
        split at crashed <;> cases crashed
    | add adding =>
        unfold add at crashed
        split at crashed <;> cases crashed
    | _ => cases crashed

/-- **What the workers of Go, rdkafka-Rust and Python deliver.**  In every interleaving, if the
messages polled by a worker were written by producers, its client takes the encodings of their
exact sums, in the order of the messages and each at most once; of all the messages processed
exactly if the worker gave up no record.  Only a Python worker dies, and only of a refused
call. -/
theorem batched_deliver (b : Batched) (R : Consumer) {n total : Nat}
    {g : Global Nat (BatchWorker × List WorkerEvent) (Fin n)}
    (reached : (BatchWorkers.followed b.program total n).Reachable
      (BatchWorkers.followedStart b.program n) g) (i : Fin n) {lists : List (List (BitVec 32))}
    (written : List.Forall₂ Producer.Wrote (WorkerEvent.messages (g.proc i).2) lists) :
    let processed := lists.take (g.proc i).1.processed
    let calls := WorkerEvent.calls (g.proc i).2
    let read := (ProduceCall.accepted calls).map fun a => R.readVarint a.1
    read.Sublist (processed.map answerOf) ∧
      (read = processed.map answerOf ↔ b.KeepsAll calls) ∧
      ((g.proc i).1.settled → processed = lists) ∧
      ((g.proc i).1.pc = .crashed → b = .python ∧ ∃ call ∈ calls, call.answer ≠ .accepted) := by
  have alone := interleave_run_alone reached i
  obtain ⟨bufs, pending, served, counted, all, -, atHand⟩ :=
    BatchProgram.Followed.of_reachable alone
  have accepts : (b.program.afterProduce .accepted).counts := by cases b <;> rfl
  obtain ⟨sums, survives⟩ := b.results_of_written written
  rw [all] at sums
  have taken := List.forall₂_take (g.proc i).1.processed sums
  rw [← counted, List.take_left, counted] at taken
  intro processed calls read
  obtain ⟨inOrder, whole⟩ := Sums.accepted taken (served.accepted_sublist accepts) R
  refine ⟨inOrder, ?_, fun settled => ?_, fun crashed => ?_⟩
  · exact whole.trans ((served.accepted_eq_iff accepts).trans b.keepsAll_iff)
  · have idle := BatchWorker.atHand_of_settled settled
    rw [atHand idle.1, idle.2] at sums
    exact List.take_of_length_le (by simpa [counted] using sums.length_eq.ge)
  · rcases BatchProgram.cause_of_crashed alone crashed with ⟨value, member, dies⟩ | refused
    · exact (survives value member dies).elim
    · obtain ⟨call, member, dies⟩ := refused
      obtain ⟨python, refused⟩ := b.crash_iff.mp dies
      exact ⟨python, call, member, refused⟩

/-- The numbers 3 and -3, written by krafka, summed by Go at a second call, read by Python. -/
theorem batched_deliver_opposites :
    ∃ g, (BatchWorkers.followed Go.startWorker 1 1).run
        (BatchWorkers.followedStart Go.startWorker 1)
        [(0, .test), (0, .poll (some (some [0x04#8, 0x06#8, 0x05#8, 0x00#8]))),
          (0, .produce .queueFull), (0, .produce .accepted)] = some g ∧
      (ProduceCall.accepted (WorkerEvent.calls (g.proc 0).2)).map
        (fun a => Consumer.python.readVarint a.1) = [.ok (0, [])] := by
  have ends : ((BatchWorkers.followed Go.startWorker 1 1).run
      (BatchWorkers.followedStart Go.startWorker 1)
      [(0, .test), (0, .poll (some (some [0x04#8, 0x06#8, 0x05#8, 0x00#8]))),
        (0, .produce .queueFull), (0, .produce .accepted)]).map
      (fun g => ((g.proc 0).1.processed, WorkerEvent.messages (g.proc 0).2,
        (WorkerEvent.calls (g.proc 0).2).map ProduceCall.answer)) =
      some (1, [some [0x04#8, 0x06#8, 0x05#8, 0x00#8]], [.queueFull, .accepted]) := by
    decide +kernel
  obtain ⟨g, hrun, same⟩ := Option.map_eq_some_iff.mp ends
  simp only [Prod.mk.injEq] at same
  obtain ⟨processed, messages, answers⟩ := same
  have kept : Batched.go.KeepsAll (WorkerEvent.calls (g.proc 0).2) := by
    intro call member failed
    have here : ProduceAnswer.failed ∈ [ProduceAnswer.queueFull, .accepted] := by
      rw [← answers, ← failed]
      exact List.mem_map_of_mem member
    simp at here
  have written : List.Forall₂ Producer.Wrote (WorkerEvent.messages (g.proc 0).2)
      [[3#32, -3#32]] := by
    rw [messages]
    exact .cons ⟨by decide, .krafka, _, by decide +kernel, rfl⟩ .nil
  have read := ((batched_deliver .go .python ⟨_, hrun⟩ 0 written).2.1).mpr kept
  rw [processed] at read
  exact ⟨g, hrun, read⟩

/-! ## The C processor and `StreamSumBenchmark` -/

/-- The call of produce at hand. -/
def SinglePc.atHand : SinglePc → List Bytes
  | producing buf _ => [buf]
  | _ => []

/-- The messages of the batch that are not taken up yet. -/
def SinglePc.rest : SinglePc → List (Option Bytes)
  | batch rest | producing _ rest | counting rest => rest
  | _ => []

namespace SingleProgram

/-- What a step of a worker shows. -/
def events (s : SingleWorker) : Label → List WorkerEvent
  | .poll messages => messages.map .polled
  | l => (calls s l).map .called

/-- The results of some messages, in whatever number of turns they were decoded. -/
inductive Results (p : SingleProgram) : List (Option Bytes) → List Bytes → Prop
  | nil : Results p [] []
  | next {fuel : Nat} {messages : List (Option Bytes)} {bufs : List Bytes}
      {value result : Option Bytes} :
      Results p messages bufs → p.result fuel value = some result →
      Results p (messages ++ [value]) (bufs ++ result.toList)

/-- What holds of a worker and its log whenever they are observed. -/
structure Followed (p : SingleProgram) (bufs : List Bytes) (taken rest : List (Option Bytes))
    (s : SingleWorker × List WorkerEvent) : Prop where
  served : Served (fun _ => .count) bufs (WorkerEvent.calls s.2)
  counted : bufs.length = s.1.handed
  polled : WorkerEvent.messages s.2 = taken ++ rest
  results : p.Results taken (bufs ++ s.1.pc.atHand)
  rest : s.1.pc ≠ .left → rest = s.1.pc.rest

variable {p : SingleProgram} {total : Nat} {counter counter' : Word} {s s' : SingleWorker}
  {log : List WorkerEvent} {bufs : List Bytes} {taken rest : List (Option Bytes)}

/-- A worker that goes elsewhere, and shows nothing. -/
theorem Followed.goto (followed : p.Followed bufs taken rest (s, log)) (none : s.pc.atHand = [])
    (none' : s'.pc.atHand = []) (same : s'.handed = s.handed)
    (rest' : s'.pc ≠ .left → rest = s'.pc.rest) : p.Followed bufs taken rest (s', log) where
  served := followed.served
  counted := followed.counted.trans same.symm
  polled := followed.polled
  results := by
    have results := followed.results
    dsimp only at results ⊢
    rwa [none', ← none]
  rest := rest'

theorem messages_map_polled (messages : List (Option Bytes)) :
    WorkerEvent.messages (messages.map .polled) = messages := by
  unfold WorkerEvent.messages
  rw [List.filterMap_map]
  exact List.filterMap_some

theorem calls_map_polled (messages : List (Option Bytes)) :
    WorkerEvent.calls (messages.map .polled) = [] := by
  unfold WorkerEvent.calls
  rw [List.filterMap_map, List.filterMap_eq_nil_iff]
  exact fun _ _ => rfl

theorem Followed.step {l : Label} (followed : p.Followed bufs taken rest (s, log))
    (hstep : p.worker total counter s l = some (counter', s')) :
    ∃ bufs taken rest, p.Followed bufs taken rest (s', log ++ events s l) := by
  have calls := followed.served
  have polled := followed.polled
  have results := followed.results
  dsimp only at calls polled results
  unfold worker at hstep
  split at hstep
  · rename_i testing
    cases hstep
    have silent : events s .test = [] := rfl
    have none := followed.rest (by simp [testing])
    rw [silent, List.append_nil]
    refine ⟨bufs, taken, rest,
      followed.goto (by simp [testing, SinglePc.atHand]) ?_ rfl fun _ => ?_⟩
    · dsimp only
      split <;> rfl
    · simp only [testing] at none ⊢
      rw [none]
      split <;> rfl
  · rename_i messages polling
    simp only [Option.ite_none_right_eq_some, Option.some.injEq, Prod.mk.injEq] at hstep
    obtain ⟨-, -, rfl⟩ := hstep
    have none := followed.rest (by simp [polling])
    simp only [polling] at none results
    have shown : events s (.poll messages) = messages.map .polled := rfl
    refine ⟨bufs, taken, messages, ?_, followed.counted, ?_, ?_, fun _ => ?_⟩
    · rw [shown, WorkerEvent.calls_append, calls_map_polled, List.append_nil]
      exact calls
    · rw [shown, WorkerEvent.messages_append, messages_map_polled, polled, none]
      exact congrArg (· ++ messages) (List.append_nil taken)
    · dsimp only
      split <;> exact results
    · dsimp only
      split
      · assumption
      · rfl
  · rename_i fuel batch
    cases hstep
    have silent : events s (.next fuel) = [] := rfl
    have none := followed.rest (by simp [batch])
    simp only [batch] at none
    rw [silent, List.append_nil]
    refine ⟨bufs, taken, rest, followed.goto (by simp [batch, SinglePc.atHand]) ?_ rfl fun _ => ?_⟩
    · rcases p.head_eq with head | head <;> rw [head] <;> rfl
    · rw [none]
      rcases p.head_eq with head | head <;> rw [head] <;> rfl
  · rename_i fuel value rest' batch
    simp only [Option.map_eq_some_iff, Prod.mk.injEq] at hstep
    obtain ⟨result, decodes, -, rfl⟩ := hstep
    have silent : events s (.next fuel) = [] := rfl
    have here := followed.rest (by simp [batch])
    simp only [batch] at here results
    rw [silent, List.append_nil]
    refine ⟨bufs, taken ++ [value], rest', calls, followed.counted, ?_, ?_, fun _ => ?_⟩
    · rw [polled, here, List.append_assoc]
      rfl
    · have next := results.next decodes
      cases result <;> simpa [SinglePc.atHand, afterDecode] using next
    · cases result <;> rfl
  · rename_i answer buf rest' producing
    cases hstep
    have shown : events s (.produce answer) = [.called ⟨s.handed, buf, answer⟩] := by
      simp [events, SingleProgram.calls, producing]
    have here := followed.rest (by simp [producing])
    have counted := followed.counted
    simp only [producing] at here results counted
    refine ⟨bufs ++ [buf], taken, rest, ?_, ?_, ?_, ?_, fun _ => here⟩
    · rw [shown, WorkerEvent.calls_append, ← counted]
      exact .count buf calls rfl
    · rw [List.length_append, counted]
      rfl
    · rw [shown, WorkerEvent.messages_append, polled]
      exact List.append_nil _
    · exact (List.append_nil (bufs ++ [buf])).symm ▸ results
  · rename_i rest' counting
    cases hstep
    have silent : events s .count = [] := rfl
    have here := followed.rest (by simp [counting])
    simp only [counting] at here
    rw [silent, List.append_nil]
    refine ⟨bufs, taken, rest,
      followed.goto (by simp [counting, SinglePc.atHand]) ?_ rfl fun inside => ?_⟩
    · unfold afterCount
      split <;> rfl
    · unfold afterCount at inside ⊢
      dsimp only at inside ⊢
      split
      · rename_i full
        rw [if_pos full] at inside
        exact (inside rfl).elim
      · exact here
  · cases hstep

theorem Followed.of_reachable {s : SingleWorker × List WorkerEvent}
    (reached : ((p.worker total).observe events).alone.Reachable (p.start, []) s) :
    ∃ bufs taken rest, p.Followed bufs taken rest s := by
  refine reached.invariant (I := fun s => ∃ bufs taken rest, p.Followed bufs taken rest s)
    ⟨[], [], [], .nil, rfl, rfl, ?_, fun _ => ?_⟩ fun l s s' before hstep => ?_
  · unfold start
    rcases p.head_eq with head | head <;> rw [head] <;> exact .nil
  · unfold start
    rcases p.head_eq with head | head <;> rw [head] <;> rfl
  · obtain ⟨bufs, taken, rest, followed⟩ := before
    obtain ⟨counter', hstep⟩ := Proc.alone_eq_some.mp hstep
    obtain ⟨hworker, hlog⟩ := Proc.observe_eq_some.mp hstep
    rcases s' with ⟨s', log'⟩
    simp only at hworker hlog
    subst hlog
    exact followed.step hworker

end SingleProgram

namespace SingleWorkers

/-- The workers, each with the log of what it was handed and of its calls. -/
def followed (p : SingleProgram) (total n : Nat) :
    Machine (Global Word (SingleWorker × List WorkerEvent) (Fin n))
      (Fin n × SingleProgram.Label) :=
  interleave fun _ => (p.worker total).observe SingleProgram.events

def followedStart (p : SingleProgram) (n : Nat) :
    Global Word (SingleWorker × List WorkerEvent) (Fin n) :=
  ⟨0#64, fun _ => (p.start, [])⟩

end SingleWorkers

/-- The records stop at a zero count. -/
theorem exists_stops_payload {xs : List (BitVec 32)} (few : xs.length < 2 ^ 31) :
    ∃ elements rest, indexedFormat.Stops (signedList xs few).payload elements rest := by
  obtain ⟨sum, -, process⟩ := Processor.process_payload few
  obtain ⟨r, decodes, -⟩ := Outcome.bind_eq_ok.mp (process .rdkafka _ le_rfl)
  obtain ⟨elements, stops, -⟩ := Rdkafka.decodeSum_eq_ok_iff.mp decodes
  exact ⟨elements, r.2, stops⟩

/-- Up to a zero count, the number of turns does not matter. -/
theorem ReadDialect.ReadsOn.eq_of_stops {d : ReadDialect} {tail : Word → Word} (on : d.ReadsOn tail)
    {payload rest : Bytes} {elements : List Bytes}
    (stops : indexedFormat.Stops payload elements rest) {index : IndexDialect} {fuel fuel' : Nat}
    {r r' : Word × Bytes} (returns : d.decodeIndexed index fuel payload = .ok r)
    (returns' : d.decodeIndexed index fuel' payload = .ok r') : r = r' :=
  (stops.eq_of_ok on.readsItems (d.sumsBlocks index fuel) returns).trans
    (stops.eq_of_ok on.readsItems (d.sumsBlocks index fuel') returns').symm

theorem C.result_eq_some {fuel : Nat} {payload : Bytes} {result : Option Bytes}
    (decodes : C.result fuel (some payload) = some result) :
    ∃ r, cRead.decodeIndexed cIndex fuel payload = .ok r ∧
      result = some (C.writeVarint [] r.1) := by
  unfold C.result at decodes
  rw [Option.getD_some] at decodes
  split at decodes
  · rename_i sum rest returns
    cases decodes
    exact ⟨(sum, rest), returns, rfl⟩
  · cases decodes

theorem JavaBenchmark.result_eq_some {fuel : Nat} {payload : Bytes} {result : Option Bytes}
    (decodes : JavaBenchmark.result fuel (some payload) = some result) :
    ∃ r, javaBenchmarkRead.decodeIndexed jvmIndex fuel payload = .ok r ∧
      result = some (JavaBenchmark.writeVarint [] r.1) := by
  unfold JavaBenchmark.result at decodes
  dsimp only at decodes
  split at decodes
  · rename_i sum rest returns
    cases decodes
    exact ⟨(sum, rest), returns, rfl⟩
  · cases decodes

/-- The result of a written message is its sum, in whatever number of turns. -/
theorem Single.result_of_wrote (w : Single) {fuel : Nat} {message result : Option Bytes}
    {xs : List (BitVec 32)} (wrote : Producer.Wrote message xs)
    (decodes : w.program.result fuel message = some result) :
    ∃ buf, result = some buf ∧ Sums buf xs := by
  obtain ⟨few, P, record, writes, rfl⟩ := wrote
  rw [P.record_eq few, Outcome.ok.injEq] at writes
  subst writes
  obtain ⟨elements, rest, stops⟩ := exists_stops_payload few
  obtain ⟨sum, exact, process⟩ := Processor.process_payload few
  refine ⟨canonical sum, ?_, sum, exact, rfl⟩
  cases w with
  | c =>
      obtain ⟨r, returns, rfl⟩ := C.result_eq_some decodes
      obtain ⟨r', returns', same⟩ := Outcome.bind_eq_ok.mp (process .c _ le_rfl)
      rw [readsOn_cRead.eq_of_stops stops returns returns']
      exact congrArg some (Outcome.ok.inj same)
  | javaBenchmark =>
      obtain ⟨r, returns, rfl⟩ := JavaBenchmark.result_eq_some decodes
      obtain ⟨r', returns', same⟩ := Outcome.bind_eq_ok.mp (process .javaBenchmark _ le_rfl)
      rw [readsOn_javaBenchmarkRead.eq_of_stops stops returns returns']
      exact congrArg some (Outcome.ok.inj same)

theorem Single.results_of_written (w : Single) {messages : List (Option Bytes)} {bufs : List Bytes}
    {lists : List (List (BitVec 32))} (results : w.program.Results messages bufs)
    (written : List.Forall₂ Producer.Wrote messages lists) : List.Forall₂ Sums bufs lists := by
  induction results generalizing lists with
  | nil =>
      cases written
      exact .nil
  | @next fuel messages bufs value result _ decodes ih =>
      have before := List.forall₂_take messages.length written
      have last := List.forall₂_drop messages.length written
      rw [List.take_left] at before
      rw [List.drop_left] at last
      rw [← List.take_append_drop messages.length lists]
      obtain ⟨xs, others, wrote, none, same⟩ := List.forall₂_cons_left_iff.mp last
      cases none
      obtain ⟨buf, rfl, sums⟩ := w.result_of_wrote wrote decodes
      rw [same]
      exact List.rel_append (ih before) (.cons sums .nil)

/-- **What the workers of the C processor and of `StreamSumBenchmark` deliver.**  In every
interleaving, if the messages polled by a worker were written by producers, its client takes the
encodings of their exact sums, in the order of the messages and each at most once; of all that
were handed to it exactly if it refused no call. -/
theorem single_deliver (w : Single) (R : Consumer) {n total : Nat}
    {g : Global Word (SingleWorker × List WorkerEvent) (Fin n)}
    (reached : (SingleWorkers.followed w.program total n).Reachable
      (SingleWorkers.followedStart w.program n) g) (i : Fin n) {lists : List (List (BitVec 32))}
    (written : List.Forall₂ Producer.Wrote (WorkerEvent.messages (g.proc i).2) lists) :
    let handed := lists.take (g.proc i).1.handed
    let calls := WorkerEvent.calls (g.proc i).2
    let read := (ProduceCall.accepted calls).map fun a => R.readVarint a.1
    read.Sublist (handed.map answerOf) ∧
      (read = handed.map answerOf ↔ ∀ call ∈ calls, call.answer = .accepted) ∧
      ((g.proc i).1.pc = .testing ∨ (g.proc i).1.pc = .polling → handed = lists) := by
  obtain ⟨bufs, taken, rest, followed⟩ :=
    SingleProgram.Followed.of_reachable (interleave_run_alone reached i)
  rw [followed.polled] at written
  have before := List.forall₂_take taken.length written
  rw [List.take_left] at before
  have sums := w.results_of_written followed.results before
  have length := written.length_eq
  have lengths := sums.length_eq
  rw [List.length_append] at length lengths
  rw [List.length_take] at lengths
  have counted := followed.counted
  have first := List.forall₂_take (g.proc i).1.handed sums
  rw [← counted, List.take_left, List.take_take, min_eq_left (by omega), counted] at first
  have accepts : ((fun _ => AfterProduce.count) ProduceAnswer.accepted).counts := rfl
  intro handed calls read
  obtain ⟨inOrder, whole⟩ := Sums.accepted first (followed.served.accepted_sublist accepts) R
  refine ⟨inOrder, ?_, fun idle => ?_⟩
  · refine whole.trans ((followed.served.accepted_eq_iff accepts).trans ?_)
    exact forall₂_congr fun call _ => ⟨fun kept => kept rfl, fun kept _ => kept⟩
  · have none : (g.proc i).1.pc.atHand = [] ∧ rest = [] := by
      rcases idle with testing | polling
      · have here := followed.rest (by simp [testing])
        rw [testing] at here ⊢
        exact ⟨rfl, here⟩
      · have here := followed.rest (by simp [polling])
        rw [polling] at here ⊢
        exact ⟨rfl, here⟩
    rw [none.1, List.length_nil] at lengths
    rw [none.2, List.length_nil] at length
    exact List.take_of_length_le (by omega)

/-- The same numbers, summed by C. -/
theorem single_deliver_opposites :
    ∃ g, (SingleWorkers.followed C.workerThread 1 1).run
        (SingleWorkers.followedStart C.workerThread 1)
        [(0, .test), (0, .poll [some [0x04#8, 0x06#8, 0x05#8, 0x00#8]]), (0, .next 14),
          (0, .produce .accepted)] = some g ∧
      (ProduceCall.accepted (WorkerEvent.calls (g.proc 0).2)).map
        (fun a => Consumer.python.readVarint a.1) = [.ok (0, [])] := by
  have ends : ((SingleWorkers.followed C.workerThread 1 1).run
      (SingleWorkers.followedStart C.workerThread 1)
      [(0, .test), (0, .poll [some [0x04#8, 0x06#8, 0x05#8, 0x00#8]]), (0, .next 14),
        (0, .produce .accepted)]).map
      (fun g => ((g.proc 0).1.handed, WorkerEvent.messages (g.proc 0).2,
        (WorkerEvent.calls (g.proc 0).2).map ProduceCall.answer)) =
      some (1, [some [0x04#8, 0x06#8, 0x05#8, 0x00#8]], [.accepted]) := by
    decide +kernel
  obtain ⟨g, hrun, same⟩ := Option.map_eq_some_iff.mp ends
  simp only [Prod.mk.injEq] at same
  obtain ⟨handed, messages, answers⟩ := same
  have kept : ∀ call ∈ WorkerEvent.calls (g.proc 0).2, call.answer = .accepted := by
    intro call member
    have here := List.mem_map_of_mem (f := ProduceCall.answer) member
    rw [answers] at here
    exact List.mem_singleton.mp here
  have written : List.Forall₂ Producer.Wrote (WorkerEvent.messages (g.proc 0).2)
      [[3#32, -3#32]] := by
    rw [messages]
    exact .cons ⟨by decide, .krafka, _, by decide +kernel, rfl⟩ .nil
  have read := ((single_deliver .c .python ⟨_, hrun⟩ 0 written).2.1).mpr kept
  rw [handed] at read
  exact ⟨g, hrun, read⟩

end KafkaTest
