import KafkaTest.SingleCounter

/-!
# Produce calls that are refused

A client may refuse a record because its local queue is full.  The loaders and the workers
of rdkafka-Rust and of the C processor make one call for each record and ignore the answer,
so a record is accepted exactly if its only call is.

`ProduceCall` is a call with its answer.  The loader of Phase 1 keeps its calls
(`ClientLoader`), the workers of Phase 2 are observed with a log of theirs
(`Proc.observe`).  In both the calls follow the records one by one, and
`ProduceCall.acceptedOnce_iff` says what this makes of the answers.

The loops that look at the answer are in `KafkaTest.Retry`.
-/

namespace KafkaTest

/-! ## Calls -/

/-- A call of produce: the place of its record, the buffer, and the client's answer. -/
structure ProduceCall where
  record : Nat
  buf : Bytes
  answer : ProduceAnswer
  deriving DecidableEq

namespace ProduceCall

variable {calls : List ProduceCall} {n counted : Nat}

/-- What the client took, in the order of the calls. -/
def accepted (calls : List ProduceCall) : List (Bytes × Nat) :=
  (calls.filter fun call => call.answer = .accepted).map fun call => (call.buf, call.record)

/-- Each of the first `counted` records was accepted exactly once. -/
def AcceptedOnce (calls : List ProduceCall) (counted : Nat) : Prop :=
  ∀ k < counted, (calls.countP fun call => call.record = k ∧ call.answer = .accepted) = 1

/-- No call for one of the first `counted` records was refused. -/
def NoneRefused (calls : List ProduceCall) (counted : Nat) : Prop :=
  ∀ call ∈ calls, call.record < counted → call.answer = .accepted

/-- One call for each record: its record is accepted exactly if it is. -/
theorem acceptedOnce_iff (inOrder : calls.map record = List.range n) (fits : counted ≤ n) :
    AcceptedOnce calls counted ↔ NoneRefused calls counted := by
  have distinct : (calls.map record).Nodup := by
    rw [inOrder]
    exact List.nodup_range
  constructor
  · intro once call member below
    have some : 0 < calls.countP fun c => c.record = call.record ∧ c.answer = .accepted := by
      rw [once _ below]
      exact Nat.one_pos
    obtain ⟨other, member', found⟩ := List.countP_pos_iff.mp some
    simp only [decide_eq_true_eq] at found
    have same : other = call :=
      List.inj_on_of_nodup_map distinct member' member found.1
    rw [← same]
    exact found.2
  · intro noneRefused k below
    have calls_of_k : calls.countP (fun call => call.record = k ∧ call.answer = .accepted) =
        calls.countP fun call => call.record = k := by
      refine List.countP_congr fun call member => ?_
      simp only [decide_eq_true_eq, and_iff_left_iff_imp]
      rintro rfl
      exact noneRefused call member below
    have counts : calls.countP (fun call => call.record = k) = (calls.map record).count k := by
      rw [List.count, List.countP_map]
      exact List.countP_congr fun call _ => by simp
    rw [calls_of_k, counts, inOrder]
    exact List.count_eq_one_of_mem List.nodup_range (List.mem_range.mpr (by omega))

/-- Everything is accepted in order exactly if nothing is refused. -/
theorem accepted_eq_iff {records : List (Bytes × Nat)}
    (inOrder : calls.map (fun call => (call.buf, call.record)) = records) :
    accepted calls = records ↔ ∀ call ∈ calls, call.answer = .accepted := by
  constructor
  · intro all
    have length := congrArg List.length (all.trans inOrder.symm)
    rw [accepted, List.length_map, List.length_map, List.length_filter_eq_length_iff] at length
    simpa using length
  · intro all
    rw [accepted, List.filter_eq_self.mpr (by simpa using all), inOrder]

end ProduceCall

/-! ## Phase 1 -/

/-- The client programs whose loaders and workers ignore the answer. -/
inductive Client
  | rdkafka
  | c

/-- Its `write_varint`. -/
def Client.writeVarint : Client → Bytes → Word → Bytes
  | rdkafka => Rdkafka.writeVarint
  | c => C.writeVarint

/-- The buffer of one record of Phase 1: the count, the elements and a zero. -/
def Client.payload (client : Client) (d : Draw) : Bytes :=
  let buf := client.writeVarint [] (BitVec.ofNat 64 d.elements.length)
  let buf := d.elements.foldl (fun buf x => client.writeVarint buf (BitVec.ofNat 64 x.val)) buf
  client.writeVarint buf 0#64

/-- The load loop, with what it generated and the calls it made. -/
structure ClientLoader where
  flushing : Bool
  generated : List Bytes
  calls : List ProduceCall

namespace ClientLoader

/-- A turn of the `for` loop, in which the client answers its call; the end of the range. -/
inductive Label
  | load (draw : Draw) (answer : ProduceAnswer)
  | rangeEnd

def start : ClientLoader := ⟨false, [], []⟩

/-- `producer.send(..)` or `rd_kafka_producev(..)`, the answer being dropped. -/
def load (client : Client) (s : ClientLoader) (draw : Draw) (answer : ProduceAnswer) :
    ClientLoader :=
  let buf := client.payload draw
  { s with
    generated := s.generated ++ [buf]
    calls := s.calls ++ [⟨s.generated.length, buf, answer⟩] }

/-- One transition of loading `total` records. -/
def step (client : Client) (total : Nat) : Machine ClientLoader Label := fun s l =>
  match l with
  | .load draw answer =>
      if s.flushing = false ∧ s.generated.length < total then some (s.load client draw answer)
      else none
  | .rangeEnd =>
      if s.flushing = false ∧ total ≤ s.generated.length then some { s with flushing := true }
      else none

/-- One call for each record, in generation order. -/
structure Inv (total : Nat) (s : ClientLoader) : Prop where
  inOrder : s.calls.map (fun call => (call.buf, call.record)) = s.generated.zipIdx
  generating : s.generated.length ≤ total
  complete : s.flushing → s.generated.length = total

theorem Inv.of_reachable {client : Client} {total : Nat} {s : ClientLoader}
    (reached : (step client total).Reachable start s) : Inv total s := by
  refine reached.invariant ⟨rfl, Nat.zero_le _, fun h => by cases h⟩ fun l s s' inv hstep => ?_
  cases l with
  | load draw answer =>
      simp only [step, Option.ite_none_right_eq_some, Option.some.injEq] at hstep
      obtain ⟨⟨filling, more⟩, rfl⟩ := hstep
      refine ⟨?_, ?_, fun flushing => ?_⟩
      · simp [load, List.zipIdx_append, inv.inOrder]
      · simpa [load] using more
      · rw [show s.flushing = true from flushing] at filling
        cases filling
  | rangeEnd =>
      simp only [step, Option.ite_none_right_eq_some, Option.some.injEq] at hstep
      obtain ⟨⟨-, used⟩, rfl⟩ := hstep
      exact ⟨inv.inOrder, inv.generating, fun _ => le_antisymm inv.generating used⟩

end ClientLoader

/-! ## Phase 2 -/

/-- The call that a step of a worker makes. -/
def BatchProgram.calls (s : BatchWorker) : BatchProgram.Label → List ProduceCall
  | .produce answer =>
    match s.pc with
    | .producing buf => [⟨s.processed, buf, answer⟩]
    | _ => []
  | _ => []

/-- The call that a step of a worker makes. -/
def SingleProgram.calls (s : SingleWorker) : SingleProgram.Label → List ProduceCall
  | .produce answer =>
    match s.pc with
    | .producing buf _ => [⟨s.handed, buf, answer⟩]
    | _ => []
  | _ => []

/-- A step makes no call, or one about the record at hand; the record is processed if
the loop takes the answer for it. -/
theorem BatchProgram.calls_cases {p : BatchProgram} {total counter counter' : Nat}
    {s s' : BatchWorker} {l : Label} (h : p.worker total counter s l = some (counter', s')) :
    (calls s l = [] ∧ s'.processed = s.processed) ∨
    ∃ buf answer, calls s l = [⟨s.processed, buf, answer⟩] ∧
      (p.afterProduce answer = .count ∧ s'.processed = s.processed + 1 ∨
        p.afterProduce answer ≠ .count ∧ s'.processed = s.processed) := by
  simp only [worker] at h
  split at h
  · cases h
    exact .inl ⟨rfl, rfl⟩
  · cases h
    exact .inl ⟨rfl, rfl⟩
  · rename_i answer buf producing
    cases h
    refine .inr ⟨buf, answer, by simp [calls, producing], ?_⟩
    cases taken : p.afterProduce answer with
    | again => exact .inr ⟨by simp, rfl⟩
    | count => exact .inl ⟨rfl, rfl⟩
    | crash => exact .inr ⟨by simp, rfl⟩
  · cases h
    refine .inl ⟨rfl, ?_⟩
    rw [add]
    split <;> rfl
  · cases h

theorem SingleProgram.calls_cases {p : SingleProgram} {total : Nat} {counter counter' : Word}
    {s s' : SingleWorker} {l : Label} (h : p.worker total counter s l = some (counter', s')) :
    (calls s l = [] ∧ s'.handed = s.handed) ∨
    ∃ buf answer, calls s l = [⟨s.handed, buf, answer⟩] ∧ s'.handed = s.handed + 1 := by
  cases worker_move h with
  | produce answer buf rest producing =>
      exact .inr ⟨buf, answer, by simp [calls, producing], rfl⟩
  | _ => exact .inl ⟨rfl, rfl⟩

section Logs

variable {total : Nat}

/-- A loop that takes every answer for its record makes one call for each. -/
theorem BatchProgram.records_calls {p : BatchProgram} {s : BatchWorker × List ProduceCall}
    (ignores : ∀ answer, p.afterProduce answer = .count)
    (reached : ((p.worker total).observe calls).alone.Reachable (p.start, []) s) :
    s.2.map ProduceCall.record = List.range s.1.processed := by
  refine reached.invariant
    (I := fun s => s.2.map ProduceCall.record = List.range s.1.processed) rfl ?_
  intro l s s' inOrder hstep
  obtain ⟨counter', hstep⟩ := Proc.alone_eq_some.mp hstep
  obtain ⟨hworker, hlog⟩ := Proc.observe_eq_some.mp hstep
  rcases calls_cases hworker with ⟨none, same⟩ | ⟨buf, answer, one, taken⟩
  · rw [hlog, none, same, List.append_nil, inOrder]
  · rcases taken with ⟨-, more⟩ | ⟨ignored, -⟩
    · rw [hlog, one, more, List.map_append, inOrder, List.range_succ]
      rfl
    · exact (ignored (ignores answer)).elim

theorem SingleProgram.records_calls {p : SingleProgram} {s : SingleWorker × List ProduceCall}
    (reached : ((p.worker total).observe calls).alone.Reachable (p.start, []) s) :
    s.2.map ProduceCall.record = List.range s.1.handed := by
  refine reached.invariant
    (I := fun s => s.2.map ProduceCall.record = List.range s.1.handed) rfl ?_
  intro l s s' inOrder hstep
  obtain ⟨counter', hstep⟩ := Proc.alone_eq_some.mp hstep
  obtain ⟨hworker, hlog⟩ := Proc.observe_eq_some.mp hstep
  rcases calls_cases hworker with ⟨none, same⟩ | ⟨buf, answer, one, more⟩
  · rw [hlog, none, same, List.append_nil, inOrder]
  · rw [hlog, one, more, List.map_append, inOrder, List.range_succ]
    rfl

end Logs

namespace BatchWorkers

variable {n total : Nat} {p : BatchProgram}
  {g : Global Nat (BatchWorker × List ProduceCall) (Fin n)}

/-- The workers, each with the log of its calls. -/
def logged (p : BatchProgram) (total n : Nat) :
    Machine (Global Nat (BatchWorker × List ProduceCall) (Fin n)) (Fin n × BatchProgram.Label) :=
  interleave fun _ => (p.worker total).observe BatchProgram.calls

def loggedStart (p : BatchProgram) (n : Nat) :
    Global Nat (BatchWorker × List ProduceCall) (Fin n) :=
  ⟨0, fun _ => (p.start, [])⟩

theorem logged_counter_eq (reached : (logged p total n).Reachable (loggedStart p n) g) :
    g.mem = (∑ i, (g.proc i).1.added) % 2 ^ 64 :=
  counter_eq (interleave_observe reached)

theorem logged_acceptedOnce_iff (ignores : ∀ answer, p.afterProduce answer = .count)
    (reached : (logged p total n).Reachable (loggedStart p n) g) (i : Fin n) :
    ProduceCall.AcceptedOnce (g.proc i).2 (g.proc i).1.added ↔
      ProduceCall.NoneRefused (g.proc i).2 (g.proc i).1.added :=
  ProduceCall.acceptedOnce_iff
    (BatchProgram.records_calls ignores (interleave_run_alone reached i))
    (inv (interleave_observe reached) i).added_le

end BatchWorkers

namespace SingleWorkers

variable {n total : Nat} {p : SingleProgram}
  {g : Global Word (SingleWorker × List ProduceCall) (Fin n)}

/-- The workers, each with the log of its calls. -/
def logged (p : SingleProgram) (total n : Nat) :
    Machine (Global Word (SingleWorker × List ProduceCall) (Fin n))
      (Fin n × SingleProgram.Label) :=
  interleave fun _ => (p.worker total).observe SingleProgram.calls

def loggedStart (p : SingleProgram) (n : Nat) :
    Global Word (SingleWorker × List ProduceCall) (Fin n) :=
  ⟨0#64, fun _ => (p.start, [])⟩

theorem logged_counter_eq (reached : (logged p total n).Reachable (loggedStart p n) g) :
    g.mem = ∑ i, BitVec.ofNat 64 (g.proc i).1.added := by
  refine interleave_sum id (fun s : SingleWorker => BitVec.ofNat 64 s.added)
    (interleave_observe reached) (by simp [loggedStart, SingleProgram.start])
    fun i g l c' s' _ hstep => ?_
  cases SingleProgram.worker_move hstep with
  | count rest counting => exact ⟨1#64, BitVec.ofNat_add .., rfl⟩
  | _ => exact ⟨0, (add_zero _).symm, (add_zero _).symm⟩

theorem logged_acceptedOnce_iff (reached : (logged p total n).Reachable (loggedStart p n) g)
    (i : Fin n) :
    ProduceCall.AcceptedOnce (g.proc i).2 (g.proc i).1.added ↔
      ProduceCall.NoneRefused (g.proc i).2 (g.proc i).1.added := by
  have counted := (inv (interleave_observe reached) i).handed
  simp only at counted
  exact ProduceCall.acceptedOnce_iff
    (SingleProgram.records_calls (interleave_run_alone reached i)) (by omega)

end SingleWorkers

/-- **A record is dropped exactly if its call is refused.**  In the rdkafka-Rust and C
programs, at the flush of Phase 1 the client has accepted the generated records, each
once and in order, exactly if it refused no call.  In Phase 2, where the counter is what
the workers added to it, each record counted has had its result accepted exactly once
exactly if no call for such a record was refused. -/
theorem acceptedOnce_iff_noneRefused (total : Nat) :
    (∀ (client : Client) (s : ClientLoader),
      (ClientLoader.step client total).Reachable ClientLoader.start s → s.flushing →
        s.generated.length = total ∧
        (ProduceCall.accepted s.calls = s.generated.zipIdx ↔
          ∀ call ∈ s.calls, call.answer = .accepted)) ∧
    (∀ (n : Nat) (g : Global Nat (BatchWorker × List ProduceCall) (Fin n)),
      (BatchWorkers.logged Rdkafka.worker total n).Reachable
        (BatchWorkers.loggedStart Rdkafka.worker n) g →
        g.mem = (∑ i, (g.proc i).1.added) % 2 ^ 64 ∧
        ((∀ i, ProduceCall.AcceptedOnce (g.proc i).2 (g.proc i).1.added) ↔
          ∀ i, ProduceCall.NoneRefused (g.proc i).2 (g.proc i).1.added)) ∧
    ∀ (n : Nat) (g : Global Word (SingleWorker × List ProduceCall) (Fin n)),
      (SingleWorkers.logged C.workerThread total n).Reachable
        (SingleWorkers.loggedStart C.workerThread n) g →
        g.mem = ∑ i, BitVec.ofNat 64 (g.proc i).1.added ∧
        ((∀ i, ProduceCall.AcceptedOnce (g.proc i).2 (g.proc i).1.added) ↔
          ∀ i, ProduceCall.NoneRefused (g.proc i).2 (g.proc i).1.added) := by
  refine ⟨fun client s reached flushing => ?_, fun n g reached => ?_, fun n g reached => ?_⟩
  · have inv := ClientLoader.Inv.of_reachable reached
    exact ⟨inv.complete flushing, ProduceCall.accepted_eq_iff inv.inOrder⟩
  · exact ⟨BatchWorkers.logged_counter_eq reached,
      forall_congr' (BatchWorkers.logged_acceptedOnce_iff (fun _ => rfl) reached)⟩
  · exact ⟨SingleWorkers.logged_counter_eq reached,
      forall_congr' (SingleWorkers.logged_acceptedOnce_iff reached)⟩

/-- One C worker that processes the list `[3]` and counts it, whatever the client says. -/
def oneCall (i : Fin 1) (answer : ProduceAnswer) : List (Fin 1 × SingleProgram.Label) :=
  let turn : List SingleProgram.Label :=
    [.test, .poll [some [0x02#8, 0x06#8, 0x00#8]], .next 4, .produce answer, .count]
  turn.map fun l => (i, l)

/-- The log of a worker that produces `k` empty sums, all with the same answer. -/
def emptySums (answer : ProduceAnswer) (k : Nat) : List ProduceCall :=
  (List.range k).map fun record => ⟨record, [0x00#8], answer⟩

theorem emptySums_succ (answer : ProduceAnswer) (k : Nat) :
    emptySums answer (k + 1) = emptySums answer k ++ [⟨k, [0x00#8], answer⟩] := by
  rw [emptySums, emptySums, List.range_succ, List.map_append]
  rfl

/-- A worker of rdkafka-Rust can count a thousand empty lists, whatever the client says. -/
theorem exists_thousand (answer : ProduceAnswer) :
    ∃ g, (BatchWorkers.logged Rdkafka.worker 5000 1).Reachable
      (BatchWorkers.loggedStart Rdkafka.worker 1) g ∧ g.mem = 1000 ∧
        (g.proc 0).1.added = 1000 ∧ (g.proc 0).2 = emptySums answer 1000 := by
  let solo := ((Rdkafka.worker.worker 5000).observe BatchProgram.calls).solo
  have handles : Rdkafka.worker.handle (some [0x00#8]) = .send [0x00#8] := by decide +kernel
  have produces : ∀ k, solo.Reachable (0, ⟨.polling, k, k, 0⟩, emptySums answer k)
      (0, BatchProgram.count ⟨.producing [0x00#8], k, k, 0⟩, emptySums answer (k + 1)) := by
    intro k
    refine .trans (t := (0, ⟨.producing [0x00#8], k, k, 0⟩, emptySums answer k))
      (.single (.poll (some (some [0x00#8]))) ?_) (.single (.produce answer) ?_)
    · simp [solo, Proc.solo, Proc.observe, BatchProgram.worker, BatchProgram.afterPoll, handles,
        BatchProgram.calls]
    · simp [solo, Proc.solo, Proc.observe, BatchProgram.worker, BatchProgram.calls,
        emptySums_succ, Rdkafka.worker]
  have turns : ∀ k ≤ 999, solo.Reachable (0, Rdkafka.worker.start, [])
      (0, ⟨.polling, k, k, 0⟩, emptySums answer k) := by
    intro k
    induction k with
    | zero => exact fun _ => .refl _
    | succ k ih =>
        intro few
        refine (ih (by omega)).trans ((produces k).trans (.single .test ?_))
        have more : ¬ 1000 ≤ k + 1 := by omega
        simp [solo, Proc.solo, Proc.observe, BatchProgram.worker, BatchProgram.count, more,
          BatchProgram.calls]
  have adds : solo.Reachable
      (0, BatchProgram.count ⟨.producing [0x00#8], 999, 999, 0⟩, emptySums answer 1000)
      (1000, ⟨.testing, 0, 1000, 1000⟩, emptySums answer 1000) := by
    refine .single .add ?_
    simp [solo, Proc.solo, Proc.observe, BatchProgram.worker, BatchProgram.count,
      BatchProgram.calls, BatchProgram.add]
  have whole := (turns 999 le_rfl).trans ((produces 999).trans adds)
  obtain ⟨g, reached, mem, proc⟩ := interleave_of_solo
    (p := fun _ : Fin 1 => (Rdkafka.worker.worker 5000).observe BatchProgram.calls) (i := 0)
    (g := BatchWorkers.loggedStart Rdkafka.worker 1) whole
  refine ⟨g, reached, mem, ?_, ?_⟩ <;> rw [proc, Function.update_self]

/-- Phase 1 with one record. -/
def oneLoad (draw : Draw) (answer : ProduceAnswer) : List ClientLoader.Label :=
  [.load draw answer, .rangeEnd]

theorem acceptedOnce_iff_noneRefused_accepted :
    (∃ s, (ClientLoader.step .c 1).run ClientLoader.start
      (oneLoad ⟨[7, 70], by decide, by decide⟩ .accepted) = some s ∧
        ProduceCall.accepted s.calls = s.generated.zipIdx) ∧
    (∃ g, (BatchWorkers.logged Rdkafka.worker 5000 1).Reachable
      (BatchWorkers.loggedStart Rdkafka.worker 1) g ∧
        (g.proc 0).1.added = 1000 ∧ ProduceCall.AcceptedOnce (g.proc 0).2 (g.proc 0).1.added) ∧
    ∃ g, (SingleWorkers.logged C.workerThread 5000 1).run
      (SingleWorkers.loggedStart C.workerThread 1) (oneCall 0 .accepted) = some g ∧
        (g.proc 0).1.added = 1 ∧ ProduceCall.AcceptedOnce (g.proc 0).2 (g.proc 0).1.added := by
  have loads : ((ClientLoader.step .c 1).run ClientLoader.start
      (oneLoad ⟨[7, 70], by decide, by decide⟩ .accepted)).map
      (fun s => (s.flushing, s.calls.all fun call => call.answer = .accepted)) =
        some (true, true) := by
    decide +kernel
  have countsC : ((SingleWorkers.logged C.workerThread 5000 1).run
      (SingleWorkers.loggedStart C.workerThread 1) (oneCall 0 .accepted)).map
        (fun g => ((g.proc 0).1.added, (g.proc 0).2.all fun call => call.answer = .accepted)) =
          some (1, true) := by
    decide +kernel
  obtain ⟨s, hload, hs⟩ := Option.map_eq_some_iff.mp loads
  obtain ⟨g, reached, -, added, log⟩ := exists_thousand .accepted
  obtain ⟨k, hrun, hk⟩ := Option.map_eq_some_iff.mp countsC
  simp only [Prod.mk.injEq, List.all_eq_true, decide_eq_true_eq] at hs hk
  refine ⟨⟨s, hload, ?_⟩, ⟨g, reached, added, ?_⟩, k, hrun, hk.1, ?_⟩
  · exact ((acceptedOnce_iff_noneRefused 1).1 .c s ⟨_, hload⟩ hs.1).2.mpr hs.2
  · refine ((acceptedOnce_iff_noneRefused 5000).2.1 1 g reached).2.mpr
      (Fin.forall_fin_one.mpr fun call member _ => ?_) 0
    rw [log, emptySums] at member
    obtain ⟨record, -, rfl⟩ := List.mem_map.mp member
    rfl
  · exact ((acceptedOnce_iff_noneRefused 5000).2.2 1 k ⟨_, hrun⟩).2.mpr
      (Fin.forall_fin_one.mpr fun call member _ => hk.2 call member) 0

/-- A full queue drops the record of Phase 1, and the results that Phase 2 counts. -/
theorem dropped_of_queueFull :
    (∀ client, ∃ s, (ClientLoader.step client 1).run ClientLoader.start
      (oneLoad ⟨[7, 70], by decide, by decide⟩ .queueFull) = some s ∧ s.flushing ∧
        s.generated.length = 1 ∧ ProduceCall.accepted s.calls = []) ∧
    (∃ g, (BatchWorkers.logged Rdkafka.worker 5000 1).Reachable
      (BatchWorkers.loggedStart Rdkafka.worker 1) g ∧
        g.mem = 1000 ∧ ProduceCall.accepted (g.proc 0).2 = []) ∧
    ∃ g, (SingleWorkers.logged C.workerThread 5000 1).run
      (SingleWorkers.loggedStart C.workerThread 1) (oneCall 0 .queueFull) = some g ∧
        g.mem = 1#64 ∧ ProduceCall.accepted (g.proc 0).2 = [] := by
  have loads : ∀ client, ((ClientLoader.step client 1).run ClientLoader.start
      (oneLoad ⟨[7, 70], by decide, by decide⟩ .queueFull)).map
        (fun s => (s.flushing, s.generated.length, ProduceCall.accepted s.calls)) =
          some (true, 1, []) := by
    intro client
    cases client <;> decide +kernel
  have countsC : ((SingleWorkers.logged C.workerThread 5000 1).run
      (SingleWorkers.loggedStart C.workerThread 1) (oneCall 0 .queueFull)).map
        (fun g => (g.mem, ProduceCall.accepted (g.proc 0).2)) = some (1#64, []) := by
    decide +kernel
  refine ⟨fun client => ?_, ?_, ?_⟩
  · obtain ⟨s, hload, hs⟩ := Option.map_eq_some_iff.mp (loads client)
    simp only [Prod.mk.injEq] at hs
    exact ⟨s, hload, hs⟩
  · obtain ⟨g, reached, counter, -, log⟩ := exists_thousand .queueFull
    refine ⟨g, reached, counter, ?_⟩
    rw [log, ProduceCall.accepted, List.map_eq_nil_iff, List.filter_eq_nil_iff]
    simp [emptySums]
  · obtain ⟨g, hrun, hg⟩ := Option.map_eq_some_iff.mp countsC
    exact ⟨g, hrun, Prod.mk.inj hg⟩

end KafkaTest
