import KafkaTest.Loader
import KafkaTest.Unbounded

/-!
# Counting a thousand records at a time

The workers of the Go, rdkafka-Rust and Python programs count their records locally,
and add to the shared counter only full thousands.  That counter is what every worker
and the main program wait for.

The three loops are one cycle of a counter test, a poll, the handling of a message and
a possible addition.  They differ in what a message and a full producer queue lead to,
in where the cycle is entered and, in rdkafka-Rust, in a second test right after the
addition; `BatchProgram` holds these choices.

A worker that is not in the middle of a record keeps the remainder of its share to
itself (`BatchWorker.Inv`).  Therefore the counter gets to the total exactly if no
share has a remainder, and `exists_processed` gives a run for every split.
-/

namespace KafkaTest

/-! ## The loops -/

/-- What a message leads to: nothing, a result to produce, or the end of the process. -/
inductive Handled
  | skip
  | send (buf : Bytes)
  | crash
  deriving DecidableEq

/-- A payload whose decoding runs off its end takes the worker down.  The decoders always come to
an end (`Go.decodeSum_ne_outOfFuel` and its siblings), so that is a panic. -/
def handledOf : Outcome Bytes → Handled
  | .ok buf => .send buf
  | _ => .crash

/-- How the client answers a call of produce. -/
inductive ProduceAnswer
  | accepted
  | queueFull
  | failed
  deriving DecidableEq

/-- What the worker makes of that answer. -/
inductive AfterProduce
  | again
  | count
  | crash

/-- Where a worker stands: at the counter test, in `poll`, in the call of produce,
before the addition of a full thousand, out of its loop, or dead. -/
inductive BatchPc
  | testing
  | polling
  | producing (buf : Bytes)
  | adding
  | left
  | crashed
  deriving DecidableEq

/-- A worker, with the number of records it processed and what it added. -/
structure BatchWorker where
  pc : BatchPc
  localCounter : Nat
  processed : Nat
  added : Nat

/-- What distinguishes the loop of one program. -/
structure BatchProgram where
  handle : Option Bytes → Handled
  afterProduce : ProduceAnswer → AfterProduce
  testsFirst : Bool
  breaksOnAdd : Bool

namespace BatchProgram

inductive Label
  | test
  | poll (message : Option (Option Bytes))
  | produce (answer : ProduceAnswer)
  | add
  deriving DecidableEq

def start (p : BatchProgram) : BatchWorker :=
  ⟨if p.testsFirst then .testing else .polling, 0, 0, 0⟩

/-- From `poll`: nothing arrived, or a message, which may lack a value. -/
def afterPoll (p : BatchProgram) : Option (Option Bytes) → BatchPc
  | none => .testing
  | some value =>
    match p.handle value with
    | .skip => .testing
    | .send buf => .producing buf
    | .crash => .crashed

/-- The record is processed, and counted locally. -/
def count (s : BatchWorker) : BatchWorker :=
  { s with
    processed := s.processed + 1
    localCounter := s.localCounter + 1
    pc := if 1000 ≤ s.localCounter + 1 then .adding else .testing }

/-- The addition; where the loop breaks on it, `local_counter` is left as it is. -/
def add (p : BatchProgram) (total counter : Nat) (s : BatchWorker) : BatchWorker :=
  if p.breaksOnAdd ∧ total ≤ counter then
    { s with added := s.added + s.localCounter, pc := .left }
  else { s with added := s.added + s.localCounter, localCounter := 0, pc := .testing }

/-- One transition of the loop. -/
def worker (p : BatchProgram) (total : Nat) : Proc Nat BatchWorker Label := fun counter s l =>
  match l, s.pc with
  | .test, .testing => some (counter, { s with pc := if total ≤ counter then .left else .polling })
  | .poll message, .polling => some (counter, { s with pc := p.afterPoll message })
  | .produce answer, .producing buf =>
      some (counter,
        match p.afterProduce answer with
        | .again => { s with pc := .producing buf }
        | .count => count s
        | .crash => { s with pc := .crashed })
  | .add, .adding =>
      let counter := (counter + s.localCounter) % 2 ^ 64
      some (counter, p.add total counter s)
  | _, _ => none

end BatchProgram

/-- `stream-test-go`: the decode, sum and encode steps of `startWorker`; a message
without a value panics at its first byte. -/
def Go.handle (value : Option Bytes) : Handled := handledOf do
  let (sum, _) ← Go.decodeSum wrappingAdd (value.getD [])
  return Go.writeVarint [] sum

/-- `stream-test-go`: the loop of `startWorker`, which retries while the queue is full. -/
def Go.startWorker : BatchProgram where
  handle := Go.handle
  afterProduce
    | .queueFull => .again
    | _ => .count
  testsFirst := true
  breaksOnAdd := false

/-- `stream-test-rust`: the steps of a worker; a message without a value is passed
over. -/
def Rdkafka.handle : Option Bytes → Handled
  | none => .skip
  | some value => handledOf do
    let (sum, _) ← Rdkafka.decodeSum wrappingAdd value
    return Rdkafka.writeVarint [] sum

/-- `stream-test-rust`: the loop of a worker, which ignores what `send` answers and
tests the counter after the poll and after each addition. -/
def Rdkafka.worker : BatchProgram where
  handle := Rdkafka.handle
  afterProduce _ := .count
  testsFirst := false
  breaksOnAdd := true

/-- `stream-test-python`: the steps of `worker`; a message without a value raises. -/
def Python.handle : Option Bytes → Handled
  | none => .crash
  | some value => handledOf do
    let (sum, _) ← Python.decodeSum value
    Python.writeVarint sum

/-- `stream-test-python`: the loop of `worker`, in which a full queue raises. -/
def Python.worker : BatchProgram where
  handle := Python.handle
  afterProduce
    | .accepted => .count
    | _ => .crash
  testsFirst := true
  breaksOnAdd := false

/-- The programs that count this way. -/
inductive Batched
  | go
  | rdkafka
  | python

def Batched.program : Batched → BatchProgram
  | go => Go.startWorker
  | rdkafka => Rdkafka.worker
  | python => Python.worker

/-! ## One worker -/

namespace BatchWorker

/-- The worker is not in the middle of a record. -/
def settled (s : BatchWorker) : Bool :=
  match s.pc with
  | .testing | .polling | .left => true
  | _ => false

/-- What is not added yet is the remainder of what was processed, or the thousand
about to be added. -/
structure Inv (s : BatchWorker) : Prop where
  adding : s.pc = .adding → s.localCounter = 1000 ∧ s.added + 1000 = s.processed ∧
    s.processed % 1000 = 0
  remainder : s.pc ≠ .adding → s.added + s.processed % 1000 = s.processed
  counting : s.pc ≠ .adding → s.pc ≠ .left → s.localCounter = s.processed % 1000

theorem Inv.added_le {s : BatchWorker} (inv : s.Inv) : s.added ≤ s.processed := by
  by_cases pc : s.pc = .adding
  · have := (inv.adding pc).2.1
    omega
  · have := inv.remainder pc
    omega

theorem Inv.goto {s : BatchWorker} (inv : s.Inv) {pc : BatchPc} (idle : s.pc ≠ .adding)
    (inside : s.pc ≠ .left) (idle' : pc ≠ .adding) : Inv { s with pc := pc } :=
  ⟨fun h => (idle' h).elim, fun _ => inv.remainder idle, fun _ _ => inv.counting idle inside⟩

theorem Inv.count {s : BatchWorker} (inv : s.Inv) (idle : s.pc ≠ .adding)
    (inside : s.pc ≠ .left) : (BatchProgram.count s).Inv := by
  have remainder := inv.remainder idle
  have counting := inv.counting idle inside
  by_cases full : 1000 ≤ s.localCounter + 1
  · rw [BatchProgram.count, if_pos full]
    refine ⟨fun _ => ?_, fun h => (h rfl).elim, fun h => (h rfl).elim⟩
    simp only
    omega
  · rw [BatchProgram.count, if_neg full]
    refine ⟨(by simp), fun _ => ?_, fun _ _ => ?_⟩ <;> simp only <;> omega

theorem Inv.add {s : BatchWorker} (inv : s.Inv) (adding : s.pc = .adding) (p : BatchProgram)
    (total counter : Nat) : (p.add total counter s).Inv := by
  obtain ⟨full, added, whole⟩ := inv.adding adding
  rw [BatchProgram.add]
  split
  · refine ⟨(by simp), fun _ => ?_, fun _ h => (h rfl).elim⟩
    simp only
    omega
  · refine ⟨(by simp), fun _ => ?_, fun _ _ => ?_⟩ <;> simp only <;> omega

variable {p : BatchProgram} {total counter counter' : Nat} {s s' : BatchWorker}
  {l : BatchProgram.Label}

/-- A transition keeps the invariant, and the shared counter takes what is added. -/
theorem Inv.step (inv : s.Inv) (hstep : p.worker total counter s l = some (counter', s')) :
    s'.Inv ∧ ∃ n, s'.added = s.added + n ∧
      (counter' = counter ∧ n = 0 ∨ counter' = (counter + n) % 2 ^ 64) := by
  simp only [BatchProgram.worker] at hstep
  split at hstep
  · rename_i testing
    cases hstep
    exact ⟨inv.goto (by simp [testing]) (by simp [testing]) (by split <;> simp),
      0, rfl, .inl ⟨rfl, rfl⟩⟩
  · rename_i message polling
    cases hstep
    refine ⟨inv.goto (by simp [polling]) (by simp [polling]) ?_, 0, rfl, .inl ⟨rfl, rfl⟩⟩
    cases message with
    | none => simp [BatchProgram.afterPoll]
    | some value =>
        simp only [BatchProgram.afterPoll]
        split <;> simp
  · rename_i answer buf producing
    cases hstep
    have idle : s.pc ≠ .adding := by simp [producing]
    have inside : s.pc ≠ .left := by simp [producing]
    split
    · exact ⟨inv.goto idle inside (by simp), 0, rfl, .inl ⟨rfl, rfl⟩⟩
    · exact ⟨inv.count idle inside, 0, rfl, .inl ⟨rfl, rfl⟩⟩
    · exact ⟨inv.goto idle inside (by simp), 0, rfl, .inl ⟨rfl, rfl⟩⟩
  · rename_i adding
    cases hstep
    refine ⟨inv.add adding p total _, s.localCounter, ?_, .inr rfl⟩
    rw [BatchProgram.add]
    split <;> rfl
  · cases hstep

theorem inv_start (p : BatchProgram) : p.start.Inv := by
  rw [BatchProgram.start]
  refine ⟨fun h => ?_, fun _ => rfl, fun _ _ => rfl⟩
  simp only at h
  split at h <;> cases h

theorem Inv.of_reachable (reached : (p.worker total).alone.Reachable p.start s) : s.Inv := by
  refine reached.invariant (inv_start p) fun l s s' inv h => ?_
  obtain ⟨counter', hstep⟩ := Proc.alone_eq_some.mp h
  exact (inv.step hstep).1

/-- With the counter to itself and the total not reached, a worker takes one record
through its loop. -/
theorem exists_record (waiting : s.pc = .testing ∨ s.pc = .polling) (more : counter < total)
    {value buf : Bytes} (handles : p.handle (some value) = .send buf)
    (accepts : p.afterProduce .accepted = .count) :
    ∃ r, (p.worker total).solo.Reachable (counter, s) r ∧ r.2.processed = s.processed + 1 ∧
      r.2.settled ∧ (r.2.pc = .testing ∨ total ≤ r.1) := by
  have polls : (p.worker total).solo.Reachable (counter, s)
      (counter, { s with pc := .polling }) := by
    rcases waiting with testing | polling
    · refine .single .test ?_
      simp only [Proc.solo, BatchProgram.worker, testing, if_neg (Nat.not_le.mpr more)]
    · rw [← polling]
      exact .refl _
  have produces : (p.worker total).solo.Reachable (counter, { s with pc := .polling })
      (counter, { s with pc := .producing buf }) := by
    refine .single (.poll (some (some value))) ?_
    simp only [Proc.solo, BatchProgram.worker, BatchProgram.afterPoll, handles]
  have counts : (p.worker total).solo.Reachable (counter, { s with pc := .producing buf })
      (counter, BatchProgram.count s) := by
    refine .single (.produce .accepted) ?_
    simp only [Proc.solo, BatchProgram.worker, accepts]
    rfl
  have counted := polls.trans (produces.trans counts)
  by_cases full : 1000 ≤ s.localCounter + 1
  · have adding : (BatchProgram.count s).pc = .adding := if_pos full
    let counter' := (counter + (s.localCounter + 1)) % 2 ^ 64
    refine ⟨(counter', p.add total counter' (BatchProgram.count s)),
      counted.trans (.single .add ?_), ?_⟩
    · simp only [Proc.solo, BatchProgram.worker, adding]
      rfl
    · rw [BatchProgram.add]
      split
      · rename_i breaks
        exact ⟨rfl, rfl, .inr breaks.2⟩
      · exact ⟨rfl, rfl, .inl rfl⟩
  · refine ⟨_, counted, rfl, ?_⟩
    have testing : (BatchProgram.count s).pc = .testing := if_neg full
    exact ⟨by rw [settled, testing], .inl testing⟩

end BatchWorker

/-! ## All workers -/

abbrev BatchWorkers (n : Nat) := Global Nat BatchWorker (Fin n)

namespace BatchWorkers

variable {n total : Nat} {p : BatchProgram} {g : BatchWorkers n}

def start (p : BatchProgram) (n : Nat) : BatchWorkers n := ⟨0, fun _ => p.start⟩

/-- One step of one worker. -/
def step (p : BatchProgram) (total n : Nat) :
    Machine (BatchWorkers n) (Fin n × BatchProgram.Label) :=
  interleave fun _ => p.worker total

/-- The number of records processed by all workers. -/
def processed (g : BatchWorkers n) : Nat := ∑ i, (g.proc i).processed

section Reached

variable (reached : (step p total n).Reachable (start p n) g)

include reached

theorem inv (i : Fin n) : (g.proc i).Inv :=
  BatchWorker.Inv.of_reachable (interleave_run_alone reached i)

/-- The counter is the sum of what the workers added. -/
theorem counter_eq : g.mem = (∑ i, (g.proc i).added) % 2 ^ 64 := by
  refine interleave_counter BatchWorker.added reached
    (by simp [start, BatchProgram.start]) fun i c s l c' s' before hstep => ?_
  exact ((BatchWorker.Inv.of_reachable before).step hstep).2

theorem counter_le : g.mem ≤ g.processed := by
  rw [counter_eq reached]
  exact (Nat.mod_le _ _).trans (Finset.sum_le_sum fun i _ => (inv reached i).added_le)

/-- Once everything is processed and settled, the counter has got to the total exactly
if no worker is left with a remainder. -/
theorem total_le_counter_iff (small : total < 2 ^ 64) (all : g.processed = total)
    (settled : ∀ i, (g.proc i).settled) :
    total ≤ g.mem ↔ ∀ i, 1000 ∣ (g.proc i).processed := by
  have idle : ∀ i, (g.proc i).pc ≠ .adding := fun i h => by
    have := settled i
    rw [BatchWorker.settled, h] at this
    cases this
  have remainders : ∑ i, (g.proc i).added + ∑ i, (g.proc i).processed % 1000 = total := by
    rw [← all, processed, ← Finset.sum_add_distrib]
    exact Finset.sum_congr rfl fun i _ => (inv reached i).remainder (idle i)
  rw [counter_eq reached, Nat.mod_eq_of_lt (by omega)]
  constructor
  · intro full i
    have none : ∑ i, (g.proc i).processed % 1000 = 0 := by omega
    exact Nat.dvd_of_mod_eq_zero (Finset.sum_eq_zero_iff.mp none i (Finset.mem_univ i))
  · intro multiples
    have none : ∑ i, (g.proc i).processed % 1000 = 0 :=
      Finset.sum_eq_zero fun i _ => Nat.mod_eq_zero_of_dvd (multiples i)
    omega

end Reached

/-- No worker has exceeded its share or stands in the middle of a record, and as long
as records are left nobody has left the loop. -/
structure Underway (p : BatchProgram) (total : Nat) (share : Fin n → Nat) (g : BatchWorkers n) :
    Prop where
  reached : (step p total n).Reachable (start p n) g
  within : ∀ i, (g.proc i).processed ≤ share i
  settled : ∀ i, (g.proc i).settled
  waiting : g.processed < total → ∀ i, (g.proc i).pc = .testing ∨ (g.proc i).pc = .polling

theorem underway_start (p : BatchProgram) (total : Nat) (share : Fin n → Nat) :
    Underway p total share (start p n) := by
  have waiting : p.start.pc = .testing ∨ p.start.pc = .polling := by
    rw [BatchProgram.start]
    cases p.testsFirst
    · exact .inr rfl
    · exact .inl rfl
  refine ⟨.refl _, fun i => Nat.zero_le _, fun i => ?_, fun _ _ => waiting⟩
  rcases waiting with h | h <;> simp [start, BatchWorker.settled, h]

/-- A worker with records left takes one. -/
theorem Underway.exists_next {value buf : Bytes} {share : Fin n → Nat}
    (h : Underway p total share g) (handles : p.handle (some value) = .send buf)
    (accepts : p.afterProduce .accepted = .count) (left : g.processed < total)
    (short : g.processed < ∑ i, share i) :
    ∃ g', Underway p total share g' ∧ g'.processed = g.processed + 1 := by
  obtain ⟨i, -, lacks⟩ := Finset.exists_lt_of_sum_lt short
  -- the counter is short of the total, so the worker finds its test open
  have more : g.mem < total := (counter_le h.reached).trans_lt left
  obtain ⟨r, record, one, settled, next⟩ :=
    BatchWorker.exists_record (h.waiting left i) more handles accepts
  obtain ⟨g', steps, mem, proc⟩ : ∃ g' : BatchWorkers n, (step p total n).Reachable g g' ∧
      g'.mem = r.1 ∧ g'.proc = Function.update g.proc i r.2 := interleave_of_solo record
  have reached := h.reached.trans steps
  have grown : g'.processed = g.processed + 1 := by
    have sums := sum_update (fun t : BatchWorker => t.processed) g.proc i r.2
    rw [← proc] at sums
    rw [processed, processed]
    omega
  have self : g'.proc i = r.2 := by rw [proc, Function.update_self]
  have others : ∀ j, j ≠ i → g'.proc j = g.proc j := fun j hij => by
    rw [proc, Function.update_of_ne hij]
  refine ⟨g', ⟨reached, fun j => ?_, fun j => ?_, fun fewer j => ?_⟩, grown⟩
  all_goals
    by_cases hij : j = i
  · subst hij
    rw [self]
    omega
  · rw [others j hij]
    exact h.within j
  · subst hij
    rw [self]
    exact settled
  · rw [others j hij]
    exact h.settled j
  · subst hij
    have counter := counter_le reached
    rw [self]
    rcases next with testing | full
    · exact .inl testing
    · omega
  · rw [others j hij]
    exact h.waiting left j

/-- The workers can process their records for any split. -/
theorem exists_processed {value buf : Bytes} (handles : p.handle (some value) = .send buf)
    (accepts : p.afterProduce .accepted = .count) {share : Fin n → Nat}
    (sum : ∑ i, share i = total) :
    ∃ g, (step p total n).Reachable (start p n) g ∧
      ∀ i, (g.proc i).processed = share i ∧ (g.proc i).settled := by
  have exists_underway : ∀ k ≤ total, ∃ g, Underway p total share g ∧ g.processed = k := by
    intro k
    induction k with
    | zero =>
        intro _
        exact ⟨start p n, underway_start p total share, by simp [processed, start,
          BatchProgram.start]⟩
    | succ k ih =>
        intro fits
        obtain ⟨g, h, processed⟩ := ih (by omega)
        obtain ⟨g', h', one⟩ := h.exists_next handles accepts (by omega) (by omega)
        exact ⟨g', h', by omega⟩
  obtain ⟨g, h, all⟩ := exists_underway total le_rfl
  have same : ∑ i, (g.proc i).processed = ∑ i, share i := by
    rw [sum, ← all]
    rfl
  have shares := (Finset.sum_eq_sum_iff_of_le fun i _ => h.within i).mp same
  exact ⟨g, h.reached, fun i => ⟨shares i (Finset.mem_univ i), h.settled i⟩⟩

end BatchWorkers

/-- The counter gets to the total once each worker has processed its share of the
records and is done with the last of them, in every run. -/
def Batched.Delivers (b : Batched) {n : Nat} (total : Nat) (share : Fin n → Nat) : Prop :=
  ∀ g, (BatchWorkers.step b.program total n).Reachable (BatchWorkers.start b.program n) g →
    (∀ i, (g.proc i).processed = share i) → (∀ i, (g.proc i).settled) → total ≤ g.mem

theorem Batched.handles (b : Batched) :
    b.program.handle (some [0x02#8, 0x06#8, 0x00#8]) = .send [0x06#8] := by
  cases b <;> decide +kernel

theorem Batched.accepts (b : Batched) : b.program.afterProduce .accepted = .count := by
  cases b <;> rfl

/-- Some run leaves every worker with the remainder of its share. -/
theorem Batched.dvd_of_delivers {b : Batched} {n total : Nat} (small : total < 2 ^ 64)
    {share : Fin n → Nat} (sum : ∑ i, share i = total) (delivers : b.Delivers total share) :
    ∀ i, 1000 ∣ share i := by
  obtain ⟨g, reached, shares⟩ := BatchWorkers.exists_processed b.handles b.accepts sum
  have all : g.processed = total := by
    rw [← sum]
    exact Finset.sum_congr rfl fun i _ => (shares i).1
  have full := delivers g reached (fun i => (shares i).1) fun i => (shares i).2
  intro i
  rw [← (shares i).1]
  exact (BatchWorkers.total_le_counter_iff reached small all fun i => (shares i).2).mp full i

/-- **Remainders are never delivered.**  In each of the three programs, a split of the
records over the workers gets the counter to the total exactly if every share is a
multiple of a thousand. -/
theorem delivers_iff (b : Batched) {n total : Nat} (small : total < 2 ^ 64)
    (share : Fin n → Nat) (sum : ∑ i, share i = total) :
    b.Delivers total share ↔ ∀ i, 1000 ∣ share i := by
  refine ⟨b.dvd_of_delivers small sum, fun multiples g reached shares settled => ?_⟩
  have all : g.processed = total := by
    rw [← sum]
    exact Finset.sum_congr rfl fun i _ => shares i
  refine (BatchWorkers.total_le_counter_iff reached small all settled).mpr fun i => ?_
  rw [shares i]
  exact multiples i

/-- Eight equal shares of the fifty million records are delivered. -/
theorem delivers_iff_eight : Batched.go.Delivers totalRecords fun _ : Fin 8 => 6250000 :=
  (delivers_iff .go (by decide) (fun _ => 6250000) (by decide)).mpr fun _ => by decide

/-- Two workers, one of which is left with five hundred records. -/
def unevenShares : Fin 2 → Nat := ![49999500, 500]

theorem not_delivers_unevenShares : ¬ Batched.go.Delivers totalRecords unevenShares ∧
    ¬ Batched.rdkafka.Delivers totalRecords unevenShares ∧
    ¬ Batched.python.Delivers totalRecords unevenShares := by
  have undelivered : ∀ b : Batched, ¬ b.Delivers totalRecords unevenShares := by
    intro b delivers
    have multiple := Batched.dvd_of_delivers (by decide) (by decide) delivers 1
    revert multiple
    decide
  exact ⟨undelivered .go, undelivered .rdkafka, undelivered .python⟩

end KafkaTest
