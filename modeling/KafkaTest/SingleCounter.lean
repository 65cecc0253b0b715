import KafkaTest.BatchedCounter

/-!
# Counting one record at a time

The workers of the C processor and of `StreamSumBenchmark` add every record they process
to the shared counter at once.  The C loop tests the counter before each poll; the Java
loop tests it after an empty poll, and after each of its additions leaves the loop if the
total is reached.  `SingleProgram` holds these choices.

How far the workers run past the total is a matter of how many of them may still add a
record without looking at the counter again: `SingleProgram.credit`.  No worker has more
than one such addition, and a step that makes one either leaves the counter below the
total or gives the credit up.
-/

namespace KafkaTest

/-! ## The loops -/

/-- Where a worker stands: at the counter test, in `poll`, before the next message of a
batch, in the call of produce, before the increment, or out of its loop. -/
inductive SinglePc
  | testing
  | polling
  | batch (rest : List (Option Bytes))
  | producing (buf : Bytes) (rest : List (Option Bytes))
  | counting (rest : List (Option Bytes))
  | left
  deriving DecidableEq

/-- A worker, with the number of results it handed to the producer and what it added. -/
structure SingleWorker where
  pc : SinglePc
  handed : Nat
  added : Nat

/-- What distinguishes the loop of one program.  `result fuel value` is what a message
leads to, a result or nothing, if decoding it takes at most `fuel` turns of each loop.  A
loop that does not test after its additions comes back to a test after each record. -/
structure SingleProgram where
  result : Nat → Option Bytes → Option (Option Bytes)
  head : SinglePc
  batches : Bool
  testsOnCount : Bool
  head_eq : head = .testing ∨ head = .polling
  tested : testsOnCount = false → head = .testing ∧ batches = false

namespace SingleProgram

inductive Label
  | test
  | poll (messages : List (Option Bytes))
  | next (fuel : Nat)
  | produce (answer : ProduceAnswer)
  | count
  deriving DecidableEq

def start (p : SingleProgram) : SingleWorker := ⟨p.head, 0, 0⟩

/-- Where a message leads to. -/
def afterDecode (rest : List (Option Bytes)) : Option Bytes → SinglePc
  | some buf => .producing buf rest
  | none => .batch rest

/-- Where an increment leads to that leaves `counter`. -/
def afterCount (p : SingleProgram) (total : Nat) (counter : Word)
    (rest : List (Option Bytes)) : SinglePc :=
  if p.testsOnCount ∧ total ≤ counter.toInt then .left else .batch rest

/-- One transition of the loop; what the client answers to a produce call is ignored. -/
def worker (p : SingleProgram) (total : Nat) : Proc Word SingleWorker Label := fun counter s l =>
  match l, s.pc with
  | .test, .testing =>
      some (counter, { s with pc := if total ≤ counter.toInt then .left else .polling })
  | .poll messages, .polling =>
      if p.batches ∨ messages.length ≤ 1 then
        some (counter, { s with pc := if messages = [] then .testing else .batch messages })
      else none
  | .next _, .batch [] => some (counter, { s with pc := p.head })
  | .next fuel, .batch (value :: rest) =>
      (p.result fuel value).map fun result => (counter, { s with pc := afterDecode rest result })
  | .produce _, .producing _ rest =>
      some (counter, { s with pc := .counting rest, handed := s.handed + 1 })
  | .count, .counting rest =>
      let counter := counter + 1#64
      some (counter, { s with pc := p.afterCount total counter rest, added := s.added + 1 })
  | _, _ => none

/-- The transitions, one constructor for each thing that can happen. -/
inductive Move (p : SingleProgram) (total : Nat) (counter : Word) (s : SingleWorker) :
    Label → Word → SingleWorker → Prop
  | stops (testing : s.pc = .testing) (full : total ≤ counter.toInt) :
      Move p total counter s .test counter { s with pc := .left }
  | goesOn (testing : s.pc = .testing) (more : counter.toInt < total) :
      Move p total counter s .test counter { s with pc := .polling }
  | poll (messages : List (Option Bytes)) (polling : s.pc = .polling)
      (single : p.batches = false → messages.length ≤ 1) :
      Move p total counter s (.poll messages) counter
        { s with pc := if messages = [] then .testing else .batch messages }
  | batchEnd (fuel : Nat) (batch : s.pc = .batch []) :
      Move p total counter s (.next fuel) counter { s with pc := p.head }
  | next (fuel : Nat) (value : Option Bytes) (rest : List (Option Bytes))
      (result : Option Bytes) (batch : s.pc = .batch (value :: rest)) :
      Move p total counter s (.next fuel) counter { s with pc := afterDecode rest result }
  | produce (answer : ProduceAnswer) (buf : Bytes) (rest : List (Option Bytes))
      (producing : s.pc = .producing buf rest) :
      Move p total counter s (.produce answer) counter
        { s with pc := .counting rest, handed := s.handed + 1 }
  | count (rest : List (Option Bytes)) (counting : s.pc = .counting rest) :
      Move p total counter s .count (counter + 1#64)
        { s with pc := p.afterCount total (counter + 1#64) rest, added := s.added + 1 }

theorem worker_move {p : SingleProgram} {total : Nat} {counter counter' : Word}
    {s s' : SingleWorker} {l : Label} (h : p.worker total counter s l = some (counter', s')) :
    Move p total counter s l counter' s' := by
  simp only [worker] at h
  split at h
  · rename_i testing
    cases h
    by_cases full : total ≤ counter.toInt
    · rw [if_pos full]
      exact .stops testing full
    · rw [if_neg full]
      exact .goesOn testing (Int.lt_of_not_ge full)
  · rename_i messages polling
    simp only [Option.ite_none_right_eq_some, Option.some.injEq, Prod.mk.injEq] at h
    obtain ⟨fits, rfl, rfl⟩ := h
    exact .poll messages polling fun single => fits.resolve_left (by simp [single])
  · rename_i fuel batch
    cases h
    exact .batchEnd fuel batch
  · rename_i fuel value rest batch
    simp only [Option.map_eq_some_iff, Prod.mk.injEq] at h
    obtain ⟨result, -, rfl, rfl⟩ := h
    exact .next fuel value rest result batch
  · rename_i answer buf rest producing
    cases h
    exact .produce answer buf rest producing
  · rename_i rest counting
    cases h
    exact .count rest counting
  · cases h

end SingleProgram

/-- `stream-test-c`: decode, sum and encode in `worker_thread`; a message without a value
has length zero.  A message on which the loop does not return, or is undefined, has no result. -/
def C.result (fuel : Nat) (value : Option Bytes) : Option (Option Bytes) :=
  match C.decodeSum wrappingAdd fuel (value.getD []) with
  | .ok (sum, _) => some (some (C.writeVarint [] sum))
  | _ => none

/-- `stream-test-c`: the loop of `worker_thread`, which takes one message at a time. -/
def C.workerThread : SingleProgram where
  result := C.result
  head := .testing
  batches := false
  testsOnCount := false
  head_eq := .inl rfl
  tested _ := ⟨rfl, rfl⟩

/-- `StreamSumBenchmark`: decode, sum and encode in a worker; a record without a value is
passed over. -/
def JavaBenchmark.result (fuel : Nat) : Option Bytes → Option (Option Bytes)
  | none => some none
  | some payload =>
    match JavaBenchmark.decodeSum wrappingAdd fuel payload with
    | .ok (sum, _) => some (some (JavaBenchmark.writeVarint [] sum))
    | _ => none

/-- `StreamSumBenchmark`: the loop of a worker. -/
def JavaBenchmark.worker : SingleProgram where
  result := JavaBenchmark.result
  head := .polling
  batches := true
  testsOnCount := true
  head_eq := .inr rfl
  tested h := by cases h

/-- The programs that count this way. -/
inductive Single
  | c
  | javaBenchmark

def Single.program : Single → SingleProgram
  | c => C.workerThread
  | javaBenchmark => JavaBenchmark.worker

/-! ## One worker -/

namespace SinglePc

/-- The result that was handed over and is not counted yet. -/
def pending : SinglePc → Nat
  | counting _ => 1
  | _ => 0

/-- The records of the batch that are not counted yet. -/
def records : SinglePc → Nat
  | batch rest => rest.length
  | producing _ rest | counting rest => rest.length + 1
  | _ => 0

/-- The additions a worker may still make without looking at the counter again. -/
def credit (p : SingleProgram) : SinglePc → Nat
  | left => 0
  | testing | batch [] => if p.testsOnCount then 1 else 0
  | _ => 1

theorem credit_le_one (p : SingleProgram) (pc : SinglePc) : pc.credit p ≤ 1 := by
  unfold credit
  split
  · exact Nat.zero_le 1
  · split <;> omega
  · split <;> omega
  · exact le_rfl

theorem pending_le_credit (p : SingleProgram) (pc : SinglePc) : pc.pending ≤ pc.credit p := by
  cases pc <;> simp [pending, credit]

end SinglePc

namespace SingleWorker

/-- What was handed over is counted, but for the last one; without batches a worker
holds one record at most. -/
structure Inv (p : SingleProgram) (s : SingleWorker) : Prop where
  handed : s.handed = s.added + s.pc.pending
  single : p.batches = false → s.pc.records ≤ 1

variable {p : SingleProgram} {total : Nat} {counter counter' : Word} {s s' : SingleWorker}
  {l : SingleProgram.Label}

theorem Inv.start (p : SingleProgram) : p.start.Inv p := by
  rw [SingleProgram.start]
  rcases p.head_eq with head | head <;> rw [head] <;> exact ⟨rfl, fun _ => Nat.zero_le 1⟩

theorem Inv.move (inv : s.Inv p) (move : p.Move total counter s l counter' s') : s'.Inv p := by
  have handed := inv.handed
  have single := inv.single
  cases move with
  | stops testing full =>
      rw [testing] at handed
      exact ⟨handed, fun _ => Nat.zero_le 1⟩
  | goesOn testing more =>
      rw [testing] at handed
      exact ⟨handed, fun _ => Nat.zero_le 1⟩
  | poll messages polling fits =>
      rw [polling] at handed
      split
      · exact ⟨handed, fun _ => Nat.zero_le 1⟩
      · exact ⟨handed, fits⟩
  | batchEnd fuel batch =>
      rw [batch] at handed
      rcases p.head_eq with head | head <;> rw [head] <;> exact ⟨handed, fun _ => Nat.zero_le 1⟩
  | next fuel value rest result batch =>
      rw [batch] at handed single
      cases result with
      | none => exact ⟨handed, fun h => (Nat.le_succ _).trans (single h)⟩
      | some buf => exact ⟨handed, single⟩
  | produce answer buf rest producing =>
      rw [producing] at handed single
      exact ⟨congrArg (· + 1) handed, single⟩
  | count rest counting =>
      rw [counting] at handed single
      rw [SingleProgram.afterCount]
      split
      · exact ⟨handed, fun _ => Nat.zero_le 1⟩
      · exact ⟨handed, fun h => (Nat.le_succ _).trans (single h)⟩

theorem Inv.of_reachable (reached : (p.worker total).alone.Reachable p.start s) : s.Inv p := by
  refine reached.invariant (.start p) fun l s s' inv h => ?_
  obtain ⟨counter', hstep⟩ := Proc.alone_eq_some.mp h
  exact inv.move (SingleProgram.worker_move hstep)

end SingleWorker

namespace SingleProgram

variable {p : SingleProgram} {total : Nat} {counter counter' : Word} {s s' : SingleWorker}
  {l : Label}

theorem toInt_eq_toNat {counter : Word} (small : counter.toNat < 2 ^ 63) :
    counter.toInt = counter.toNat :=
  BitVec.toInt_eq_toNat_of_lt (by omega)

theorem toNat_add_one {counter : Word} (small : counter.toNat + 1 < 2 ^ 63) :
    (counter + 1#64).toNat = counter.toNat + 1 := by
  rw [BitVec.toNat_add, BitVec.toNat_ofNat]
  omega

/-- The counter takes what is added, one record at a time. -/
theorem Move.added (move : Move p total counter s l counter' s')
    (small : counter.toNat + 1 < 2 ^ 63) :
    ∃ n, s'.added = s.added + n ∧ counter'.toNat = counter.toNat + n := by
  cases move with
  | count rest counting => exact ⟨1, rfl, toNat_add_one small⟩
  | _ => exact ⟨0, rfl, rfl⟩

/-- Whoever leaves the loop has seen the total. -/
theorem Move.left (move : Move p total counter s l counter' s')
    (small : counter.toNat + 1 < 2 ^ 63) (left : s'.pc = .left) :
    s.pc = .left ∨ total ≤ counter'.toNat := by
  cases move with
  | stops testing full =>
      rw [toInt_eq_toNat (by omega)] at full
      exact .inr (by omega)
  | goesOn testing more => cases left
  | poll messages polling single =>
      simp only at left
      split at left <;> cases left
  | batchEnd fuel batch =>
      rcases p.head_eq with head | head <;> rw [show p.head = .left from left] at head <;>
        cases head
  | next fuel value rest result batch => cases result <;> cases left
  | produce answer buf rest producing => cases left
  | count rest counting =>
      have value := toNat_add_one small
      simp only [afterCount, toInt_eq_toNat (value.trans_lt small)] at left
      split at left
      · rename_i full
        exact .inr (by omega)
      · cases left

/-- A step leaves the counter below the total, or pays for what it adds. -/
theorem Move.credit (move : Move p total counter s l counter' s') (inv : s.Inv p)
    (small : counter.toNat + 1 < 2 ^ 63) :
    counter'.toNat < total ∨
      counter'.toNat + s'.pc.credit p ≤ counter.toNat + s.pc.credit p := by
  have atMost := SinglePc.credit_le_one p
  cases move with
  | stops testing full => exact .inr (Nat.add_le_add_left (Nat.zero_le _) _)
  | goesOn testing more =>
      rw [toInt_eq_toNat (by omega)] at more
      exact .inl (by omega)
  | poll messages polling single =>
      rw [polling]
      exact .inr (Nat.add_le_add_left (atMost _) _)
  | batchEnd fuel batch =>
      refine .inr (Nat.add_le_add_left ?_ _)
      cases tests : p.testsOnCount with
      | false => simp [SinglePc.credit, (p.tested tests).1, tests]
      | true =>
          refine (atMost _).trans ?_
          simp [SinglePc.credit, batch, tests]
  | next fuel value rest result batch =>
      rw [batch]
      exact .inr (Nat.add_le_add_left (atMost _) _)
  | produce answer buf rest producing =>
      rw [producing]
      exact .inr (Nat.add_le_add_left (atMost _) _)
  | count rest counting =>
      have value := toNat_add_one small
      have spent : s.pc.credit p = 1 := by simp [counting, SinglePc.credit]
      rw [spent, value]
      cases tests : p.testsOnCount with
      | true =>
          by_cases full : total ≤ (counter + 1#64).toInt
          · rw [afterCount, if_pos ⟨tests, full⟩]
            exact .inr le_rfl
          · rw [toInt_eq_toNat (value.trans_lt small)] at full
            exact .inl (by omega)
      | false =>
          have one := inv.single (p.tested tests).2
          rw [counting, SinglePc.records] at one
          have none : rest = [] := List.eq_nil_of_length_eq_zero (by omega)
          exact .inr (by simp [SinglePc.credit, afterCount, tests, none])

end SingleProgram

/-! ## All workers -/

abbrev SingleWorkers (n : Nat) := Global Word SingleWorker (Fin n)

namespace SingleWorkers

variable {p : SingleProgram} {n total : Nat} {g : SingleWorkers n}

def start (p : SingleProgram) (n : Nat) : SingleWorkers n := ⟨0#64, fun _ => p.start⟩

/-- One step of one worker. -/
def step (p : SingleProgram) (total n : Nat) :
    Machine (SingleWorkers n) (Fin n × SingleProgram.Label) :=
  interleave fun _ => p.worker total

/-- The number of results handed to the producers. -/
def handed (g : SingleWorkers n) : Nat := ∑ i, (g.proc i).handed

/-- All workers have left their loops. -/
def allLeft (g : SingleWorkers n) : Prop := ∀ i, (g.proc i).pc = .left

section Reached

variable (positive : 0 < total) (small : total + n < 2 ^ 63)
  (reached : (step p total n).Reachable (start p n) g)

include reached in
theorem inv (i : Fin n) : (g.proc i).Inv p :=
  SingleWorker.Inv.of_reachable (interleave_run_alone reached i)

include positive small reached

/-- The counter stays below the total and the workers that may still add to it. -/
theorem counter_add_credit_lt : g.mem.toNat + ∑ i, (g.proc i).pc.credit p < total + n := by
  have ones := Finset.sum_le_sum fun (i : Fin n) (_ : i ∈ Finset.univ) =>
    ((start p n).proc i).pc.credit_le_one p
  rw [Finset.sum_const, smul_eq_mul, mul_one, Finset.card_univ] at ones
  have before : (start p n).mem.toNat + ∑ i, ((start p n).proc i).pc.credit p <
      total + Fintype.card (Fin n) := by
    have zero : (start p n).mem.toNat = 0 := rfl
    omega
  have overshoot := interleave_overshoot BitVec.toNat (fun s : SingleWorker => s.pc.credit p)
    reached (fun s => s.pc.credit_le_one p) before fun i c s l c' s' alone bound hstep => by
      rw [Fintype.card_fin] at bound
      exact (SingleProgram.worker_move hstep).credit (SingleWorker.Inv.of_reachable alone)
        (by omega)
  rwa [Fintype.card_fin] at overshoot

/-- The counter has room for another record. -/
theorem counter_small : g.mem.toNat + 1 < 2 ^ 63 := by
  have := counter_add_credit_lt positive small reached
  omega

/-- The counter is the number of records counted. -/
theorem counter_eq : g.mem.toNat = ∑ i, (g.proc i).added := by
  refine interleave_sum BitVec.toNat SingleWorker.added reached (by simp [start,
    SingleProgram.start]) fun i g l c' s' reached hstep => ?_
  exact (SingleProgram.worker_move hstep).added (counter_small positive small reached)

/-- What was handed over is counted, or pending in a worker that still has its addition
to make. -/
theorem handed_eq : g.handed = g.mem.toNat + ∑ i, (g.proc i).pc.pending := by
  rw [handed, counter_eq positive small reached, ← Finset.sum_add_distrib]
  exact Finset.sum_congr rfl fun i _ => (inv reached i).handed

theorem handed_lt : g.handed < total + n := by
  have bound := counter_add_credit_lt positive small reached
  have pending := Finset.sum_le_sum fun (i : Fin n) (_ : i ∈ Finset.univ) =>
    (g.proc i).pc.pending_le_credit p
  rw [handed_eq positive small reached]
  omega

/-- Whoever left its loop, left after the total was reached. -/
theorem total_le_of_left {i : Fin n} (left : (g.proc i).pc = .left) : total ≤ g.mem.toNat := by
  refine interleave_seen (P := fun s : SingleWorker => s.pc = .left)
    (Q := fun counter : Word => total ≤ counter.toNat) reached (fun i => ?_)
    (fun i g l c' s' reached hstep => ?_) i left
  · rcases p.head_eq with head | head <;> simp [start, SingleProgram.start, head]
  · have move := SingleProgram.worker_move hstep
    have room := counter_small positive small reached
    obtain ⟨k, -, grows⟩ := move.added room
    exact ⟨fun full => by omega, move.left room⟩

end Reached

end SingleWorkers

/-- **The stopping rule.**  In the C processor and in `StreamSumBenchmark`, whatever `poll`
hands out and however the `n` workers interleave, at most `total + n - 1` results are
handed to the producers; when all workers have left their loops the number of results
handed over is the counter, and at least the total. -/
theorem stopping_rule (b : Single) {n total : Nat} (positive : 0 < total) (workers : 1 ≤ n)
    (small : total + n < 2 ^ 63) {g : SingleWorkers n}
    (reached : (SingleWorkers.step b.program total n).Reachable
      (SingleWorkers.start b.program n) g) :
    g.handed ≤ total + n - 1 ∧
      (g.allLeft → (g.handed : Int) = g.mem.toInt ∧ total ≤ g.handed ∧
        g.handed ≤ total + n - 1) := by
  have bound := SingleWorkers.handed_lt positive small reached
  refine ⟨by omega, fun left => ?_⟩
  have handed := SingleWorkers.handed_eq positive small reached
  have pending : ∑ i, (g.proc i).pc.pending = 0 :=
    Finset.sum_eq_zero fun i _ => by simp [left i, SinglePc.pending]
  have total_le := SingleWorkers.total_le_of_left positive small reached (left ⟨0, workers⟩)
  have signed := SingleProgram.toInt_eq_toNat
    (Nat.lt_of_succ_lt (SingleWorkers.counter_small positive small reached))
  omega

/-- The steps of a worker that processes the list `[3]`, up to its increment. -/
def single (i : Fin 2) : List (Fin 2 × SingleProgram.Label) :=
  [.next 4, .produce .accepted].map fun l => (i, l)

/-- Two C workers that pass the test together, with one record left to do. -/
def overshootC (i j : Fin 2) : List (Fin 2 × SingleProgram.Label) := List.flatten
  [[(i, .test), (i, .poll [some [0x02#8, 0x06#8, 0x00#8]])], single i,
    [(i, .count), (i, .next 0), (i, .test), (j, .test),
      (i, .poll [some [0x02#8, 0x06#8, 0x00#8]]), (j, .poll [some [0x02#8, 0x06#8, 0x00#8]])],
    single i, single j,
    [(i, .count), (j, .count), (i, .next 0), (j, .next 0), (i, .test), (j, .test)]]

/-- Two Java workers in the middle of their batches, with one record left to do. -/
def overshootJava (i j : Fin 2) : List (Fin 2 × SingleProgram.Label) := List.flatten
  [[(i, .poll [some [0x02#8, 0x06#8, 0x00#8], some [0x02#8, 0x06#8, 0x00#8]]),
      (j, .poll [some [0x02#8, 0x06#8, 0x00#8]])], single i, [(i, .count)], single i, single j,
    [(i, .count), (j, .count)]]

theorem stopping_rule_overshoot :
    (∃ g, (SingleWorkers.step Single.c.program 2 2).run (SingleWorkers.start Single.c.program 2)
      (overshootC 0 1) = some g ∧ g.handed = 3 ∧ g.handed ≤ 2 + 2 - 1) ∧
    ∃ g, (SingleWorkers.step Single.javaBenchmark.program 2 2).run
      (SingleWorkers.start Single.javaBenchmark.program 2) (overshootJava 0 1) = some g ∧
        g.handed = 3 ∧ g.handed ≤ 2 + 2 - 1 := by
  have endsC : ((SingleWorkers.step Single.c.program 2 2).run
      (SingleWorkers.start Single.c.program 2) (overshootC 0 1)).map
        (fun g => (g.mem, (g.proc 0).pc, (g.proc 1).pc)) = some (3#64, .left, .left) := by
    decide +kernel
  have endsJava : ((SingleWorkers.step Single.javaBenchmark.program 2 2).run
      (SingleWorkers.start Single.javaBenchmark.program 2) (overshootJava 0 1)).map
        (fun g => (g.mem, (g.proc 0).pc, (g.proc 1).pc)) = some (3#64, .left, .left) := by
    decide +kernel
  obtain ⟨g, hrun, hg⟩ := Option.map_eq_some_iff.mp endsC
  obtain ⟨k, hjava, hk⟩ := Option.map_eq_some_iff.mp endsJava
  simp only [Prod.mk.injEq] at hg hk
  obtain ⟨counted, bounds⟩ := (stopping_rule .c (by decide) (by decide) (by decide)
    ⟨_, hrun⟩).2 (Fin.forall_fin_two.mpr hg.2)
  obtain ⟨countedJava, boundsJava⟩ := (stopping_rule .javaBenchmark (by decide) (by decide)
    (by decide) ⟨_, hjava⟩).2 (Fin.forall_fin_two.mpr hk.2)
  have three : (3#64).toInt = 3 := rfl
  rw [hg.1, three] at counted
  rw [hk.1, three] at countedJava
  exact ⟨⟨g, hrun, by omega, bounds.2⟩, k, hjava, by omega, boundsJava.2⟩

end KafkaTest
