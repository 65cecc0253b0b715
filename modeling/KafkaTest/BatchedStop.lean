import KafkaTest.BatchedCounter
import KafkaTest.Observers

/-!
# The stopping rule of the batched counters

A worker of the Go, rdkafka-Rust or Python program tests the counter before each poll, and so
adds one thousand at most without another look at it.  `batched_stopping_rule` is what follows
for the counter, the records processed and the workers that have left, in every state.

The main programs and their reporters only look.  `Watch` is the loop of each of them, and
`progress_reports` says what they print, and when they come to their end.
-/

namespace KafkaTest

/-! ## One worker -/

namespace BatchProgram

/-- The transitions of a worker, one constructor for each thing that can happen. -/
inductive Move (p : BatchProgram) (total counter : Nat) (s : BatchWorker) :
    Label → Nat → BatchWorker → Prop
  | stops (testing : s.pc = .testing) (full : total ≤ counter) :
      Move p total counter s .test counter { s with pc := .left }
  | goesOn (testing : s.pc = .testing) (more : counter < total) :
      Move p total counter s .test counter { s with pc := .polling }
  | nothing (polling : s.pc = .polling) :
      Move p total counter s (.poll none) counter { s with pc := .testing }
  | skips (value : Option Bytes) (polling : s.pc = .polling) (handled : p.handle value = .skip) :
      Move p total counter s (.poll (some value)) counter { s with pc := .testing }
  | handles (value : Option Bytes) (buf : Bytes) (polling : s.pc = .polling)
      (handled : p.handle value = .send buf) :
      Move p total counter s (.poll (some value)) counter { s with pc := .producing buf }
  | dies (value : Option Bytes) (polling : s.pc = .polling) (handled : p.handle value = .crash) :
      Move p total counter s (.poll (some value)) counter { s with pc := .crashed }
  | again (answer : ProduceAnswer) (buf : Bytes) (producing : s.pc = .producing buf)
      (answered : p.afterProduce answer = .again) :
      Move p total counter s (.produce answer) counter { s with pc := .producing buf }
  | count (answer : ProduceAnswer) (buf : Bytes) (producing : s.pc = .producing buf)
      (answered : p.afterProduce answer = .count) :
      Move p total counter s (.produce answer) counter (count s)
  | fails (answer : ProduceAnswer) (buf : Bytes) (producing : s.pc = .producing buf)
      (answered : p.afterProduce answer = .crash) :
      Move p total counter s (.produce answer) counter { s with pc := .crashed }
  | add (adding : s.pc = .adding) :
      Move p total counter s .add ((counter + s.localCounter) % 2 ^ 64)
        (p.add total ((counter + s.localCounter) % 2 ^ 64) s)

theorem worker_move {p : BatchProgram} {total counter counter' : Nat} {s s' : BatchWorker}
    {l : Label} (h : p.worker total counter s l = some (counter', s')) :
    p.Move total counter s l counter' s' := by
  unfold worker at h
  split at h
  · rename_i testing
    cases h
    by_cases full : total ≤ counter
    · rw [if_pos full]
      exact .stops testing full
    · rw [if_neg full]
      exact .goesOn testing (Nat.lt_of_not_le full)
  · rename_i message polling
    cases h
    cases message with
    | none => exact .nothing polling
    | some value =>
        simp only [afterPoll]
        cases handled : p.handle value with
        | skip => exact .skips value polling handled
        | send buf => exact .handles value buf polling handled
        | crash => exact .dies value polling handled
  · rename_i answer buf producing
    cases h
    cases answered : p.afterProduce answer with
    | again => exact .again answer buf producing answered
    | count => exact .count answer buf producing answered
    | crash => exact .fails answer buf producing answered
  · rename_i adding
    cases h
    exact .add adding
  · cases h

end BatchProgram

namespace BatchWorker

/-- The worker may still add a thousand without another look at the counter. -/
def credit (s : BatchWorker) : Nat :=
  match s.pc with
  | .polling | .producing _ => if s.localCounter = 999 then 1 else 0
  | .adding => 1
  | _ => 0

theorem credit_le_one (s : BatchWorker) : s.credit ≤ 1 := by
  unfold credit
  split
  · split <;> omega
  · split <;> omega
  · omega
  · omega

theorem credit_of_idle {s : BatchWorker} (idle : s.pc = .testing ∨ s.pc = .left ∨ s.pc = .crashed) :
    s.credit = 0 := by
  unfold credit
  rcases idle with pc | pc | pc <;> rw [pc]

/-- Every thousand is added as a whole. -/
theorem Inv.dvd_added {s : BatchWorker} (inv : s.Inv) : 1000 ∣ s.added := by
  by_cases pc : s.pc = .adding
  · have := inv.adding pc
    omega
  · have := inv.remainder pc
    omega

/-- No more than a thousand is kept back. -/
theorem Inv.processed_le {s : BatchWorker} (inv : s.Inv) : s.processed ≤ s.added + 1000 := by
  by_cases pc : s.pc = .adding
  · have := inv.adding pc
    omega
  · have := inv.remainder pc
    omega

variable {p : BatchProgram} {total counter counter' : Nat} {s s' : BatchWorker}
  {l : BatchProgram.Label}

/-- A step counts no thousand without credit for it, and gives credit only below the total. -/
theorem Inv.credit_step (inv : s.Inv) (small : counter + 1000 < 2 ^ 64)
    (move : p.Move total counter s l counter' s') :
    counter < total ∧ counter' = counter ∨
      counter' + 1000 * s'.credit ≤ counter + 1000 * s.credit := by
  have moved : ∀ {pc : BatchPc}, pc = .testing ∨ pc = .left ∨ pc = .crashed →
      counter + 1000 * BatchWorker.credit { s with pc := pc } ≤ counter + 1000 * s.credit := by
    intro pc idle
    have none : BatchWorker.credit { s with pc := pc } = 0 := credit_of_idle idle
    rw [none]
    exact Nat.add_le_add_left (Nat.zero_le _) _
  cases move with
  | stops testing full => exact .inr (moved (.inr (.inl rfl)))
  | goesOn testing more => exact .inl ⟨more, rfl⟩
  | nothing polling => exact .inr (moved (.inl rfl))
  | skips value polling handled => exact .inr (moved (.inl rfl))
  | handles value buf polling handled =>
      have same : BatchWorker.credit { s with pc := .producing buf } = s.credit := by
        unfold credit
        rw [polling]
      exact .inr (by rw [same])
  | dies value polling handled => exact .inr (moved (.inr (.inr rfl)))
  | again answer buf producing answered =>
      rw [← producing]
      exact .inr le_rfl
  | count answer buf producing answered =>
      refine .inr (Nat.add_le_add_left (Nat.mul_le_mul_left _ ?_) _)
      have counting := inv.counting (by simp [producing]) (by simp [producing])
      have before : s.credit = if s.localCounter = 999 then 1 else 0 := by
        unfold credit
        rw [producing]
      rw [before]
      by_cases full : s.localCounter = 999
      · rw [if_pos full]
        exact credit_le_one _
      · have testing : (BatchProgram.count s).pc = .testing := if_neg (by omega)
        exact (credit_of_idle (.inl testing)).trans_le (Nat.zero_le _)
  | fails answer buf producing answered => exact .inr (moved (.inr (.inr rfl)))
  | add adding =>
      have full := (inv.adding adding).1
      have idle : (p.add total ((counter + s.localCounter) % 2 ^ 64) s).credit = 0 := by
        apply credit_of_idle
        unfold BatchProgram.add
        split
        · exact .inr (.inl rfl)
        · exact .inl rfl
      have spent : s.credit = 1 := by
        unfold credit
        rw [adding]
      rw [idle, spent, full]
      omega

/-- With room for a thousand the counter takes exactly what is added. -/
theorem Inv.adds (inv : s.Inv) (small : counter + 1000 < 2 ^ 64)
    (move : p.Move total counter s l counter' s') :
    ∃ k, s'.added = s.added + k ∧ counter' = counter + k := by
  cases move with
  | add adding =>
      have full := (inv.adding adding).1
      refine ⟨s.localCounter, ?_, by omega⟩
      unfold BatchProgram.add
      split <;> rfl
  | _ => exact ⟨0, rfl, rfl⟩

/-- Who leaves has seen the total. -/
theorem left_of_move (move : p.Move total counter s l counter' s') (left : s'.pc = .left) :
    s.pc = .left ∨ total ≤ counter' := by
  cases move with
  | stops testing full => exact .inr full
  | count answer buf producing answered =>
      unfold BatchProgram.count at left
      dsimp only at left
      split at left <;> cases left
  | add adding =>
      unfold BatchProgram.add at left
      split at left
      · rename_i breaks
        exact .inr breaks.2
      · cases left
  | _ => cases left

end BatchWorker

/-! ## All workers -/

namespace BatchWorkers

variable {n total : Nat} {p : BatchProgram} {g : BatchWorkers n}

section Reached

variable (positive : 0 < total) (small : total + 1000 * n + 2000 ≤ 2 ^ 64)
  (reached : (step p total n).Reachable (start p n) g)

include positive small reached

/-- The thousands counted, and those that may still be without another look. -/
theorem thousands_lt :
    g.mem / 1000 + ∑ i, (g.proc i).credit < (total + 999) / 1000 + n := by
  have none : p.start.credit = 0 := by
    unfold BatchProgram.start BatchWorker.credit
    cases p.testsFirst <;> rfl
  have before : (start p n).mem / 1000 + ∑ i, ((start p n).proc i).credit <
      (total + 999) / 1000 + Fintype.card (Fin n) := by
    simp only [start, none, Finset.sum_const_zero, Fintype.card_fin]
    omega
  have bound := interleave_overshoot (fun c => c / 1000) BatchWorker.credit reached
    BatchWorker.credit_le_one before fun i c s l c' s' alone bound hstep => by
      rw [Fintype.card_fin] at bound
      have inv := BatchWorker.Inv.of_reachable alone
      rcases inv.credit_step (by omega) (BatchProgram.worker_move hstep) with ⟨below, rfl⟩ | paid
      · exact .inl (by omega)
      · exact .inr (by omega)
  rwa [Fintype.card_fin] at bound

theorem counter_small : g.mem + 1000 < 2 ^ 64 := by
  have := thousands_lt positive small reached
  omega

/-- The counter does not wrap. -/
theorem counter_eq_sum : g.mem = ∑ i, (g.proc i).added := by
  refine interleave_sum id BatchWorker.added reached ?_ fun i g l c' s' before hstep => ?_
  · simp [start, BatchProgram.start]
  · exact (inv before i).adds (counter_small positive small before)
      (BatchProgram.worker_move hstep)

theorem dvd_counter : 1000 ∣ g.mem := by
  rw [counter_eq_sum positive small reached]
  exact Finset.dvd_sum fun i _ => (inv reached i).dvd_added

/-- The counter never falls. -/
theorem counter_mono {i : Fin n × BatchProgram.Label} {g' : BatchWorkers n}
    (hstep : step p total n g i = some g') : g.mem ≤ g'.mem := by
  rcases i with ⟨i, l⟩
  obtain ⟨t, ht, -⟩ := interleave_eq_some.mp hstep
  obtain ⟨k, -, counter⟩ := (inv reached i).adds (counter_small positive small reached)
    (BatchProgram.worker_move ht)
  omega

/-- Once somebody has left, the total is counted. -/
theorem total_le_of_left {i : Fin n} (left : (g.proc i).pc = .left) : total ≤ g.mem := by
  refine interleave_seen (P := fun t : BatchWorker => t.pc = .left) (Q := fun c => total ≤ c)
    reached ?_ ?_ i left
  · intro i
    simp only [start, BatchProgram.start]
    cases p.testsFirst <;> simp
  · intro i g l c' s' before hstep
    have move := BatchProgram.worker_move hstep
    obtain ⟨k, -, counter⟩ := (inv before i).adds (counter_small positive small before) move
    exact ⟨fun counted => counted.trans (by omega), BatchWorker.left_of_move move⟩

/-- Each worker keeps a thousand back at most. -/
theorem processed_le : g.processed ≤ g.mem + 1000 * n := by
  have kept := Finset.sum_le_sum fun i (_ : i ∈ Finset.univ) => (inv reached i).processed_le
  rw [Finset.sum_add_distrib, Finset.sum_const, Finset.card_univ, Fintype.card_fin,
    smul_eq_mul, Nat.mul_comm n, ← counter_eq_sum positive small reached] at kept
  exact kept

end Reached

/-- The workers can each add a thousand records, which gets the counter to their number. -/
theorem exists_thousands (b : Batched) (small : 1000 * n < 2 ^ 64) :
    ∃ g, (step b.program (1000 * n) n).Reachable (start b.program n) g ∧
      (∀ i, (g.proc i).added = 1000) ∧ g.processed = 1000 * n ∧ g.mem = 1000 * n := by
  have split : ∑ _i : Fin n, 1000 = 1000 * n := by simp [Nat.mul_comm]
  obtain ⟨g, reached, shares⟩ := exists_processed b.handles b.accepts split
  have all : g.processed = 1000 * n := by
    rw [← split]
    exact Finset.sum_congr rfl fun i _ => (shares i).1
  have full : 1000 * n ≤ g.mem :=
    (total_le_counter_iff reached small all fun i => (shares i).2).mpr fun i => by
      rw [(shares i).1]
  refine ⟨g, reached, fun i => ?_, all, Nat.le_antisymm ((counter_le reached).trans all.le) full⟩
  have idle : (g.proc i).pc ≠ .adding := by
    intro adding
    have settled := (shares i).2
    rw [BatchWorker.settled, adding] at settled
    cases settled
  have remainder := (inv reached i).remainder idle
  have share := (shares i).1
  omega

end BatchWorkers

/-- **The stopping rule of the batched counters.**  In every state of the Go, rdkafka-Rust and
Python workers, whatever they poll and however their producers answer, the counter is what the
workers have added, a number of thousands, no more than the records processed and at most a
thousand for each worker behind them, and less than a thousand for each worker past the total.
Whoever has left, has left with the total counted, and has added all but less than a thousand of
the records it processed. -/
theorem batched_stopping_rule (b : Batched) {n total : Nat} (positive : 0 < total)
    (small : total + 1000 * n + 2000 ≤ 2 ^ 64) {g : BatchWorkers n}
    (reached : (BatchWorkers.step b.program total n).Reachable (BatchWorkers.start b.program n) g) :
    g.mem = ∑ i, (g.proc i).added ∧ 1000 ∣ g.mem ∧
      g.mem ≤ g.processed ∧ g.processed ≤ g.mem + 1000 * n ∧ g.mem < total + 1000 * n ∧
      ∀ i, (g.proc i).pc = .left →
        total ≤ g.mem ∧ (g.proc i).processed < (g.proc i).added + 1000 := by
  have thousands := BatchWorkers.thousands_lt positive small reached
  have whole := BatchWorkers.dvd_counter positive small reached
  refine ⟨BatchWorkers.counter_eq_sum positive small reached, whole,
    BatchWorkers.counter_le reached, BatchWorkers.processed_le positive small reached, by omega,
    fun i left => ⟨BatchWorkers.total_le_of_left positive small reached left, ?_⟩⟩
  have remainder := (BatchWorkers.inv reached i).remainder (by rw [left]; simp)
  omega

/-- A thousand records for each of two workers. -/
theorem batched_stopping_rule_two : ∃ g : BatchWorkers 2,
    (BatchWorkers.step Batched.python.program 2000 2).Reachable
      (BatchWorkers.start Batched.python.program 2) g ∧ g.processed = 2000 ∧ g.mem < 4000 := by
  obtain ⟨g, reached, -, all, -⟩ := BatchWorkers.exists_thousands .python (n := 2) (by decide)
  exact ⟨g, reached, all,
    (batched_stopping_rule .python (by decide) (by decide) reached).2.2.2.2.1⟩

/-! ## Who only looks -/

/-- Where a loop that waits for the counter stands: at its test, asleep before it looks at the
counter, or behind the loop. -/
inductive WatchPc
  | testing
  | sleeping
  | ended
  deriving DecidableEq

/-- Such a loop, with the counters it printed a line of progress about. -/
structure Watch where
  pc : WatchPc
  printed : List Nat

/-- What distinguishes the loops.  One that does not test first leaves behind a look at the
total; one that heeds the stop flag also leaves once that is set. -/
structure WatchProgram where
  testsFirst : Bool
  heedsStop : Bool
  prints : Bool

/-- `stream-test-go`: `for counter < total { sleep }` of `main`. -/
def Go.mainLoop : WatchProgram := ⟨true, false, false⟩

/-- `stream-test-go`: the progress reporter, `for { sleep; print; if c >= total { break } }`. -/
def Go.reporter : WatchProgram := ⟨false, false, true⟩

/-- `stream-test-rust`: the reporter, `while counter < total && reporter_stop == 0`. -/
def Rdkafka.reporter : WatchProgram := ⟨true, true, true⟩

/-- `stream-test-python`: `while counter.value < total` of the main program. -/
def Python.mainLoop : WatchProgram := ⟨true, false, true⟩

namespace Watch

inductive Label
  | test (stopped : Bool)
  | look

def start (w : WatchProgram) : Watch := ⟨if w.testsFirst then .testing else .sleeping, []⟩

/-- All worker threads are over, so that `main` has joined them and may set the stop flag. -/
def Over {n : Nat} (g : BatchWorkers n) : Prop :=
  ∀ i, (g.proc i).pc = .left ∨ (g.proc i).pc = .crashed

instance {n : Nat} (g : BatchWorkers n) : Decidable (Over g) :=
  inferInstanceAs (Decidable (∀ i, (g.proc i).pc = .left ∨ (g.proc i).pc = .crashed))

/-- One transition of the loop; no step changes the counter or a worker. -/
def step (w : WatchProgram) (total : Nat) {n : Nat} (g : BatchWorkers n) (s : Watch) :
    Label → Option Watch
  | .test stopped =>
      if s.pc = .testing ∧ (stopped → w.heedsStop ∧ Over g) then
        some { s with pc := if g.mem < total ∧ stopped = false then .sleeping else .ended }
      else none
  | .look =>
      if s.pc = .sleeping then
        some
          { pc := if w.testsFirst then .testing else if total ≤ g.mem then .ended else .sleeping
            printed := if w.prints ∧ 0 < g.mem then s.printed ++ [g.mem] else s.printed }
      else none

/-- What a watching loop knows of the counter. -/
structure Inv (w : WatchProgram) (total : Nat) {n : Nat} (g : BatchWorkers n) (s : Watch) :
    Prop where
  positive : ∀ c ∈ s.printed, 0 < c
  past : ∀ c ∈ s.printed, c ≤ g.mem
  below : s.pc = .sleeping → ∀ c ∈ s.printed, c < total
  once : ∀ c ∈ s.printed.dropLast, c < total
  ended : s.pc = .ended → total ≤ g.mem ∨ w.heedsStop ∧ Over g

theorem inv_start (w : WatchProgram) (total n : Nat) (g : BatchWorkers n) :
    (start w).Inv w total g := by
  refine ⟨by simp [start], by simp [start], by simp [start], by simp [start], ?_⟩
  intro ended
  unfold start at ended
  split at ended <;> cases ended

/-- A look is noted, and only the last one may be past the total. -/
theorem Inv.step {w : WatchProgram} {total n : Nat} {g : BatchWorkers n} {s s' : Watch} {l : Label}
    (inv : s.Inv w total g) (hstep : step w total g s l = some s') : s'.Inv w total g := by
  cases l with
  | test stopped =>
      simp only [Watch.step, Option.ite_none_right_eq_some, Option.some.injEq] at hstep
      obtain ⟨⟨-, flag⟩, rfl⟩ := hstep
      refine ⟨inv.positive, inv.past, fun sleeping c member => ?_, inv.once, fun ended => ?_⟩
      · simp only at sleeping
        split at sleeping
        · rename_i more
          exact (inv.past c member).trans_lt more.1
        · cases sleeping
      · simp only at ended
        split at ended
        · cases ended
        · rename_i enough
          cases stopped with
          | false => exact .inl (Nat.le_of_not_lt fun more => enough ⟨more, rfl⟩)
          | true => exact .inr (flag rfl)
  | look =>
      simp only [Watch.step, Option.ite_none_right_eq_some, Option.some.injEq] at hstep
      obtain ⟨sleeping, rfl⟩ := hstep
      have below := inv.below sleeping
      have noted : ∀ c, c ∈ (if w.prints ∧ 0 < g.mem then s.printed ++ [g.mem] else s.printed) →
          c ∈ s.printed ∨ 0 < g.mem ∧ c = g.mem := by
        intro c member
        split at member
        · rename_i counted
          rcases List.mem_append.mp member with earlier | last
          · exact .inl earlier
          · exact .inr ⟨counted.2, List.mem_singleton.mp last⟩
        · exact .inl member
      refine ⟨fun c member => ?_, fun c member => ?_, fun asleep c member => ?_,
        fun c member => ?_, fun ended => ?_⟩
      · rcases noted c member with earlier | ⟨positive, rfl⟩
        · exact inv.positive c earlier
        · exact positive
      · rcases noted c member with earlier | ⟨-, rfl⟩
        · exact inv.past c earlier
        · exact le_rfl
      · simp only at asleep
        split at asleep
        · cases asleep
        · split at asleep
          · cases asleep
          · rename_i more
            rcases noted c member with earlier | ⟨-, rfl⟩
            · exact below c earlier
            · exact Nat.lt_of_not_le more
      · simp only at member
        split at member
        · rw [List.dropLast_concat] at member
          exact below c member
        · exact inv.once c member
      · simp only at ended
        split at ended
        · cases ended
        · split at ended
          · rename_i full
            exact .inl full
          · cases ended

/-- A step of a worker leaves true what a loop knows. -/
theorem Inv.of_workers {w : WatchProgram} {p : BatchProgram} {total n : Nat} {g g' : BatchWorkers n}
    {s : Watch} {l : Fin n × BatchProgram.Label} (inv : s.Inv w total g) (grows : g.mem ≤ g'.mem)
    (hstep : BatchWorkers.step p total n g l = some g') : s.Inv w total g' := by
  refine ⟨inv.positive, fun c member => (inv.past c member).trans grows, inv.below, inv.once,
    fun ended => ?_⟩
  rcases inv.ended ended with full | ⟨heeds, joined⟩
  · exact .inl (full.trans grows)
  · -- nobody who is over takes a step
    rcases l with ⟨i, l⟩
    obtain ⟨t, ht, -⟩ := interleave_eq_some.mp hstep
    rcases joined i with left | crashed
    · cases l <;> simp [BatchProgram.worker, left] at ht
    · cases l <;> simp [BatchProgram.worker, crashed] at ht

end Watch

/-- **What the progress reports tell.**  While the workers of the Go, rdkafka-Rust or Python
program run, the numbers that a watching loop prints never fall, nor do the percentages; all are
positive and none is ahead of the counter, and only the last one may have got to the total.  A
loop that has ended has seen the total counted, or, where it heeds the stop flag, all workers
over. -/
theorem progress_reports (b : Batched) (w : WatchProgram) {n total : Nat} (positive : 0 < total)
    (small : total + 1000 * n + 2000 ≤ 2 ^ 64) {t : BatchWorkers n × Watch}
    (reached : (Machine.watched (BatchWorkers.step b.program total n)
      (Watch.step w total)).Reachable (BatchWorkers.start b.program n, Watch.start w) t) :
    t.2.printed.Pairwise (· ≤ ·) ∧
      (t.2.printed.map fun c => c * 100 / total).Pairwise (· ≤ ·) ∧
      (∀ c ∈ t.2.printed, 0 < c ∧ c ≤ t.1.mem) ∧
      (∀ c ∈ t.2.printed.dropLast, c < total) ∧
      (t.2.pc = .ended → total ≤ t.1.mem ∨ w.heedsStop ∧ Watch.Over t.1) := by
  have grows : ∀ l g g', (BatchWorkers.step b.program total n).Reachable
      (BatchWorkers.start b.program n) g → BatchWorkers.step b.program total n g l = some g' →
      g.mem ≤ g'.mem := fun l g g' before hstep =>
    BatchWorkers.counter_mono positive small before hstep
  have inv : t.2.Inv w total t.1 := by
    refine Machine.watched_invariant (I := fun g s => s.Inv w total g) reached
      (Watch.inv_start w total n _) ?_ ?_
    · intro l g g' s before inv hstep
      exact inv.of_workers (grows l g g' before hstep) hstep
    · intro a g s s' _ inv hstep
      exact inv.step hstep
  have sorted : t.2.printed.Pairwise (· ≤ ·) := by
    refine (Machine.watched_log Global.mem Watch.printed reached rfl grows
      fun a g s s' hstep => ?_).1
    cases a with
    | test stopped =>
        simp only [Watch.step, Option.ite_none_right_eq_some, Option.some.injEq] at hstep
        obtain ⟨-, rfl⟩ := hstep
        exact .inl rfl
    | look =>
        simp only [Watch.step, Option.ite_none_right_eq_some, Option.some.injEq] at hstep
        obtain ⟨-, rfl⟩ := hstep
        dsimp only
        split
        · exact .inr rfl
        · exact .inl rfl
  refine ⟨sorted, ?_, fun c member => ⟨inv.positive c member, inv.past c member⟩, inv.once,
    inv.ended⟩
  rw [List.pairwise_map]
  refine sorted.imp fun le => ?_
  exact Nat.div_le_div_right (Nat.mul_le_mul_right _ le)

/-- Two Go workers have counted a thousand records each when the reporter looks. -/
theorem progress_reports_printed : ∃ t : BatchWorkers 2 × Watch,
    (Machine.watched (BatchWorkers.step Batched.go.program 2000 2)
      (Watch.step Go.reporter 2000)).Reachable
        (BatchWorkers.start Batched.go.program 2, Watch.start Go.reporter) t ∧
      t.2.printed = [2000] ∧ (∀ c ∈ t.2.printed, c ≤ t.1.mem) ∧ 2000 ≤ t.1.mem := by
  obtain ⟨g, reached, -, -, counter⟩ := BatchWorkers.exists_thousands .go (n := 2) (by decide)
  have looks : Watch.step Go.reporter 2000 g (Watch.start Go.reporter) .look =
      some ⟨.ended, [2000]⟩ := by
    simp [Watch.step, Watch.start, Go.reporter, counter]
  have ended := (Machine.watched_of_reachable reached (Watch.start Go.reporter)).trans
    (.single (.inr Watch.Label.look) (Option.map_eq_some_iff.mpr ⟨_, looks, rfl⟩))
  obtain ⟨-, -, past, -, seen⟩ :=
    progress_reports .go Go.reporter (by decide) (by decide) ended
  refine ⟨_, ended, rfl, fun c member => (past c member).2, ?_⟩
  rcases seen rfl with total | ⟨heeds, -⟩
  · exact total
  · cases heeds

end KafkaTest
