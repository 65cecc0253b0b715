import KafkaTest.Endpoints
import KafkaTest.Loader
import KafkaTest.Observers

/-!
# Throughput counters

The producers of Go, rdkafka-Rust, Java, Scala and Ruby, the Java and the Scala consumer and
both `StreamSumApp`s count what they have done in a shared counter, which a reporter swaps for
zero every five seconds.  They are one loop: a test of the `running` flag where there is one, a
poll, or one record to generate, the handling of each record, and an addition for each record,
or for each thousand.  `TallyProgram` holds the choices.

* `throughput_accounts`: what the reports add up to, over all interleavings.
* `results_in_order`: what a thread of a `StreamSumApp` sends.
* `malformed_holds_up`: a payload that does not decode stops a thread for good.  In the Java
  program that is any without a zero count, in the Scala program only one of a huge count.
-/

namespace KafkaTest

/-! ## The loops -/

/-- What a record leads to: nothing, a message to send, or to be counted. -/
inductive Handling
  | skip
  | send (buf : Bytes)
  | count
  deriving DecidableEq

/-- What distinguishes the loop of one program, for records of a kind.  `handle fuel record` is
what a record leads to, if that takes at most `fuel` turns of each loop; where `raises` holds a
send that fails ends the thread, otherwise it is ignored.  The counter is kept to the `modulus`,
or is unbounded where that is 0; in Java and Scala it is a signed word. -/
structure TallyProgram (α : Type) where
  handle : Nat → α → Option Handling
  polls : Bool
  raises : Bool
  testsRunning : Bool
  batch : Nat
  batch_pos : 0 < batch
  modulus : Nat

/-- The shared memory. -/
structure Board where
  counter : Nat
  running : Bool

/-- Where a thread stands: at its test, in `poll`, before the next record, in the call of send,
before its addition, or over; then a message may be lost. -/
inductive ThreadPc (α : Type)
  | testing
  | polling
  | batch (rest : List α)
  | sending (buf : Bytes) (rest : List α)
  | adding (rest : List α)
  | ended (lost : List Bytes) (rest : List α)

/-- A thread, with the records it was handed and those it has taken up, the messages that were
accepted, and how many records it counted and added. -/
structure TallyThread (α : Type) where
  pc : ThreadPc α
  localCounter : Nat
  polled : List α
  consumed : List α
  sent : List Bytes
  handled : Nat
  added : Nat

/-- The reporter, with the counts it took. -/
structure Reporter where
  taken : List Nat
  shut : Bool

inductive ThreadLabel (α : Type)
  | test
  | poll (records : List α)
  | pollFails
  | next (fuel : Nat)
  | send (accepted : Bool)
  | add

inductive ReporterLabel
  | report
  | hook
  | shutdown

namespace ThreadPc

variable {α : Type}

/-- The records still to be taken up. -/
def rest : ThreadPc α → List α
  | batch rest | sending _ rest | adding rest | ended _ rest => rest
  | _ => []

/-- The message that is not accepted yet, or will not be. -/
def pending : ThreadPc α → List Bytes
  | sending buf _ => [buf]
  | ended lost _ => lost
  | _ => []

end ThreadPc

namespace TallyProgram

variable {α : Type}

def start : TallyThread α := ⟨.testing, 0, [], [], [], 0, 0⟩

/-- The record is counted locally. -/
def count (p : TallyProgram α) (t : TallyThread α) (rest : List α) : TallyThread α :=
  { t with
    handled := t.handled + 1
    localCounter := t.localCounter + 1
    pc := if p.batch ≤ t.localCounter + 1 then .adding rest else .batch rest }

/-- The next record of a batch. -/
def turn (p : TallyProgram α) (t : TallyThread α) (record : α) (rest : List α) :
    Handling → TallyThread α
  | .skip => { t with consumed := t.consumed ++ [record], pc := .batch rest }
  | .send buf => { t with consumed := t.consumed ++ [record], pc := .sending buf rest }
  | .count => p.count { t with consumed := t.consumed ++ [record] } rest

/-- One transition of a thread. -/
def thread (p : TallyProgram α) : Proc Board (TallyThread α) (ThreadLabel α) := fun b t l =>
  match l, t.pc with
  | .test, .testing =>
      let stops := p.testsRunning ∧ b.running = false
      some (b, { t with pc := if stops then .ended [] [] else .polling })
  | .poll records, .polling =>
      if p.polls ∨ records.length = 1 then
        some (b, { t with polled := t.polled ++ records, pc := .batch records })
      else none
  | .pollFails, .polling => if p.polls then some (b, { t with pc := .ended [] [] }) else none
  | .next _, .batch [] => some (b, { t with pc := .testing })
  | .next fuel, .batch (record :: rest) =>
      (p.handle fuel record).map fun handling => (b, p.turn t record rest handling)
  | .send true, .sending buf rest => some (b, p.count { t with sent := t.sent ++ [buf] } rest)
  | .send false, .sending buf rest =>
      some (b, if p.raises then { t with pc := .ended [buf] rest } else p.count t rest)
  | .add, .adding rest =>
      some ({ b with counter := (b.counter + t.localCounter) % p.modulus },
        { t with added := t.added + t.localCounter, localCounter := 0, pc := .batch rest })
  | _, _ => none

/-- The reporter swaps the counter for zero, until the shutdown hook has stopped it. -/
def reporter (p : TallyProgram α) : Proc Board Reporter ReporterLabel := fun b r l =>
  match l with
  | .report =>
      if r.shut = false then
        some ({ b with counter := 0 }, { r with taken := r.taken ++ [b.counter] })
      else none
  | .hook => if p.testsRunning then some ({ b with running := false }, r) else none
  | .shutdown => if b.running = false then some (b, { r with shut := true }) else none

/-- A thread, or the reporter. -/
abbrev party (p : TallyProgram α) :
    Proc Board (TallyThread α ⊕ Reporter) (ThreadLabel α ⊕ ReporterLabel) :=
  p.thread.either p.reporter

/-! ## One thread -/

/-- The transitions of a thread, one constructor for each of them. -/
inductive Move (p : TallyProgram α) (b : Board) (t : TallyThread α) :
    ThreadLabel α → Board → TallyThread α → Prop
  | leave (testing : t.pc = .testing) (stopped : p.testsRunning ∧ b.running = false) :
      Move p b t .test b { t with pc := .ended [] [] }
  | goOn (testing : t.pc = .testing) (runs : ¬ (p.testsRunning ∧ b.running = false)) :
      Move p b t .test b { t with pc := .polling }
  | poll (records : List α) (polling : t.pc = .polling) :
      Move p b t (.poll records) b { t with polled := t.polled ++ records, pc := .batch records }
  | pollFails (polling : t.pc = .polling) : Move p b t .pollFails b { t with pc := .ended [] [] }
  | batchEnd (fuel : Nat) (batch : t.pc = .batch []) :
      Move p b t (.next fuel) b { t with pc := .testing }
  | turn (fuel : Nat) (record : α) (rest : List α) (handling : Handling)
      (batch : t.pc = .batch (record :: rest)) (handles : p.handle fuel record = some handling) :
      Move p b t (.next fuel) b (p.turn t record rest handling)
  | accepted (buf : Bytes) (rest : List α) (sending : t.pc = .sending buf rest) :
      Move p b t (.send true) b (p.count { t with sent := t.sent ++ [buf] } rest)
  | raised (buf : Bytes) (rest : List α) (sending : t.pc = .sending buf rest) (raises : p.raises) :
      Move p b t (.send false) b { t with pc := .ended [buf] rest }
  | refused (buf : Bytes) (rest : List α) (sending : t.pc = .sending buf rest)
      (ignores : ¬ p.raises) : Move p b t (.send false) b (p.count t rest)
  | add (rest : List α) (adding : t.pc = .adding rest) :
      Move p b t .add { b with counter := (b.counter + t.localCounter) % p.modulus }
        { t with added := t.added + t.localCounter, localCounter := 0, pc := .batch rest }

theorem thread_move {p : TallyProgram α} {b b' : Board} {t t' : TallyThread α} {l : ThreadLabel α}
    (h : p.thread b t l = some (b', t')) : p.Move b t l b' t' := by
  unfold thread at h
  split at h
  · rename_i testing
    cases h
    split
    · rename_i stopped
      exact .leave testing stopped
    · rename_i runs
      exact .goOn testing runs
  · rename_i records polling
    simp only [Option.ite_none_right_eq_some, Option.some.injEq, Prod.mk.injEq] at h
    obtain ⟨-, rfl, rfl⟩ := h
    exact .poll records polling
  · rename_i polling
    simp only [Option.ite_none_right_eq_some, Option.some.injEq, Prod.mk.injEq] at h
    obtain ⟨-, rfl, rfl⟩ := h
    exact .pollFails polling
  · rename_i fuel batch
    cases h
    exact .batchEnd fuel batch
  · rename_i fuel record rest batch
    obtain ⟨handling, handles, same⟩ := Option.map_eq_some_iff.mp h
    cases same
    exact .turn fuel record rest handling batch handles
  · rename_i buf rest sending
    cases h
    exact .accepted buf rest sending
  · rename_i buf rest sending
    cases h
    split
    · rename_i raises
      exact .raised buf rest sending raises
    · rename_i ignores
      exact .refused buf rest sending ignores
  · rename_i rest adding
    cases h
    exact .add rest adding
  · cases h

/-- The messages of some records, in order. -/
inductive Results (p : TallyProgram α) : List α → List Bytes → Prop
  | nil : Results p [] []
  | skip {fuel : Nat} {records : List α} {bufs : List Bytes} {record : α} :
      Results p records bufs → p.handle fuel record = some .skip →
      Results p (records ++ [record]) bufs
  | send {fuel : Nat} {records : List α} {bufs : List Bytes} {record : α} {buf : Bytes} :
      Results p records bufs → p.handle fuel record = some (.send buf) →
      Results p (records ++ [record]) (bufs ++ [buf])
  | count {fuel : Nat} {records : List α} {bufs : List Bytes} {record : α} :
      Results p records bufs → p.handle fuel record = some .count →
      Results p (records ++ [record]) bufs

/-- Each record that is counted is one whose message was accepted. -/
def Sends (p : TallyProgram α) : Prop :=
  p.raises ∧ ∀ fuel record, p.handle fuel record ≠ some .count

/-- What holds of a thread whenever it is observed. -/
structure Inv (p : TallyProgram α) (t : TallyThread α) : Prop where
  split : t.polled = t.consumed ++ t.pc.rest
  counted : t.handled = t.added + t.localCounter
  atMost : t.localCounter ≤ p.batch
  below : (∀ rest, t.pc ≠ .adding rest) → t.localCounter < p.batch
  results : p.raises → p.Results t.consumed (t.sent ++ t.pc.pending)
  accepted : p.Sends → t.handled = t.sent.length
  whole : ∀ rest, t.pc = .ended [] rest → rest = []

theorem inv_start (p : TallyProgram α) : p.Inv start where
  split := rfl
  counted := rfl
  atMost := Nat.zero_le _
  below _ := p.batch_pos
  results _ := .nil
  accepted _ := rfl
  whole rest ended := by cases ended

/-- Counting a record that is not counted yet. -/
theorem Inv.count {p : TallyProgram α} {t : TallyThread α} {rest : List α} (split : t.polled =
    t.consumed ++ rest) (counted : t.handled = t.added + t.localCounter)
    (below : t.localCounter < p.batch) (results : p.raises → p.Results t.consumed t.sent)
    (accepted : p.Sends → t.handled + 1 = t.sent.length) : p.Inv (p.count t rest) := by
  by_cases full : p.batch ≤ t.localCounter + 1
  · have adding : (p.count t rest).pc = .adding rest := if_pos full
    refine ⟨?_, ?_, below, fun other => (other rest adding).elim, fun raises => ?_, accepted,
      fun rest ended => ?_⟩
    · rw [adding]
      exact split
    · exact (congrArg (· + 1) counted).trans (Nat.add_assoc _ _ _)
    · rw [adding]
      exact (List.append_nil t.sent).symm ▸ results raises
    · rw [adding] at ended
      cases ended
  · have batch : (p.count t rest).pc = .batch rest := if_neg full
    refine ⟨?_, ?_, below, fun _ => Nat.lt_of_not_le full, fun raises => ?_, accepted,
      fun rest ended => ?_⟩
    · rw [batch]
      exact split
    · exact (congrArg (· + 1) counted).trans (Nat.add_assoc _ _ _)
    · rw [batch]
      exact (List.append_nil t.sent).symm ▸ results raises
    · rw [batch] at ended
      cases ended

/-- A thread that goes elsewhere with nothing pending. -/
theorem Inv.goto {p : TallyProgram α} {t : TallyThread α} (inv : p.Inv t) {pc : ThreadPc α}
    (idle : ∀ rest, t.pc ≠ .adding rest) (rest : pc.rest = t.pc.rest)
    (pending : pc.pending = t.pc.pending) (whole : ∀ rest, pc = .ended [] rest → rest = []) :
    p.Inv { t with pc := pc } where
  split := by
    rw [rest]
    exact inv.split
  counted := inv.counted
  atMost := inv.atMost
  below _ := inv.below idle
  results raises := by
    rw [pending]
    exact inv.results raises
  accepted := inv.accepted
  whole := whole

/-- The next record of a batch is taken up. -/
theorem Inv.turn {p : TallyProgram α} {t : TallyThread α} (inv : p.Inv t) {fuel : Nat} {record : α}
    {rest : List α} {handling : Handling} (batch : t.pc = .batch (record :: rest))
    (handles : p.handle fuel record = some handling) : p.Inv (p.turn t record rest handling) := by
  have split := inv.split
  have results := inv.results
  have below := inv.below (by simp [batch])
  rw [batch] at split results
  have taken : t.polled = (t.consumed ++ [record]) ++ rest := by
    rw [split, List.append_assoc]
    rfl
  have before : p.raises → p.Results t.consumed t.sent := by
    intro raises
    have all : p.Results t.consumed (t.sent ++ []) := results raises
    rwa [List.append_nil] at all
  cases handling with
  | skip =>
      refine ⟨taken, inv.counted, inv.atMost, fun _ => below, fun raises => ?_, inv.accepted,
        fun _ ended => by cases ended⟩
      simp only [TallyProgram.turn, ThreadPc.pending, List.append_nil]
      exact .skip (before raises) handles
  | send buf =>
      refine ⟨taken, inv.counted, inv.atMost, fun _ => below, fun raises => ?_, inv.accepted,
        fun _ ended => by cases ended⟩
      exact .send (before raises) handles
  | count =>
      exact Inv.count taken inv.counted below (fun raises => .count (before raises) handles)
        fun sends => (sends.2 fuel record handles).elim

theorem Inv.move {p : TallyProgram α} {b b' : Board} {t t' : TallyThread α} {l : ThreadLabel α}
    (inv : p.Inv t) (move : p.Move b t l b' t') : p.Inv t' := by
  cases move with
  | leave testing stopped =>
      exact inv.goto (by simp [testing]) (by rw [testing]; rfl) (by rw [testing]; rfl) (by simp)
  | goOn testing runs =>
      exact inv.goto (by simp [testing]) (by rw [testing]; rfl) (by rw [testing]; rfl) (by simp)
  | poll records polling =>
      have split := inv.split
      have results := inv.results
      rw [polling] at split results
      refine ⟨?_, inv.counted, inv.atMost, fun _ => inv.below (by simp [polling]), results,
        inv.accepted, fun _ ended => by cases ended⟩
      simp only [ThreadPc.rest, List.append_nil] at split ⊢
      rw [split]
  | pollFails polling =>
      exact inv.goto (by simp [polling]) (by rw [polling]; rfl) (by rw [polling]; rfl) (by simp)
  | batchEnd fuel batch =>
      exact inv.goto (by simp [batch]) (by rw [batch]; rfl) (by rw [batch]; rfl) (by simp)
  | turn fuel record rest handling batch handles => exact inv.turn batch handles
  | accepted buf rest sending =>
      have split := inv.split
      have results := inv.results
      rw [sending] at split results
      refine Inv.count split inv.counted (inv.below (by simp [sending])) results fun sends => ?_
      rw [List.length_append, ← inv.accepted sends]
      rfl
  | raised buf rest sending raises =>
      exact inv.goto (by simp [sending]) (by rw [sending]; rfl) (by rw [sending]; rfl) (by simp)
  | refused buf rest sending ignores =>
      have split := inv.split
      rw [sending] at split
      exact Inv.count split inv.counted (inv.below (by simp [sending]))
        (fun raises => (ignores raises).elim) fun sends => (ignores sends.1).elim
  | add rest adding =>
      have split := inv.split
      have results := inv.results
      have counted := inv.counted
      rw [adding] at split results
      exact ⟨split, counted, Nat.zero_le _, fun _ => p.batch_pos, results, inv.accepted,
        fun _ ended => by cases ended⟩

theorem Inv.of_reachable {p : TallyProgram α} {t : TallyThread α}
    (reached : p.thread.alone.Reachable start t) : p.Inv t := by
  refine reached.invariant (inv_start p) fun l t t' inv hstep => ?_
  obtain ⟨b', stepped⟩ := Proc.alone_eq_some.mp hstep
  exact inv.move (thread_move stepped)

/-- The counter takes what a thread adds. -/
theorem Move.added {p : TallyProgram α} {b b' : Board} {t t' : TallyThread α} {l : ThreadLabel α}
    (move : p.Move b t l b' t') :
    ∃ n, t'.added = t.added + n ∧ (b'.counter = b.counter ∧ n = 0 ∨
      b'.counter = (b.counter + n) % p.modulus) := by
  cases move with
  | turn fuel record rest handling batch handles =>
      cases handling <;> exact ⟨0, rfl, .inl ⟨rfl, rfl⟩⟩
  | add rest adding => exact ⟨t.localCounter, rfl, .inr rfl⟩
  | _ => exact ⟨0, rfl, .inl ⟨rfl, rfl⟩⟩

/-- Each of the records led to something. -/
theorem Results.handles {p : TallyProgram α} {records : List α} {bufs : List Bytes}
    (results : p.Results records bufs) :
    ∀ record ∈ records, ∃ fuel handling, p.handle fuel record = some handling := by
  have last : ∀ {records : List α} {record : α} {fuel : Nat} {handling : Handling},
      (∀ record ∈ records, ∃ fuel handling, p.handle fuel record = some handling) →
      p.handle fuel record = some handling →
      ∀ r ∈ records ++ [record], ∃ fuel handling, p.handle fuel r = some handling := by
    intro records record fuel handling earlier handles r member
    rcases List.mem_append.mp member with inside | here
    · exact earlier r inside
    · rw [List.mem_singleton.mp here]
      exact ⟨fuel, handling, handles⟩
  induction results with
  | nil => exact List.forall_mem_nil _
  | skip _ handled ih => exact last ih handled
  | send _ handled ih => exact last ih handled
  | count _ handled ih => exact last ih handled

/-- A record that leads to nothing, in any number of turns, is not taken up. -/
theorem Inv.consumed_prefix {p : TallyProgram α} {t : TallyThread α} (inv : p.Inv t)
    (raises : p.raises) {before after : List α} {record : α}
    (stuck : ∀ fuel, p.handle fuel record = none)
    (polled : t.polled = before ++ record :: after) : t.consumed <+: before := by
  have front : t.consumed <+: before ++ record :: after := ⟨t.pc.rest, by
    rw [← inv.split, polled]⟩
  by_cases short : t.consumed.length ≤ before.length
  · exact List.prefix_of_prefix_length_le front (List.prefix_append _ _) short
  · have whole : before ++ [record] <+: before ++ record :: after :=
      List.prefix_append_right_inj before |>.mpr (List.prefix_append [record] after)
    have inside := List.prefix_of_prefix_length_le whole front (by
      rw [List.length_append, List.length_singleton]
      omega)
    have member : record ∈ t.consumed := inside.subset (by simp)
    obtain ⟨fuel, handling, handled⟩ := (inv.results raises).handles record member
    rw [stuck fuel] at handled
    cases handled

/-- A thread before a record has a step exactly if that record leads to something. -/
theorem enabled_iff {p : TallyProgram α} {b : Board} {t : TallyThread α} {record : α}
    {rest : List α} (batch : t.pc = .batch (record :: rest)) :
    (∃ l b' t', p.thread b t l = some (b', t')) ↔ ∃ fuel, p.handle fuel record ≠ none := by
  constructor
  · intro enabled
    obtain ⟨l, b', t', steps⟩ := enabled
    have move := thread_move steps
    clear steps
    cases move with
    | turn fuel found rest' handling here handles =>
        rw [batch] at here
        cases here
        exact ⟨fuel, by rw [handles]; simp⟩
    | batchEnd _ other => rw [batch] at other; cases other
    | leave other | goOn other | poll _ other | pollFails other | accepted _ _ other
    | raised _ _ other | refused _ _ other | add _ other =>
        rw [batch] at other
        cases other
  · intro handles
    obtain ⟨fuel, handles⟩ := handles
    obtain ⟨handling, handled⟩ := Option.ne_none_iff_exists'.mp handles
    refine ⟨.next fuel, b, p.turn t record rest handling, ?_⟩
    unfold thread
    rw [batch]
    dsimp only
    rw [handled]
    rfl

/-! ## A full batch -/

section FullBatch

variable {α : Type} {p : TallyProgram α} {record : α} {buf : Bytes} {fuel : Nat} {b : Board}
  (handles : p.handle fuel record = some (.send buf))
  (runs : ¬ (p.testsRunning ∧ b.running = false))

include handles runs

/-- A thread at its test can take up a record and count it. -/
theorem exists_counted {t : TallyThread α} (testing : t.pc = .testing) :
    ∃ t', p.thread.solo.Reachable (b, t) (b, t') ∧ t'.localCounter = t.localCounter + 1 ∧
      t'.handled = t.handled + 1 ∧ t'.added = t.added ∧
      t'.pc = if p.batch ≤ t.localCounter + 1 then .adding [] else .batch [] := by
  let before : TallyThread α :=
    { t with polled := t.polled ++ [record], consumed := t.consumed ++ [record],
             sent := t.sent ++ [buf] }
  have hrun : p.thread.solo.run (b, t) [.test, .poll [record], .next fuel, .send true] =
      some (b, p.count before []) := by
    simp [Machine.run, Proc.solo, thread, testing, runs, handles, turn, count, before]
  exact ⟨p.count before [], ⟨_, hrun⟩, rfl, rfl, rfl, rfl⟩

/-- A thread that starts counts up to one below a batch. -/
theorem exists_counted_below {k : Nat} (below : k < p.batch) :
    ∃ t, p.thread.solo.Reachable (b, start) (b, t) ∧ t.pc = .testing ∧ t.localCounter = k ∧
      t.handled = k ∧ t.added = 0 := by
  induction k with
  | zero => exact ⟨start, .refl _, rfl, rfl, rfl, rfl⟩
  | succ k ih =>
      obtain ⟨t, reached, testing, localCounter, handled, added⟩ := ih (by omega)
      obtain ⟨t', counts, localCounter', handled', added', pc⟩ :=
        exists_counted handles runs testing
      rw [if_neg (by omega)] at pc
      have back : p.thread.solo (b, t') (.next 0) = some (b, { t' with pc := .testing }) := by
        simp [Proc.solo, thread, pc]
      refine ⟨_, (reached.trans counts).trans (.single _ back), rfl, ?_, ?_, ?_⟩
      · exact localCounter'.trans (by rw [localCounter])
      · exact handled'.trans (by rw [handled])
      · exact added'.trans added

/-- So it gets a whole batch into the counter. -/
theorem exists_added :
    ∃ t, p.thread.solo.Reachable (b, start)
        ({ b with counter := (b.counter + p.batch) % p.modulus }, t) ∧
      t.handled = p.batch ∧ t.added = p.batch := by
  have positive := p.batch_pos
  obtain ⟨t, reached, testing, localCounter, handled, added⟩ :=
    exists_counted_below handles runs (k := p.batch - 1) (by omega)
  obtain ⟨t', counts, localCounter', handled', added', pc⟩ := exists_counted handles runs testing
  rw [if_pos (by omega)] at pc
  have full : t'.localCounter = p.batch := by omega
  have adds : p.thread.solo (b, t') .add =
      some ({ b with counter := (b.counter + p.batch) % p.modulus },
        { t' with added := t'.added + p.batch, localCounter := 0, pc := .batch [] }) := by
    simp [Proc.solo, thread, pc, full]
  refine ⟨_, (reached.trans counts).trans (.single _ adds), ?_, ?_⟩
  · exact handled'.trans (by omega)
  · show t'.added + p.batch = p.batch
    omega

end FullBatch
end TallyProgram

/-! ## Threads and reporter -/

/-- The reporter is the party without a number. -/
abbrev Tally (α : Type) (n : Nat) := Global Board (TallyThread α ⊕ Reporter) (Option (Fin n))

namespace Tally

variable {α : Type} {n : Nat}

def start (α : Type) (n : Nat) : Tally α n :=
  ⟨⟨0, true⟩, fun i => if i.isSome then .inl TallyProgram.start else .inr ⟨[], false⟩⟩

/-- One step of one thread, or of the reporter. -/
def step (p : TallyProgram α) (n : Nat) :
    Machine (Tally α n) (Option (Fin n) × (ThreadLabel α ⊕ ReporterLabel)) :=
  interleave fun _ => p.party

/-- The records that a party has counted, that it has added, and those it has taken. -/
def countedBy : TallyThread α ⊕ Reporter → Nat := Sum.elim TallyThread.handled fun _ => 0

def addedBy : TallyThread α ⊕ Reporter → Nat := Sum.elim TallyThread.added fun _ => 0

def takenBy : TallyThread α ⊕ Reporter → Nat := Sum.elim (fun _ => 0) fun r => r.taken.sum

/-- The number of records counted by all threads. -/
def handled (g : Tally α n) : Nat := ∑ i, countedBy (g.proc i)

/-- The counts that the reporter took. -/
def taken (g : Tally α n) : List Nat := Sum.elim (fun _ => []) Reporter.taken (g.proc none)

/-- `if count > 0 { println!("{} messages/sec", count / 5) }`. -/
def printed (g : Tally α n) : List Nat := (g.taken.filter (0 < ·)).map (· / 5)

section Reached

variable {p : TallyProgram α} {g : Tally α n} (reached : (step p n).Reachable (start α n) g)

include reached

theorem thread_of_reachable (i : Fin n) : ∃ t, g.proc (some i) = .inl t ∧ p.Inv t := by
  obtain ⟨t, here, alone⟩ := Proc.either_alone_inl (interleave_run_alone reached (some i))
  exact ⟨t, here, TallyProgram.Inv.of_reachable alone⟩

theorem reporter_of_reachable : ∃ r, g.proc none = .inr r := by
  obtain ⟨r, here, -⟩ := Proc.either_alone_inr (interleave_run_alone reached none)
  exact ⟨r, here⟩

/-- What was taken and what is still in the counter is never more than what was added, and no
less as long as that fits the word. -/
theorem counter_add_taken (fits : p.modulus = 0 ∨ ∑ i, addedBy (g.proc i) < p.modulus) :
    g.mem.counter + g.taken.sum = ∑ i, addedBy (g.proc i) := by
  have accounts := interleave_swapped Board.counter addedBy takenBy (m := p.modulus) reached ?_ ?_
  · obtain ⟨r, here⟩ := reporter_of_reachable reached
    have total : ∑ i, takenBy (g.proc i) = g.taken.sum := by
      have threads : ∀ i : Fin n, takenBy (g.proc (some i)) = 0 := by
        intro i
        obtain ⟨t, here, -⟩ := thread_of_reachable reached i
        rw [here]
        rfl
      rw [Fintype.sum_option, Finset.sum_eq_zero fun i _ => threads i, taken, here]
      rfl
    obtain ⟨bound, modulo⟩ := accounts
    rw [total] at bound modulo
    rcases fits with unbounded | fits
    · rwa [unbounded, Nat.mod_zero, Nat.mod_zero] at modulo
    · rwa [Nat.mod_eq_of_lt fits, Nat.mod_eq_of_lt (bound.trans_lt fits)] at modulo
  · simp [start, addedBy, takenBy, Fintype.sum_option, TallyProgram.start]
  · intro i c s l c' s' hstep
    rcases Proc.either_eq_some hstep with ⟨t, l, t', rfl, -, rfl, steps⟩ |
      ⟨r, l, r', rfl, -, rfl, steps⟩
    · obtain ⟨k, grows, counter⟩ := (TallyProgram.thread_move steps).added
      refine ⟨k, 0, grows, rfl, ?_⟩
      rcases counter with ⟨same, rfl⟩ | more
      · rw [same]
        exact ⟨le_rfl, rfl⟩
      · rw [more]
        exact ⟨Nat.mod_le _ _, Nat.mod_mod _ _⟩
    · cases l with
      | report =>
          simp only [TallyProgram.reporter, Option.ite_none_right_eq_some, Option.some.injEq,
            Prod.mk.injEq] at steps
          obtain ⟨-, rfl, rfl⟩ := steps
          exact ⟨0, c.counter, rfl, by simp [takenBy], by simp, by simp⟩
      | hook =>
          simp only [TallyProgram.reporter, Option.ite_none_right_eq_some, Option.some.injEq,
            Prod.mk.injEq] at steps
          obtain ⟨-, rfl, rfl⟩ := steps
          exact ⟨0, 0, rfl, rfl, le_rfl, rfl⟩
      | shutdown =>
          simp only [TallyProgram.reporter, Option.ite_none_right_eq_some, Option.some.injEq,
            Prod.mk.injEq] at steps
          obtain ⟨-, rfl, rfl⟩ := steps
          exact ⟨0, 0, rfl, rfl, le_rfl, rfl⟩

end Reached

/-- A report of a fifth, rounded down, leaves out four records at most. -/
theorem sum_fifths (counts : List Nat) :
    5 * ((counts.filter (0 < ·)).map (· / 5)).sum ≤ counts.sum ∧
      counts.sum ≤ 5 * ((counts.filter (0 < ·)).map (· / 5)).sum + 4 * counts.length := by
  induction counts with
  | nil => exact ⟨le_rfl, le_rfl⟩
  | cons c counts ih =>
      rw [List.sum_cons, List.length_cons]
      by_cases positive : 0 < c
      · rw [List.filter_cons_of_pos (by simpa using positive), List.map_cons, List.sum_cons]
        omega
      · rw [List.filter_cons_of_neg (by simpa using positive)]
        omega

/-- What the reports printed is what was counted, but for the fractions, for what is in the
counter, and for a batch of each thread. -/
theorem accounts {p : TallyProgram α} {g : Tally α n}
    (reached : (step p n).Reachable (start α n) g)
    (fits : p.modulus = 0 ∨ 2 * g.handled < p.modulus) :
    5 * g.printed.sum ≤ g.handled ∧
      g.handled ≤ 5 * g.printed.sum + 4 * g.taken.length + g.mem.counter + p.batch * n := by
  obtain ⟨r, reporter⟩ := reporter_of_reachable reached
  have local_le : ∀ i ∈ Finset.univ, addedBy (g.proc (some i)) ≤
      countedBy (g.proc (some i)) ∧ countedBy (g.proc (some i)) ≤
      addedBy (g.proc (some i)) + p.batch := by
    intro i _
    obtain ⟨t, here, inv⟩ := thread_of_reachable reached i
    have counted := inv.counted
    have atMost := inv.atMost
    rw [here]
    simp only [addedBy, countedBy, Sum.elim_inl]
    omega
  have none : addedBy (g.proc none) = 0 ∧ countedBy (g.proc none) = 0 := by
    rw [reporter]
    exact ⟨rfl, rfl⟩
  have lower := Finset.sum_le_sum fun i member => (local_le i member).1
  have upper := Finset.sum_le_sum fun i member => (local_le i member).2
  rw [Finset.sum_add_distrib, Finset.sum_const, Finset.card_univ, Fintype.card_fin, smul_eq_mul,
    Nat.mul_comm n] at upper
  have handled : g.handled = ∑ i : Fin n, countedBy (g.proc (some i)) := by
    rw [handled, Fintype.sum_option, none.2, Nat.zero_add]
  have added : ∑ i, addedBy (g.proc i) = ∑ i : Fin n, addedBy (g.proc (some i)) := by
    rw [Fintype.sum_option, none.1, Nat.zero_add]
  have accounts := counter_add_taken reached (fits.imp_right fun small => by omega)
  have fifths := sum_fifths g.taken
  unfold printed
  omega

end Tally

/-- **What the throughput reports add up to.**  In every interleaving of the threads, the
reporter and the shutdown hook, five times the rates printed are never more than the records
counted, if these are less than half of the counter's word, which then neither wraps nor turns
negative.  What they fall short is at most four records for each report, what is in the counter,
and a batch for each thread. -/
theorem throughput_accounts {α : Type} (p : TallyProgram α) {n : Nat} {g : Tally α n}
    (reached : (Tally.step p n).Reachable (Tally.start α n) g)
    (fits : p.modulus = 0 ∨ 2 * g.handled < p.modulus) :
    5 * g.printed.sum ≤ g.handled ∧
      g.handled ≤ 5 * g.printed.sum + 4 * g.taken.length + g.mem.counter + p.batch * n :=
  Tally.accounts reached fits

/-! ## The programs -/

theorem thousand_pos : 0 < 1000 := by omega

/-- The numbers drawn for a record. -/
def Draw.numbers (d : Draw) : List (BitVec 32) := d.elements.map fun x => BitVec.ofNat 32 x.val

/-- `stream-test-go`, `cmd/producer`; what `Produce` answers is dropped. -/
def GoProducer.loop : TallyProgram Draw where
  handle _ d := some (.send (GoProducer.record d.numbers))
  polls := false
  raises := false
  testsRunning := false
  batch := 1
  batch_pos := Nat.one_pos
  modulus := 2 ^ 64

/-- `stream-test-rust`, `producer.rs`; what `send` answers is dropped. -/
def RdkafkaProducer.loop : TallyProgram Draw where
  handle _ d := some (.send (recordWith RdkafkaProducer.writeVarint d.numbers))
  polls := false
  raises := false
  testsRunning := false
  batch := 1
  batch_pos := Nat.one_pos
  modulus := 2 ^ 64

/-- The Java `TestProducer`. -/
def JavaTestProducer.loop : TallyProgram Draw where
  handle _ d := some (.send (recordWith JavaTestProducer.writeVarint d.numbers))
  polls := false
  raises := true
  testsRunning := false
  batch := 1
  batch_pos := Nat.one_pos
  modulus := 2 ^ 64

/-- The Scala `TestProducer`. -/
def ScalaTestProducer.loop : TallyProgram Draw where
  handle _ d := some (.send (recordWith ScalaTestProducer.writeVarint d.numbers))
  polls := false
  raises := true
  testsRunning := true
  batch := 1
  batch_pos := Nat.one_pos
  modulus := 2 ^ 64

/-- `stream-test-ruby`, `producer.rb`. -/
def RubyProducer.loop : TallyProgram Draw where
  handle _ d := some (.send (RubyProducer.record d.numbers))
  polls := false
  raises := true
  testsRunning := false
  batch := 1000
  batch_pos := thousand_pos
  modulus := 0

/-- A record of a consumer: what is read of it is dropped. -/
def countRead (read : Bytes → Outcome (Word × Bytes)) : Option Bytes → Option Handling
  | none => some .skip
  | some payload =>
    match read payload with
    | .ok _ => some .count
    | _ => none

/-- The Java `TestConsumer`. -/
def JavaTestConsumer.loop : TallyProgram (Option Bytes) where
  handle _ := countRead JavaTestConsumer.readVarint
  polls := true
  raises := true
  testsRunning := false
  batch := 1
  batch_pos := Nat.one_pos
  modulus := 2 ^ 64

/-- The Scala `TestConsumer`. -/
def ScalaTestConsumer.loop : TallyProgram (Option Bytes) where
  handle _ := countRead ScalaTestConsumer.readVarint
  polls := true
  raises := true
  testsRunning := true
  batch := 1
  batch_pos := Nat.one_pos
  modulus := 2 ^ 64

/-- A record of a worker: its sum is sent, once it is there. -/
def sendSum (decode : Bytes → Outcome (Word × Bytes)) (write : Bytes → Word → Bytes) :
    Option Bytes → Option Handling
  | none => some .skip
  | some payload =>
    match decode payload with
    | .ok (sum, _) => some (.send (write [] sum))
    | _ => none

/-- Six records of a consumer, reported at once. -/
theorem throughput_accounts_six : ∃ g : Tally (Option Bytes) 1,
    (Tally.step JavaTestConsumer.loop 1).Reachable (Tally.start (Option Bytes) 1) g ∧
      g.printed = [1] ∧ g.handled = 6 ∧ 5 * g.printed.sum ≤ g.handled := by
  have ends : ((Tally.step JavaTestConsumer.loop 1).run (Tally.start (Option Bytes) 1)
      ([(some 0, .inl .test), (some 0, .inl (.poll (List.replicate 6 (some [0x0A#8]))))] ++
        (List.replicate 6 [(some 0, .inl (.next 0)), (some 0, .inl .add)]).flatten ++
        [(none, .inr .report)])).map (fun g => (g.printed, g.handled)) = some ([1], 6) := by
    decide +kernel
  obtain ⟨g, hrun, same⟩ := Option.map_eq_some_iff.mp ends
  obtain ⟨printed, handled⟩ := Prod.mk.injEq _ _ _ _ ▸ same
  exact ⟨g, ⟨_, hrun⟩, printed, handled,
    (throughput_accounts JavaTestConsumer.loop ⟨_, hrun⟩ (.inr (by rw [handled]; decide))).1⟩

/-- The Java `StreamSumApp`. -/
def JavaApp.loop : TallyProgram (Option Bytes) where
  handle fuel := sendSum (JavaApp.decodeSum wrappingAdd fuel) JavaApp.writeVarint
  polls := true
  raises := true
  testsRunning := false
  batch := 1000
  batch_pos := thousand_pos
  modulus := 2 ^ 64

/-- The Scala `StreamSumApp`. -/
def ScalaApp.loop : TallyProgram (Option Bytes) where
  handle fuel := sendSum (ScalaApp.decodeSum wrappingAdd fuel) ScalaApp.writeVarint
  polls := true
  raises := true
  testsRunning := true
  batch := 1000
  batch_pos := thousand_pos
  modulus := 2 ^ 64

/-- The two `StreamSumApp`s. -/
inductive StreamApp
  | java
  | scala

namespace StreamApp

def program : StreamApp → TallyProgram (Option Bytes)
  | java => JavaApp.loop
  | scala => ScalaApp.loop

theorem raises (a : StreamApp) : a.program.raises := by
  cases a <;> rfl

theorem sends (a : StreamApp) : a.program.Sends := by
  have never : ∀ decode write value, sendSum decode write value ≠ some .count := by
    intro decode write value
    unfold sendSum
    split
    · simp
    · split <;> simp
  exact ⟨a.raises, fun fuel value => by cases a <;> exact never _ _ value⟩

/-- The payload is one that the loop comes to the end of: its counts are counted by an `int`,
and, for the Java program, it comes to a zero count. -/
def Decodes (a : StreamApp) (payload : Bytes) : Prop :=
  CountsFit payload ∧ (a = java → ∃ elements rest, indexedFormat.Stops payload elements rest)

theorem sendSum_eq_none_iff {decode : Bytes → Outcome (Word × Bytes)}
    {write : Bytes → Word → Bytes} {payload : Bytes} :
    sendSum decode write (some payload) ≠ none ↔ ∃ r, decode payload = .ok r := by
  cases outcome : decode payload with
  | ok r => simp [sendSum, outcome]
  | panic => simp [sendSum, outcome]
  | outOfFuel => simp [sendSum, outcome]

/-- Where the Java loop returns, the counts fit, not only those it came to. -/
theorem countsFit_of_app {fuel : Nat} {payload : Bytes} {r : Word × Bytes}
    (returns : JavaApp.decodeSum wrappingAdd fuel payload = .ok r) : CountsFit payload := by
  have on := readsOn_javaBenchmarkRead
  obtain ⟨bs, counts, elements, zero, rfl, blocks, item, value, fits, enough, -⟩ :=
    (BlockFormat.blocksFrom_eq_ok_iff_of_strict (JavaApp.strict fuel) (JavaApp.readsItems fuel)
      (JavaApp.sumsBlocks fuel)).mp returns
  have benchmark : blocksFrom javaBenchmarkRead.reader 0
      (bodyIndexed javaBenchmarkRead.reader wrappingAdd jvmIndex fuel) fuel 0
        (bs ++ (zero ++ r.2)) = .ok (0 + indexedFormat.total elements, r.2) :=
    (BlockFormat.blocksFrom_stop_eq_ok_iff on.readsItems (javaBenchmarkRead.sumsBlocks _ fuel)
      blocks.of_upTo item.1 value).mpr ⟨fits, enough, rfl⟩
  intro n found
  by_cases none : n = 0#64
  · rw [none]
    exact toInt_absCount_zero_lt
  · exact (found.fits on.readsItems (javaBenchmarkRead.sumsBlocks _ fuel) none benchmark).1

/-- A thread gets through with a payload exactly if it is one that decodes. -/
theorem handles_iff (a : StreamApp) (payload : Bytes) :
    (∃ fuel, a.program.handle fuel (some payload) ≠ none) ↔ a.Decodes payload := by
  cases a with
  | java =>
      have handles : ∀ fuel, StreamApp.java.program.handle fuel (some payload) ≠ none ↔
          ∃ r, JavaApp.decodeSum wrappingAdd fuel payload = .ok r := fun fuel =>
        sendSum_eq_none_iff
      simp only [handles]
      constructor
      · intro returns
        obtain ⟨fuel, r, returns⟩ := returns
        obtain ⟨elements, stops⟩ := JavaApp.stops_of_decodeSum returns
        exact ⟨countsFit_of_app returns, fun _ => ⟨elements, r.2, stops⟩⟩
      · intro decodes
        obtain ⟨fit, found⟩ := decodes
        obtain ⟨elements, rest, stops⟩ := found rfl
        exact ⟨payload.length + 2 ^ 31, _,
          JavaApp.decodeSum_of_stops stops (by omega) fun n => fit.indexFits⟩
  | scala =>
      have on := readsOn_scalaRead
      have handles : ∀ fuel, StreamApp.scala.program.handle fuel (some payload) ≠ none ↔
          ∃ r, scalaRead.decodeIndexed jvmIndex fuel payload = .ok r := fun fuel =>
        sendSum_eq_none_iff
      simp only [handles]
      rw [Decodes, ← terminates_iff_of_zero on]
      constructor
      · intro returns
        obtain ⟨fuel, r, returns⟩ := returns
        exact ⟨⟨fuel, by rw [returns]; simp⟩, fun other => by cases other⟩
      · intro decodes
        obtain ⟨⟨fuel, ends⟩, -⟩ := decodes
        refine ⟨fuel, ?_⟩
        cases outcome : scalaRead.decodeIndexed jvmIndex fuel payload with
        | ok r => exact ⟨r, rfl⟩
        | panic => exact (on.decodeIndexed_ne_panic _ _ outcome).elim
        | outOfFuel => exact (ends outcome).elim

/-- What is sent for a payload. -/
def Result (a : StreamApp) (payload buf : Bytes) : Prop :=
  ∃ fuel, a.program.handle fuel (some payload) = some (.send buf)

theorem sendSum_eq_send_iff {decode : Bytes → Outcome (Word × Bytes)}
    {write : Bytes → Word → Bytes} {payload buf : Bytes} :
    sendSum decode write (some payload) = some (.send buf) ↔
      ∃ r, decode payload = .ok r ∧ buf = write [] r.1 := by
  cases outcome : decode payload with
  | ok r => simp [sendSum, outcome, eq_comm]
  | panic => simp [sendSum, outcome]
  | outOfFuel => simp [sendSum, outcome]

theorem sendSum_ne_skip {decode : Bytes → Outcome (Word × Bytes)} {write : Bytes → Word → Bytes}
    {payload : Bytes} : sendSum decode write (some payload) ≠ some .skip := by
  unfold sendSum
  dsimp only
  split <;> simp

/-- Only a record without a value leads to nothing. -/
theorem skips (a : StreamApp) {fuel : Nat} {payload : Bytes} :
    a.program.handle fuel (some payload) ≠ some .skip := by
  cases a <;> exact sendSum_ne_skip

theorem handle_none (a : StreamApp) (fuel : Nat) : a.program.handle fuel none = some .skip := by
  cases a <;> rfl

/-- At a zero count the sum of the elements before it is sent. -/
theorem Result.eq_sum {a : StreamApp} {payload buf : Bytes} (result : a.Result payload buf)
    {elements : List Bytes} {rest : Bytes} (stops : indexedFormat.Stops payload elements rest) :
    buf = JavaApp.writeVarint [] (indexedFormat.total elements) := by
  obtain ⟨fuel, sends⟩ := result
  cases a with
  | java =>
      obtain ⟨r, returns, rfl⟩ := sendSum_eq_send_iff.mp sends
      have fit := countsFit_of_app returns
      obtain ⟨bs, counts, found, zero, split, blocks, item, value, -, -, sum⟩ :=
        (BlockFormat.blocksFrom_eq_ok_iff_of_strict (JavaApp.strict fuel) (JavaApp.readsItems fuel)
          (JavaApp.sumsBlocks fuel)).mp returns
      have here : indexedFormat.Stops payload found r.2 :=
        ⟨bs, counts, zero, split, blocks.of_upTo, item.1, value⟩
      have on := readsOn_javaBenchmarkRead
      have returned : javaBenchmarkRead.decodeIndexed jvmIndex _ payload = _ :=
        on.decodeIndexed_of_stops fit here
      have same := returned.symm.trans (on.decodeIndexed_of_stops fit stops)
      rw [Outcome.ok.injEq, Prod.mk.injEq] at same
      rw [sum, ← BitVec.zero_add (indexedFormat.total elements), ← same.1]
      rfl
  | scala =>
      obtain ⟨r, returns, rfl⟩ := sendSum_eq_send_iff.mp sends
      have on := readsOn_scalaRead
      have same := stops.eq_of_ok on.readsItems (scalaRead.sumsBlocks _ fuel) returns
      rw [same, BitVec.zero_add]
      rfl

/-- What the messages of a thread are to the payloads: one result for each, in order. -/
theorem results_forall₂ {a : StreamApp} {records : List (Option Bytes)} {bufs : List Bytes}
    (results : a.program.Results records bufs) :
    List.Forall₂ a.Result records.reduceOption bufs := by
  induction results with
  | nil => exact .nil
  | @skip fuel records bufs record _ handled ih =>
      cases record with
      | none =>
          rw [List.reduceOption_append, List.reduceOption_cons_of_none, List.reduceOption_nil,
            List.append_nil]
          exact ih
      | some payload => exact (a.skips handled).elim
  | @send fuel records bufs record buf _ handled ih =>
      cases record with
      | none =>
          rw [a.handle_none fuel] at handled
          cases handled
      | some payload =>
          rw [List.reduceOption_append, List.reduceOption_cons_of_some, List.reduceOption_nil]
          exact List.rel_append ih (.cons ⟨fuel, handled⟩ .nil)
  | count _ handled => exact (a.sends.2 _ _ handled).elim

end StreamApp

/-- **What a thread of a `StreamSumApp` sends**, in every interleaving: one message for each of
the payloads it has taken up, in their order, each the sum of the elements up to the zero count
where there is one, and the last of them perhaps not accepted yet.  It counts what was accepted,
and one that has ended with no message refused has taken up all it was handed. -/
theorem results_in_order (a : StreamApp) {n : Nat} {g : Tally (Option Bytes) n}
    (reached : (Tally.step a.program n).Reachable (Tally.start (Option Bytes) n) g) (i : Fin n) :
    ∃ t, g.proc (some i) = .inl t ∧ t.consumed <+: t.polled ∧
      List.Forall₂ (fun payload buf => a.Result payload buf ∧ ∀ elements rest,
          indexedFormat.Stops payload elements rest →
          buf = JavaApp.writeVarint [] (indexedFormat.total elements))
        t.consumed.reduceOption (t.sent ++ t.pc.pending) ∧
      t.handled = t.sent.length ∧
      (∀ rest, t.pc = .ended [] rest → t.consumed = t.polled) := by
  obtain ⟨t, here, inv⟩ := Tally.thread_of_reachable reached i
  refine ⟨t, here, ⟨t.pc.rest, inv.split.symm⟩, ?_, inv.accepted a.sends, fun rest ended => ?_⟩
  · refine (StreamApp.results_forall₂ (inv.results a.raises)).imp fun payload buf result => ?_
    exact ⟨result, fun elements rest stops => result.eq_sum stops⟩
  · have split := inv.split
    rw [ended, inv.whole rest ended] at split
    exact (split.trans (List.append_nil _)).symm

/-- The list `[5]`, and a record without a value behind it. -/
theorem results_in_order_two : ∃ g : Tally (Option Bytes) 1,
    (Tally.step StreamApp.java.program 1).run (Tally.start (Option Bytes) 1)
      [(some 0, .inl .test), (some 0, .inl (.poll [some [0x02#8, 0x0A#8, 0x00#8], none])),
        (some 0, .inl (.next 4)), (some 0, .inl (.send true)), (some 0, .inl (.next 0))] = some g ∧
      g.handled = 1 ∧ ∃ t, g.proc (some 0) = .inl t ∧ t.handled = t.sent.length := by
  have ends : ((Tally.step StreamApp.java.program 1).run (Tally.start (Option Bytes) 1)
      [(some 0, .inl .test), (some 0, .inl (.poll [some [0x02#8, 0x0A#8, 0x00#8], none])),
        (some 0, .inl (.next 4)), (some 0, .inl (.send true)), (some 0, .inl (.next 0))]).map
        Tally.handled = some 1 := by
    decide +kernel
  obtain ⟨g, hrun, handled⟩ := Option.map_eq_some_iff.mp ends
  obtain ⟨t, here, -, -, accepted, -⟩ := results_in_order .java ⟨_, hrun⟩ 0
  exact ⟨g, hrun, handled, t, here, accepted⟩

/-- **A payload that holds up a thread.**  A thread of a `StreamSumApp` gets past a payload
exactly if that decodes: at one that does not, no step of it is possible, whatever else goes on;
what is behind is never taken up, and the thread comes neither to another poll nor back to the
test of the flag, so that it never ends by itself. -/
theorem malformed_holds_up (a : StreamApp) {n : Nat} {g : Tally (Option Bytes) n}
    (reached : (Tally.step a.program n).Reachable (Tally.start (Option Bytes) n) g) {i : Fin n}
    {t : TallyThread (Option Bytes)} (here : g.proc (some i) = .inl t) :
    (∀ before payload after, t.polled = before ++ some payload :: after → ¬ a.Decodes payload →
        t.consumed <+: before ∧ t.sent.length ≤ before.length ∧ t.pc ≠ .testing ∧
          t.pc ≠ .polling ∧ ∀ rest, t.pc ≠ .ended [] rest) ∧
      ∀ payload rest, t.pc = .batch (some payload :: rest) →
        ((∃ l g', Tally.step a.program n g (some i, l) = some g') ↔ a.Decodes payload) := by
  obtain ⟨t', same, inv⟩ := Tally.thread_of_reachable reached i
  rw [here] at same
  cases same
  constructor
  · intro before payload after polled malformed
    have stuck : ∀ fuel, a.program.handle fuel (some payload) = none := by
      intro fuel
      by_contra handles
      exact malformed ((a.handles_iff payload).mp ⟨fuel, handles⟩)
    have front := inv.consumed_prefix a.raises stuck polled
    have results := (StreamApp.results_forall₂ (inv.results a.raises)).length_eq
    have few := List.reduceOption_length_le t.consumed
    have short := front.length_le
    rw [List.length_append] at results
    have left : t.pc.rest ≠ [] := by
      intro none
      have lengths := congrArg List.length inv.split
      rw [polled, none, List.append_nil, List.length_append, List.length_cons] at lengths
      omega
    refine ⟨front, by omega, ?_, ?_, fun rest ended => ?_⟩
    · intro testing
      rw [testing] at left
      exact left rfl
    · intro polling
      rw [polling] at left
      exact left rfl
    · rw [ended, inv.whole rest ended] at left
      exact left rfl
  · intro payload rest batch
    rw [← a.handles_iff]
    rw [← TallyProgram.enabled_iff (b := g.mem) batch]
    constructor
    · intro enabled
      obtain ⟨l, g', hstep⟩ := enabled
      obtain ⟨s, steps, -⟩ := interleave_eq_some.mp hstep
      rw [here] at steps
      rcases Proc.either_eq_some steps with
        ⟨t, l, t', same, -, -, moves⟩ | ⟨r, l, r', other, -, -, -⟩
      · cases same
        exact ⟨l, g'.mem, t', moves⟩
      · cases other
    · intro enabled
      obtain ⟨l, b', t', moves⟩ := enabled
      refine ⟨.inl l, ⟨b', Function.update g.proc (some i) (.inl t')⟩,
        interleave_eq_some.mpr ⟨.inl t', ?_, rfl⟩⟩
      rw [here]
      unfold TallyProgram.party Proc.either
      dsimp only
      rw [moves]
      rfl

/-- The Java thread does not get past an empty payload. -/
theorem malformed_holds_up_empty : ∃ g : Tally (Option Bytes) 1,
    (Tally.step StreamApp.java.program 1).run (Tally.start (Option Bytes) 1)
      [(some 0, .inl .test), (some 0, .inl (.poll [some [], some [0x00#8]]))] = some g ∧
      ¬ ∃ l g', Tally.step StreamApp.java.program 1 g (some 0, l) = some g' := by
  have malformed : ¬ StreamApp.java.Decodes [] := by
    intro decodes
    obtain ⟨elements, rest, bs, counts, zero, split, -, item, -⟩ := decodes.2 rfl
    have empty := (List.append_eq_nil_iff.mp split.symm).2
    exact indexedFormat.ne_nil item (List.append_eq_nil_iff.mp empty).1
  obtain ⟨g, hrun, here⟩ : ∃ g : Tally (Option Bytes) 1,
      (Tally.step StreamApp.java.program 1).run (Tally.start (Option Bytes) 1)
        [(some 0, .inl .test), (some 0, .inl (.poll [some [], some [0x00#8]]))] = some g ∧
        g.proc (some 0) = .inl ⟨.batch [some [], some [0x00#8]], 0, [some [], some [0x00#8]], [],
          [], 0, 0⟩ := ⟨_, rfl, rfl⟩
  refine ⟨g, hrun, fun enabled => malformed ?_⟩
  exact ((malformed_holds_up .java ⟨_, hrun⟩ here).2 [] [some [0x00#8]] rfl).mp enabled

end KafkaTest
