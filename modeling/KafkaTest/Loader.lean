import KafkaTest.FuturePool
import KafkaTest.Interop

/-!
# Phase 1 of the krafka processor: the loader

The load loop generates `TOTAL_RECORDS` records, pushes the send of each into
`in_flight` and awaits one completion whenever the window is full; then it drains
the pool and flushes the producer.

`Loader.step` takes one transition at a time: a turn of the `for` loop, one poll
made by `in_flight.next().await`, or a waker that runs on another thread.  A send is
named by its payload and its place in the generation order, so the pool's history of
first polls is the sequence in which the producer allocates sequence numbers.
-/

namespace KafkaTest

/-- `TOTAL_RECORDS`. -/
def totalRecords : Nat := 50000000

/-- What a send future resolves to. -/
inductive SendResult
  | ok
  | err
  deriving DecidableEq

/-! ## Records -/

/-- What `gen_range(2..6)` and `gen_range(0..100)` yield for one record. -/
structure Draw where
  elements : List (Fin 100)
  atLeast : 2 ≤ elements.length
  atMost : elements.length < 6

/-- The buffer of one record: the count, the elements and a zero. -/
def Draw.payload (d : Draw) : Bytes :=
  let buf := Krafka.writeVarint [] (BitVec.ofNat 64 d.elements.length)
  let buf := d.elements.foldl (fun buf x => Krafka.writeVarint buf (BitVec.ofNat 64 x.val)) buf
  Krafka.writeVarint buf 0#64

theorem signExtend_draw : ∀ x : Fin 100,
    (BitVec.ofNat 32 x.val).signExtend 64 = BitVec.ofNat 64 x.val := by decide

theorem Draw.payload_eq_load (d : Draw) :
    d.payload = Impl.krafka.load (d.elements.map fun x => BitVec.ofNat 32 x.val) := by
  simp [Draw.payload, Impl.load, Impl.writeVarint, List.foldl_map, signExtend_draw]

/-- Phase 2 decodes every record Phase 1 generates. -/
theorem Draw.decodeSum_payload (d : Draw) : ∃ rest,
    Krafka.decodeSum wrappingAdd d.payload =
      .ok ((d.elements.map fun x => BitVec.ofNat 64 x.val).sum, rest) := by
  have few : (d.elements.map fun x => BitVec.ofNat 32 x.val).length < 2 ^ 31 := by
    have := d.atMost
    rw [List.length_map]
    omega
  obtain ⟨e, rest, bytes, elements, positive⟩ := Impl.krafka.exists_encoding few
  refine ⟨rest, ?_⟩
  rw [d.payload_eq_load, bytes, Krafka.decodeSum_encoding wrappingAdd e rest positive,
    addAll_wrappingAdd, BitVec.zero_add, elements, List.map_map]
  simp [Function.comp_def, signExtend_draw]

/-! ## The load loop -/

namespace Loader

/-- The `WINDOW` of the load loop. -/
def window : Nat := 10000

/-- Where the load loop stands: before a turn of the `for` loop, in its
`in_flight.next().await`, in the draining `while`, or at `producer.flush()`. -/
inductive Pc
  | filling
  | awaiting
  | draining
  | flushing
  deriving DecidableEq

end Loader

/-- The load loop and its pool. -/
structure Loader where
  pc : Loader.Pc
  generated : List Bytes
  inFlight : FuturePool (Bytes × Nat) SendResult

namespace Loader

/-- One turn of the `for` loop up to its await, `next()` polling one future,
`next()` finding the pool empty, the end of the range, or a waker running. -/
inductive Label
  | generate (draw : Draw)
  | poll (answer : Poll SendResult)
  | noneLeft
  | rangeEnd
  | wake (i : Nat)

def start : Loader := ⟨.filling, [], .empty⟩

/-- `in_flight.push(send)`, then the window test. -/
def generate (s : Loader) (draw : Draw) : Loader :=
  let inFlight := s.inFlight.push (draw.payload, s.generated.length)
  { pc := if window ≤ inFlight.len then .awaiting else .filling
    generated := s.generated ++ [draw.payload]
    inFlight := inFlight }

/-- Where a completion leaves the loop that awaited it. -/
def afterPoll (pc : Pc) : Poll SendResult → Pc
  | .pending => pc
  | .ready _ => if pc = .awaiting then .filling else pc

/-- One transition of loading `total` records. -/
def step (total : Nat) : Machine Loader Label := fun s l =>
  match l with
  | .generate draw =>
      if s.pc = .filling ∧ s.generated.length < total then some (s.generate draw) else none
  | .rangeEnd =>
      if s.pc = .filling ∧ total ≤ s.generated.length then some { s with pc := .draining }
      else none
  | .poll answer =>
      if s.pc = .awaiting ∨ s.pc = .draining then
        (s.inFlight.poll answer).map fun inFlight =>
          { s with pc := afterPoll s.pc answer, inFlight := inFlight }
      else none
  | .noneLeft =>
      if s.inFlight.len = 0 then
        match s.pc with
        | .awaiting => some { s with pc := .filling }
        | .draining => some { s with pc := .flushing }
        | _ => none
      else none
  | .wake i => (s.inFlight.wake i).map fun inFlight => { s with inFlight := inFlight }

/-- What holds whenever the loader is observed. -/
structure Inv (total : Nat) (s : Loader) : Prop where
  pushed : s.inFlight.pushed = s.generated.zipIdx
  size : s.inFlight.len ≤ window
  room : s.pc = .filling → s.inFlight.len < window
  generating : s.generated.length ≤ total
  complete : s.pc = .draining ∨ s.pc = .flushing → s.generated.length = total
  empty : s.pc = .flushing → s.inFlight.len = 0

theorem inv_start (total : Nat) : Inv total start where
  pushed := rfl
  size := by simp [start]
  room := by simp [start, window]
  generating := by simp [start]
  complete := by simp [start]
  empty := by simp [start]

theorem Inv.generate {total : Nat} {s : Loader} (inv : Inv total s) (filling : s.pc = .filling)
    (more : s.generated.length < total) (draw : Draw) : Inv total (s.generate draw) := by
  have room := inv.room filling
  have len : (s.generate draw).inFlight.len = s.inFlight.len + 1 := FuturePool.len_push
  have length : (s.generate draw).generated.length = s.generated.length + 1 :=
    List.length_append
  constructor
  · rw [Loader.generate, FuturePool.pushed_push, inv.pushed, List.zipIdx_append, Nat.zero_add]
    rfl
  · omega
  · intro hpc
    simp only [Loader.generate] at hpc len ⊢
    split at hpc
    · cases hpc
    · omega
  · omega
  · intro hpc
    simp only [Loader.generate] at hpc
    split at hpc <;> rcases hpc with hpc | hpc <;> cases hpc
  · intro hpc
    simp only [Loader.generate] at hpc
    split at hpc <;> cases hpc

theorem Inv.poll {total : Nat} {s : Loader} {answer : Poll SendResult}
    {inFlight : FuturePool (Bytes × Nat) SendResult} (inv : Inv total s)
    (awaited : s.pc = .awaiting ∨ s.pc = .draining)
    (polled : s.inFlight.poll answer = some inFlight) :
    Inv total { s with pc := afterPoll s.pc answer, inFlight := inFlight } := by
  have size := inv.size
  have complete := inv.complete
  cases answer with
  | pending =>
      obtain ⟨pushed, -, len⟩ := FuturePool.poll_pending_spec polled
      refine ⟨pushed.trans inv.pushed, len.trans_le size, ?_, inv.generating, complete, ?_⟩
      · intro hpc
        exact len.trans_lt (inv.room hpc)
      · intro hpc
        exact len.trans (inv.empty hpc)
  | ready value =>
      obtain ⟨pushed, -, len⟩ := FuturePool.poll_ready_spec polled
      have smaller : inFlight.len < window := by omega
      refine ⟨pushed.trans inv.pushed, smaller.le, fun _ => smaller, inv.generating, ?_, ?_⟩
      · rcases awaited with hpc | hpc <;> simp_all [afterPoll]
      · rcases awaited with hpc | hpc <;> simp [afterPoll, hpc]

theorem Inv.step {total : Nat} {s s' : Loader} {l : Label} (inv : Inv total s)
    (hstep : step total s l = some s') : Inv total s' := by
  cases l with
  | generate draw =>
      simp only [Loader.step, Option.ite_none_right_eq_some, Option.some.injEq] at hstep
      obtain ⟨⟨filling, more⟩, rfl⟩ := hstep
      exact inv.generate filling more draw
  | rangeEnd =>
      simp only [Loader.step, Option.ite_none_right_eq_some, Option.some.injEq] at hstep
      obtain ⟨⟨filling, used⟩, rfl⟩ := hstep
      exact ⟨inv.pushed, inv.size, by simp, inv.generating,
        fun _ => le_antisymm inv.generating used, by simp⟩
  | poll answer =>
      simp only [Loader.step, Option.ite_none_right_eq_some, Option.map_eq_some_iff] at hstep
      obtain ⟨awaited, inFlight, polled, rfl⟩ := hstep
      exact inv.poll awaited polled
  | noneLeft =>
      simp only [Loader.step, Option.ite_none_right_eq_some] at hstep
      obtain ⟨none, hstep⟩ := hstep
      split at hstep
      · cases hstep
        exact ⟨inv.pushed, inv.size, fun _ => by simp [none, window], inv.generating, by simp,
          by simp⟩
      · rename_i draining
        cases hstep
        exact ⟨inv.pushed, inv.size, by simp, inv.generating,
          fun _ => inv.complete (.inl draining), fun _ => none⟩
      · cases hstep
  | wake i =>
      simp only [Loader.step, Option.map_eq_some_iff] at hstep
      obtain ⟨inFlight, woken, rfl⟩ := hstep
      obtain ⟨pushed, -, len⟩ := FuturePool.wake_spec woken
      exact ⟨pushed.trans inv.pushed, len.trans_le inv.size,
        fun hpc => len.trans_lt (inv.room hpc), inv.generating, inv.complete,
        fun hpc => len.trans (inv.empty hpc)⟩

theorem Inv.of_reachable {total : Nat} {s : Loader}
    (reached : (Loader.step total).Reachable start s) : Inv total s :=
  reached.invariant (inv_start total) fun _ _ _ inv => inv.step

end Loader

/-- **The loader initiates its sends in generation order.**  In every reachable
state the sends polled so far are a prefix of the generated records, in order, and
at most `WINDOW` futures are in flight; at the flush every generated record has been
pushed once and the future of each has resolved once. -/
theorem loader_inOrder {total : Nat} {s : Loader}
    (reached : (Loader.step total).Reachable Loader.start s) :
    s.inFlight.started <+: s.generated.zipIdx ∧ s.inFlight.len ≤ Loader.window ∧
      (s.pc = .flushing →
        s.generated.length = total ∧
        s.inFlight.pushed = s.generated.zipIdx ∧
        s.inFlight.started = s.generated.zipIdx ∧
        (s.inFlight.finished.map Prod.fst).Perm s.generated.zipIdx) := by
  have inv := Loader.Inv.of_reachable reached
  refine ⟨?_, inv.size, fun flushing => ?_⟩
  · rw [← inv.pushed]
    exact s.inFlight.started_prefix
  · obtain ⟨started, finished⟩ := FuturePool.of_len_eq_zero (inv.empty flushing)
    rw [inv.pushed] at started finished
    exact ⟨inv.complete (.inr flushing), inv.pushed, started, finished⟩

/-- Two records, whose futures resolve in the opposite order: the first is parked,
the second resolves, then the first is woken. -/
def twoRecords : List Loader.Label :=
  let draw : Draw := ⟨[7, 70], by decide, by decide⟩
  [.generate draw, .generate draw, .rangeEnd, .poll .pending, .poll (.ready .ok), .wake 0,
    .poll (.ready .err), .noneLeft]

theorem loader_inOrder_twoRecords : ∃ s : Loader,
    (Loader.step 2).run Loader.start twoRecords = some s ∧ s.pc = .flushing ∧
      s.inFlight.started = s.generated.zipIdx := by
  have flushes : ((Loader.step 2).run Loader.start twoRecords).map Loader.pc =
      some .flushing := by
    decide +kernel
  obtain ⟨s, hrun, flushing⟩ := Option.map_eq_some_iff.mp flushes
  exact ⟨s, hrun, flushing, ((loader_inOrder ⟨_, hrun⟩).2.2 flushing).2.2.1⟩

end KafkaTest
