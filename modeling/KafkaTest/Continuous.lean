import KafkaTest.Pipeline

/-!
# When a worker leaves its loop

In continuous mode a worker is meant to run until it is killed, but its loop has the
exits of the benchmark.  `leftLoop_iff` reads off the history of a run, and of nothing
else, whether the worker is out: a counter test found the shared counter at `total`,
or `poll` came back empty three times without handing out a record in between.
-/

namespace KafkaTest

/-- The consume task is out of its loop. -/
def ConsumePc.leftLoop : ConsumePc → Bool
  | left _ | joining _ | unwinding | ended _ => true
  | _ => false

namespace Worker

/-- The worker connected, and `poll` handed out no malformed record. -/
def Healthy (l : Nat × Label) : Prop :=
  l.2 ≠ .start false ∧ ∀ r ∈ l.2.handed, r.decodes

/-- The empty polls in a row after one more transition; an error is neither. -/
def streakAfter (streak : Nat) : Label → Nat
  | .poll (.ok []) => streak + 1
  | .poll (.ok (_ :: _)) => 0
  | _ => streak

/-- The empty polls since the last one that handed out a record. -/
def emptyStreak (ls : List (Nat × Label)) : Nat :=
  ls.foldl (fun streak l => streakAfter streak l.2) 0

/-- Some counter test found the counter at `total`. -/
def FoundFull (total : Nat) (ls : List (Nat × Label)) : Prop :=
  ∃ counter, total ≤ counter ∧ (counter, .check) ∈ ls

theorem emptyStreak_concat (ls : List (Nat × Label)) (l : Nat × Label) :
    emptyStreak (ls ++ [l]) = streakAfter (emptyStreak ls) l.2 := by
  simp [emptyStreak]

theorem foundFull_concat {total : Nat} {ls : List (Nat × Label)} {l : Nat × Label} :
    FoundFull total (ls ++ [l]) ↔ FoundFull total ls ∨ (total ≤ l.1 ∧ l.2 = .check) := by
  simp only [FoundFull, List.mem_append, List.mem_singleton]
  constructor
  · intro found
    rcases found with ⟨counter, full, member | rfl⟩
    · exact .inl ⟨counter, full, member⟩
    · exact .inr ⟨full, rfl⟩
  · intro found
    rcases found with ⟨counter, full, member⟩ | ⟨full, check⟩
    · exact ⟨counter, full, .inl member⟩
    · exact ⟨l.1, full, .inr (by rw [← check])⟩

/-- What the history of a run says of the loop. -/
structure Tracks (total : Nat) (ls : List (Nat × Label)) (s : Worker) : Prop where
  inv : s.Inv
  decode : ∀ r ∈ s.consume.polled, r.decodes
  streak : s.consume.consecutiveEmpty = emptyStreak ls
  left : s.consume.pc.leftLoop ↔ FoundFull total ls ∨ 3 ≤ emptyStreak ls

section Steps

variable {total counter : Nat} {ls : List (Nat × Label)} {s s' : Worker} {l : Label}

/-- A transition other than a counter test or a poll changes nothing of this. -/
theorem Tracks.stay (h : Tracks total ls s) (inv : s'.Inv) (check : l ≠ .check)
    (poll : ∀ answer, l ≠ .poll answer) (polled : s'.consume.polled = s.consume.polled)
    (streak : s'.consume.consecutiveEmpty = s.consume.consecutiveEmpty)
    (left : s'.consume.pc.leftLoop = s.consume.pc.leftLoop) :
    Tracks total (ls ++ [(counter, l)]) s' := by
  have same : emptyStreak (ls ++ [(counter, l)]) = emptyStreak ls := by
    rw [emptyStreak_concat]
    cases l with
    | poll answer => exact (poll answer rfl).elim
    | _ => rfl
  refine ⟨inv, ?_, ?_, ?_⟩
  · rw [polled]
    exact h.decode
  · rw [streak, same]
    exact h.streak
  · rw [left, h.left, foundFull_concat, same]
    simp [check]

theorem Tracks.check (h : Tracks total ls s) (top : s.consume.pc = .top) :
    Tracks total (ls ++ [(counter, .check)])
      { s with consume := s.consume.check total counter } := by
  have inside := h.left
  have same : emptyStreak (ls ++ [(counter, .check)]) = emptyStreak ls := emptyStreak_concat _ _
  rw [top] at inside
  refine ⟨h.inv.check top total counter, h.decode, h.streak.trans same.symm, ?_⟩
  rw [foundFull_concat, same]
  by_cases full : total ≤ counter
  · simp [Consume.check, full, ConsumePc.leftLoop]
  · simpa [Consume.check, full, ConsumePc.leftLoop] using inside

theorem Tracks.poll (h : Tracks total ls s) (polling : s.consume.pc = .polling)
    (answer : PollResult) (handed : ∀ r ∈ (Label.poll answer).handed, r.decodes) :
    Tracks total (ls ++ [(counter, .poll answer)])
      { s with consume := s.consume.poll answer } := by
  have inside := h.left
  have streak := h.streak
  have inv := h.inv.poll polling answer
  rw [polling] at inside
  have before : ¬ (FoundFull total ls ∨ 3 ≤ emptyStreak ls) := fun out => by
    cases inside.mpr out
  rw [not_or, not_le] at before
  obtain ⟨notFull, short⟩ := before
  have full : ¬ FoundFull total (ls ++ [(counter, .poll answer)]) := by
    rw [foundFull_concat, not_or]
    exact ⟨notFull, (by simp)⟩
  cases answer with
  | err =>
      have same : emptyStreak (ls ++ [(counter, .poll .err)]) = emptyStreak ls :=
        emptyStreak_concat _ _
      refine ⟨inv, h.decode, streak.trans same.symm, ?_⟩
      rw [same]
      simp [full, short, Consume.poll, ConsumePc.leftLoop]
  | ok records =>
    cases records with
    | nil =>
      have more : emptyStreak (ls ++ [(counter, .poll (.ok []))]) = emptyStreak ls + 1 :=
        emptyStreak_concat _ _
      refine ⟨inv, h.decode, ?_, ?_⟩
      · rw [more, ← streak]
        rfl
      · rw [more, ← streak]
        simp only [full, Consume.poll, false_or]
        split <;> simp_all [ConsumePc.leftLoop]
    | cons record records =>
      have reset : emptyStreak (ls ++ [(counter, .poll (.ok (record :: records)))]) = 0 :=
        emptyStreak_concat _ _
      refine ⟨inv, fun r hr => ?_, reset.symm, ?_⟩
      · rcases List.mem_append.mp hr with hr | hr
        · exact h.decode r hr
        · exact handed r hr
      · rw [reset]
        simp [full, Consume.poll, ConsumePc.leftLoop]

theorem Tracks.move {counter' : Nat} (h : Tracks total ls s)
    (move : Move total counter s l counter' s') (healthy : Healthy (counter, l)) :
    Tracks total (ls ++ [(counter, l)]) s' := by
  have inv := h.inv.move move
  cases move with
  | check top => exact h.check top
  | poll answer polling => exact h.poll polling answer healthy.2
  | startFails starting => exact (healthy.1 rfl).elim
  | sendFails item rest sending done =>
      rw [h.inv.not_done (by rw [sending]; rfl)] at done
      cases done
  | turn record rest batch =>
      have whole := h.inv.consume.whole (by rw [batch]; rfl)
      rw [batch] at whole
      have member : record ∈ s.consume.polled := by
        rw [← whole]
        simp [ConsumePc.rest]
      refine h.stay inv (by simp) (by simp) rfl rfl ?_
      rcases s.consume.afterDecode_cases record rest with ⟨-, -, hpc⟩ | ⟨buf, -, -, hpc⟩ |
        ⟨bad, -, -⟩
      · simp [Consume.turn, hpc, batch, ConsumePc.leftLoop]
      · simp [Consume.turn, hpc, batch, ConsumePc.leftLoop]
      · rw [h.decode record member] at bad
        cases bad
  | enter starting => exact h.stay inv (by simp) (by simp) rfl rfl (by rw [starting]; rfl)
  | batchEnd batch => exact h.stay inv (by simp) (by simp) rfl rfl (by rw [batch]; rfl)
  | send item rest sending room =>
      exact h.stay inv (by simp) (by simp) rfl rfl (by rw [sending]; rfl)
  | dropTx exit left => exact h.stay inv (by simp) (by simp) rfl rfl (by rw [left]; rfl)
  | join exit joining done => exact h.stay inv (by simp) (by simp) rfl rfl (by rw [joining]; rfl)
  | shutdown unwinding awaiting =>
      exact h.stay inv (by simp) (by simp) rfl rfl (by rw [unwinding]; rfl)
  | recv | recvNone | complete | wake | publish | finish =>
      exact h.stay inv (by simp) (by simp) rfl rfl rfl

end Steps

end Worker

/-- **When a worker stops on its own.**  Over well-formed records, a worker that
connected is out of its loop exactly if one of its counter tests found the counter at
`total` or three of its polls came back empty with no record handed out in between. -/
theorem leftLoop_iff {total : Nat} {ls : List (Nat × Worker.Label)} {s : Worker}
    (hrun : (Worker.step total).alone.run Worker.start ls = some s)
    (healthy : ∀ l ∈ ls, Worker.Healthy l) :
    s.consume.pc.leftLoop ↔ Worker.FoundFull total ls ∨ 3 ≤ Worker.emptyStreak ls := by
  have tracks : (∀ l ∈ ls, Worker.Healthy l) → Worker.Tracks total ls s := by
    refine Machine.run_induction
      (I := fun ls s => (∀ l ∈ ls, Worker.Healthy l) → Worker.Tracks total ls s) ?_ ?_ hrun
    · intro _
      exact ⟨Worker.inv_start, by simp [Worker.start], rfl,
        by simp [Worker.start, ConsumePc.leftLoop, Worker.FoundFull, Worker.emptyStreak]⟩
    · intro ls label s s' ih hstep healthy
      rcases label with ⟨counter, l⟩
      obtain ⟨counter', hstep⟩ := Proc.alone_eq_some.mp hstep
      exact (ih fun l hl => healthy l (List.mem_append_left _ hl)).move (Worker.step_move hstep)
        (healthy _ (by simp))
  exact (tracks healthy).left

/-- A batch, and then three empty polls with an error between two of them. -/
def quietTopic : List (Nat × Worker.Label) :=
  [(0, .start true), (0, .check), (0, .poll (.ok [⟨none⟩])), (0, .next), (0, .next), (0, .check),
    (0, .poll (.ok [])), (0, .check), (0, .poll .err), (0, .check), (0, .poll (.ok [])),
    (0, .check), (0, .poll (.ok []))]

theorem leftLoop_of_quietTopic : ∃ s : Worker,
    (Worker.step totalRecords).alone.run Worker.start quietTopic = some s ∧
      (∀ l ∈ quietTopic, Worker.Healthy l) ∧ s.produce.channelOpen = true ∧
      s.consume.pc = .left .emptyPolls := by
  have ends : ((Worker.step totalRecords).alone.run Worker.start quietTopic).map
      (fun s => (s.produce.channelOpen, s.consume.pc)) = some (true, .left .emptyPolls) := by
    decide +kernel
  obtain ⟨s, hrun, hs⟩ := Option.map_eq_some_iff.mp ends
  obtain ⟨isOpen, left⟩ := Prod.mk.inj hs
  exact ⟨s, hrun, by simp [quietTopic, Worker.Healthy, Worker.Label.handed, Record.decodes],
    isOpen, left⟩

/-- The same worker is still in its loop before the third of them. -/
theorem leftLoop_iff_quietTopic : ∃ s : Worker,
    (Worker.step totalRecords).alone.run Worker.start (quietTopic.take 11) = some s ∧
      s.consume.pc.leftLoop = false := by
  have runs : ((Worker.step totalRecords).alone.run Worker.start (quietTopic.take 11)).isSome := by
    decide +kernel
  obtain ⟨s, hrun⟩ := Option.isSome_iff_exists.mp runs
  have out := leftLoop_iff hrun
    (by simp [quietTopic, Worker.Healthy, Worker.Label.handed, Record.decodes])
  refine ⟨s, hrun, Bool.eq_false_iff.mpr fun left => ?_⟩
  rcases out.mp left with ⟨counter, full, member⟩ | streak
  · simp [quietTopic, totalRecords] at full member
    omega
  · revert streak
    decide

end KafkaTest
