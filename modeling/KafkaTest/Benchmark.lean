import KafkaTest.Acknowledged
import KafkaTest.Completion
import KafkaTest.Endpoints

/-!
# The krafka benchmark as a whole

Phase 1 generates the records, the topic holds those whose sends were acknowledged, however they
are spread over its partitions, and Phase 2 reads them with one worker for each partition.

`benchmark_end_to_end` puts the two phases together: what a result reader finds is at any time
some of the sums of the numbers drawn, and in the end all of them.
-/

namespace KafkaTest

/-! ## Draws -/

namespace Draw

/-- The exact sum of the numbers drawn for a record. -/
def sum (d : Draw) : Int := (d.elements.map fun x => (x.val : Int)).sum

theorem sum_ofNat (xs : List (Fin 100)) :
    (xs.map fun x => BitVec.ofNat 64 x.val).sum = BitVec.ofNat 64 (xs.map Fin.val).sum := by
  induction xs with
  | nil => rfl
  | cons x xs ih =>
      rw [List.map_cons, List.sum_cons, ih, List.map_cons, List.sum_cons, BitVec.ofNat_add]

theorem sum_val_le (xs : List (Fin 100)) : (xs.map Fin.val).sum ≤ 100 * xs.length := by
  induction xs with
  | nil => exact le_rfl
  | cons x xs ih =>
      rw [List.map_cons, List.sum_cons, List.length_cons]
      omega

/-- No sum is too large for a word. -/
theorem toInt_sum (d : Draw) :
    (d.elements.map fun x => BitVec.ofNat 64 x.val).sum.toInt = d.sum := by
  have bound := sum_val_le d.elements
  have few := d.atMost
  have whole : (BitVec.ofNat 64 (d.elements.map Fin.val).sum).toNat =
      (d.elements.map Fin.val).sum := by
    rw [BitVec.toNat_ofNat, Nat.mod_eq_of_lt (by omega)]
  rw [sum_ofNat, BitVec.toInt_eq_toNat_of_lt (by omega), whole, sum, Nat.cast_list_sum,
    List.map_map]
  rfl

/-- The record that is generated. -/
def record (d : Draw) : Record := ⟨some d.payload⟩

/-- What a result reader makes of the result, if it is the exact sum. -/
def answer (d : Draw) : Outcome (Int × Bytes) := .ok (d.sum, [])

/-- The result of a record that was generated is read as the exact sum. -/
theorem exists_result (d : Draw) :
    ∃ buf, d.record.result = some buf ∧ Consumer.krafka.readVarint buf = d.answer := by
  obtain ⟨rest, decodes⟩ := d.decodeSum_payload
  refine ⟨canonical (d.elements.map fun x => BitVec.ofNat 64 x.val).sum, ?_, ?_⟩
  · rw [record, Record.result, Option.bind_some, resultOf, decodes]
    exact congrArg some (Krafka.writeVarint_eq [] _)
  · rw [Consumer.readVarint_canonical, toInt_sum, answer]

theorem wellFormed_record (d : Draw) : d.record.wellFormed := by
  obtain ⟨buf, result, -⟩ := d.exists_result
  rw [Record.wellFormed, result]
  rfl

/-- The results of some records that were generated are read as their sums. -/
theorem read_resultsOf (draws : List Draw) :
    (resultsOf (draws.map record)).map Consumer.krafka.readVarint = draws.map answer := by
  induction draws with
  | nil => rfl
  | cons d draws ih =>
      obtain ⟨buf, result, reads⟩ := d.exists_result
      rw [List.map_cons, resultsOf, List.filterMap_cons_some result, List.map_cons, reads]
      exact congrArg (d.answer :: ·) ih

end Draw

/-! ## Phase 1 -/

namespace Loader

/-- The payloads whose sends were acknowledged. -/
def accepted (s : Loader) : List Bytes :=
  (s.inFlight.finished.filter fun send => send.2 = .ok).map fun send => send.1.1

theorem length_accepted (s : Loader) : s.accepted.length = acknowledged s.inFlight := by
  rw [accepted, acknowledged, List.length_map, List.countP_eq_length_filter]

/-- Whatever is generated was drawn. -/
theorem exists_draws {total : Nat} {s : Loader}
    (reached : (step total).Reachable start s) :
    ∃ draws : List Draw, s.generated = draws.map Draw.payload := by
  refine reached.invariant (I := fun s => ∃ draws : List Draw, s.generated =
    draws.map Draw.payload) ⟨[], rfl⟩ fun l s s' ih hstep => ?_
  obtain ⟨draws, same⟩ := ih
  cases l with
  | generate draw =>
      simp only [step, Option.ite_none_right_eq_some, Option.some.injEq] at hstep
      obtain ⟨-, rfl⟩ := hstep
      exact ⟨draws ++ [draw], by simp [generate, same]⟩
  | poll answer =>
      simp only [step, Option.ite_none_right_eq_some, Option.map_eq_some_iff] at hstep
      obtain ⟨-, inFlight, -, rfl⟩ := hstep
      exact ⟨draws, same⟩
  | noneLeft =>
      simp only [step, Option.ite_none_right_eq_some] at hstep
      obtain ⟨-, hstep⟩ := hstep
      split at hstep <;> cases hstep <;> exact ⟨draws, same⟩
  | rangeEnd =>
      simp only [step, Option.ite_none_right_eq_some, Option.some.injEq] at hstep
      obtain ⟨-, rfl⟩ := hstep
      exact ⟨draws, same⟩
  | wake i =>
      simp only [step, Option.map_eq_some_iff] at hstep
      obtain ⟨inFlight, -, rfl⟩ := hstep
      exact ⟨draws, same⟩

/-- At the flush each record generated has been acknowledged once, or has failed. -/
theorem accepted_subperm {total : Nat} {s : Loader} (reached : (step total).Reachable start s)
    (flushing : s.pc = .flushing) : s.accepted.Subperm s.generated := by
  have inv := Inv.of_reachable reached
  obtain ⟨-, finished⟩ := FuturePool.of_len_eq_zero (inv.empty flushing)
  have payloads := finished.map Prod.fst
  rw [inv.pushed, List.zipIdx_map_fst, List.map_map] at payloads
  exact ((List.filter_sublist (p := fun send => send.2 = .ok)).map
    fun send : (Bytes × Nat) × SendResult => send.1.1).subperm.trans payloads.subperm

end Loader

/-! ## Phase 2 -/

/-- A completed send is that of a result computed, each of them once. -/
theorem Worker.Inv.finished_subperm {s : Worker} (inv : s.Inv) :
    (s.produce.inFlight.finished.map fun send => send.1.1).Subperm s.consume.computed := by
  have conserved := s.produce.inFlight.conserved
  rw [List.append_assoc] at conserved
  have started : (s.produce.inFlight.finished.map Prod.fst).Subperm s.produce.inFlight.started :=
    (List.sublist_append_left _ _).subperm.trans conserved.subperm
  have split : s.produce.inFlight.started <+: s.consume.computed.zipIdx := by
    rw [inv.split, List.append_assoc]
    exact s.produce.inFlight.started_prefix.trans (List.prefix_append _ _)
  obtain ⟨sends, same, inside⟩ := started.trans split.sublist.subperm
  have all : ((s.produce.inFlight.finished.map Prod.fst).map Prod.fst).Subperm
      (s.consume.computed.zipIdx.map Prod.fst) := ⟨_, same.map Prod.fst, inside.map Prod.fst⟩
  rwa [List.zipIdx_map_fst, List.map_map] at all

namespace Workers

variable {n total : Nat} {topic : List (List Record)} {g : Workers n}

/-- The results whose sends have completed. -/
def results (g : Workers n) : Multiset Bytes :=
  ∑ i, ((g.proc i).produce.inFlight.finished.map fun send => send.1.1 : List Bytes)

/-- What the workers find is the topic. -/
theorem sum_resultsOf (partitions : topic.length = n) :
    ∑ i : Fin n, (resultsOf (partitionOf topic i) : Multiset Bytes) = resultsOf topic.flatten := by
  subst partitions
  have inside : ∀ i : Fin topic.length, partitionOf topic i = topic[i] := fun i =>
    List.getD_eq_getElem _ _ i.isLt
  simp only [inside]
  refine (Fin.sum_univ_fun_getElem topic fun log => (resultsOf log : Multiset Bytes)).trans ?_
  clear inside
  induction topic with
  | nil => rfl
  | cons log topic ih =>
      rw [List.map_cons, List.sum_cons, ih, List.flatten_cons, resultsOf_append,
        Multiset.coe_add]

/-- In every state the results sent are results of the topic. -/
theorem results_le (partitions : topic.length = n)
    (reached : (step topic total n).Reachable (start n) g) :
    g.results ≤ resultsOf topic.flatten := by
  rw [← sum_resultsOf partitions]
  refine Finset.sum_le_sum fun i _ => Multiset.coe_le.mpr ?_
  obtain ⟨inv, handed⟩ := Workers.inv reached i
  obtain ⟨rest, log⟩ := inv.consumed_prefix.trans handed
  refine inv.finished_subperm.trans ?_
  rw [inv.consume.computed, ← log, resultsOf_append]
  exact (List.sublist_append_left _ _).subperm

/-- All of them, when each worker has completed its partition. -/
theorem results_of_completed (partitions : topic.length = n)
    (completed : ∀ i, (g.proc i).Completed (partitionOf topic i)) :
    g.results = resultsOf topic.flatten := by
  rw [← sum_resultsOf partitions]
  refine Finset.sum_congr rfl fun i _ => Multiset.coe_eq_coe.mpr ?_
  have payloads := (completed i).2.2.map Prod.fst
  rwa [List.zipIdx_map_fst, List.map_map] at payloads

end Workers

/-! ## The two phases -/

/-- **The benchmark from end to end.**  Phase 1 has come to its flush, and the topic holds the
records whose sends were acknowledged, spread in any way over one partition for each worker.  In
every state of Phase 2, then, the results sent are read as sums of different records of those
acknowledged, each of them exact; when each worker has left over the counter or after draining its
partition they are the sums of all of these, and the report counts as many.  If no send of Phase 1
failed these are all that were generated. -/
theorem benchmark_end_to_end {total n : Nat} (small : total < 2 ^ 64) {s : Loader}
    (loaded : (Loader.step total).Reachable Loader.start s) (flushing : s.pc = .flushing)
    {topic : List (List Record)} (partitions : topic.length = n)
    (holds : topic.flatten.Perm (s.accepted.map fun payload => ⟨some payload⟩)) {g : Workers n}
    (reached : (Workers.step topic total n).Reachable (Workers.start n) g) :
    ∃ draws kept : List Draw, s.generated = draws.map Draw.payload ∧ draws.length = total ∧
      kept.Sublist draws ∧ (kept.map Draw.payload).Perm s.accepted ∧
      kept.length = acknowledged s.inFlight ∧
      (failed s.inFlight = 0 → kept = draws) ∧
      g.results.map Consumer.krafka.readVarint ≤ (kept.map Draw.answer : List _) ∧
      ((∀ i, (g.proc i).consume.pc = .ended (some .counterReached) ∨
          ((g.proc i).consume.pc = .ended (some .emptyPolls) ∧
            (g.proc i).consume.polled = partitionOf topic i)) →
        g.results.map Consumer.krafka.readVarint = (kept.map Draw.answer : List _) ∧
          Workers.report true g = some kept.length) := by
  obtain ⟨draws, generated⟩ := Loader.exists_draws loaded
  have all := (Loader.Inv.of_reachable loaded).complete (.inr flushing)
  have length : draws.length = total := by rw [← all, generated, List.length_map]
  obtain ⟨payloads, same, inside⟩ := generated ▸ Loader.accepted_subperm loaded flushing
  obtain ⟨kept, fewer, rfl⟩ := List.sublist_map_iff.mp inside
  have keptLength : kept.length = acknowledged s.inFlight := by
    rw [← Loader.length_accepted, ← same.length_eq, List.length_map]
  have records : topic.flatten.Perm (kept.map Draw.record) := by
    have mapped := same.symm.map fun payload => (⟨some payload⟩ : Record)
    rw [List.map_map] at mapped
    exact holds.trans mapped
  have answers : ((resultsOf topic.flatten : Multiset Bytes)).map Consumer.krafka.readVarint =
      (kept.map Draw.answer : List _) := by
    rw [← Draw.read_resultsOf, ← Multiset.map_coe]
    exact congrArg _ (Multiset.coe_eq_coe.mpr (records.filterMap _))
  refine ⟨draws, kept, generated, length, fewer, same, keptLength, fun none => ?_, ?_,
    fun final => ?_⟩
  · have split := length_finished_eq s.inFlight
    rw [Loader.length_finished loaded flushing] at split
    exact fewer.eq_of_length (by omega)
  · rw [← answers]
    exact Multiset.map_le_map (Workers.results_le partitions reached)
  · have values : ∀ log ∈ topic, ∀ r ∈ log, r.wellFormed := by
      intro log member r inLog
      have here := records.subset (List.mem_flatten.mpr ⟨log, member, inLog⟩)
      obtain ⟨d, -, rfl⟩ := List.mem_map.mp here
      exact d.wellFormed_record
    have size : topic.flatten.length = kept.length := by
      rw [records.length_eq, List.length_map]
    have few := fewer.length_le
    have ended : ∀ i, (g.proc i).consume.pc.isEnded := by
      intro i
      rcases final i with left | ⟨left, -⟩ <;> rw [left] <;> rfl
    obtain ⟨completed, counter⟩ := Workers.completed_of_ended partitions small (by omega) values
      reached ended fun i => (final i).imp (fun left => by rw [left]; rfl) And.right
    refine ⟨?_, ?_⟩
    · rw [← answers, Workers.results_of_completed partitions completed]
    · rw [Workers.report, if_pos ⟨rfl, ended⟩, counter, size]

/-- The record of a draw of 7 and 70. -/
def sevenSeventy : Record := ⟨some [0x04#8, 0x0E#8, 0x8C#8, 0x01#8, 0x00#8]⟩

/-- Its worker sends it, and leaves after three empty polls. -/
def oneWorker : List Worker.Label :=
  [.start true, .check, .poll (.ok [sevenSeventy]), .next, .send, .next, .recv,
    .complete (.ready .ok), .check, .poll (.ok []), .check, .poll (.ok []), .check,
    .poll (.ok []), .dropTx, .recv, .finish, .join]

/-- One of two sends has failed. -/
theorem benchmark_end_to_end_twoRecords : ∃ (s : Loader) (g : Workers 1),
    (Loader.step 2).run Loader.start twoRecords = some s ∧
      (Workers.step [[sevenSeventy]] 2 1).run (Workers.start 1)
        (oneWorker.map fun l => (0, l)) = some g ∧
      Workers.report true g = some (acknowledged s.inFlight) := by
  have loads : ((Loader.step 2).run Loader.start twoRecords).map
      (fun s => (s.pc, s.accepted.map fun payload => (⟨some payload⟩ : Record))) =
        some (.flushing, [sevenSeventy]) := by
    decide +kernel
  have ends : ((Workers.step [[sevenSeventy]] 2 1).run (Workers.start 1)
      (oneWorker.map fun l => (0, l))).map
      (fun g => ((g.proc 0).consume.pc, (g.proc 0).consume.polled)) =
        some (.ended (some .emptyPolls), [sevenSeventy]) := by
    decide +kernel
  obtain ⟨s, loaded, hs⟩ := Option.map_eq_some_iff.mp loads
  obtain ⟨g, hrun, hg⟩ := Option.map_eq_some_iff.mp ends
  simp only [Prod.mk.injEq] at hs hg
  have holds : [[sevenSeventy]].flatten.Perm (s.accepted.map fun payload => ⟨some payload⟩) := by
    rw [hs.2]
    rfl
  obtain ⟨draws, kept, -, -, -, -, length, -, -, final⟩ :=
    benchmark_end_to_end (n := 1) (by decide) ⟨_, loaded⟩ hs.1 rfl holds ⟨_, hrun⟩
  obtain ⟨-, report⟩ := final (Fin.forall_fin_one.mpr (.inr hg))
  exact ⟨s, g, loaded, hrun, length ▸ report⟩

end KafkaTest
