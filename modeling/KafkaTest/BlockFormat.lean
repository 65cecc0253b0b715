import KafkaTest.CountedStream

/-!
# Formats of counted blocks

A `BlockFormat` says which lists make up one item, which are an item cut short by the end
of the input, what an item is worth, and how a count is followed by headers and elements.

* `Blocks bs counts elements`: `bs` is a sequence of whole blocks.
* `ending`: whatever the input is, after some whole blocks it comes to a zero count, or is
  cut inside a count or inside a block.

`SumsBlocks` is what a loop body has to do for a block.  The rules follow such a loop along
the whole blocks (`blocksFrom_append_eq_ok_iff`) and then tell the endings apart: a *strict*
reader has no answer for a cut item, a *lenient* one makes a value of it and then reads
zeros.  `upTo` is a format for readers that give up on long items.
-/

namespace KafkaTest

/-- What the items of a format are and how its counts are followed. -/
structure BlockFormat (α V : Type) where
  IsItem : List α → Prop
  IsCut : List α → Prop
  value : List α → V
  headers : V → Nat
  turns : V → Nat
  ne_nil : ∀ {item}, IsItem item → item ≠ []
  split : ∀ s, IsCut s ∨ ∃ item rest, s = item ++ rest ∧ IsItem item

namespace BlockFormat

variable {α V : Type} (f : BlockFormat α V)

theorem isCut_nil : f.IsCut [] := by
  rcases f.split [] with cut | ⟨item, rest, split, isItem⟩
  · exact cut
  · exact (f.ne_nil isItem (List.append_eq_nil_iff.mp split.symm).1).elim

def Items (items : List (List α)) : Prop := ∀ item ∈ items, f.IsItem item

/-- So many items stand at the front, or the input is cut behind fewer of them. -/
theorem exists_items (n : Nat) (s : List α) :
    (∃ items rest, s = items.flatten ++ rest ∧ f.Items items ∧ items.length = n) ∨
      ∃ items cut, s = items.flatten ++ cut ∧ f.Items items ∧ items.length < n ∧
        f.IsCut cut := by
  induction n generalizing s with
  | zero => exact .inl ⟨[], s, rfl, by simp [Items], rfl⟩
  | succ n ih =>
      rcases f.split s with cut | ⟨item, rest, rfl, isItem⟩
      · exact .inr ⟨[], s, rfl, by simp [Items], by simp, cut⟩
      · rcases ih rest with ⟨items, rest, rfl, areItems, length⟩ |
          ⟨items, cut, rfl, areItems, short, isCut⟩
        · exact .inl ⟨item :: items, rest, by simp, List.forall_mem_cons.mpr ⟨isItem, areItems⟩,
            by simp [length]⟩
        · exact .inr ⟨item :: items, cut, by simp, List.forall_mem_cons.mpr ⟨isItem, areItems⟩,
            by simpa using short, isCut⟩

variable [AddMonoid V]

/-- Whole blocks, with their counts and elements. -/
inductive Blocks : List α → List V → List (List α) → Prop
  | nil : Blocks [] [] []
  | cons {count rest : List α} {header elements later : List (List α)} {counts : List V} :
    f.IsItem count → f.value count ≠ 0 → f.Items header → f.Items elements →
    header.length = f.headers (f.value count) → elements.length = f.turns (f.value count) →
    Blocks rest counts later →
    Blocks (count ++ (header.flatten ++ (elements.flatten ++ rest))) (f.value count :: counts)
      (elements ++ later)

/-- The sum of the elements. -/
def total (elements : List (List α)) : V := (elements.map f.value).sum

/-- After whole blocks the input has a zero count, and then `rest`. -/
def Stops (s : List α) (elements : List (List α)) (rest : List α) : Prop :=
  ∃ bs counts zero, s = bs ++ (zero ++ rest) ∧ f.Blocks bs counts elements ∧ f.IsItem zero ∧
    f.value zero = 0

/-- After whole blocks the input has the count `n`. -/
def CountAt (s : List α) (n : V) : Prop :=
  ∃ bs counts elements count rest, s = bs ++ (count ++ rest) ∧ f.Blocks bs counts elements ∧
    f.IsItem count ∧ f.value count = n

/-- After whole blocks the input is cut where a count should stand. -/
def CutCount (s : List α) (elements : List (List α)) (cut : List α) : Prop :=
  ∃ bs counts, s = bs ++ cut ∧ f.Blocks bs counts elements ∧ f.IsCut cut

/-- After whole blocks the input is cut in the block of count `n`, behind `items`. -/
def CutBlock (s : List α) (elements : List (List α)) (n : V) (items : List (List α))
    (cut : List α) : Prop :=
  ∃ bs counts count, s = bs ++ (count ++ (items.flatten ++ cut)) ∧
    f.Blocks bs counts elements ∧ f.IsItem count ∧ f.value count = n ∧ n ≠ 0 ∧ f.Items items ∧
    items.length < f.headers n + f.turns n ∧ f.IsCut cut

/-- How an input ends. -/
inductive Ending (s : List α) : Prop
  | stops {elements : List (List α)} {rest : List α} : f.Stops s elements rest → Ending s
  | cutCount {elements : List (List α)} {cut : List α} : f.CutCount s elements cut → Ending s
  | cutBlock {elements items : List (List α)} {n : V} {cut : List α} :
    f.CutBlock s elements n items cut → Ending s

variable {f}

theorem Blocks.length_counts_le {bs : List α} {counts : List V} {elements : List (List α)}
    (h : f.Blocks bs counts elements) : counts.length ≤ bs.length := by
  induction h with
  | nil => exact le_rfl
  | cons item _ _ _ _ _ _ ih =>
      have := List.length_pos_of_ne_nil (f.ne_nil item)
      simp only [List.length_cons, List.length_append]
      omega

/-- What stops an input is the part of it before the rest. -/
theorem stops_iff {s rest : List α} {elements : List (List α)} :
    f.Stops s elements rest ↔ ∃ accepted, s = accepted ++ rest ∧ f.Stops accepted elements [] := by
  constructor
  · intro found
    obtain ⟨bs, counts, zero, split, found⟩ := found
    exact ⟨bs ++ zero, by rw [split, List.append_assoc], bs, counts, zero,
      by rw [List.append_nil], found⟩
  · intro found
    obtain ⟨accepted, split, bs, counts, zero, whole, found⟩ := found
    exact ⟨bs, counts, zero, by rw [split, whole, List.append_nil, List.append_assoc], found⟩

/-- Whole blocks that follow a block follow it. -/
theorem Blocks.countAt {bs rest : List α} {counts : List V} {elements : List (List α)}
    (h : f.Blocks bs counts elements) {n : V} (member : n ∈ counts) : f.CountAt (bs ++ rest) n := by
  induction h with
  | nil => cases member
  | cons item nonzero headers items headerLength length blocks ih =>
      rcases List.mem_cons.mp member with rfl | member
      · exact ⟨[], [], [], _, _, List.append_assoc _ _ _, .nil, item, rfl⟩
      · obtain ⟨bs', counts', elements', count, rest', split, blocks', item', value⟩ := ih member
        refine ⟨_, _, _, count, rest', ?_,
          .cons item nonzero headers items headerLength length blocks', item', value⟩
        simp only [List.append_assoc, split]

/-- What ends after a block ends as the rest does. -/
theorem Ending.prepend {count rest : List α} {header elements : List (List α)}
    (item : f.IsItem count) (nonzero : f.value count ≠ 0) (headers : f.Items header)
    (items : f.Items elements) (headerLength : header.length = f.headers (f.value count))
    (length : elements.length = f.turns (f.value count)) (h : f.Ending rest) :
    f.Ending (count ++ (header.flatten ++ (elements.flatten ++ rest))) := by
  have regroup : ∀ bs later : List α,
      count ++ (header.flatten ++ (elements.flatten ++ (bs ++ later))) =
        count ++ (header.flatten ++ (elements.flatten ++ bs)) ++ later := by
    intro bs later
    simp only [List.append_assoc]
  cases h with
  | stops found =>
      obtain ⟨bs, counts, zero, rfl, blocks, found⟩ := found
      exact .stops ⟨_, _, zero, regroup _ _,
        .cons item nonzero headers items headerLength length blocks, found⟩
  | cutCount found =>
      obtain ⟨bs, counts, rfl, blocks, found⟩ := found
      exact .cutCount ⟨_, _, regroup _ _,
        .cons item nonzero headers items headerLength length blocks, found⟩
  | cutBlock found =>
      obtain ⟨bs, counts, last, rfl, blocks, found⟩ := found
      exact .cutBlock ⟨_, _, last, regroup _ _,
        .cons item nonzero headers items headerLength length blocks, found⟩

variable (f) in
theorem ending [DecidableEq V] (s : List α) : f.Ending s := by
  induction h : s.length using Nat.strongRecOn generalizing s with
  | ind size ih =>
      rcases f.split s with cut | ⟨count, rest, rfl, item⟩
      · exact .cutCount ⟨[], [], rfl, .nil, cut⟩
      · by_cases zero : f.value count = 0
        · exact .stops ⟨[], [], count, rfl, .nil, item, zero⟩
        · have positive := List.length_pos_of_ne_nil (f.ne_nil item)
          rcases f.exists_items (f.headers (f.value count) + f.turns (f.value count)) rest with
            ⟨items, later, rfl, areItems, length⟩ | ⟨items, cut, rfl, areItems, short, isCut⟩
          · let k := f.headers (f.value count)
            have whole : items.flatten ++ later =
                (items.take k).flatten ++ ((items.drop k).flatten ++ later) := by
              rw [← List.append_assoc, ← List.flatten_append, List.take_append_drop]
            have smaller : later.length < size := by
              simp only [List.length_append] at h
              omega
            rw [whole]
            exact (ih _ smaller later rfl).prepend item zero
              (fun i member => areItems i (List.mem_of_mem_take member))
              (fun i member => areItems i (List.mem_of_mem_drop member))
              (by rw [List.length_take]; omega) (by rw [List.length_drop]; omega)
          · exact .cutBlock ⟨[], [], count, rfl, .nil, item, rfl, zero, areItems, short, isCut⟩

/-! ## Loops over blocks -/

variable {read : List α → Outcome (V × List α)}
  {body : V → V → List α → Outcome (V × List α)} {Fits : V → Prop}

variable (f) in
/-- The reader finds every item, whatever follows. -/
def ReadsItems (read : List α → Outcome (V × List α)) : Prop :=
  ∀ item rest, f.IsItem item → read (item ++ rest) = .ok (f.value item, rest)

variable (f) in
/-- The body returns exactly if the count suits it and the reader finds the headers and
the elements; it adds the elements to the sum. -/
def SumsBlocks (read : List α → Outcome (V × List α))
    (body : V → V → List α → Outcome (V × List α)) (Fits : V → Prop) : Prop :=
  ∀ count sum s r, body count sum s = .ok r ↔ Fits count ∧
    ∃ header elements, header.length = f.headers count ∧ elements.length = f.turns count ∧
      ReadsTo read s (header ++ elements) r.2 ∧ r.1 = sum + elements.sum

omit [AddMonoid V] in
theorem ReadsItems.readsTo (reads : f.ReadsItems read) {items : List (List α)}
    (areItems : f.Items items) (rest : List α) :
    ReadsTo read (items.flatten ++ rest) (items.map f.value) rest := by
  induction items with
  | nil => rfl
  | cons item items ih =>
      obtain ⟨isItem, areItems⟩ := List.forall_mem_cons.mp areItems
      rw [List.flatten_cons, List.append_assoc]
      exact ⟨_, reads item _ isItem, ih areItems⟩

section Turns

variable [DecidableEq V] {fuel : Nat} {sum : V} {s t : List α} {r : V × List α}

/-- At a zero count the loop is over. -/
theorem blocksFrom_zero_eq_ok_iff (zero : read s = .ok (0, t)) :
    blocksFrom read 0 body fuel sum s = .ok r ↔ 0 < fuel ∧ r = (sum, t) := by
  rw [blocksFrom_of_read zero]
  cases fuel with
  | zero => simp [sumBlocks]
  | succ fuel => simp [sumBlocks, eq_comm]

/-- **One turn.**  Where the reader finds a count, its headers and its elements, the loop
goes on behind them if the count suits the body. -/
theorem blocksFrom_turn_eq_ok_iff (sums : f.SumsBlocks read body Fits) {n : V} {u : List α}
    {header elements : List V} (count : read s = .ok (n, u)) (nonzero : n ≠ 0)
    (headerLength : header.length = f.headers n) (length : elements.length = f.turns n)
    (finds : ReadsTo read u (header ++ elements) t) :
    blocksFrom read 0 body fuel sum s = .ok r ↔ Fits n ∧
      ∃ fuel', fuel = fuel' + 1 ∧
        blocksFrom read 0 body fuel' (sum + elements.sum) t = .ok r := by
  rw [blocksFrom_of_read count]
  cases fuel with
  | zero => simp [sumBlocks]
  | succ fuel =>
      rw [sumBlocks, if_neg nonzero, Outcome.bind_eq_ok]
      constructor
      · intro returns
        obtain ⟨⟨next, v⟩, hbody, hloop⟩ := returns
        obtain ⟨fits, header', elements', headerLength', length', finds', rfl⟩ :=
          (sums _ _ _ _).mp hbody
        obtain ⟨same, rfl⟩ := finds.unique finds' (by simp only [List.length_append]; omega)
        obtain ⟨-, rfl⟩ := List.append_inj same (by omega)
        exact ⟨fits, fuel, rfl, hloop⟩
      · intro returns
        obtain ⟨fits, fuel', same, hloop⟩ := returns
        obtain rfl := Nat.succ.inj same
        exact ⟨_, (sums _ _ _ (_, t)).mpr
          ⟨fits, header, elements, headerLength, length, finds, rfl⟩, hloop⟩

/-- **Along whole blocks** the loop makes one turn for each count and adds up the
elements. -/
theorem blocksFrom_append_eq_ok_iff (reads : f.ReadsItems read)
    (sums : f.SumsBlocks read body Fits) {bs : List α} {counts : List V}
    {elements : List (List α)} (blocks : f.Blocks bs counts elements) :
    blocksFrom read 0 body fuel sum (bs ++ s) = .ok r ↔ (∀ n ∈ counts, Fits n) ∧
      ∃ fuel', fuel = fuel' + counts.length ∧
        blocksFrom read 0 body fuel' (sum + f.total elements) s = .ok r := by
  induction blocks generalizing fuel sum with
  | nil => simp [total]
  | cons item nonzero headers items headerLength length blocks ih =>
      rename_i count rest header elements later counts
      have finds : ReadsTo read (header.flatten ++ (elements.flatten ++ (rest ++ s)))
          (header.map f.value ++ elements.map f.value) (rest ++ s) :=
        (reads.readsTo headers _).append (reads.readsTo items _)
      have sumLater : ∀ sum : V, sum + f.total (elements ++ later) =
          sum + (elements.map f.value).sum + f.total later := by
        intro sum
        rw [total, List.map_append, List.sum_append, ← add_assoc, total]
      have regroup : count ++ (header.flatten ++ (elements.flatten ++ rest)) ++ s =
          count ++ (header.flatten ++ (elements.flatten ++ (rest ++ s))) := by
        simp only [List.append_assoc]
      rw [regroup, blocksFrom_turn_eq_ok_iff sums (reads count _ item) nonzero
        (by rw [List.length_map, headerLength]) (by rw [List.length_map, length]) finds,
        List.forall_mem_cons, and_assoc, sumLater]
      apply and_congr_right
      intro _
      constructor
      · intro returns
        obtain ⟨fuel', rfl, goesOn⟩ := returns
        obtain ⟨fits, fuel', rfl, returns⟩ := ih.mp goesOn
        exact ⟨fits, fuel', by rw [List.length_cons, Nat.add_assoc], returns⟩
      · intro returns
        obtain ⟨fits, fuel', rfl, returns⟩ := returns
        exact ⟨fuel' + counts.length, by rw [List.length_cons, Nat.add_assoc],
          ih.mpr ⟨fits, fuel', rfl, returns⟩⟩

/-- **At a stop** the loop returns, with what follows left unread. -/
theorem blocksFrom_stop_eq_ok_iff (reads : f.ReadsItems read)
    (sums : f.SumsBlocks read body Fits) {bs zero rest : List α} {counts : List V}
    {elements : List (List α)} (blocks : f.Blocks bs counts elements) (item : f.IsItem zero)
    (value : f.value zero = 0) :
    blocksFrom read 0 body fuel sum (bs ++ (zero ++ rest)) = .ok r ↔
      (∀ n ∈ counts, Fits n) ∧ counts.length < fuel ∧ r = (sum + f.total elements, rest) := by
  have stop : read (zero ++ rest) = .ok (0, rest) := value ▸ reads zero rest item
  rw [blocksFrom_append_eq_ok_iff reads sums blocks]
  apply and_congr_right
  intro _
  constructor
  · intro returns
    obtain ⟨fuel', rfl, stops⟩ := returns
    obtain ⟨positive, same⟩ := (blocksFrom_zero_eq_ok_iff stop).mp stops
    exact ⟨by omega, same⟩
  · intro stops
    exact ⟨fuel - counts.length, by omega,
      (blocksFrom_zero_eq_ok_iff stop).mpr ⟨by omega, stops.2⟩⟩

theorem Stops.eq_of_ok (reads : f.ReadsItems read) (sums : f.SumsBlocks read body Fits)
    {elements : List (List α)} {rest : List α} (found : f.Stops s elements rest)
    (returns : blocksFrom read 0 body fuel sum s = .ok r) : r = (sum + f.total elements, rest) := by
  obtain ⟨bs, counts, zero, rfl, blocks, item, value⟩ := found
  exact ((blocksFrom_stop_eq_ok_iff reads sums blocks item value).mp returns).2.2

theorem Stops.ok (reads : f.ReadsItems read) (sums : f.SumsBlocks read body Fits)
    {elements : List (List α)} {rest : List α} (found : f.Stops s elements rest)
    (fits : ∀ n, f.CountAt s n → Fits n) (enough : s.length < fuel) :
    blocksFrom read 0 body fuel sum s = .ok (sum + f.total elements, rest) := by
  obtain ⟨bs, counts, zero, rfl, blocks, item, value⟩ := found
  have := blocks.length_counts_le
  rw [List.length_append] at enough
  exact (blocksFrom_stop_eq_ok_iff reads sums blocks item value).mpr
    ⟨fun n member => fits n (blocks.countAt member), by omega, rfl⟩

/-- Every count that a returning loop comes to suits its body, or is zero. -/
theorem CountAt.fits (reads : f.ReadsItems read) (sums : f.SumsBlocks read body Fits) {n : V}
    (found : f.CountAt s n) (nonzero : n ≠ 0)
    (returns : blocksFrom read 0 body fuel sum s = .ok r) : Fits n := by
  obtain ⟨bs, counts, elements, count, rest, rfl, blocks, item, rfl⟩ := found
  obtain ⟨-, fuel', -, goesOn⟩ := (blocksFrom_append_eq_ok_iff reads sums blocks).mp returns
  rw [blocksFrom_of_read (reads count _ item)] at goesOn
  cases fuel' with
  | zero => cases goesOn
  | succ fuel' =>
      rw [sumBlocks, if_neg nonzero] at goesOn
      obtain ⟨next, hbody, -⟩ := Outcome.bind_eq_ok.mp goesOn
      exact ((sums _ _ _ _).mp hbody).1

end Turns

/-! ## Strict readers -/

section Strict

variable [DecidableEq V] {fuel : Nat} {sum : V} {s : List α} {r : V × List α}
  (strict : ∀ cut, f.IsCut cut → ∀ r, read cut ≠ .ok r)

include strict

omit [AddMonoid V] [DecidableEq V] in
/-- A strict reader finds no more than the whole items. -/
theorem ReadsItems.length_le (reads : f.ReadsItems read) {items : List (List α)}
    {cut t : List α} {vs : List V} (areItems : f.Items items) (isCut : f.IsCut cut)
    (finds : ReadsTo read (items.flatten ++ cut) vs t) : vs.length ≤ items.length := by
  induction items generalizing vs with
  | nil =>
      cases vs with
      | nil => exact le_rfl
      | cons v vs =>
          obtain ⟨u, hread, -⟩ := finds
          exact (strict cut isCut _ hread).elim
  | cons item items ih =>
      cases vs with
      | nil => exact Nat.zero_le _
      | cons v vs =>
          obtain ⟨isItem, areItems⟩ := List.forall_mem_cons.mp areItems
          obtain ⟨u, hread, rest⟩ := finds
          rw [List.flatten_cons, List.append_assoc, reads item _ isItem] at hread
          cases hread
          exact Nat.succ_le_succ (ih areItems rest)

/-- **A strict loop accepts the grammar.**  It returns exactly if the input is whole blocks
of counts that suit it and then a zero count, with the fuel for them. -/
theorem blocksFrom_eq_ok_iff_of_strict (reads : f.ReadsItems read)
    (sums : f.SumsBlocks read body Fits) :
    blocksFrom read 0 body fuel sum s = .ok r ↔
      ∃ bs counts elements zero, s = bs ++ (zero ++ r.2) ∧ f.Blocks bs counts elements ∧
        f.IsItem zero ∧ f.value zero = 0 ∧ (∀ n ∈ counts, Fits n) ∧ counts.length < fuel ∧
        r.1 = sum + f.total elements := by
  constructor
  · intro returns
    cases f.ending s with
    | stops found =>
        obtain ⟨bs, counts, zero, rfl, blocks, item, value⟩ := found
        obtain ⟨fits, enough, rfl⟩ :=
          (blocksFrom_stop_eq_ok_iff reads sums blocks item value).mp returns
        exact ⟨bs, counts, _, zero, rfl, blocks, item, value, fits, enough, rfl⟩
    | cutCount found =>
        obtain ⟨bs, counts, rfl, blocks, isCut⟩ := found
        obtain ⟨-, fuel', -, cut⟩ := (blocksFrom_append_eq_ok_iff reads sums blocks).mp returns
        obtain ⟨count, hread, -⟩ := Outcome.bind_eq_ok.mp cut
        exact (strict _ isCut _ hread).elim
    | cutBlock found =>
        obtain ⟨bs, counts, count, rfl, blocks, item, value, nonzero, areItems, short, isCut⟩ :=
          found
        obtain ⟨-, fuel', -, cut⟩ := (blocksFrom_append_eq_ok_iff reads sums blocks).mp returns
        rw [blocksFrom_of_read (reads count _ item), value] at cut
        cases fuel' with
        | zero => cases cut
        | succ fuel' =>
            rw [sumBlocks, if_neg nonzero] at cut
            obtain ⟨⟨next, t⟩, hbody, -⟩ := Outcome.bind_eq_ok.mp cut
            obtain ⟨-, header, elements, headerLength, length, finds, -⟩ :=
              (sums _ _ _ _).mp hbody
            have := reads.length_le strict areItems isCut finds
            rw [List.length_append] at this
            omega
  · intro accepted
    obtain ⟨bs, counts, elements, zero, split, blocks, item, value, fits, enough, total⟩ :=
      accepted
    rw [split, blocksFrom_stop_eq_ok_iff reads sums blocks item value]
    exact ⟨fits, enough, Prod.ext total rfl⟩

/-- **A strict loop with fuel for its input** returns exactly at a stop, wherever that is, if
all counts suit the body. -/
theorem blocksFrom_eq_ok_iff_stops (reads : f.ReadsItems read)
    (sums : f.SumsBlocks read body fun _ => True) (enough : s.length < fuel) :
    blocksFrom read 0 body fuel 0 s = .ok r ↔
      ∃ elements, f.Stops s elements r.2 ∧ r.1 = f.total elements := by
  rw [blocksFrom_eq_ok_iff_of_strict strict reads sums]
  constructor
  · intro accepted
    obtain ⟨bs, counts, elements, zero, split, blocks, item, value, -, -, total⟩ := accepted
    exact ⟨elements, ⟨bs, counts, zero, split, blocks, item, value⟩, by rwa [zero_add] at total⟩
  · intro accepted
    obtain ⟨elements, ⟨bs, counts, zero, split, blocks, item, value⟩, total⟩ := accepted
    refine ⟨bs, counts, elements, zero, split, blocks, item, value, by simp, ?_, by
      rwa [zero_add]⟩
    have := blocks.length_counts_le
    rw [split, List.length_append] at enough
    omega

end Strict

/-! ## Lenient readers -/

variable (f) in
/-- What a block cut behind `items` adds to the sum: the elements among them, and the value
made of the cut if it stands where an element should. -/
def cutSum (tail : List α → V) (n : V) (items : List (List α)) (cut : List α) : V :=
  if f.headers n ≤ items.length then f.total (items.drop (f.headers n)) + tail cut else 0

section Lenient

variable {tail : List α → V}
  (lenient : ∀ cut, f.IsCut cut → read cut = .ok (tail cut, [])) (empty : tail [] = 0)

include lenient empty

/-- At the end of the input the reader finds as many zeros as it is asked for. -/
theorem readsTo_replicate (k : Nat) : ReadsTo read [] (List.replicate k 0) [] := by
  induction k with
  | zero => rfl
  | succ k ih => exact ⟨[], empty ▸ lenient [] f.isCut_nil, ih⟩

/-- Behind the items of a cut input it finds a value for the cut, and zeros. -/
theorem ReadsItems.readsTo_cut (reads : f.ReadsItems read) {items : List (List α)}
    {cut : List α} (areItems : f.Items items) (isCut : f.IsCut cut) (k : Nat) :
    ReadsTo read (items.flatten ++ cut) (items.map f.value ++ tail cut :: List.replicate k 0)
      [] :=
  (reads.readsTo areItems cut).append ⟨[], lenient cut isCut, readsTo_replicate lenient empty k⟩

end Lenient

/-- The elements among the values found in a cut block. -/
theorem sum_drop_eq_cutSum (tail : List α → V) (n : V) (items : List (List α)) (cut : List α)
    (k : Nat) :
    ((items.map f.value ++ tail cut :: List.replicate k 0).drop (f.headers n)).sum =
      f.cutSum tail n items cut := by
  unfold cutSum
  split
  · rename_i within
    rw [List.drop_append_of_le_length (by rwa [List.length_map]), List.sum_append,
      List.sum_cons, List.sum_replicate, nsmul_zero, add_zero, total, List.map_drop]
  · rename_i beyond
    obtain ⟨m, further⟩ : ∃ m, f.headers n = items.length + 1 + m :=
      ⟨f.headers n - (items.length + 1), by omega⟩
    have allZero : (items.map f.value ++ tail cut :: List.replicate k 0).drop (f.headers n) =
        List.replicate (k - m) 0 := by
      rw [List.append_cons, List.drop_append, further, List.length_append, List.length_map,
        List.length_singleton, Nat.add_sub_cancel_left, List.drop_replicate,
        List.drop_eq_nil_of_le, List.nil_append]
      simp only [List.length_append, List.length_map, List.length_singleton]
      omega
    rw [allZero, List.sum_replicate, nsmul_zero]

section LenientLoop

variable [DecidableEq V] {fuel : Nat} {sum : V} {r : V × List α} {tail : List α → V}
  (lenient : ∀ cut, f.IsCut cut → read cut = .ok (tail cut, [])) (empty : tail [] = 0)
  (reads : f.ReadsItems read) (sums : f.SumsBlocks read body Fits)
  {bs cut s : List α} {counts : List V} {elements : List (List α)}
  (blocks : f.Blocks bs counts elements) (isCut : f.IsCut cut)

include lenient empty reads sums blocks isCut

/-- **A cut count** is followed by a block of zeros, or by nothing. -/
theorem blocksFrom_cutCount_eq_ok_iff :
    blocksFrom read 0 body fuel sum (bs ++ cut) = .ok r ↔ (∀ n ∈ counts, Fits n) ∧
      (tail cut = 0 ∧ counts.length < fuel ∨
        tail cut ≠ 0 ∧ Fits (tail cut) ∧ counts.length + 1 < fuel) ∧
      r = (sum + f.total elements, []) := by
  have stop : read [] = .ok (0, []) := empty ▸ lenient [] f.isCut_nil
  rw [blocksFrom_append_eq_ok_iff reads sums blocks]
  apply and_congr_right
  intro _
  by_cases zero : tail cut = 0
  · have atZero : read cut = .ok (0, []) := zero ▸ lenient cut isCut
    simp only [blocksFrom_zero_eq_ok_iff atZero, zero, true_and, ne_eq, not_true_eq_false,
      false_and, or_false]
    constructor
    · intro returns
      obtain ⟨fuel', rfl, positive, same⟩ := returns
      exact ⟨by omega, same⟩
    · intro returns
      exact ⟨fuel - counts.length, by omega, by omega, returns.2⟩
  · have finds : ReadsTo read [] (List.replicate (f.headers (tail cut)) 0 ++
        List.replicate (f.turns (tail cut)) 0) [] :=
      (readsTo_replicate lenient empty _).append (readsTo_replicate lenient empty _)
    simp only [blocksFrom_turn_eq_ok_iff sums (lenient cut isCut) zero List.length_replicate
      List.length_replicate finds, blocksFrom_zero_eq_ok_iff stop, List.sum_replicate,
      nsmul_zero, add_zero, zero, false_and, false_or, ne_eq, not_false_eq_true, true_and]
    constructor
    · intro returns
      obtain ⟨fuel', rfl, fits, fuel'', rfl, positive, same⟩ := returns
      exact ⟨⟨fits, by omega⟩, same⟩
    · intro returns
      obtain ⟨⟨fits, enough⟩, same⟩ := returns
      exact ⟨fuel - counts.length, by omega, fits, fuel - counts.length - 1, by omega,
        by omega, same⟩

/-- **A cut block** is filled up with the value made of the cut and with zeros. -/
theorem blocksFrom_cutBlock_eq_ok_iff {count : List α} (item : f.IsItem count)
    (nonzero : f.value count ≠ 0) {items : List (List α)} (areItems : f.Items items)
    (short : items.length < f.headers (f.value count) + f.turns (f.value count)) :
    blocksFrom read 0 body fuel sum (bs ++ (count ++ (items.flatten ++ cut))) = .ok r ↔
      (∀ n ∈ counts, Fits n) ∧ Fits (f.value count) ∧ counts.length + 1 < fuel ∧
        r = (sum + f.total elements + f.cutSum tail (f.value count) items cut, []) := by
  have stop : read [] = .ok (0, []) := empty ▸ lenient [] f.isCut_nil
  let k := f.headers (f.value count) + f.turns (f.value count) - (items.length + 1)
  let values := items.map f.value ++ tail cut :: List.replicate k 0
  have size : values.length = f.headers (f.value count) + f.turns (f.value count) := by
    simp only [values, k, List.length_append, List.length_map, List.length_cons,
      List.length_replicate]
    omega
  have finds : ReadsTo read (items.flatten ++ cut) (values.take (f.headers (f.value count)) ++
      values.drop (f.headers (f.value count))) [] := by
    rw [List.take_append_drop]
    exact reads.readsTo_cut lenient empty areItems isCut k
  have added : (values.drop (f.headers (f.value count))).sum =
      f.cutSum tail (f.value count) items cut :=
    sum_drop_eq_cutSum tail _ items cut k
  rw [blocksFrom_append_eq_ok_iff reads sums blocks]
  apply and_congr_right
  intro _
  simp only [blocksFrom_turn_eq_ok_iff sums (reads count _ item) nonzero
    (by rw [List.length_take]; omega) (by rw [List.length_drop]; omega) finds,
    blocksFrom_zero_eq_ok_iff stop, added]
  constructor
  · intro returns
    obtain ⟨fuel', rfl, fits, fuel'', rfl, positive, same⟩ := returns
    exact ⟨fits, by omega, same⟩
  · intro returns
    obtain ⟨fits, enough, same⟩ := returns
    exact ⟨fuel - counts.length, by omega, fits, fuel - counts.length - 1, by omega, by omega,
      same⟩

omit blocks isCut

theorem CutCount.of_ok (found : f.CutCount s elements cut)
    (returns : blocksFrom read 0 body fuel sum s = .ok r) :
    (tail cut ≠ 0 → Fits (tail cut)) ∧ r = (sum + f.total elements, []) := by
  obtain ⟨bs, counts, rfl, blocks, isCut⟩ := found
  obtain ⟨-, fits, same⟩ :=
    (blocksFrom_cutCount_eq_ok_iff lenient empty reads sums blocks isCut).mp returns
  refine ⟨fun nonzero => ?_, same⟩
  rcases fits with ⟨zero, -⟩ | ⟨-, fits, -⟩
  · exact (nonzero zero).elim
  · exact fits

theorem CutCount.ok (found : f.CutCount s elements cut) (fits : ∀ n, f.CountAt s n → Fits n)
    (fitsCut : tail cut ≠ 0 → Fits (tail cut)) (enough : s.length + 1 < fuel) :
    blocksFrom read 0 body fuel sum s = .ok (sum + f.total elements, []) := by
  obtain ⟨bs, counts, rfl, blocks, isCut⟩ := found
  have := blocks.length_counts_le
  rw [List.length_append] at enough
  refine (blocksFrom_cutCount_eq_ok_iff lenient empty reads sums blocks isCut).mpr
    ⟨fun n member => fits n (blocks.countAt member), ?_, rfl⟩
  by_cases zero : tail cut = 0
  · exact .inl ⟨zero, by omega⟩
  · exact .inr ⟨zero, fitsCut zero, by omega⟩

variable {n : V} {items : List (List α)}

theorem CutBlock.eq_of_ok (found : f.CutBlock s elements n items cut)
    (returns : blocksFrom read 0 body fuel sum s = .ok r) :
    r = (sum + f.total elements + f.cutSum tail n items cut, []) := by
  obtain ⟨bs, counts, count, rfl, blocks, item, rfl, nonzero, areItems, short, isCut⟩ := found
  exact ((blocksFrom_cutBlock_eq_ok_iff lenient empty reads sums blocks isCut item nonzero areItems
    short).mp returns).2.2.2

theorem CutBlock.ok (found : f.CutBlock s elements n items cut)
    (fits : ∀ n, f.CountAt s n → Fits n) (enough : s.length < fuel) :
    blocksFrom read 0 body fuel sum s =
      .ok (sum + f.total elements + f.cutSum tail n items cut, []) := by
  obtain ⟨bs, counts, count, rfl, blocks, item, rfl, nonzero, areItems, short, isCut⟩ := found
  have := blocks.length_counts_le
  have := List.length_pos_of_ne_nil (f.ne_nil item)
  simp only [List.length_append] at enough
  exact (blocksFrom_cutBlock_eq_ok_iff lenient empty reads sums blocks isCut item nonzero areItems
    short).mpr ⟨fun n member => fits n (blocks.countAt member),
      fits _ ⟨bs, counts, elements, count, _, rfl, blocks, item, rfl⟩, by omega, rfl⟩

end LenientLoop

/-! ## Items of bounded size -/

/-- The format whose longer items count as cut. -/
def upTo (f : BlockFormat α V) (size : Nat) : BlockFormat α V where
  IsItem item := f.IsItem item ∧ item.length ≤ size
  IsCut s := f.IsCut s ∨ ∃ item rest, s = item ++ rest ∧ f.IsItem item ∧ size < item.length
  value := f.value
  headers := f.headers
  turns := f.turns
  ne_nil isItem := f.ne_nil isItem.1
  split s := by
    rcases f.split s with cut | ⟨item, rest, split, isItem⟩
    · exact .inl (.inl cut)
    · by_cases fits : item.length ≤ size
      · exact .inr ⟨item, rest, split, isItem, fits⟩
      · exact .inl (.inr ⟨item, rest, split, isItem, by omega⟩)

omit [AddMonoid V] in
theorem Items.upTo {items : List (List α)} (areItems : f.Items items) {size : Nat}
    (fits : items.flatten.length ≤ size) : (f.upTo size).Items items := fun item member =>
  ⟨areItems item member, (List.sublist_flatten_of_mem member).length_le.trans fits⟩

theorem Blocks.upTo {bs : List α} {counts : List V} {elements : List (List α)}
    (h : f.Blocks bs counts elements) {size : Nat} (fits : bs.length ≤ size) :
    (f.upTo size).Blocks bs counts elements := by
  induction h with
  | nil => exact .nil
  | cons item nonzero headers items headerLength length blocks ih =>
      simp only [List.length_append] at fits
      exact .cons ⟨item, by omega⟩ nonzero (headers.upTo (by omega)) (items.upTo (by omega))
        headerLength length (ih (by omega))

theorem Blocks.of_upTo {bs : List α} {counts : List V} {elements : List (List α)} {size : Nat}
    (h : (f.upTo size).Blocks bs counts elements) : f.Blocks bs counts elements := by
  induction h with
  | nil => exact .nil
  | cons item nonzero headers items headerLength length blocks ih =>
      exact .cons item.1 nonzero (fun i member => (headers i member).1)
        (fun i member => (items i member).1) headerLength length ih

/-! ## Formats that agree -/

section Agree

variable {W : Type} [AddMonoid W] {g : BlockFormat α W}

/-- The parts of a block stand in it. -/
theorem infix_block {count rest s : List α} {header elements : List (List α)}
    (inside : count ++ (header.flatten ++ (elements.flatten ++ rest)) <:+: s) :
    count <:+: s ∧ (∀ i ∈ header, i <:+: s) ∧ (∀ i ∈ elements, i <:+: s) ∧ rest <:+: s := by
  refine ⟨?_, fun i member => ?_, fun i member => ?_, ?_⟩
  · exact (List.prefix_append _ _).isInfix.trans inside
  · exact (List.infix_of_mem_flatten member).trans ((List.infix_append' _ _ _).trans inside)
  · rw [← List.append_assoc] at inside
    exact (List.infix_of_mem_flatten member).trans ((List.infix_append' _ _ _).trans inside)
  · have behind := ((List.suffix_append elements.flatten rest).trans
      (List.suffix_append header.flatten _)).trans (List.suffix_append count _)
    exact behind.isInfix.trans inside

/-- The elements of whole blocks are items that stand in them. -/
theorem Blocks.infix_of_mem {bs : List α} {counts : List V} {elements : List (List α)}
    (h : f.Blocks bs counts elements) {element : List α} (member : element ∈ elements) :
    element <:+: bs ∧ f.IsItem element := by
  induction h with
  | nil => cases member
  | cons _ _ _ items _ _ _ ih =>
      obtain ⟨-, -, elementsIn, restIn⟩ := infix_block List.infix_rfl
      rcases List.mem_append.mp member with inside | after
      · exact ⟨elementsIn element inside, items element inside⟩
      · exact ⟨(ih after).1.trans restIn, (ih after).2⟩

theorem Blocks.append {bs bs' : List α} {counts counts' : List V}
    {elements elements' : List (List α)}
    (h : f.Blocks bs counts elements) (h' : f.Blocks bs' counts' elements') :
    f.Blocks (bs ++ bs') (counts ++ counts') (elements ++ elements') := by
  induction h with
  | nil => exact h'
  | cons item nonzero headers items headerLength length _ ih =>
      have whole := Blocks.cons item nonzero headers items headerLength length ih
      simp only [List.append_assoc, List.cons_append] at whole ⊢
      exact whole

/-- In an input the formats have the same items, and what one is worth in the first is what it
is worth in the second, by `φ`. -/
structure Agrees (f : BlockFormat α V) (g : BlockFormat α W) (φ : V → W) (s : List α) : Prop where
  item : ∀ {item}, item <:+: s → (f.IsItem item ↔ g.IsItem item)
  value : ∀ {item}, item <:+: s → f.IsItem item → g.value item = φ (f.value item)
  zero : ∀ {item}, item <:+: s → f.IsItem item → (φ (f.value item) = 0 ↔ f.value item = 0)
  headers : ∀ {n}, f.CountAt s n → g.headers (φ n) = f.headers n
  turns : ∀ {n}, f.CountAt s n → g.turns (φ n) = f.turns n

/-- Whole blocks of the first format are whole blocks of the second. -/
theorem Agrees.blocks {φ : V → W} {s bs : List α} (agrees : Agrees f g φ s) (inside : bs <:+: s)
    {counts : List V} {elements : List (List α)} (h : f.Blocks bs counts elements)
    (come : ∀ n ∈ counts, f.CountAt s n) : g.Blocks bs (counts.map φ) elements := by
  induction h with
  | nil => exact .nil
  | @cons count rest header elements later counts item nonzero headers items headerLength length _
      ih =>
      rw [List.forall_mem_cons] at come
      obtain ⟨countIn, headerIn, elementsIn, restIn⟩ := infix_block inside
      have value := agrees.value countIn item
      rw [List.map_cons, ← value]
      refine .cons ((agrees.item countIn).mp item) ?_ (fun i member => ?_) (fun i member => ?_)
        ?_ ?_ (ih restIn come.2)
      · rw [value, ne_eq, agrees.zero countIn item]
        exact nonzero
      · exact (agrees.item (headerIn i member)).mp (headers i member)
      · exact (agrees.item (elementsIn i member)).mp (items i member)
      · rw [value, agrees.headers come.1, headerLength]
      · rw [value, agrees.turns come.1, length]

/-- The other way round, behind blocks of the first format. -/
theorem Agrees.blocks_of {φ : V → W} {s pre bs rest : List α} (agrees : Agrees f g φ s)
    {earlier : List V} {before elements : List (List α)} (first : f.Blocks pre earlier before)
    {counts : List W} (h : g.Blocks bs counts elements) (split : s = pre ++ (bs ++ rest)) :
    ∃ counts, f.Blocks bs counts elements := by
  induction h generalizing pre earlier before with
  | nil => exact ⟨[], .nil⟩
  | @cons count later header elements _ _ item nonzero headers items headerLength length _ ih =>
      have inside : count ++ (header.flatten ++ (elements.flatten ++ later)) <:+: s := by
        rw [split]
        exact List.infix_append' _ _ _
      obtain ⟨countIn, headerIn, elementsIn, -⟩ := infix_block inside
      have isItem := (agrees.item countIn).mpr item
      have value := agrees.value countIn isItem
      rw [value] at nonzero headerLength length
      have comes : f.CountAt s (f.value count) := by
        refine ⟨pre, earlier, before, count, header.flatten ++ (elements.flatten ++ later) ++ rest,
          ?_, first, isItem, rfl⟩
        rw [split, List.append_assoc count]
      rw [agrees.headers comes] at headerLength
      rw [agrees.turns comes] at length
      have block : ∀ {rest : List α} {counts : List V} {later : List (List α)},
          f.Blocks rest counts later →
          f.Blocks (count ++ (header.flatten ++ (elements.flatten ++ rest)))
            (f.value count :: counts) (elements ++ later) := by
        intro rest counts later blocks
        exact .cons isItem (fun zero => nonzero ((agrees.zero countIn isItem).mpr zero))
          (fun i member => (agrees.item (headerIn i member)).mpr (headers i member))
          (fun i member => (agrees.item (elementsIn i member)).mpr (items i member))
          headerLength length blocks
      obtain ⟨counts, blocks⟩ := ih (first.append (block .nil)) (by
        rw [split]
        simp only [List.append_assoc, List.append_nil])
      exact ⟨_, block blocks⟩

/-- **Translation.**  An input stops in the one format where it stops in the other. -/
theorem Agrees.stops_iff {φ : V → W} {s : List α} (agrees : Agrees f g φ s)
    {elements : List (List α)} {rest : List α} :
    f.Stops s elements rest ↔ g.Stops s elements rest := by
  constructor
  · intro found
    obtain ⟨bs, counts, zero, rfl, blocks, item, value⟩ := found
    have bsIn : bs <:+: bs ++ (zero ++ rest) := (List.prefix_append _ _).isInfix
    have zeroIn : zero <:+: bs ++ (zero ++ rest) := List.infix_append' _ _ _
    refine ⟨bs, _, zero, rfl, agrees.blocks bsIn blocks fun n => blocks.countAt,
      (agrees.item zeroIn).mp item, ?_⟩
    rw [agrees.value zeroIn item, (agrees.zero zeroIn item).mpr value]
  · intro found
    obtain ⟨bs, counts, zero, rfl, blocks, item, value⟩ := found
    have zeroIn : zero <:+: bs ++ (zero ++ rest) := List.infix_append' _ _ _
    have isItem := (agrees.item zeroIn).mpr item
    obtain ⟨counts, blocks⟩ := agrees.blocks_of .nil blocks rfl
    rw [agrees.value zeroIn isItem, agrees.zero zeroIn isItem] at value
    exact ⟨bs, counts, zero, rfl, blocks, isItem, value⟩

/-- The elements of an input that stops are items that stand in it. -/
theorem Stops.infix_of_mem {s rest : List α} {elements : List (List α)}
    (found : f.Stops s elements rest) {element : List α} (member : element ∈ elements) :
    element <:+: s ∧ f.IsItem element := by
  obtain ⟨bs, counts, zero, rfl, blocks, -, -⟩ := found
  obtain ⟨within, item⟩ := blocks.infix_of_mem member
  exact ⟨within.trans (List.prefix_append _ _).isInfix, item⟩

/-- By an additive `φ`, so is the total. -/
theorem Agrees.total {φ : V →+ W} {s rest : List α} (agrees : Agrees f g φ s)
    {elements : List (List α)} (found : f.Stops s elements rest) :
    g.total elements = φ (f.total elements) := by
  have values : elements.map g.value = (elements.map f.value).map φ := by
    rw [List.map_map]
    apply List.map_congr_left
    intro element member
    obtain ⟨within, item⟩ := found.infix_of_mem member
    exact agrees.value within item
  rw [BlockFormat.total, values, BlockFormat.total, map_list_sum]

end Agree

end BlockFormat

end KafkaTest
