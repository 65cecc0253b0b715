import KafkaTest.Codec

/-!
# The krafka codec, on every byte string

krafka's `read_varint` stops after ten bytes whether or not the tenth one continues.
`IsCapped` says which bytes make up one varint for it, and `Krafka.readVarint_eq_ok_iff`
and `Krafka.readVarint_eq_panic_iff` tell what it makes of any byte slice.

Two results compare it with `write_varint`: reading undoes writing for any sequence of
numbers (`krafka_read_write`), and writing undoes reading exactly on the shortest encodings
(`krafka_write_read`).
-/

namespace KafkaTest

/-! ## Capped varints -/

/-- What a reader takes for one varint that stops after `cap` bytes at the latest. -/
def IsCapped (cap : Nat) (bs : Bytes) : Prop :=
  (IsGroups bs ∧ bs.length ≤ cap) ∨ (bs.length = cap ∧ Continues bs)

theorem IsCapped.length_le {cap : Nat} {bs : Bytes} (h : IsCapped cap bs) : bs.length ≤ cap := by
  rcases h with ⟨-, short⟩ | ⟨full, -⟩
  · exact short
  · exact full.le

theorem IsCapped.length_pos {cap : Nat} {bs : Bytes} (h : IsCapped cap bs) (positive : 0 < cap) :
    0 < bs.length := by
  rcases h with ⟨groups, -⟩ | ⟨full, -⟩
  · exact groups.length_pos
  · omega

/-- Any slice starts with a capped varint, or all of it continues and is too short. -/
theorem exists_isCapped (cap : Nat) (s : Bytes) :
    (s.length < cap ∧ Continues s) ∨ ∃ bs rest, s = bs ++ rest ∧ IsCapped cap bs := by
  have full : ∀ t : Bytes, t <+: s → Continues t → cap ≤ t.length →
      ∃ bs rest, s = bs ++ rest ∧ IsCapped cap bs := by
    intro t front continues long
    obtain ⟨rest, rfl⟩ := front
    refine ⟨t.take cap, t.drop cap ++ rest, ?_, .inr ⟨?_, continues.take cap⟩⟩
    · rw [← List.append_assoc, List.take_append_drop]
    · rw [List.length_take]
      omega
  rcases continues_or_isGroups s with continues | ⟨init, last, rest, split, continues, ends⟩
  · by_cases short : s.length < cap
    · exact .inl ⟨short, continues⟩
    · exact .inr (full s List.prefix_rfl continues (by omega))
  · by_cases short : init.length < cap
    · refine .inr ⟨init ++ [last], rest, ?_, .inl ⟨?_, ?_⟩⟩
      · rw [split, List.append_assoc, List.singleton_append]
      · exact isGroups_append_singleton.mpr ⟨continues, ends⟩
      · rw [List.length_append, List.length_singleton]
        omega
    · exact .inr (full init ⟨last :: rest, split.symm⟩ continues (by omega))

/-! ## What `read_varint` reads -/

namespace Krafka

/-- Ten bytes that all continue are read up to the cap. -/
theorem readGroups_of_continues {bs : Bytes} (continues : Continues bs) (rest : Bytes)
    (val : Word) (shift : Nat) (nonempty : bs ≠ []) (full : shift + 7 * bs.length = 70) :
    readGroups krafkaRead (bs ++ rest) val shift =
      .ok (unzigzag (val ||| groupsWord bs <<< shift), rest) := by
  induction bs generalizing val shift with
  | nil => exact (nonempty rfl).elim
  | cons b bs ih =>
      rw [List.length_cons] at full
      obtain ⟨goesOn, continues⟩ := continues_cons.mp continues
      have bits : krafkaRead.shl ((b &&& 0x7F#8).setWidth 64) shift = groupBits b <<< shift :=
        krafkaRead.shl_eq _ _ (by omega)
      simp only [List.cons_append, readGroups, bits, if_neg goesOn]
      by_cases last : bs = []
      · subst last
        have stops : krafkaRead.stops (shift + 7) = true := by
          simp only [krafkaRead, decide_eq_true_eq]
          simp only [List.length_nil] at full
          omega
        rw [if_pos stops, List.nil_append, ← or_groups_shift, groupsWord]
        simp [unzigzag]
      · have more := List.length_pos_of_ne_nil last
        have go : krafkaRead.stops (shift + 7) = false := krafkaRead.stops_eq _ (by omega)
        rw [go, if_neg Bool.false_ne_true, ih continues _ _ last (by omega), or_groups_shift]

/-- Fewer than ten bytes that all continue run off the end. -/
theorem readGroups_eq_panic {s : Bytes} (continues : Continues s) (val : Word) (shift : Nat)
    (short : shift + 7 * s.length ≤ 63) : readGroups krafkaRead s val shift = .panic := by
  induction s generalizing val shift with
  | nil => rfl
  | cons b s ih =>
      rw [List.length_cons] at short
      obtain ⟨goesOn, continues⟩ := continues_cons.mp continues
      have go : krafkaRead.stops (shift + 7) = false := krafkaRead.stops_eq _ (by omega)
      rw [readGroups, if_neg goesOn, go, if_neg Bool.false_ne_true]
      exact ih continues _ _ (by omega)

theorem readVarint_of_isCapped {bs : Bytes} (capped : IsCapped 10 bs) (rest : Bytes) :
    readVarint (bs ++ rest) = .ok (varintValue bs, rest) := by
  rcases capped with ⟨groups, short⟩ | ⟨full, continues⟩
  · exact readGroups_of_isGroups groups short rest
  · have nonempty : bs ≠ [] := by
      intro empty
      rw [empty, List.length_nil] at full
      omega
    rw [readVarint, readGroups_of_continues continues rest _ _ nonempty (by omega),
      BitVec.zero_or, BitVec.shiftLeft_zero, varintValue]

theorem readVarint_eq_panic {s : Bytes} (short : s.length < 10) (continues : Continues s) :
    readVarint s = .panic :=
  readGroups_eq_panic continues _ _ (by omega)

theorem readVarint_eq_ok_iff {s rest : Bytes} {v : Word} :
    readVarint s = .ok (v, rest) ↔ ∃ bs, s = bs ++ rest ∧ IsCapped 10 bs ∧ v = varintValue bs := by
  constructor
  · intro read
    rcases exists_isCapped 10 s with ⟨short, continues⟩ | ⟨bs, rest', rfl, capped⟩
    · rw [readVarint_eq_panic short continues] at read
      cases read
    · rw [readVarint_of_isCapped capped] at read
      cases read
      exact ⟨bs, rfl, capped, rfl⟩
  · intro found
    rcases found with ⟨bs, rfl, capped, rfl⟩
    exact readVarint_of_isCapped capped rest

theorem readVarint_eq_panic_iff {s : Bytes} :
    readVarint s = .panic ↔ s.length < 10 ∧ Continues s := by
  constructor
  · intro panics
    rcases exists_isCapped 10 s with short | ⟨bs, rest, rfl, capped⟩
    · exact short
    · rw [readVarint_of_isCapped capped] at panics
      cases panics
  · intro cut
    exact readVarint_eq_panic cut.1 cut.2

/-- What `write_varint` makes of the number read. -/
theorem writeVarint_varintValue (bs : Bytes) :
    writeVarint [] (varintValue bs) = encodeGroups (groupsWord bs) := by
  rw [writeVarint_eq, List.nil_append, canonical, varintValue, zigzag_unzigzag]

/-- No bytes that are read as a number are fewer than those written for it. -/
theorem length_writeVarint_le {bs : Bytes} (capped : IsCapped 10 bs) :
    (writeVarint [] (varintValue bs)).length ≤ bs.length := by
  rw [writeVarint_varintValue]
  exact length_encodeGroups_groupsWord_le
    (List.ne_nil_of_length_pos (capped.length_pos (by omega)))

end Krafka

/-- `write_varint` in `producer.rs` of `stream-test-krafka`. -/
def KrafkaProducer.writeVarint (buf : Bytes) (n : Word) : Bytes :=
  writeGroups unsignedWord buf (n <<< 1 ^^^ n.sshiftRight 63)

/-- `read_varint` in `consumer.rs` of `stream-test-krafka`. -/
def KrafkaConsumer.readVarint (reader : Bytes) : Outcome (Word × Bytes) :=
  readGroups krafkaRead reader 0#64 0

/-! ## Reading undoes writing -/

theorem Krafka.foldl_writeVarint (ns : List Word) (buf : Bytes) :
    ns.foldl Krafka.writeVarint buf = buf ++ ns.flatMap (Krafka.writeVarint []) := by
  apply foldl_of_appends
  intro buf n
  rw [Krafka.writeVarint_eq buf, Krafka.writeVarint_eq [], List.nil_append]

theorem Krafka.readVarint_writeVarint (n : Word) (rest : Bytes) :
    Krafka.readVarint (Krafka.writeVarint [] n ++ rest) = .ok (n, rest) := by
  rw [Krafka.writeVarint_eq, List.nil_append]
  exact readGroups_canonical krafkaRead n rest

theorem Krafka.readsTo_writeVarint (ns : List Word) (rest : Bytes) :
    ReadsTo Krafka.readVarint (ns.flatMap (Krafka.writeVarint []) ++ rest) ns rest := by
  have finds : ReadsTo Krafka.readVarint (ns.flatMap (Krafka.writeVarint []) ++ rest)
      (ns.map id) rest := readsTo_flatMap Krafka.readVarint_writeVarint ns rest
  rwa [List.map_id] at finds

/-- The shortest bytes that are read as a number are those written for it. -/
theorem Krafka.length_writeVarint_le_of_readVarint {bs : Bytes} {n : Word}
    (read : Krafka.readVarint bs = .ok (n, [])) :
    (Krafka.writeVarint [] n).length ≤ bs.length := by
  obtain ⟨bs', rfl, capped, rfl⟩ := Krafka.readVarint_eq_ok_iff.mp read
  rw [List.append_nil]
  exact Krafka.length_writeVarint_le capped

/-- **Decode undoes encode.**  With the writer of the processor or of the producer, and
the reader of the processor or of the consumer, any sequence of numbers is read back from
its encodings, whatever follows; an encoding takes one to ten bytes, and no fewer bytes
are read as the same number. -/
theorem krafka_read_write : ∀ write ∈ [Krafka.writeVarint, KrafkaProducer.writeVarint],
    ∀ read ∈ [Krafka.readVarint, KrafkaConsumer.readVarint],
      (∀ (ns : List Word) (rest : Bytes),
        ns.foldl write [] = ns.flatMap (write []) ∧
          ReadsTo read (ns.flatMap (write []) ++ rest) ns rest) ∧
      ∀ n : Word, 1 ≤ (write [] n).length ∧ (write [] n).length ≤ 10 ∧
        ∀ bs, read bs = .ok (n, []) → (write [] n).length ≤ bs.length := by
  have sameWriter : KrafkaProducer.writeVarint = Krafka.writeVarint := rfl
  have sameReader : KrafkaConsumer.readVarint = Krafka.readVarint := rfl
  intro write hwrite read hread
  have writer : write = Krafka.writeVarint := by simpa [sameWriter] using hwrite
  have reader : read = Krafka.readVarint := by simpa [sameReader] using hread
  subst writer reader
  refine ⟨fun ns rest => ⟨?_, Krafka.readsTo_writeVarint ns rest⟩, fun n => ⟨?_, ?_, fun bs => ?_⟩⟩
  · rw [Krafka.foldl_writeVarint, List.nil_append]
  · rw [Krafka.writeVarint_eq, List.nil_append]
    exact (isGroups_encodeGroups _).length_pos
  · rw [Krafka.writeVarint_eq, List.nil_append]
    exact length_encodeGroups_le _
  · exact Krafka.length_writeVarint_le_of_readVarint

/-- The processor's numbers as the consumer reads them. -/
theorem krafka_read_write_three :
    ReadsTo KrafkaConsumer.readVarint
      ([3#64, -1#64, 300#64].flatMap (KrafkaProducer.writeVarint []) ++ [0x80#8])
      [3#64, -1#64, 300#64] [0x80#8] :=
  ((krafka_read_write KrafkaProducer.writeVarint (by simp) KrafkaConsumer.readVarint (by simp)).1
    [3#64, -1#64, 300#64] [0x80#8]).2

/-! ## Writing undoes reading -/

/-- Within nine bytes nothing is lost, so the shortest encodings are those without a zero
to leave out. -/
theorem encodeGroups_groupsWord_iff {bs : Bytes} (groups : IsGroups bs) (short : bs.length ≤ 9) :
    encodeGroups (groupsWord bs) = bs ↔ bs.length = 1 ∨ bs.getLast? ≠ some 0#8 := by
  have fits : groupsNat bs < 2 ^ 64 :=
    (groupsNat_lt bs).trans ((Nat.pow_le_pow_right (by omega) short).trans_lt (by omega))
  rw [encodeGroups_eq_iff groups, toNat_groupsWord, Nat.mod_eq_of_lt fits]
  simp

/-- The tenth byte carries the last bit of the word. -/
theorem encodeGroups_groupsWord_iff_ten {init : Bytes} {last : Byte}
    (continues : Continues init) (nine : init.length = 9) :
    encodeGroups (groupsWord (init ++ [last])) = init ++ [last] ↔ last = 1#8 := by
  have low := groupsNat_lt init
  have number := groupsNat_append_singleton init last
  rw [nine] at low number
  constructor
  · intro same
    have groups : IsGroups (init ++ [last]) := same ▸ isGroups_encodeGroups _
    obtain ⟨-, ends⟩ := isGroups_append_singleton.mp groups
    obtain ⟨spelled, shortest⟩ := (encodeGroups_eq_iff groups _).mp same
    have fits : groupsNat (init ++ [last]) < 2 ^ 64 := spelled ▸ (groupsWord _).isLt
    have nonzero : last ≠ 0#8 := by
      simpa [nine] using shortest
    have positive : last.toNat ≠ 0 := fun zero => nonzero (BitVec.eq_of_toNat_eq zero)
    apply BitVec.eq_of_toNat_eq
    rw [BitVec.toNat_ofNat]
    omega
  · intro one
    subst one
    have groups : IsGroups (init ++ [1#8]) :=
      isGroups_append_singleton.mpr ⟨continues, by decide⟩
    rw [BitVec.toNat_ofNat] at number
    rw [encodeGroups_eq_iff groups, toNat_groupsWord, Nat.mod_eq_of_lt (by omega)]
    simp

theorem IsCapped.encodeGroups_iff {bs : Bytes} (capped : IsCapped 10 bs) :
    encodeGroups (groupsWord bs) = bs ↔ bs.length = 1 ∨
      (2 ≤ bs.length ∧ bs.length ≤ 9 ∧ bs.getLast? ≠ some 0#8) ∨
      (bs.length = 10 ∧ bs.getLast? = some 1#8) := by
  by_cases short : bs.length ≤ 9
  · have groups : IsGroups bs := by
      rcases capped with ⟨groups, -⟩ | ⟨full, -⟩
      · exact groups
      · omega
    have positive := groups.length_pos
    rw [encodeGroups_groupsWord_iff groups short]
    constructor
    · intro shortest
      rcases shortest with one | nonzero
      · exact .inl one
      · by_cases one : bs.length = 1
        · exact .inl one
        · exact .inr (.inl ⟨by omega, short, nonzero⟩)
    · intro shortest
      rcases shortest with one | ⟨-, -, nonzero⟩ | ⟨ten, -⟩
      · exact .inl one
      · exact .inr nonzero
      · omega
  · have ten : bs.length = 10 := by
      have := capped.length_le
      omega
    obtain ⟨init, last, rfl⟩ := List.eq_nil_or_concat' bs |>.resolve_left
      (List.ne_nil_of_length_pos (by omega))
    rw [List.length_append, List.length_singleton] at ten
    have continues : Continues init := by
      rcases capped with ⟨groups, -⟩ | ⟨-, continues⟩
      · exact (isGroups_append_singleton.mp groups).1
      · exact fun b member => continues b (List.mem_append_left _ member)
    have nine : init.length = 9 := by omega
    rw [encodeGroups_groupsWord_iff_ten continues nine, List.getLast?_concat, List.length_append,
      List.length_singleton, nine]
    simp

/-- **Encode undoes decode on the shortest encodings.**  A slice makes `read_varint` panic
exactly if it has fewer than ten bytes, which all continue.  Otherwise one to ten bytes
are consumed, and writing the number read gives them back exactly if there is one of them,
or two to nine of which the last is not zero, or ten of which the last is one; if it does
not, it gives no more bytes than were consumed. -/
theorem krafka_write_read (s : Bytes) :
    (Krafka.readVarint s = .panic ↔ s.length < 10 ∧ Continues s) ∧
      (Krafka.readVarint s ≠ .panic → ∃ bs rest v, s = bs ++ rest ∧
        Krafka.readVarint s = .ok (v, rest) ∧ 1 ≤ bs.length ∧ bs.length ≤ 10 ∧
        (Krafka.writeVarint [] v = bs ↔ bs.length = 1 ∨
          (2 ≤ bs.length ∧ bs.length ≤ 9 ∧ bs.getLast? ≠ some 0#8) ∨
          (bs.length = 10 ∧ bs.getLast? = some 1#8)) ∧
        (Krafka.writeVarint [] v).length ≤ bs.length) := by
  refine ⟨Krafka.readVarint_eq_panic_iff, fun returns => ?_⟩
  rcases exists_isCapped 10 s with ⟨short, continues⟩ | ⟨bs, rest, rfl, capped⟩
  · exact (returns (Krafka.readVarint_eq_panic short continues)).elim
  · refine ⟨bs, rest, varintValue bs, rfl, Krafka.readVarint_of_isCapped capped rest,
      capped.length_pos (by omega), capped.length_le, ?_, Krafka.length_writeVarint_le capped⟩
    rw [Krafka.writeVarint_varintValue]
    exact capped.encodeGroups_iff

/-- Ten bytes that all continue, with an eleventh behind them. -/
theorem krafka_write_read_ten :
    ∃ bs rest v, List.replicate 10 0x82#8 ++ [0x05#8] = bs ++ rest ∧
      Krafka.readVarint (List.replicate 10 0x82#8 ++ [0x05#8]) = .ok (v, rest) ∧
      bs.length ≤ 10 ∧ (Krafka.writeVarint [] v).length ≤ bs.length := by
  obtain ⟨bs, rest, v, split, read, -, short, -, shorter⟩ :=
    (krafka_write_read (List.replicate 10 0x82#8 ++ [0x05#8])).2 (by decide)
  exact ⟨bs, rest, v, split, read, short, shorter⟩

end KafkaTest
