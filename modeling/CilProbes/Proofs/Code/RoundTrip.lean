import CilProbes.Proofs.Code.Reading
import CilProbes.Proofs.Code.Layout
import CilProbes.Proofs.Code.Offsets

/-!
# Reading back code

Written code is read as the stream with its instructions in program order, each at its offset and every handle replaced
by a place (`written`, `decode_encode`). Short branches that had to be widened are long in it.
-/

namespace CilProbes

namespace Layout

variable {l : Layout} {start : Nat} {es : List (InstrId × Instruction)} {bytes : List UInt8}

/-- Bytes of instructions, each written where those in front of it end. -/
inductive Pieces (l : Layout) : Nat → List (InstrId × Instruction) → List UInt8 → Prop
  | nil (start : Nat) : Pieces l start [] []
  | cons {start : Nat} {e : InstrId × Instruction} {es : List (InstrId × Instruction)} {out more : List UInt8} :
    l.instruction start e.2 = .ok out → Pieces l (start + e.2.size) es more → Pieces l start (e :: es) (out ++ more)

theorem codeOnto_ok {done code : Array UInt8} (hfit : ∀ e ∈ es, e.2.operand.fits e.2.kind = true)
    (h : l.codeOnto es done = .ok code) : ∃ bytes, code.toList = done.toList ++ bytes ∧ Pieces l done.size es bytes := by
  induction es generalizing done with
  | nil =>
    cases h
    exact ⟨[], (List.append_nil _).symm, .nil _⟩
  | cons e es ih =>
    rw [codeOnto] at h
    cases hout : l.instruction done.size e.2 with
    | error fault => rw [hout] at h; cases h
    | ok out =>
      rw [hout] at h
      obtain ⟨more, hcode, hmore⟩ := ih (fun e he => hfit e (List.mem_cons_of_mem _ he)) h
      have hlen := length_instruction (hfit e List.mem_cons_self) hout
      refine ⟨out ++ more, ?_, .cons hout ?_⟩
      · rw [hcode, Array.toList_appendList, List.append_assoc]
      · rwa [← Array.length_toList, Array.toList_appendList, List.length_append, Array.length_toList, hlen] at hmore

theorem Pieces.length_eq (h : Pieces l start es bytes) (hfit : ∀ e ∈ es, e.2.operand.fits e.2.kind = true) :
    bytes.length = (es.map fun e => e.2.size).sum := by
  induction h with
  | nil => rfl
  | cons hout _ ih =>
    rw [List.length_append, length_instruction (hfit _ List.mem_cons_self) hout,
      ih fun e he => hfit e (List.mem_cons_of_mem _ he), List.map_cons, List.sum_cons]

theorem Pieces.length_le (h : Pieces l start es bytes) (hfit : ∀ e ∈ es, e.2.operand.fits e.2.kind = true) :
    es.length ≤ bytes.length := by
  rw [h.length_eq hfit]
  clear h hfit
  induction es with
  | nil => exact Nat.le_refl 0
  | cons e es ih =>
    have := size_pos e.2
    rw [List.length_cons, List.map_cons, List.sum_cons]
    omega

/-- Every target of a written instruction is placed. -/
theorem Pieces.placed (h : Pieces l start es bytes) (hfit : ∀ e ∈ es, e.2.operand.fits e.2.kind = true) :
    ∀ e ∈ es, ∀ t ∈ e.2.targets, (l.starts.get? t).isSome := by
  induction h with
  | nil => exact fun _ he => absurd he List.not_mem_nil
  | cons hout _ ih =>
    exact List.forall_mem_cons.mpr ⟨placed_of_instruction (hfit _ List.mem_cons_self) hout,
      ih fun e he => hfit e (List.mem_cons_of_mem _ he)⟩

/-- Written instructions are read one after another, each at its offset. -/
theorem Pieces.read (h : Pieces l start es bytes) (hfit : ∀ e ∈ es, e.2.operand.fits e.2.kind = true)
    (hl : ∀ id n, l.starts.get? id = some n → n < wordLimit)
    (hstart : ∀ k < es.length, start + ((es.take k).map fun e => e.2.size).sum < wordLimit) {fuel : Nat}
    (hfuel : es.length ≤ fuel) (done : Array DecodedInstruction) {c : Cursor} (hpos : c.pos = start)
    (hrest : c.rest = bytes) :
    ∃ c', Reader.instructionsOnto fuel done c =
      .ok (done ++ es.mapIdx fun k e => l.decoded (start + ((es.take k).map fun e => e.2.size).sum) e.2) c' := by
  induction h generalizing fuel done c with
  | nil start =>
    refine ⟨c, ?_⟩
    cases fuel with
    | zero => simp [Reader.instructionsOnto]
    | succ fuel => simp [Reader.instructionsOnto, hrest]
  | @cons start e es out more hout hmore ih =>
    obtain ⟨fuel, rfl⟩ := Nat.exists_eq_add_one_of_ne_zero (Nat.ne_of_gt (Nat.lt_of_lt_of_le (Nat.succ_pos _) hfuel))
    have hlen := length_instruction (hfit e List.mem_cons_self) hout
    have hread := readsAt_instruction (hfit e List.mem_cons_self) hout (hstart 0 (Nat.succ_pos _)) hl
    obtain ⟨c₁, hc₁, hpos₁, hrest₁⟩ := hread c more hpos hrest
    have hmoved : ¬ c.rest.isEmpty = true := by
      have := size_pos e.2
      rw [hrest, List.isEmpty_iff_length_eq_zero, List.length_append]
      omega
    obtain ⟨c₂, hc₂⟩ := ih (fun e he => hfit e (List.mem_cons_of_mem _ he)) (fun k hk => by
      have := hstart (k + 1) (Nat.succ_lt_succ hk)
      rwa [List.take_succ_cons, List.map_cons, List.sum_cons, ← Nat.add_assoc] at this)
      (Nat.le_of_succ_le_succ hfuel) (done.push (l.decoded start e.2)) (hpos₁.trans (by rw [hlen])) hrest₁
    refine ⟨c₂, ?_⟩
    simp only [Reader.instructionsOnto, if_neg hmoved, hc₁, hc₂]
    simp [List.mapIdx_cons, Nat.add_assoc]

end Layout

namespace InstructionStream

variable {s t : InstructionStream} {e : EncodedCode}

/-- The layout of a stream as it stands. -/
def layout (s : InstructionStream) : Layout :=
  Layout.ofEntries s.arena.size s.entries

/-- Written code of a stream, with every instruction at its offset. -/
structure EncodedAs (t : InstructionStream) (e : EncodedCode) : Prop where
  starts : e.starts = t.layout.starts
  startAt_lt : ∀ k < t.ids.length, t.startAt k < wordLimit
  pieces : t.layout.Pieces 0 t.entries e.code

theorem encode_ok (hs : s.WellFormed) (h : s.encode = .ok e t) : Widened s t ∧ EncodedAs t e := by
  unfold encode at h
  cases hsettle : s.settle with
  | error fault s' => rw [hsettle] at h; cases h
  | ok l s' =>
    rw [hsettle] at h
    obtain ⟨hw, rfl, hlast⟩ := settle_ok hsettle
    have ht := hw.wellFormed hs
    dsimp only at h
    cases hcode : Layout.codeOnto _ s'.entries #[] with
    | error fault => rw [hcode] at h; cases h
    | ok code =>
      rw [hcode] at h
      cases h
      obtain ⟨bytes, hbytes, hpieces⟩ := Layout.codeOnto_ok ht.fits_entries hcode
      refine ⟨hw, rfl, fun k hk => Nat.lt_of_le_of_lt (ht.startAt_le_last hk) hlast, ?_⟩
      rw [hbytes]
      exact hpieces

/-! ## Offsets -/

theorem startAt_succ {k : Nat} {i : Instruction} (h : s.program[k]? = some i) :
    s.startAt (k + 1) = s.startAt k + i.size := by
  unfold startAt
  rw [List.take_add_one, h, List.map_append, List.sum_append]
  simp

theorem startAt_lt_startAt {j k : Nat} (hjk : j < k) (hk : k ≤ s.program.length) : s.startAt j < s.startAt k := by
  induction k with
  | zero => exact absurd hjk (Nat.not_lt_zero j)
  | succ k ih =>
    have hi : s.program[k]? = some s.program[k] := List.getElem?_eq_getElem (Nat.lt_of_succ_le hk)
    have hsize := Layout.size_pos s.program[k]
    rw [startAt_succ hi]
    rcases Nat.lt_succ_iff_lt_or_eq.mp hjk with h | rfl
    · have := ih h (Nat.le_of_succ_le hk)
      omega
    · omega

theorem EncodedAs.ofNat_startAt_inj (h : EncodedAs t e) (ht : t.WellFormed) {j k : Nat} (hj : j < t.ids.length)
    (hk : k < t.ids.length) (heq : UInt32.ofNat (t.startAt j) = UInt32.ofNat (t.startAt k)) : j = k := by
  have hnat : t.startAt j = t.startAt k := by
    rw [← toNat_word (h.startAt_lt j hj), heq, toNat_word (h.startAt_lt k hk)]
  rw [← ht.length_program] at hj hk
  rcases Nat.lt_trichotomy j k with hlt | rfl | hlt
  · exact absurd hnat (Nat.ne_of_lt (startAt_lt_startAt hlt (Nat.le_of_lt hk)))
  · rfl
  · exact absurd hnat.symm (Nat.ne_of_lt (startAt_lt_startAt hlt (Nat.le_of_lt hj)))

/-- Instructions that are at the offsets of written code are found there. -/
theorem EncodedAs.offsetTable_ofArray (h : EncodedAs t e) (ht : t.WellFormed) {is : Array Instruction}
    (hsize : is.size = t.ids.length) (ho : ∀ k i, is[k]? = some i → i.offset = some (UInt32.ofNat (t.startAt k)))
    {k : Nat} (hk : k < t.ids.length) :
    (ofArray is).offsetTable[UInt32.ofNat (t.startAt k)]? = some ⟨k⟩ := by
  have hget {e : InstrId × Instruction} (he : e ∈ (ofArray is).entries) :
      e.1.index < t.ids.length ∧ e.2.offset = some (UInt32.ofNat (t.startAt e.1.index)) := by
    obtain ⟨_, hi⟩ := mem_entries.mp he
    exact ⟨hsize ▸ (get?_eq_some.mp hi).1, ho _ _ hi⟩
  have hdistinct : (ofArray is).DistinctOffsets := fun e he e' he' offset hoffset hoffset' => by
    obtain ⟨hlt, hat⟩ := hget he
    obtain ⟨hlt', hat'⟩ := hget he'
    refine congrArg InstrId.mk (h.ofNat_startAt_inj ht hlt hlt' (Option.some_inj.mp ?_))
    rw [← hat, ← hat', hoffset, hoffset']
  have hi : is[k]? = some is[k] := Array.getElem?_eq_getElem (hsize ▸ hk)
  refine offsetTable_complete (e := (⟨k⟩, is[k])) hdistinct (mem_entries.mpr ⟨?_, hi⟩) (ho k _ hi)
  rw [ids_ofArray]
  exact List.mem_map.mpr ⟨k, List.mem_range.mpr (hsize ▸ hk), rfl⟩

theorem EncodedAs.starts_eq_some (h : EncodedAs t e) (ht : t.WellFormed) {id : InstrId} {start : Nat} :
    e.starts.get? id = some start ↔ id ∈ t.ids ∧ start = t.startAt (t.ids.idxOf id) := by
  rw [h.starts]
  exact ht.starts_eq_some

theorem EncodedAs.length_code (h : EncodedAs t e) (ht : t.WellFormed) : e.code.length = t.startAt t.ids.length := by
  rw [h.pieces.length_eq ht.fits_entries, startAt_eq, List.take_of_length_le]
  rw [← ht.map_fst_entries, List.length_map]

theorem EncodedAs.start_lt_length (h : EncodedAs t e) (ht : t.WellFormed) {id : InstrId} {start : Nat}
    (hstart : e.starts.get? id = some start) : start < e.code.length := by
  obtain ⟨hid, rfl⟩ := (h.starts_eq_some ht).mp hstart
  rw [h.length_code ht]
  exact startAt_lt_startAt (List.idxOf_lt_length_iff.mpr hid) (Nat.le_of_eq ht.length_program.symm)

/-- An instruction of written code is found at its offset. -/
theorem EncodedAs.lookup_start (h : EncodedAs t e) (ht : t.WellFormed) {is : Array Instruction}
    (hsize : is.size = t.ids.length) (ho : ∀ k i, is[k]? = some i → i.offset = some (UInt32.ofNat (t.startAt k)))
    {id : InstrId} {start : Nat} (hstart : e.starts.get? id = some start) :
    start < wordLimit ∧ (ofArray is).offsetTable[UInt32.ofNat start]? = some (t.place id) := by
  obtain ⟨hid, rfl⟩ := (h.starts_eq_some ht).mp hstart
  have hlt := List.idxOf_lt_length_iff.mpr hid
  exact ⟨h.startAt_lt _ hlt, h.offsetTable_ofArray ht hsize ho hlt⟩

/-! ## Decoding -/

/-- The instruction that is resolved from one as read. -/
theorem resolve_decoded {table : OffsetTable} {l : Layout} {i : Instruction} {start : Nat} {f : InstrId → InstrId}
    (h : ∀ t ∈ i.targets, table[UInt32.ofNat ((l.starts.get? t).getD 0)]? = some (f t)) :
    resolve table (l.decoded start i) =
      .ok { i with operand := i.operand.mapTargets f, offset := some (UInt32.ofNat start) } := by
  have hlookup : lookupAll table (l.decoded start i).targets = .ok (i.targets.map f) := by
    refine mapM_of_forall₂ (List.forall₂_map_left_iff.mpr (List.forall₂_map_right_iff.mpr ?_))
    refine List.forall₂_same.mpr fun t ht => ?_
    rw [h t ht]
  obtain ⟨opcode, operand, offset⟩ := i
  cases operand with
  | target t =>
    show (lookupAll table _ >>= _) = _
    rw [hlookup]
    rfl
  | switch ts =>
    show (lookupAll table _ >>= _) = _
    rw [hlookup]
    rfl
  | none | immediate | token => rfl

/-- The instructions that are read from written code, before their targets are looked up. -/
theorem EncodedAs.run_instructions (h : EncodedAs t e) (ht : t.WellFormed) :
    Reader.run Reader.instructions e.code =
      .ok (t.program.mapIdx fun k i => t.layout.decoded (t.startAt k) i).toArray := by
  have hfit := ht.fits_entries
  have hlength : t.entries.length = t.ids.length := by rw [← ht.map_fst_entries, List.length_map]
  have hplaced : ∀ id n, t.layout.starts.get? id = some n → n < wordLimit := fun id n hn => by
    obtain ⟨hid, rfl⟩ := ht.starts_eq_some.mp hn
    exact h.startAt_lt _ (List.idxOf_lt_length_iff.mpr hid)
  have hstart : ∀ k < t.entries.length, 0 + ((t.entries.take k).map fun e => e.2.size).sum < wordLimit := fun k hk => by
    rw [Nat.zero_add, ← startAt_eq]
    exact h.startAt_lt k (hlength ▸ hk)
  obtain ⟨c, hc⟩ := h.pieces.read hfit hplaced hstart (h.pieces.length_le hfit) #[] (c := Cursor.start e.code) rfl rfl
  unfold Reader.run Reader.instructions
  rw [show (Cursor.start e.code).remaining = e.code.length from rfl, hc]
  refine congrArg Except.ok (Array.toList_inj.mp (List.ext_getElem? fun k => ?_))
  simp [program, startAt_eq, Function.comp_def]

theorem written_getElem? (t : InstructionStream) (k : Nat) :
    t.written.arena[k]? = t.program[k]?.map fun i =>
      { i with operand := i.operand.mapTargets t.place, offset := some (UInt32.ofNat (t.startAt k)) } := by
  unfold written ofArray
  rw [List.getElem?_toArray, List.getElem?_mapIdx]

theorem size_written (ht : t.WellFormed) : t.written.arena.size = t.ids.length := by
  unfold written ofArray
  rw [List.size_toArray, List.length_mapIdx, ht.length_program]

/-- The targets of what was read are looked up as places. -/
theorem EncodedAs.mapM_resolve (h : EncodedAs t e) (ht : t.WellFormed) {table : OffsetTable}
    (htable : ∀ id, (t.layout.starts.get? id).isSome →
      table[UInt32.ofNat ((t.layout.starts.get? id).getD 0)]? = some (t.place id)) :
    (t.program.mapIdx fun k i => t.layout.decoded (t.startAt k) i).mapM (resolve table) =
      .ok (t.program.mapIdx fun k i =>
        { i with operand := i.operand.mapTargets t.place, offset := some (UInt32.ofNat (t.startAt k)) }) := by
  refine mapM_of_forall₂ ?_
  rw [List.mapIdx_eq_zipIdx_map, List.mapIdx_eq_zipIdx_map, List.forall₂_map_left_iff, List.forall₂_map_right_iff]
  refine List.forall₂_same.mpr fun (i, k) hi => resolve_decoded fun id hid => htable id ?_
  obtain ⟨entry, hentry, rfl⟩ := List.mem_map.mp (List.mem_of_getElem? (List.mem_zipIdx_iff_getElem?.mp hi))
  exact h.pieces.placed ht.fits_entries entry hentry id hid

/-- Written code is read as the stream that it was written from, with handles replaced by places. -/
theorem EncodedAs.decode (h : EncodedAs t e) (ht : t.WellFormed) : decode e.code = .ok t.written := by
  have htable (id : InstrId) (hid : (t.layout.starts.get? id).isSome) :
      (ofArray ((t.program.mapIdx fun k i => t.layout.decoded (t.startAt k) i).toArray.map
        DecodedInstruction.instruction)).offsetTable[UInt32.ofNat ((t.layout.starts.get? id).getD 0)]? =
          some (t.place id) := by
    obtain ⟨start, hstart⟩ := Option.isSome_iff_exists.mp hid
    rw [hstart]
    rw [← h.starts] at hstart
    refine (h.lookup_start ht ?_ ?_ hstart).2
    · simp [ht.length_program]
    · intro k i hi
      simp only [Array.getElem?_map, List.getElem?_toArray, List.getElem?_mapIdx, Option.map_eq_some_iff] at hi
      obtain ⟨_, ⟨_, _, rfl⟩, rfl⟩ := hi
      rfl
  have hresolve := h.mapM_resolve ht htable
  unfold InstructionStream.decode
  rw [h.run_instructions ht]
  refine bind_ok.mpr ⟨_, rfl, bind_ok.mpr ⟨_, ?_, rfl⟩⟩
  rw [Array.mapM_eq_mapM_toList, hresolve]
  rfl

theorem wellFormed_written (ht : t.WellFormed) : t.written.WellFormed := by
  refine wellFormed_ofArray fun i hi => ?_
  rw [List.mem_toArray] at hi
  obtain ⟨k, hk, rfl⟩ := List.mem_mapIdx.mp hi
  obtain ⟨entry, hentry, heq⟩ := List.mem_map.mp (List.getElem_mem hk)
  have hfit := ht.fits_entries entry hentry
  rw [heq] at hfit
  exact (Operand.fits_mapTargets ..).trans hfit

end InstructionStream

end CilProbes
