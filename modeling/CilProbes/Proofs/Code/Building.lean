import CilProbes.Proofs.Code.Totality

/-!
# Built streams

A stream is built by adding instructions whose operands fit, at any places (`Built`). What is written for it is read as
the same program (`SameProgram`): the instructions in their order, with the same opcodes and operands and with targets at
the same places. The offsets that are reported are exact (`ExactStarts`), and a stream that is not too large fails to be
written just if it refers to an instruction that it does not hold (`Built.decode_of_encode`).
-/

namespace CilProbes

/-- The same operand, up to what its targets are called. -/
inductive Operand.Agrees (R : InstrId → InstrId → Prop) : Operand → Operand → Prop
  | none : Agrees R .none .none
  | immediate (value : Immediate) : Agrees R (.immediate value) (.immediate value)
  | token (t : Token) : Agrees R (.token t) (.token t)
  | target {x y : InstrId} : R x y → Agrees R (.target x) (.target y)
  | switch {xs ys : List InstrId} : List.Forall₂ R xs ys → Agrees R (.switch xs) (.switch ys)

theorem Operand.agrees_mapTargets {R : InstrId → InstrId → Prop} {f : InstrId → InstrId} {o : Operand}
    (h : ∀ t ∈ o.targets, R t (f t)) : o.Agrees R (o.mapTargets f) := by
  cases o with
  | none => exact .none
  | immediate v => exact .immediate v
  | token t => exact .token t
  | target t => exact .target (h t (List.mem_singleton_self t))
  | switch ts => exact .switch (List.forall₂_map_right_iff.mpr (List.forall₂_same.mpr h))

namespace InstructionStream

/-- Streams that are built by adding instructions whose operands fit. -/
inductive Built : InstructionStream → Prop
  | empty : Built {}
  | push {s : InstructionStream} {page code : UInt8} {operand : Operand} {i : Instruction} :
    Built s → Instruction.make page code operand = .ok i → Built (s.push i)
  | insertAt {s t : InstructionStream} {page code : UInt8} {operand : Operand} {i : Instruction} {index : Nat} :
    Built s → Instruction.make page code operand = .ok i → s.insertAt index i = .ok t → Built t
  | insertBefore {s t : InstructionStream} {page code : UInt8} {operand : Operand} {i : Instruction} {target : InstrId} :
    Built s → Instruction.make page code operand = .ok i → s.insertBefore target i = .ok t → Built t

variable {s t d : InstructionStream} {i : Instruction} {e : EncodedCode} {id : InstrId} {k : Nat}

theorem fits_of_make {page code : UInt8} {operand : Operand} (h : Instruction.make page code operand = .ok i) :
    i.operand.fits i.kind = true := by
  unfold Instruction.make at h
  split at h
  · cases h
  · split at h
    · next hfit =>
      cases h
      exact hfit
    · cases h

/-- Appending is inserting behind the last instruction. -/
theorem insertAt_length (s : InstructionStream) (i : Instruction) : s.insertAt s.length i = .ok (s.push i) := by
  unfold insertAt length
  rw [dif_pos (Nat.le_refl _)]
  refine congrArg Except.ok (congrArg (InstructionStream.mk _) (Array.toList_inj.mp ?_))
  rw [Array.toList_insertIdx, Array.toList_push, ← Array.length_toList, List.insertIdx_length_self]

theorem Built.wellFormed (h : Built s) : s.WellFormed := by
  induction h with
  | empty => exact ⟨List.nodup_nil, fun _ => by simp [ids], fun _ hi => absurd hi (Array.not_mem_empty _)⟩
  | push _ hi ih => exact ih.insertAt (fits_of_make hi) (insertAt_length _ _)
  | insertAt _ hi ht ih => exact ih.insertAt (fits_of_make hi) ht
  | insertBefore _ hi ht ih =>
    obtain ⟨index, -, ht⟩ := insertBefore_ok.mp ht
    exact ih.insertAt (fits_of_make hi) ht

/-! ## The same program -/

/-- Two instructions stand at the same place of their programs. -/
def SamePlace (s d : InstructionStream) (x y : InstrId) : Prop :=
  ∃ k : Nat, s.ids[k]? = some x ∧ d.ids[k]? = some y

/-- The same instructions in the same order, with targets at the same places. -/
structure SameProgram (s d : InstructionStream) : Prop where
  length : d.length = s.length
  instructions : ∀ (k : Nat) id i, s.ids[k]? = some id → s.get? id = some i → ∃ id' j, d.ids[k]? = some id' ∧
    d.get? id' = some j ∧ j.opcode = i.opcode ∧ i.operand.Agrees (SamePlace s d) j.operand

theorem ids_written (ht : t.WellFormed) : t.written.ids = (List.range t.ids.length).map InstrId.mk := by
  rw [← size_written ht]
  exact ids_ofArray _

theorem samePlace_written (ht : t.WellFormed) (h : id ∈ t.ids) : SamePlace t t.written id (t.place id) := by
  have hlt := List.idxOf_lt_length_iff.mpr h
  refine ⟨t.ids.idxOf id, List.getElem?_idxOf h, ?_⟩
  rw [ids_written ht, List.getElem?_map, List.getElem?_range hlt]
  rfl

theorem sameProgram_written (ht : t.WellFormed) (hinside : ∀ i ∈ t.program, ∀ id ∈ i.targets, id ∈ t.ids) :
    SameProgram t t.written where
  length := by
    have hlen : t.written.ids.length = t.ids.length := by rw [ids_written ht, List.length_map, List.length_range]
    exact hlen
  instructions k id i hid hi := by
    have hprogram := ht.program_getElem? hid
    rw [hi] at hprogram
    have hk := (List.getElem?_eq_some_iff.mp hid).1
    have hmem := List.mem_of_getElem? hprogram
    have hplace : t.written.ids[k]? = some ⟨k⟩ := by
      rw [ids_written ht, List.getElem?_map, List.getElem?_range hk]
      rfl
    have hwritten := t.written_getElem? k
    rw [hprogram] at hwritten
    exact ⟨⟨k⟩, _, hplace, hwritten, rfl, Operand.agrees_mapTargets fun x hx => samePlace_written ht (hinside i hmem x hx)⟩

/-! ## Exact offsets -/

/-- The instructions lie one behind the other from offset 0 up to the size of the code. -/
structure ExactStarts (t : InstructionStream) (starts : StartTable) (size : Nat) : Prop where
  placed : ∀ id, (starts.get? id).isSome ↔ id ∈ t.ids
  first : ∀ id, t.ids[0]? = some id → starts.get? id = some 0
  next : ∀ (k : Nat) x y i start, t.ids[k]? = some x → t.ids[k + 1]? = some y → t.get? x = some i →
    starts.get? x = some start → starts.get? y = some (start + i.size)
  last : ∀ id i start, t.ids.getLast? = some id → t.get? id = some i → starts.get? id = some start →
    start + i.size = size
  increasing : ∀ (j k : Nat) x y a b, j < k → t.ids[j]? = some x → t.ids[k]? = some y → starts.get? x = some a →
    starts.get? y = some b → a < b
  empty : t.ids = [] → size = 0

theorem EncodedAs.starts_getElem? (h : EncodedAs t e) (ht : t.WellFormed) (hid : t.ids[k]? = some id) :
    e.starts.get? id = some (t.startAt k) := by
  rw [h.starts]
  exact ht.starts_layout hid

theorem EncodedAs.exactStarts (h : EncodedAs t e) (ht : t.WellFormed) : ExactStarts t e.starts e.code.length where
  placed id := by
    rw [Option.isSome_iff_exists]
    exact ⟨fun ⟨_, hstart⟩ => ((h.starts_eq_some ht).mp hstart).1, fun hid =>
      ⟨_, (h.starts_eq_some ht).mpr ⟨hid, rfl⟩⟩⟩
  first id hid := h.starts_getElem? ht hid
  next k x y i start hx hy hi hstart := by
    have hprogram := ht.program_getElem? hx
    rw [hi] at hprogram
    rw [h.starts_getElem? ht hx] at hstart
    cases hstart
    rw [h.starts_getElem? ht hy, startAt_succ hprogram]
  last id i start hid hi hstart := by
    rw [List.getLast?_eq_getElem?] at hid
    have hprogram := ht.program_getElem? hid
    rw [hi] at hprogram
    rw [h.starts_getElem? ht hid] at hstart
    cases hstart
    have hpos : 0 < t.ids.length := Nat.zero_lt_of_lt (List.getElem?_eq_some_iff.mp hid).1
    rw [h.length_code ht, ← startAt_succ hprogram, Nat.sub_add_cancel hpos]
  increasing j k x y a b hjk hx hy ha hb := by
    rw [h.starts_getElem? ht hx] at ha
    rw [h.starts_getElem? ht hy] at hb
    cases ha
    cases hb
    refine startAt_lt_startAt hjk ?_
    rw [ht.length_program]
    exact Nat.le_of_lt (List.getElem?_eq_some_iff.mp hy).1
  empty hnil := by
    rw [h.length_code ht, hnil]
    rfl

/-! ## Reading back -/

theorem EncodedAs.inside (h : EncodedAs t e) (ht : t.WellFormed) : ∀ i ∈ t.program, ∀ id ∈ i.targets, id ∈ t.ids := by
  intro i hi id hid
  obtain ⟨entry, hentry, rfl⟩ := List.mem_map.mp hi
  have hplaced := h.pieces.placed ht.fits_entries entry hentry id hid
  rw [← h.starts] at hplaced
  exact ((h.exactStarts ht).placed id).mp hplaced

/-- An instruction is read at the offset that was reported for it. -/
theorem EncodedAs.offset_written (h : EncodedAs t e) (ht : t.WellFormed) {x y : InstrId}
    (hxy : SamePlace t t.written x y) :
    (t.written.get? y).bind (fun j => j.offset.map UInt32.toNat) = e.starts.get? x := by
  obtain ⟨k, hx, hy⟩ := hxy
  obtain ⟨i, hi⟩ := ht.exists_get? (List.mem_of_getElem? hx)
  have hk := (List.getElem?_eq_some_iff.mp hx).1
  rw [ids_written ht, List.getElem?_map, List.getElem?_range hk] at hy
  cases hy
  rw [h.starts_getElem? ht hx]
  show (t.written.arena[k]?).bind _ = _
  rw [written_getElem?, ht.program_getElem? hx, hi]
  exact congrArg some (toNat_word (h.startAt_lt k hk))

/--
What is written for a built stream is read as the same program, each instruction at the offset that is reported for it.
A built stream of less than 2^29 bytes fails to be written just if a target is not in the stream.
-/
theorem Built.decode_of_encode (hs : Built s) :
    (∀ e t, s.encode = .ok e t → Widened s t ∧ ExactStarts t e.starts e.code.length ∧
      ∃ d, decode e.code = .ok d ∧ SameProgram t d ∧
        ∀ x y, SamePlace t d x y → (d.get? y).bind (fun j => j.offset.map UInt32.toNat) = e.starts.get? x) ∧
    (s.size < 2 ^ 29 →
      ((∃ fault t, s.encode = .error fault t) ↔ ∃ i ∈ s.program, ∃ id ∈ i.targets, id ∉ s.ids)) := by
  have hwf := hs.wellFormed
  refine ⟨fun e t h => ?_, fun hsize => ⟨fun ⟨fault, t, h⟩ => ?_, fun ⟨i, hi, id, hid, hout⟩ => ?_⟩⟩
  · obtain ⟨hw, he⟩ := encode_ok hwf h
    have ht := hw.wellFormed hwf
    exact ⟨hw, he.exactStarts ht, t.written, he.decode ht, sameProgram_written ht (he.inside ht), fun _ _ =>
      he.offset_written ht⟩
  · by_contra hall
    push Not at hall
    obtain ⟨e, t', he⟩ := exists_encode hwf hsize hall
    rw [h] at he
    cases he
  · cases h : s.encode with
    | error fault t => exact ⟨fault, t, rfl⟩
    | ok e t =>
      obtain ⟨hw, he⟩ := encode_ok hwf h
      have ht := hw.wellFormed hwf
      obtain ⟨j, hj, hid⟩ := (hw.targets_iff hwf).mp ⟨i, hi, hid⟩
      exact absurd (hw.ids ▸ he.inside ht j hj id hid) hout

/--
A `ret`, a short branch to it put in front, and in front of both a switch over the two, are read back in program order;
a lone branch to an instruction that is not there is not written.
-/
theorem decode_of_encode_shuffled :
    (∃ s e t d, Built s ∧ s.ids = [⟨2⟩, ⟨1⟩, ⟨0⟩] ∧ s.encode = .ok e t ∧ decode e.code = .ok d ∧ SameProgram t d) ∧
    ∃ s, Built s ∧ s.size < 2 ^ 29 ∧ ∃ fault t, s.encode = .error fault t := by
  constructor
  · obtain ⟨ret, hret, branch, hbranch, switch, hswitch, front, hfront, s, hs, e, t, he, hids⟩ :
        ∃ ret, Instruction.make 0 0x2A .none = .ok ret ∧
        ∃ branch, Instruction.make 0 0x2B (.target ⟨0⟩) = .ok branch ∧
        ∃ switch, Instruction.make 0 0x45 (.switch [⟨1⟩, ⟨0⟩]) = .ok switch ∧
        ∃ front, (push {} ret).insertBefore ⟨0⟩ branch = .ok front ∧ ∃ s, front.insertAt 0 switch = .ok s ∧
        ∃ e t, encode.run s = .ok e t ∧ s.ids = [⟨2⟩, ⟨1⟩, ⟨0⟩] := by
      decide +kernel
    have hbuilt : Built s := .insertAt (.insertBefore (.push .empty hret) hbranch hfront) hswitch hs
    obtain ⟨-, -, d, hd, hsame, -⟩ := hbuilt.decode_of_encode.1 e t he
    exact ⟨s, e, t, d, hbuilt, hids, he, hd, hsame⟩
  · obtain ⟨branch, hbranch, hsize, hmissing⟩ : ∃ branch, Instruction.make 0 0x2B (.target ⟨5⟩) = .ok branch ∧
        (push {} branch).size < 2 ^ 29 ∧
        ∃ i ∈ (push {} branch).program, ∃ id ∈ i.targets, id ∉ (push {} branch).ids := by
      decide +kernel
    have hbuilt : Built (push {} branch) := .push .empty hbranch
    exact ⟨_, hbuilt, hsize, (hbuilt.decode_of_encode.2 hsize).mpr hmissing⟩

end InstructionStream

end CilProbes
