import CilProbes.Proofs.Code.Offsets
import CilProbes.Proofs.Bytes.Reads
import CilProbes.Proofs.Outcome

/-!
# What decoding gives

A decoded stream is in the order of its arena; its operands fit, its branches stay inside, and its instructions are at
increasing offsets (`decode_ok`).
-/

namespace CilProbes

namespace Reader

variable {α β : Type}

/-! ## Readers do not go back -/

/-- A reader that succeeds leaves the cursor no earlier than it found it. -/
def Forward (r : Reader α) : Prop :=
  ∀ c a c', r c = .ok a c' → c.pos ≤ c'.pos

theorem Forward.pure (a : α) : Forward (Pure.pure a) := by
  intro c _ _ h
  cases h
  exact Nat.le_refl _

theorem Forward.bind {r : Reader α} {f : α → Reader β} (h : Forward r) (hf : ∀ a, Forward (f a)) :
    Forward (r >>= f) := by
  intro c b c' hb
  obtain ⟨a, c₁, hr, hfa⟩ := edit_bind_ok.mp hb
  exact Nat.le_trans (h _ _ _ hr) (hf a _ _ _ hfa)

theorem Forward.map {r : Reader α} (f : α → β) (h : Forward r) : Forward (f <$> r) := by
  rw [map_eq_pure_bind]
  exact h.bind fun _ => .pure _

theorem forward_bytes (n : Nat) : Forward (bytes n) := by
  intro c a c' h
  unfold bytes at h
  split at h
  · cases h
    exact Nat.le_add_right ..
  · cases h

theorem byte_ok {c c' : Cursor} {b : UInt8} (h : byte c = .ok b c') : c'.pos = c.pos + 1 := by
  unfold byte at h
  split at h
  · cases h
  · cases h
    rfl

theorem forward_byte : Forward byte :=
  fun _ _ _ h => byte_ok h ▸ Nat.le_succ _

theorem forward_word (size : Nat) : Forward (word size) :=
  (forward_bytes size).bind fun _ => .pure _

theorem forward_uint16 : Forward uint16 :=
  (forward_word 2).bind fun _ => .pure _

theorem forward_uint32 : Forward uint32 :=
  (forward_word 4).bind fun _ => .pure _

theorem forward_uint64 : Forward uint64 :=
  (forward_word 8).bind fun _ => .pure _

theorem forward_int8 : Forward int8 :=
  forward_byte.bind fun _ => .pure _

theorem forward_int32 : Forward int32 :=
  forward_uint32.bind fun _ => .pure _

theorem forward_int64 : Forward int64 :=
  forward_uint64.bind fun _ => .pure _

/-- Reading elements one after another goes no way back and gives as many as asked for. -/
theorem timesOnto_ok {r : Reader α} (hr : Forward r) {n : Nat} {done as : List α} {c c' : Cursor}
    (h : timesOnto r n done c = .ok as c') : c.pos ≤ c'.pos ∧ as.length = done.length + n := by
  induction n generalizing done c with
  | zero =>
    cases h
    exact ⟨Nat.le_refl _, List.length_reverse⟩
  | succ n ih =>
    rw [timesOnto] at h
    cases hc : r c with
    | ok a c₁ =>
      simp only [hc] at h
      obtain ⟨hpos, hlen⟩ := ih h
      refine ⟨Nat.le_trans (hr _ _ _ hc) hpos, ?_⟩
      rw [hlen, List.length_cons]
      omega
    | error fault c₁ =>
      simp only [hc] at h
      cases h

/-! ## Instructions -/

variable {kind : OperandKind} {o : Operand} {ds : List Int} {c c' : Cursor}

/-- An operand that is made of one value. -/
theorem operand_of_one {r : Reader α} (hr : Forward r) {f : α → Operand × List Int}
    (hf : ∀ a, (f a).1.fits kind = true ∧ (f a).2.length = (f a).1.targets.length)
    (h : (r >>= fun a => Pure.pure (f a)) c = .ok (o, ds) c') :
    c.pos ≤ c'.pos ∧ o.fits kind = true ∧ ds.length = o.targets.length := by
  obtain ⟨a, c₁, ha, h⟩ := edit_bind_ok.mp h
  obtain ⟨heq, rfl⟩ := EStateM.Result.ok.inj h
  have := hf a
  rw [heq] at this
  exact ⟨hr _ _ _ ha, this⟩

/-- An operand as read fits, and has a distance for each of its targets. -/
theorem operand_sound (h : operand kind c = .ok (o, ds) c') :
    c.pos ≤ c'.pos ∧ o.fits kind = true ∧ ds.length = o.targets.length := by
  cases kind with
  | none =>
    cases h
    exact ⟨Nat.le_refl _, rfl, rfl⟩
  | int8 => exact operand_of_one forward_int8 (fun _ => ⟨rfl, rfl⟩) h
  | uint8 => exact operand_of_one forward_byte (fun _ => ⟨rfl, rfl⟩) h
  | uint16 => exact operand_of_one forward_uint16 (fun _ => ⟨rfl, rfl⟩) h
  | int32 => exact operand_of_one forward_int32 (fun _ => ⟨rfl, rfl⟩) h
  | int64 => exact operand_of_one forward_int64 (fun _ => ⟨rfl, rfl⟩) h
  | float32 => exact operand_of_one forward_uint32 (fun _ => ⟨rfl, rfl⟩) h
  | float64 => exact operand_of_one forward_uint64 (fun _ => ⟨rfl, rfl⟩) h
  | token => exact operand_of_one forward_uint32 (fun _ => ⟨rfl, rfl⟩) h
  | shortTarget => exact operand_of_one forward_int8 (fun _ => ⟨rfl, rfl⟩) h
  | target => exact operand_of_one forward_int32 (fun _ => ⟨rfl, rfl⟩) h
  | switch =>
    obtain ⟨count, c₁, hcount, h⟩ := edit_bind_ok.mp h
    obtain ⟨ds, c₂, hds, h⟩ := edit_bind_ok.mp h
    cases h
    obtain ⟨hpos, hlen⟩ := timesOnto_ok (forward_int32.map _) hds
    refine ⟨Nat.le_trans (forward_word 4 _ _ _ hcount) hpos, rfl, ?_⟩
    rw [hlen, List.length_nil, Nat.zero_add]
    exact List.length_replicate.symm

/-- The page and the place of an opcode, and what is read after them. -/
theorem opcode_sound {f : UInt8 × UInt8 → Reader α} {a : α}
    (h : (byte >>= fun first =>
      if first = OpcodeTable.extendedPage then (fun code => (first, code)) <$> byte >>= f
      else Pure.pure (0, first) >>= f) c = .ok a c') :
    ∃ opcode c₁, c.pos < c₁.pos ∧ f opcode c₁ = .ok a c' := by
  obtain ⟨first, c₁, hfirst, h⟩ := edit_bind_ok.mp h
  have hpos₁ := byte_ok hfirst
  split at h
  · obtain ⟨opcode, c₂, hopcode, h⟩ := edit_bind_ok.mp h
    have hpos₂ := (forward_byte.map _) _ _ _ hopcode
    exact ⟨opcode, c₂, by omega, h⟩
  · exact ⟨(0, first), c₁, by omega, h⟩

/-- An instruction as read: it is at the offset where it was read, and more follows it. -/
theorem instruction_sound {d : DecodedInstruction} (h : instruction c = .ok d c') :
    c.pos < c'.pos ∧ c.pos < wordLimit ∧ d.instruction.offset = some (UInt32.ofNat c.pos) ∧
      d.instruction.operand.fits d.instruction.kind = true ∧
      d.targets.length = d.instruction.targets.length := by
  obtain ⟨_, _, hstart, h⟩ := edit_bind_ok.mp h
  cases hstart
  obtain ⟨⟨page, code⟩, c₁, hpos₁, h⟩ := opcode_sound h
  dsimp only at h
  cases hopcode : Opcode.find? page code with
  | none => rw [hopcode] at h; cases h
  | some opcode =>
    rw [hopcode] at h
    obtain ⟨⟨o, ds⟩, c₂, hoperand, h⟩ := edit_bind_ok.mp h
    obtain ⟨hpos₂, hfit, hlen⟩ := operand_sound hoperand
    obtain ⟨_, _, hnext, h⟩ := edit_bind_ok.mp h
    cases hnext
    obtain ⟨targets, c₃, htargets, h⟩ := edit_bind_ok.mp h
    by_cases hlimit : wordLimit ≤ c.pos
    · rw [if_pos hlimit] at h
      cases h
    · rw [if_neg hlimit] at h
      cases h
      obtain ⟨htargets, rfl⟩ := ofExcept_ok htargets
      refine ⟨Nat.lt_of_lt_of_le hpos₁ hpos₂, Nat.not_le.mp hlimit, rfl, hfit, ?_⟩
      exact (forall₂_of_mapM htargets).length_eq.symm.trans hlen

/-! ## Bodies of code -/

/-- Instructions that were read one after another, at increasing offsets up to `stop`. -/
structure Decoded (stop : Nat) (ds : List DecodedInstruction) : Prop where
  fits : ∀ d ∈ ds, d.instruction.operand.fits d.instruction.kind = true
  targets : ∀ d ∈ ds, d.targets.length = d.instruction.targets.length
  offset : ∀ d ∈ ds, ∃ n < stop, n < wordLimit ∧ d.instruction.offset = some (UInt32.ofNat n)
  increasing : (ds.map fun d => d.instruction.offset).Pairwise fun a b => ∀ n m, a = some n → b = some m → n < m

theorem Decoded.push {ds : List DecodedInstruction} {d : DecodedInstruction} (hds : Decoded c.pos ds)
    (h : instruction c = .ok d c') : Decoded c'.pos (ds ++ [d]) := by
  obtain ⟨hpos, hlimit, hoffset, hfit, htargets⟩ := instruction_sound h
  refine ⟨?_, ?_, ?_, ?_⟩
  · exact List.forall_mem_append.mpr ⟨hds.fits, List.forall_mem_singleton.mpr hfit⟩
  · exact List.forall_mem_append.mpr ⟨hds.targets, List.forall_mem_singleton.mpr htargets⟩
  · refine List.forall_mem_append.mpr ⟨fun a ha => ?_, List.forall_mem_singleton.mpr ⟨_, hpos, hlimit, hoffset⟩⟩
    obtain ⟨n, hn, ha⟩ := hds.offset a ha
    exact ⟨n, Nat.lt_trans hn hpos, ha⟩
  · rw [List.map_append]
    refine List.pairwise_append.mpr ⟨hds.increasing, List.pairwise_singleton _ _, fun x hx y hy n m hn hm => ?_⟩
    obtain ⟨a, ha, rfl⟩ := List.mem_map.mp hx
    obtain ⟨k, hk, hkl, hka⟩ := hds.offset a ha
    have hb := List.mem_singleton.mp hy
    obtain rfl : UInt32.ofNat k = n := Option.some_inj.mp (hka.symm.trans hn)
    obtain rfl : UInt32.ofNat c.pos = m := Option.some_inj.mp (hoffset.symm.trans (hb.symm.trans hm))
    rw [UInt32.lt_iff_toNat_lt, toNat_word hkl, toNat_word hlimit]
    exact hk

theorem instructionsOnto_ok {fuel : Nat} {done ds : Array DecodedInstruction} (hdone : Decoded c.pos done.toList)
    (h : instructionsOnto fuel done c = .ok ds c') : Decoded c'.pos ds.toList := by
  induction fuel generalizing done c with
  | zero =>
    cases h
    exact hdone
  | succ fuel ih =>
    unfold instructionsOnto at h
    split at h
    · cases h
      exact hdone
    · split at h
      · next d c₁ hd =>
        refine ih ?_ h
        rw [Array.toList_push]
        exact hdone.push hd
      · cases h

theorem run_instructions_ok {code : List UInt8} {ds : Array DecodedInstruction}
    (h : run instructions code = .ok ds) : ∃ stop, Decoded stop ds.toList := by
  obtain ⟨c', hfound⟩ := run_ok h
  refine ⟨c'.pos, instructionsOnto_ok ⟨?_, ?_, ?_, .nil⟩ hfound⟩
  all_goals exact fun _ hd => absurd hd List.not_mem_nil

end Reader

namespace InstructionStream

variable {table : OffsetTable} {d : DecodedInstruction} {i : Instruction} {s : InstructionStream}

theorem lookupAll_ok {offsets : List UInt32} {ids : List InstrId} (h : lookupAll table offsets = .ok ids) :
    ids.length = offsets.length ∧ ∀ id ∈ ids, ∃ offset : UInt32, table[offset]? = some id := by
  have hall := forall₂_of_mapM h
  refine ⟨hall.length_eq.symm, fun id hid => ?_⟩
  obtain ⟨offset, _, hoffset⟩ := exists_of_mem_right hall id hid
  refine ⟨offset, ?_⟩
  cases ho : table[offset]? with
  | none => rw [ho] at hoffset; cases hoffset
  | some found => rw [ho] at hoffset; cases hoffset; rfl

/-- Looking up targets changes nothing but the targets, which are in the table then. -/
theorem resolve_ok (hlen : d.targets.length = d.instruction.targets.length)
    (hfit : d.instruction.operand.fits d.instruction.kind = true) (h : resolve table d = .ok i) :
    i.opcode = d.instruction.opcode ∧ i.offset = d.instruction.offset ∧ i.operand.fits i.kind = true ∧
      ∀ t ∈ i.targets, ∃ offset : UInt32, table[offset]? = some t := by
  obtain ⟨⟨opcode, operand, offset⟩, targets⟩ := d
  cases operand with
  | target t =>
    obtain ⟨ids, hids, h⟩ := bind_ok.mp h
    obtain ⟨hcount, hmem⟩ := lookupAll_ok hids
    obtain ⟨id, rfl⟩ := List.length_eq_one_iff.mp (hcount.trans hlen)
    cases h
    exact ⟨rfl, rfl, (Operand.fits_mapTargets (fun _ => id) (.target t) _).trans hfit, hmem⟩
  | switch ts =>
    obtain ⟨ids, hids, h⟩ := bind_ok.mp h
    obtain ⟨hcount, hmem⟩ := lookupAll_ok hids
    cases h
    refine ⟨rfl, rfl, ?_, hmem⟩
    cases kind : opcode.info.operand <;> simp_all [Instruction.kind, Operand.fits]
  | none | immediate | token =>
    cases h
    exact ⟨rfl, rfl, hfit, fun _ ht => absurd ht List.not_mem_nil⟩

/-- What reading gives: instructions in the order of the arena, at increasing offsets, with branches inside. -/
structure Parsed (s : InstructionStream) : Prop where
  wellFormed : s.WellFormed
  order : s = ofArray s.arena
  inside : ∀ i ∈ s.arena, ∀ t ∈ i.targets, t.index < s.arena.size
  increasing : (s.arena.toList.map Instruction.offset).Pairwise fun a b => ∀ n m, a = some n → b = some m → n < m

theorem Parsed.ids_eq (h : s.Parsed) : s.ids = (List.range s.arena.size).map InstrId.mk :=
  (congrArg ids h.order).trans (ids_ofArray _)

theorem Parsed.program_eq (h : s.Parsed) : s.program = s.arena.toList :=
  (congrArg program h.order).trans (program_ofArray h.wellFormed.fits)

theorem Parsed.length_eq (h : s.Parsed) : s.length = s.arena.size := by
  show s.order.toList.length = _
  rw [show s.order.toList = _ from h.ids_eq, List.length_map, List.length_range]

theorem parsed_of_decode {code : List UInt8} (h : decode code = .ok s) : s.Parsed := by
  obtain ⟨ds, hds, h⟩ := bind_ok.mp h
  obtain ⟨is, his, h⟩ := bind_ok.mp h
  cases h
  rw [Array.mapM_eq_mapM_toList] at his
  obtain ⟨list, hlist, rfl⟩ := map_ok.mp his
  obtain ⟨_, hdecoded⟩ := Reader.run_instructions_ok hds
  have hall := forall₂_of_mapM hlist
  have hsize : ds.size = list.length := hall.length_eq
  have hresolved (d : DecodedInstruction) (hd : d ∈ ds.toList) (i : Instruction)
      (h : resolve (ofArray (ds.map DecodedInstruction.instruction)).offsetTable d = .ok i) :=
    resolve_ok (hdecoded.targets d hd) (hdecoded.fits d hd) h
  have hfit : ∀ i ∈ list.toArray, i.operand.fits i.kind = true := fun i hi => by
    obtain ⟨d, hd, hi⟩ := exists_of_mem_right hall i (List.mem_toArray.mp hi)
    exact (hresolved d hd i hi).2.2.1
  refine ⟨wellFormed_ofArray hfit, rfl, fun i hi t ht => ?_, ?_⟩
  · obtain ⟨d, hd, hi⟩ := exists_of_mem_right hall i (List.mem_toArray.mp hi)
    obtain ⟨offset, hfound⟩ := (hresolved d hd i hi).2.2.2 t ht
    obtain ⟨j, hj, _⟩ := offsetTable_sound hfound
    obtain ⟨hlt, _⟩ := get?_eq_some.mp (mem_entries.mp hj).2
    show t.index < list.toArray.size
    rw [List.size_toArray, ← hsize]
    rwa [show (ofArray (ds.map DecodedInstruction.instruction)).arena = ds.map DecodedInstruction.instruction from rfl,
      Array.size_map] at hlt
  · show (list.map Instruction.offset).Pairwise _
    rw [← map_eq_of_forall₂ hall fun d hd i hi => (hresolved d hd i hi).2.1.symm]
    exact hdecoded.increasing

end InstructionStream

end CilProbes
