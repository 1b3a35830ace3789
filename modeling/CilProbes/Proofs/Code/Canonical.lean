import CilProbes.Proofs.Bytes.Fields
import CilProbes.Proofs.Bytes.Taken
import CilProbes.Proofs.Code.Decoding
import CilProbes.Proofs.Code.Settled

/-!
# Writing back code

An instruction is read from bytes that are told by the distances to its targets (`instruction_took`), and code is read
as instructions one after another (`ReadFrom`). Laid out again they are where they were read, so every distance is the
one that was read: decoded code is written back byte for byte, and no branch of it is widened
(`InstructionStream.encode_eq_of_decode`).
-/

namespace CilProbes

namespace Layout

theorem length_distanceBytes (kind : OperandKind) (d : Int) :
    (distanceBytes kind d).length = if kind = .shortTarget then 1 else 4 := by
  unfold distanceBytes
  split
  · rfl
  · exact Little.length_encode ..

theorem length_flatMap_distanceBytes (kind : OperandKind) (ds : List Int) :
    (ds.flatMap (distanceBytes kind)).length = ds.length * if kind = .shortTarget then 1 else 4 := by
  simp [List.length_flatMap, length_distanceBytes]

theorem length_operandBytes {kind : OperandKind} {o : Operand} {ds : List Int} (hfit : o.fits kind = true)
    (hlen : ds.length = o.targets.length) : (operandBytes kind o ds).length = operandSize kind o := by
  cases o with
  | none =>
    cases kind <;> cases hfit
    rfl
  | immediate v => exact (reads_immediate hfit).1
  | token t =>
    cases kind <;> cases hfit
    exact Little.length_encode ..
  | target t =>
    have hone : ds.length = 1 := hlen
    rw [operandBytes, length_flatMap_distanceBytes, hone]
    cases kind <;> cases hfit <;> rfl
  | switch ts =>
    have hcount : ds.length = ts.length := hlen
    cases kind <;> cases hfit
    rw [operandBytes, List.length_append, length_flatMap_distanceBytes, hcount, if_neg (by decide)]
    show 4 + ts.length * 4 = 4 + 4 * ts.length
    omega

end Layout

/-! ## Instructions as read -/

namespace DecodedInstruction

/-- The distances to the targets from the offset after the instruction. -/
def distances (d : DecodedInstruction) (next : Nat) : List Int :=
  d.targets.map fun n => Int.ofNat n.toNat - Int.ofNat next

/-- The bytes of an instruction that ends at an offset. -/
def bytes (d : DecodedInstruction) (next : Nat) : List UInt8 :=
  Layout.opcode d.instruction.opcode ++
    Layout.operandBytes d.instruction.kind d.instruction.operand (d.distances next)

/-- The instruction was read at an offset. -/
structure ReadAt (d : DecodedInstruction) (start : Nat) : Prop where
  offset : d.instruction.offset = some (UInt32.ofNat start)
  limit : start < wordLimit
  fits : d.instruction.operand.fits d.instruction.kind = true
  targets : d.targets.length = d.instruction.targets.length
  reach : ∀ x ∈ d.distances (start + d.instruction.size), Layout.InReach d.instruction.kind x
  count : d.targets.length < wordLimit

theorem ReadAt.length_bytes {d : DecodedInstruction} {start : Nat} (h : d.ReadAt start) (next : Nat) :
    (d.bytes next).length = d.instruction.size := by
  have hlen : (d.distances next).length = d.instruction.operand.targets.length := by
    rw [distances, List.length_map]
    exact h.targets
  rw [bytes, List.length_append, Layout.length_opcode, Layout.length_operandBytes h.fits hlen, Layout.size_eq]

/-- Instructions that were read one after another, and the bytes that they were read from. -/
inductive ReadFrom : Nat → List DecodedInstruction → List UInt8 → Prop
  | nil (start : Nat) : ReadFrom start [] []
  | cons {start : Nat} {d : DecodedInstruction} {ds : List DecodedInstruction} {more : List UInt8} :
    d.ReadAt start → ReadFrom (start + d.instruction.size) ds more →
      ReadFrom start (d :: ds) (d.bytes (start + d.instruction.size) ++ more)

theorem ReadFrom.readAt {start : Nat} {ds : List DecodedInstruction} {code : List UInt8} (h : ReadFrom start ds code)
    {k : Nat} {d : DecodedInstruction} (hd : ds[k]? = some d) :
    d.ReadAt (start + ((ds.take k).map fun d => d.instruction.size).sum) := by
  induction h generalizing k with
  | nil => cases hd
  | @cons start first ds more hfirst _ ih =>
    cases k with
    | zero =>
      cases hd
      exact hfirst
    | succ k =>
      have := ih hd
      rwa [List.take_succ_cons, List.map_cons, List.sum_cons, ← Nat.add_assoc]

end DecodedInstruction

theorem Opcode.parts_of_find? {page code : UInt8} {o : Opcode} (h : find? page code = some o) :
    o.page = page ∧ o.code = code := by
  unfold find? at h
  split at h
  · cases h
    exact ⟨rfl, rfl⟩
  · cases h

namespace Reader

variable {α : Type} {c c' : Cursor} {kind : OperandKind} {o : Operand} {ds : List Int}

theorem inReach_int32 (hkind : kind ≠ .shortTarget) (v : Int32) : Layout.InReach kind v.toInt := by
  unfold Layout.InReach
  rw [if_neg hkind]
  exact ⟨v.le_toInt, v.toInt_lt⟩

theorem distanceBytes_int32 (hkind : kind ≠ .shortTarget) (v : Int32) :
    Layout.distanceBytes kind v.toInt = Field.uint32 v.toUInt32 := by
  unfold Layout.distanceBytes
  rw [if_neg hkind, Int32.ofInt_toInt]

/-- An operand that is one value without a target. -/
theorem operand_took_of_one {r : Reader α} {f : α → Operand} {write : α → List UInt8}
    (hr : ∀ c a c', r c = .ok a c' → c.Took (write a) c') (hf : ∀ a, Layout.operandBytes kind (f a) [] = write a)
    (h : (r >>= fun a => Pure.pure (f a, ([] : List Int))) c = .ok (o, ds) c') :
    c.Took (Layout.operandBytes kind o ds) c' ∧ (∀ d ∈ ds, Layout.InReach kind d) ∧ ds.length < wordLimit := by
  obtain ⟨a, c₁, ha, h⟩ := edit_bind_ok.mp h
  cases h
  refine ⟨?_, fun _ hd => absurd hd List.not_mem_nil, by decide⟩
  rw [hf]
  exact hr _ _ _ ha

theorem cell_took {d : Int} (h : (Int32.toInt <$> int32) c = .ok d c') :
    Layout.InReach .switch d ∧ c.Took (Layout.distanceBytes .switch d) c' := by
  rw [map_eq_pure_bind] at h
  obtain ⟨v, c₁, hv, h⟩ := edit_bind_ok.mp h
  cases h
  rw [distanceBytes_int32 (by decide)]
  exact ⟨inReach_int32 (by decide) v, int32_took hv⟩

/-- The table of a switch is read from a count and the cells. -/
theorem switch_took {count : Nat} {c₁ : Cursor} {ids : List InstrId} (hcount : word 4 c = .ok count c₁)
    (hds : times count (Int32.toInt <$> int32) c₁ = .ok ds c') :
    c.Took (Layout.operandBytes .switch (.switch ids) ds) c' ∧ (∀ d ∈ ds, Layout.InReach .switch d) ∧
      ds.length < wordLimit := by
  obtain ⟨hlt, htook⟩ := word_took hcount
  have hlen : ds.length = count := by
    rw [(timesOnto_ok (forward_int32.map _) hds).2, List.length_nil, Nat.zero_add]
  have hcountBytes : Field.uint32 (UInt32.ofNat ds.length) = Little.encode 4 count := by
    rw [hlen, Field.uint32, toNat_word hlt]
  refine ⟨?_, ?_, hlen ▸ hlt⟩
  · rw [Layout.operandBytes, hcountBytes]
    exact htook.append (times_took (fun _ _ _ hd => (cell_took hd).2) hds)
  · intro d hd
    obtain ⟨c₁, c₂, hd⟩ := (mem_of_timesOnto hds d hd).resolve_left List.not_mem_nil
    exact (cell_took hd).1

/-- An operand is read from the bytes that its distances tell, and these are in reach. -/
theorem operand_took (h : operand kind c = .ok (o, ds) c') :
    c.Took (Layout.operandBytes kind o ds) c' ∧ (∀ d ∈ ds, Layout.InReach kind d) ∧ ds.length < wordLimit := by
  cases kind with
  | none =>
    cases h
    exact ⟨.refl c, fun _ hd => absurd hd List.not_mem_nil, by decide⟩
  | int8 => exact operand_took_of_one (fun _ _ _ => int8_took) (fun _ => rfl) h
  | uint8 => exact operand_took_of_one (fun _ _ _ => byte_took) (fun _ => rfl) h
  | uint16 => exact operand_took_of_one (fun _ _ _ => uint16_took) (fun _ => rfl) h
  | int32 => exact operand_took_of_one (fun _ _ _ => int32_took) (fun _ => rfl) h
  | int64 => exact operand_took_of_one (fun _ _ _ => int64_took) (fun _ => rfl) h
  | float32 => exact operand_took_of_one (fun _ _ _ => uint32_took) (fun _ => rfl) h
  | float64 => exact operand_took_of_one (fun _ _ _ => uint64_took) (fun _ => rfl) h
  | token => exact operand_took_of_one (fun _ _ _ => uint32_took) (fun _ => rfl) h
  | shortTarget =>
    obtain ⟨v, c₁, hv, h⟩ := edit_bind_ok.mp h
    cases h
    refine ⟨?_, List.forall_mem_singleton.mpr ?_, show 1 < wordLimit by decide⟩
    · show c.Took ([(Int8.ofInt v.toInt).toUInt8] ++ []) c'
      rw [Int8.ofInt_toInt]
      exact int8_took hv
    · exact ⟨v.le_toInt, v.toInt_lt⟩
  | target =>
    obtain ⟨v, c₁, hv, h⟩ := edit_bind_ok.mp h
    cases h
    refine ⟨?_, List.forall_mem_singleton.mpr (inReach_int32 (by decide) v), show 1 < wordLimit by decide⟩
    show c.Took (Layout.distanceBytes .target v.toInt ++ []) c'
    rw [distanceBytes_int32 (by decide), List.append_nil]
    exact int32_took hv
  | switch =>
    obtain ⟨count, c₁, hcount, h⟩ := edit_bind_ok.mp h
    obtain ⟨ds, c₂, hds, h⟩ := edit_bind_ok.mp h
    cases h
    exact switch_took hcount hds

/-- The page and the place of an opcode are read from the bytes of the opcode. -/
theorem opcode_took {f : UInt8 × UInt8 → Reader α} {a : α}
    (h : (byte >>= fun first =>
      if first = OpcodeTable.extendedPage then (fun code => (first, code)) <$> byte >>= f
      else Pure.pure (0, first) >>= f) c = .ok a c') :
    ∃ page code c₁, f (page, code) c₁ = .ok a c' ∧
      ∀ o, Opcode.find? page code = some o → c.Took (Layout.opcode o) c₁ := by
  obtain ⟨first, c₁, hfirst, h⟩ := edit_bind_ok.mp h
  have htook := byte_took hfirst
  split at h
  · next hpage =>
    obtain ⟨opcode, c₂, hopcode, h⟩ := edit_bind_ok.mp h
    rw [map_eq_pure_bind] at hopcode
    obtain ⟨code, c₃, hcode, hopcode⟩ := edit_bind_ok.mp hopcode
    cases hopcode
    refine ⟨first, code, c₂, h, fun o ho => ?_⟩
    obtain ⟨hp, hc⟩ := Opcode.parts_of_find? ho
    unfold Layout.opcode
    rw [hp, hc, if_pos hpage]
    exact htook.append (byte_took hcode)
  · refine ⟨0, first, c₁, h, fun o ho => ?_⟩
    obtain ⟨hp, hc⟩ := Opcode.parts_of_find? ho
    unfold Layout.opcode
    rw [hp, hc, if_neg (by decide)]
    exact htook

/-- The distance that an offset was computed from. -/
theorem target_ok {offset next : Nat} {d : Int} {n : UInt32} (h : target offset next d = .ok n) :
    d = Int.ofNat n.toNat - Int.ofNat next := by
  unfold target at h
  dsimp only at h
  split at h
  · next hrange =>
    cases h
    obtain ⟨hle, hlt⟩ := hrange
    rw [toNat_word ((Int.toNat_lt hle).mpr hlt)]
    show d = ((Int.ofNat next + d).toNat : Int) - Int.ofNat next
    rw [Int.toNat_of_nonneg hle]
    omega
  · cases h

/-- An instruction is read from the bytes that the distances to its targets tell. -/
theorem instruction_took {d : DecodedInstruction} (h : instruction c = .ok d c') :
    d.ReadAt c.pos ∧ c.Took (d.bytes (c.pos + d.instruction.size)) c' := by
  obtain ⟨-, hlimit, hoffset, hfit, htargets⟩ := instruction_sound h
  obtain ⟨_, _, hstart, h⟩ := edit_bind_ok.mp h
  cases hstart
  obtain ⟨page, code, c₁, h, hopcode⟩ := opcode_took h
  dsimp only at h
  cases hfind : Opcode.find? page code with
  | none => rw [hfind] at h; cases h
  | some opcode =>
    rw [hfind] at h
    have htook := hopcode opcode hfind
    obtain ⟨⟨o, ds⟩, c₂, hoperand, h⟩ := edit_bind_ok.mp h
    obtain ⟨htook', hreach, hcount⟩ := operand_took hoperand
    obtain ⟨_, _, hnext, h⟩ := edit_bind_ok.mp h
    cases hnext
    obtain ⟨targets, c₃, hresolved, h⟩ := edit_bind_ok.mp h
    rw [if_neg (Nat.not_le.mpr hlimit)] at h
    cases h
    obtain ⟨hresolved, rfl⟩ := ofExcept_ok hresolved
    have hall := forall₂_of_mapM hresolved
    have hds : targets.map (fun n => Int.ofNat n.toNat - Int.ofNat c'.pos) = ds := by
      have := map_eq_of_forall₂ hall fun _ _ _ hn => target_ok hn
      rw [← this, List.map_id']
    have hlen : ds.length = o.targets.length := hall.length_eq.trans htargets
    have hsize : (Layout.operandBytes opcode.info.operand o ds).length = Layout.operandSize opcode.info.operand o :=
      Layout.length_operandBytes hfit hlen
    have hpos : c'.pos = c.pos + (opcode.size + Layout.operandSize opcode.info.operand o) := by
      rw [(htook.append htook').pos, List.length_append, Layout.length_opcode, hsize]
    rw [DecodedInstruction.bytes, DecodedInstruction.distances, Layout.size_eq]
    dsimp only [Instruction.kind]
    rw [← hpos, hds]
    refine ⟨⟨hoffset, hlimit, hfit, htargets, ?_, hall.length_eq ▸ hcount⟩, htook.append htook'⟩
    rw [DecodedInstruction.distances, Layout.size_eq]
    dsimp only [Instruction.kind]
    rw [← hpos, hds]
    exact hreach

/-- Code is read to its end as instructions one after another. -/
theorem instructionsOnto_took {fuel : Nat} {done ds : Array DecodedInstruction} (hfuel : c.rest.length ≤ fuel)
    (h : instructionsOnto fuel done c = .ok ds c') :
    ∃ new, ds.toList = done.toList ++ new ∧ DecodedInstruction.ReadFrom c.pos new c.rest := by
  induction fuel generalizing done c with
  | zero =>
    cases h
    rw [List.length_eq_zero_iff.mp (Nat.le_zero.mp hfuel)]
    exact ⟨[], (List.append_nil _).symm, .nil _⟩
  | succ fuel ih =>
    unfold instructionsOnto at h
    split at h
    · next hend =>
      cases h
      rw [List.isEmpty_iff.mp hend]
      exact ⟨[], (List.append_nil _).symm, .nil _⟩
    · split at h
      · next d c₁ hd =>
        obtain ⟨hread, htook⟩ := instruction_took hd
        have hlen := hread.length_bytes (c.pos + d.instruction.size)
        have hpos : c₁.pos = c.pos + d.instruction.size := by rw [htook.pos, hlen]
        have hless : c₁.rest.length ≤ fuel := by
          have hsize := Layout.size_pos d.instruction
          rw [htook.rest, List.length_append, hlen] at hfuel
          omega
        obtain ⟨new, hnew, hrest⟩ := ih hless h
        refine ⟨d :: new, by rw [hnew, Array.toList_push, List.append_assoc]; rfl, ?_⟩
        rw [htook.rest]
        exact .cons hread (hpos ▸ hrest)
      · cases h

end Reader

/-! ## Instructions with their targets looked up -/

/-- An instruction that is what was read, with its targets where they were read to be. -/
structure Layout.Settles (l : Layout) (d : DecodedInstruction) (i : Instruction) : Prop where
  opcode : i.opcode = d.instruction.opcode
  fits : i.operand.fits i.kind = true
  bytes : ∀ ds, operandBytes i.kind i.operand ds = operandBytes d.instruction.kind d.instruction.operand ds
  placed : List.Forall₂ (fun (n : UInt32) t => l.starts.get? t = some n.toNat) d.targets i.targets

section Settling

variable {l : Layout} {d : DecodedInstruction} {i : Instruction} {start : Nat}

theorem Layout.Settles.size_eq (h : l.Settles d i) (hd : d.ReadAt start) : i.size = d.instruction.size := by
  have hlen : (d.distances 0).length = i.operand.targets.length := by
    rw [DecodedInstruction.distances, List.length_map]
    exact h.placed.length_eq
  rw [← hd.length_bytes 0, DecodedInstruction.bytes, List.length_append, ← h.bytes, length_operandBytes h.fits hlen,
    length_opcode, ← h.opcode, Layout.size_eq]

/-- The instruction is written with the bytes that were read. -/
theorem Layout.Settles.instruction_eq (h : l.Settles d i) (hd : d.ReadAt start) :
    l.instruction start i = .ok (d.bytes (start + d.instruction.size)) := by
  have hkind : i.kind = d.instruction.kind := congrArg (fun o : Opcode => o.info.operand) h.opcode
  have hdistances : List.Forall₂ (fun t x => l.distance (start + i.size) t = .ok x) i.targets
      (d.distances (start + d.instruction.size)) := by
    rw [DecodedInstruction.distances, List.forall₂_map_right_iff, h.size_eq hd]
    exact h.placed.flip.imp fun t n hn => distance_eq_ok.mpr ⟨n.toNat, hn, rfl⟩
  rw [instruction_of_distances h.fits hdistances (hkind ▸ hd.reach)
    (by rw [DecodedInstruction.distances, List.length_map]; exact hd.count), h.bytes, h.opcode]
  rfl

theorem Layout.pieces_of_readFrom {ds : List DecodedInstruction} {code : List UInt8}
    {es : List (InstrId × Instruction)} (h : DecodedInstruction.ReadFrom start ds code)
    (hall : List.Forall₂ (fun d e => l.Settles d e.2) ds es) : l.Pieces start es code := by
  induction h generalizing es with
  | nil =>
    cases hall
    exact .nil _
  | cons hd _ ih =>
    cases hall with
    | cons he hrest =>
      refine .cons (he.instruction_eq hd) ?_
      rw [he.size_eq hd]
      exact ih hrest

end Settling

namespace InstructionStream

variable {table : OffsetTable} {d : DecodedInstruction} {i : Instruction} {s : InstructionStream} {code : List UInt8}

theorem lookupAll_forall₂ {offsets : List UInt32} {ids : List InstrId} (h : lookupAll table offsets = .ok ids) :
    List.Forall₂ (fun (n : UInt32) t => table[n]? = some t) offsets ids := by
  refine (forall₂_of_mapM h).imp fun n t hn => ?_
  cases hfound : table[n]? with
  | none => rw [hfound] at hn; cases hn
  | some found => rw [hfound] at hn; cases hn; rfl

/-- Looking targets up changes nothing but the targets. -/
theorem resolve_bytes (hlen : d.targets.length = d.instruction.targets.length) (h : resolve table d = .ok i) :
    (∀ ds, Layout.operandBytes i.kind i.operand ds =
      Layout.operandBytes d.instruction.kind d.instruction.operand ds) ∧
      List.Forall₂ (fun (n : UInt32) t => table[n]? = some t) d.targets i.targets := by
  obtain ⟨⟨opcode, operand, offset⟩, targets⟩ := d
  cases operand with
  | target t =>
    obtain ⟨ids, hids, h⟩ := bind_ok.mp h
    have hall := lookupAll_forall₂ hids
    obtain ⟨id, rfl⟩ := List.length_eq_one_iff.mp (hall.length_eq.symm.trans hlen)
    cases h
    exact ⟨fun _ => rfl, hall⟩
  | switch ts =>
    obtain ⟨ids, hids, h⟩ := bind_ok.mp h
    cases h
    exact ⟨fun _ => rfl, lookupAll_forall₂ hids⟩
  | none | immediate | token =>
    cases h
    rw [List.length_eq_zero_iff.mp hlen]
    exact ⟨fun _ => rfl, .nil⟩

/-- What was read from the code of a stream. -/
structure DecodedFrom (s : InstructionStream) (code : List UInt8) (ds : List DecodedInstruction) : Prop where
  read : DecodedInstruction.ReadFrom 0 ds code
  resolved : List.Forall₂ (fun d i =>
    resolve (ofArray (ds.toArray.map DecodedInstruction.instruction)).offsetTable d = .ok i) ds s.program

theorem decode_decodedFrom (h : decode code = .ok s) : ∃ ds, s.DecodedFrom code ds := by
  have hparsed := parsed_of_decode h
  obtain ⟨ds, hds, h⟩ := bind_ok.mp h
  obtain ⟨is, his, h⟩ := bind_ok.mp h
  cases h
  rw [Array.mapM_eq_mapM_toList] at his
  obtain ⟨list, hlist, rfl⟩ := map_ok.mp his
  obtain ⟨c, hrun⟩ := Reader.run_ok hds
  obtain ⟨new, hnew, hread⟩ := Reader.instructionsOnto_took (Nat.le_of_eq (Cursor.length_rest _)) hrun
  obtain rfl : ds.toList = new := hnew
  refine ⟨ds.toList, hread, ?_⟩
  rw [hparsed.program_eq]
  exact forall₂_of_mapM hlist

section Decoded

variable {ds : List DecodedInstruction} (h : s.DecodedFrom code ds) (hs : s.Parsed)

include h in
/-- The offsets of the layout are those at which the instructions were read. -/
theorem DecodedFrom.startAt_eq {k : Nat} : s.startAt k = ((ds.take k).map fun d => d.instruction.size).sum := by
  have hsize : ds.map (fun d => d.instruction.size) = s.program.map Instruction.size := by
    refine map_eq_of_forall₂ h.resolved fun d hd i hi => ?_
    obtain ⟨k, hk⟩ := List.mem_iff_getElem?.mp hd
    have hread := h.read.readAt hk
    obtain ⟨hbytes, hall⟩ := resolve_bytes hread.targets hi
    obtain ⟨hopcode, -, hfit, -⟩ := resolve_ok hread.targets hread.fits hi
    have hdi : (d.distances 0).length = d.instruction.operand.targets.length := by
      rw [DecodedInstruction.distances, List.length_map]
      exact hread.targets
    have hii : (d.distances 0).length = i.operand.targets.length := by
      rw [DecodedInstruction.distances, List.length_map]
      exact hall.length_eq
    rw [Layout.size_eq, Layout.size_eq, hopcode, ← Layout.length_operandBytes hread.fits hdi,
      ← Layout.length_operandBytes hfit hii, hbytes]
  unfold startAt
  rw [List.map_take, List.map_take, hsize]

include h hs in
/-- An instruction that was found at an offset starts there in the layout. -/
theorem DecodedFrom.starts_of_table {n : UInt32} {t : InstrId}
    (ht : (ofArray (ds.toArray.map DecodedInstruction.instruction)).offsetTable[n]? = some t) :
    s.layout.starts.get? t = some n.toNat := by
  obtain ⟨j, hj, hoffset⟩ := offsetTable_sound ht
  have hget := (mem_entries.mp hj).2
  unfold get? ofArray at hget
  dsimp only at hget
  rw [Array.getElem?_map, List.getElem?_toArray] at hget
  obtain ⟨d, hd, rfl⟩ := Option.map_eq_some_iff.mp hget
  have hread := h.read.readAt hd
  rw [Nat.zero_add, ← h.startAt_eq] at hread
  have hn : UInt32.ofNat (s.startAt t.index) = n := Option.some_inj.mp (hread.offset.symm.trans hoffset)
  have hlt : t.index < s.arena.size := by
    have := (List.getElem?_eq_some_iff.mp hd).1
    rwa [h.resolved.length_eq, hs.program_eq, Array.length_toList] at this
  have hid : s.ids[t.index]? = some t := by
    rw [hs.ids_eq, List.getElem?_map, List.getElem?_range hlt]
    rfl
  rw [← hn, toNat_word hread.limit]
  exact hs.wellFormed.starts_layout hid

include h hs in
/-- Decoded code is what its stream is written as, where it stands. -/
theorem DecodedFrom.encodedAs : EncodedAs s ⟨code, s.layout.starts⟩ where
  starts := rfl
  startAt_lt k hk := by
    have hlen : ds.length = s.ids.length := h.resolved.length_eq.trans hs.wellFormed.length_program
    have hread := h.read.readAt (List.getElem?_eq_getElem (hlen ▸ hk))
    rw [Nat.zero_add, ← h.startAt_eq] at hread
    exact hread.limit
  pieces := by
    refine Layout.pieces_of_readFrom h.read ?_
    rw [← List.forall₂_map_right_iff]
    refine forall₂_imp_mem h.resolved fun d hd i hi => ?_
    obtain ⟨k, hk⟩ := List.mem_iff_getElem?.mp hd
    have hread := h.read.readAt hk
    obtain ⟨hbytes, hall⟩ := resolve_bytes hread.targets hi
    obtain ⟨hopcode, -, hfit, -⟩ := resolve_ok hread.targets hread.fits hi
    exact ⟨hopcode, hfit, hbytes, hall.imp fun n t ht => h.starts_of_table hs ht⟩

end Decoded

/--
Decoded code is written back byte for byte, whatever forms its branches have: the stream stays as it is, and every
instruction gets the offset at which it was read.
-/
theorem encode_eq_of_decode (h : decode code = .ok s) :
    ∃ e, s.encode = .ok e s ∧ e.code = code ∧
      ∀ id i, (id, i) ∈ s.entries → ∃ offset, i.offset = some offset ∧ e.starts.get? id = some offset.toNat := by
  have hs := parsed_of_decode h
  obtain ⟨ds, hds⟩ := decode_decodedFrom h
  refine ⟨⟨code, s.layout.starts⟩, (hds.encodedAs hs).encode hs.wellFormed, rfl, fun id i hi => ?_⟩
  obtain ⟨hid, hget⟩ := mem_entries.mp hi
  obtain ⟨k, hk⟩ := List.mem_iff_getElem?.mp hid
  have hprogram := hs.wellFormed.program_getElem? hk
  rw [hget] at hprogram
  obtain ⟨d, hd, hresolved⟩ := exists_getElem?_of_forall₂ hds.resolved hprogram
  have hread := hds.read.readAt hd
  rw [Nat.zero_add, ← hds.startAt_eq] at hread
  obtain ⟨-, hoffset, -⟩ := resolve_ok hread.targets hread.fits hresolved
  refine ⟨_, hoffset.trans hread.offset, ?_⟩
  rw [toNat_word hread.limit]
  exact hs.wellFormed.starts_layout hk

/-- A short branch back, a long branch that a short one could replace, and switches with one case and with none. -/
theorem encode_eq_of_decode_branches : ∃ s e,
    decode [0x00, 0x2B, 0xFD, 0x38, 0, 0, 0, 0, 0x45, 1, 0, 0, 0, 0xF7, 0xFF, 0xFF, 0xFF, 0x45, 0, 0, 0, 0, 0x2A] =
      .ok s ∧ s.length = 6 ∧ s.encode = .ok e s ∧
    e.code = [0x00, 0x2B, 0xFD, 0x38, 0, 0, 0, 0, 0x45, 1, 0, 0, 0, 0xF7, 0xFF, 0xFF, 0xFF, 0x45, 0, 0, 0, 0, 0x2A] := by
  obtain ⟨s, hs, hlen⟩ : ∃ s, decode [0x00, 0x2B, 0xFD, 0x38, 0, 0, 0, 0, 0x45, 1, 0, 0, 0, 0xF7, 0xFF, 0xFF, 0xFF, 0x45,
      0, 0, 0, 0, 0x2A] = .ok s ∧ s.length = 6 := by
    decide +kernel
  obtain ⟨e, he, hcode, -⟩ := encode_eq_of_decode hs
  exact ⟨s, e, hs, hlen, he, hcode⟩

end InstructionStream

end CilProbes
