import CilProbes.Module.Initializer
import CilProbes.Proofs.Probe.Carrying

/-!
# Code behind an opening

A body may get instructions in front of all its code that nothing refers to (`MethodBody.Opened`), such as the call
that prepares recording. When probes are spliced behind such an opening, and the body is written and read again, the
program is the opening followed by the instructions that were there, each behind its probes
(`MethodBody.Opened.rewritten`).
-/

namespace CilProbes

namespace Instruction

/-- Changes a token operand. -/
def mapToken (f : Token → Token) (i : Instruction) : Instruction :=
  match i.operand with
  | .token t => { i with operand := .token (f t) }
  | _ => i

theorem targets_mapToken (f : Token → Token) (i : Instruction) : (i.mapToken f).targets = i.targets := by
  unfold mapToken
  split
  · next h =>
    unfold targets
    rw [h]
    rfl
  · rfl

end Instruction

theorem Method.mapTokens_eq (f : Token → Token) (m : Method) :
    m.mapTokens f = { m with body := m.body.map fun b => b.withCode (b.code.map (Instruction.mapToken f)) } :=
  rfl

theorem Instruction.mapToken_id (i : Instruction) : i.mapToken id = i := by
  obtain ⟨opcode, operand, offset⟩ := i
  cases operand <;> rfl

/-! ## Instructions in front -/

namespace InstructionStream

variable {s t : InstructionStream} {front back : List InstrId} {is : List Instruction}

/-- Inserted instructions get the next handles. -/
theorem insertAllAt_ids (h : s.ids = front ++ back) (ht : s.insertAllAt front.length is = .ok t) :
    t.ids = front ++ (List.range is.length).map (fun j => ⟨s.arena.size + j⟩) ++ back ∧
      t.arena.toList = s.arena.toList ++ is := by
  induction is generalizing s front with
  | nil =>
    cases ht
    exact ⟨by rw [List.length_nil, List.range_zero, List.map_nil, List.append_nil, h], (List.append_nil _).symm⟩
  | cons i is ih =>
    obtain ⟨s', hs', ht⟩ := bind_ok.mp ht
    obtain ⟨u, hu, harena, hids⟩ := insertAt_ok h i
    rw [hs'] at hu
    cases hu
    have hids' : s'.ids = front ++ [s.nextId] ++ back := by rw [hids, List.append_assoc, List.singleton_append]
    rw [show front.length + 1 = (front ++ [s.nextId]).length by simp] at ht
    obtain ⟨htids, htarena⟩ := ih hids' ht
    have hsize : s'.arena.size = s.arena.size + 1 := by rw [harena, Array.size_push]
    refine ⟨?_, ?_⟩
    · rw [htids, hsize, List.length_cons, List.range_succ_eq_map, List.map_cons, List.map_map, List.append_assoc front]
      refine congrArg (fun fresh => front ++ fresh ++ back) (congrArg (s.nextId :: ·) ?_)
      refine List.map_congr_left fun j _ => ?_
      rw [Function.comp_apply, Nat.succ_eq_add_one, Nat.add_assoc, Nat.add_comm 1]
    · rw [htarena, harena, Array.toList_push, List.append_assoc, List.singleton_append]

end InstructionStream

namespace MethodBody

/-- The body is the other one with its tokens replaced, and with the opening in front of all its code. -/
structure Opened (opening : List Instruction) (f : Token → Token) (b b' : MethodBody) : Prop where
  ids : ∃ fresh, b'.code.ids = fresh ++ b.code.ids ∧ (∀ id ∈ fresh, b.code.arena.size ≤ id.index) ∧
    fresh.map b'.code.get? = opening.map some
  size : b.code.arena.size ≤ b'.code.arena.size
  get? : ∀ id, id.index < b.code.arena.size → b'.code.get? id = (b.code.get? id).map (Instruction.mapToken f)
  rest : ∃ maxStack, b' = { b with code := b'.code, maxStack }

variable {b b' b₁ b₂ b₃ r : MethodBody} {opening : List Instruction} {f : Token → Token} {ps : List Splicing}
  {code : InstructionStream} {maxStack : UInt16} {k : Nat}

theorem opened_map (b : MethodBody) (f : Token → Token) :
    b.Opened [] f (b.withCode (b.code.map (Instruction.mapToken f))) where
  ids := ⟨[], rfl, fun _ h => absurd h List.not_mem_nil, rfl⟩
  size := Nat.le_of_eq (Array.size_map ..).symm
  get? _ _ := Array.getElem?_map ..
  rest := ⟨b.maxStack, rfl⟩

theorem Opened.insertAllAt (h : b.Opened [] f b₁) (hcode : b₁.code.insertAllAt 0 opening = .ok code) :
    b.Opened opening f { b₁.withCode code with maxStack } := by
  obtain ⟨fresh, hids, -, hnone⟩ := h.ids
  obtain rfl : fresh = [] := List.map_eq_nil_iff.mp hnone
  have hfront : b₁.code.ids = [] ++ b₁.code.ids := rfl
  obtain ⟨hcodeIds, harena⟩ := InstructionStream.insertAllAt_ids hfront hcode
  rw [List.nil_append] at hids hcodeIds
  have hget (n : Nat) : code.get? ⟨n⟩ = (b₁.code.arena.toList ++ opening)[n]? := by
    rw [← harena, Array.getElem?_toList]
    rfl
  refine ⟨⟨_, hids ▸ hcodeIds, fun id hid => ?_, ?_⟩, ?_, fun id hid => ?_, ?_⟩
  · obtain ⟨j, -, rfl⟩ := List.mem_map.mp hid
    exact Nat.le_trans h.size (Nat.le_add_right ..)
  · rw [List.map_map]
    refine List.ext_getElem (by simp) fun j hj _ => ?_
    have hlt : j < opening.length := by simpa using hj
    rw [List.getElem_map, List.getElem_range, List.getElem_map]
    show code.get? _ = _
    rw [hget, List.getElem?_append_right (by simp), Array.length_toList, Nat.add_sub_cancel_left,
      List.getElem?_eq_getElem hlt]
  · show b.code.arena.size ≤ code.arena.size
    have hlen := congrArg List.length harena
    rw [List.length_append, Array.length_toList, Array.length_toList] at hlen
    rw [hlen]
    exact Nat.le_trans h.size (Nat.le_add_right ..)
  · rw [← h.get? id hid]
    show code.get? ⟨id.index⟩ = _
    rw [hget, List.getElem?_append_left (by simpa using Nat.lt_of_lt_of_le hid h.size), Array.getElem?_toList]
    rfl
  · obtain ⟨old, hrest⟩ := h.rest
    refine ⟨maxStack, ?_⟩
    rw [hrest]
    rfl

/-! ## Probes behind an opening -/

section Spliced

variable (hb : b.Parsed) (h : b.Opened opening f b₂) (hps : ∀ p ∈ ps, p.target.index < b.code.arena.size)

include hps in
/-- The opening has no probes. -/
theorem filter_target_eq_nil {id : InstrId} (hid : b.code.arena.size ≤ id.index) : ps.filter (·.target = id) = [] := by
  refine List.filter_eq_nil_iff.mpr fun p hp htarget => ?_
  have hlt := hps p hp
  rw [of_decide_eq_true htarget] at hlt
  exact Nat.not_le.mpr hlt hid

include hb h hps in
theorem Opened.ids_spliced (hs : b₂.Spliced ps b₃) : ∃ fresh : List InstrId, fresh.length = opening.length ∧
    b₃.code.ids = fresh ++ (List.range b.code.arena.size).flatMap fun k =>
      Splicing.handlesAt ⟨k⟩ b₂.code.arena.size ps ++ [(⟨k⟩ : InstrId)] := by
  obtain ⟨fresh, hids, hnew, hopening⟩ := h.ids
  have hlen := congrArg List.length hopening
  rw [List.length_map, List.length_map] at hlen
  refine ⟨fresh, hlen, ?_⟩
  rw [hs.ids, hids, List.flatMap_append, hb.code.ids_eq, List.flatMap_map]
  refine congrArg (· ++ _) ?_
  have hnone : ∀ id ∈ fresh, Splicing.handlesAt id b₂.code.arena.size ps ++ [id] = [id] := fun id hid => by
    have hlen : (Splicing.handlesAt id b₂.code.arena.size ps).length = 0 := by
      rw [Splicing.length_handlesAt, filter_target_eq_nil hps (hnew id hid)]
      rfl
    rw [List.eq_nil_of_length_eq_zero hlen, List.nil_append]
  rw [List.flatMap_congr hnone, List.flatMap_singleton']

include hb h hps in
theorem Opened.probedProgram_eq (haccepted : ∀ p ∈ ps, p.isAccepted = true) : b₂.probedProgram ps = opening ++
    (List.range b.code.arena.size).flatMap fun k => (Splicing.ahead ps k).flatMap Splicing.probe ++
      ((b.code.get? ⟨k⟩).map (Instruction.mapToken f)).toList := by
  obtain ⟨fresh, hids, hnew, hopening⟩ := h.ids
  unfold probedProgram
  rw [hids, List.flatMap_append, hb.code.ids_eq, List.flatMap_map]
  refine congrArg₂ _ ?_ (List.flatMap_congr fun k hk => ?_)
  · have hfresh : (fresh.flatMap fun id => (ps.filter (·.target = id)).flatMap Splicing.probe ++ (b₂.code.get? id).toList) =
        (fresh.map b₂.code.get?).flatMap Option.toList := by
      rw [List.flatMap_map]
      refine List.flatMap_congr fun id hid => ?_
      rw [filter_target_eq_nil hps (hnew id hid)]
      rfl
    rw [hfresh, hopening, List.flatMap_map]
    exact List.flatMap_singleton' _
  · rw [h.get? ⟨k⟩ (List.mem_range.mp hk)]
    unfold Splicing.ahead
    rw [List.filter_eq_self.mpr haccepted]

theorem length_handlesAt_ahead (haccepted : ∀ p ∈ ps, p.isAccepted = true) (next k : Nat) :
    (Splicing.handlesAt ⟨k⟩ next ps).length = 3 * (Splicing.ahead ps k).length := by
  unfold Splicing.ahead
  rw [Splicing.length_handlesAt, List.filter_eq_self.mpr haccepted]

include hb h hps in
/-- The handles of the block of an instruction lie behind the opening, from its entry on. -/
theorem Opened.place_block (haccepted : ∀ p ∈ ps, p.isAccepted = true) (hs : b₂.Spliced ps b₃) (hb₃ : b₃.WellFormed)
    (hk : k < b.code.arena.size) {j : Nat} {id : InstrId}
    (hid : (Splicing.handlesAt ⟨k⟩ b₂.code.arena.size ps ++ [(⟨k⟩ : InstrId)])[j]? = some id) :
    b₃.code.place id = ⟨opening.length + (Splicing.enter ps k + j)⟩ := by
  have hj := (List.getElem?_eq_some_iff.mp hid).1
  obtain ⟨fresh, hlen, hids⟩ := h.ids_spliced hb hps hs
  have hblock (k : Nat) (_ : k < b.code.arena.size) :
      (Splicing.handlesAt ⟨k⟩ b₂.code.arena.size ps ++ [(⟨k⟩ : InstrId)]).length =
        3 * (Splicing.ahead ps k).length + 1 := by
    rw [List.length_append, length_handlesAt_ahead haccepted]
    rfl
  refine hb₃.code.place_eq ?_
  rw [hids, ← hlen, List.getElem?_append_right (Nat.le_add_right ..), Nat.add_sub_cancel_left,
    (Splicing.flatMap_range_getElem? hblock).2 k hk j hj]
  exact hid

include hb h hps in
theorem Opened.place_entry (haccepted : ∀ p ∈ ps, p.isAccepted = true) (hs : b₂.Spliced ps b₃) (hb₃ : b₃.WellFormed)
    (hk : k < b.code.arena.size) : b₃.code.place (Splicing.entry b₂.code.arena.size ps ⟨k⟩) =
      ⟨opening.length + Splicing.enter ps k⟩ := by
  refine h.place_block hb hps haccepted hs hb₃ hk (j := 0) ?_
  unfold Splicing.entry
  cases Splicing.handlesAt ⟨k⟩ b₂.code.arena.size ps <;> rfl

include hb h hps in
theorem Opened.place_home (haccepted : ∀ p ∈ ps, p.isAccepted = true) (hs : b₂.Spliced ps b₃) (hb₃ : b₃.WellFormed)
    (hk : k < b.code.arena.size) : b₃.code.place ⟨k⟩ = ⟨opening.length + Splicing.home ps k⟩ := by
  refine h.place_block hb hps haccepted hs hb₃ hk ?_
  rw [← length_handlesAt_ahead haccepted b₂.code.arena.size k]
  exact List.getElem?_concat_length

end Spliced

/-! ## Reading back -/

/-- Where the first probe of an instruction lies behind an opening. -/
def enterBehind (opening : List Instruction) (ps : List Splicing) (id : InstrId) : InstrId :=
  ⟨opening.length + Splicing.enter ps id.index⟩

/-- Where an instruction lies behind an opening and its probes. -/
def homeBehind (opening : List Instruction) (ps : List Splicing) (id : InstrId) : InstrId :=
  ⟨opening.length + Splicing.home ps id.index⟩

/--
The code of `r` is the opening and the instructions of `b`, with their tokens replaced, each behind its probes. Branches
and clauses refer to the first probes of what they referred to, and nothing refers to the opening.
-/
structure Rewritten (opening : List Instruction) (f : Token → Token) (ps : List Splicing) (b r : MethodBody) : Prop where
  order : r.code = InstructionStream.ofArray r.code.arena
  program : List.Forall₂ (Instruction.Carried (enterBehind opening ps)) (opening ++ (List.range b.code.length).flatMap fun k =>
    (Splicing.ahead ps k).flatMap Splicing.probe ++ ((b.code.get? ⟨k⟩).map (Instruction.mapToken f)).toList)
      r.code.arena.toList
  clauses : r.clauses = b.clauses.map (ExceptionClause.mapReferences (enterBehind opening ps))
  unreferenced : ∀ id ∈ r.references, opening.length ≤ id.index
  initLocals : r.initLocals = b.initLocals
  localSignature : r.localSignature = b.localSignature

/-- Branches refer to instructions of the body. -/
theorem inside_behind (hb : b.Parsed) (hopening : ∀ i ∈ opening, i.targets = []) : ∀ i ∈ opening ++
    (List.range b.code.length).flatMap (fun k => (Splicing.ahead ps k).flatMap Splicing.probe ++
      ((b.code.get? ⟨k⟩).map (Instruction.mapToken f)).toList), ∀ t ∈ i.targets, t.index < b.code.arena.size := by
  intro i hi t ht
  rcases List.mem_append.mp hi with hi | hi
  · rw [hopening i hi] at ht
    exact absurd ht List.not_mem_nil
  · obtain ⟨k, -, hi⟩ := List.mem_flatMap.mp hi
    rcases List.mem_append.mp hi with hi | hi
    · rw [(Instruction.plain_of_mem_probe hi).2.1] at ht
      exact absurd ht List.not_mem_nil
    · obtain ⟨j, hj, rfl⟩ := Option.map_eq_some_iff.mp (Option.mem_toList.mp hi)
      rw [Instruction.targets_mapToken] at ht
      exact hb.code.inside j (Array.mem_of_getElem? hj) t ht

theorem Opened.clauses_written (hb : b.Parsed) (h : b.Opened opening f b₂) (hs : b₂.Spliced ps b₃)
    (hr : ({ b₃ with maxStack } : MethodBody).Widened r) (hentry : ∀ id : InstrId, id.index < b.code.arena.size →
      r.code.place (Splicing.entry b₂.code.arena.size ps id) = enterBehind opening ps id) :
    r.written.clauses = b.clauses.map (ExceptionClause.mapReferences (enterBehind opening ps)) := by
  obtain ⟨old, hrest⟩ := h.rest
  show r.clauses.map _ = _
  rw [congrArg MethodBody.clauses hr.rest]
  show b₃.clauses.map _ = _
  rw [congrArg MethodBody.clauses hs.rest]
  show (b₂.clauses.map _).map _ = _
  rw [congrArg MethodBody.clauses hrest, List.map_map]
  refine List.map_congr_left fun c hc => ?_
  rw [Function.comp_apply, ExceptionClause.mapReferences_mapReferences]
  exact ExceptionClause.mapReferences_congr fun id hid => hentry id (hb.inside c hc id hid)

/-- What refers to first probes does not refer to the opening. -/
theorem unreferenced_of_carried {is : List Instruction} {clauses : List ExceptionClause}
    (hprogram : List.Forall₂ (Instruction.Carried (enterBehind opening ps)) is r.code.arena.toList)
    (hclauses : r.clauses = clauses.map (ExceptionClause.mapReferences (enterBehind opening ps))) :
    ∀ id ∈ r.references, opening.length ≤ id.index := by
  intro id hid
  rcases List.mem_append.mp hid with hid | hid
  · rw [hclauses] at hid
    obtain ⟨c, hc, hid⟩ := List.mem_flatMap.mp hid
    obtain ⟨c, -, rfl⟩ := List.mem_map.mp hc
    rw [ExceptionClause.references_mapReferences] at hid
    obtain ⟨old, -, rfl⟩ := List.mem_map.mp hid
    exact Nat.le_add_right ..
  · obtain ⟨i', hi', hid⟩ := List.mem_flatMap.mp hid
    obtain ⟨i, -, hcarried⟩ := exists_of_mem_right hprogram i' hi'
    rw [hcarried.targets] at hid
    obtain ⟨old, -, rfl⟩ := List.mem_map.mp hid
    exact Nat.le_add_right ..

theorem Opened.rewritten (hb : b.Parsed) (h : b.Opened opening f b₂) (hb₂ : b₂.WellFormed)
    (hopening : ∀ i ∈ opening, i.targets = []) (hps : ∀ p ∈ ps, p.target.index < b.code.arena.size)
    (haccepted : ∀ p ∈ ps, p.isAccepted = true) (hs : b₂.Spliced ps b₃) (hb₃ : b₃.WellFormed)
    (hr : ({ b₃ with maxStack } : MethodBody).Widened r) :
    b.Rewritten opening f ps r.written ∧
      ∀ id : InstrId, id.index < b.code.arena.size → r.code.place id = homeBehind opening ps id := by
  have hwf : r.WellFormed := hr.wellFormed ⟨hb₃.code, hb₃.clauses⟩
  have hplace (id : InstrId) : r.code.place id = b₃.code.place id := by
    unfold InstructionStream.place
    rw [hr.code.ids]
  have hentry (id : InstrId) (hid : id.index < b.code.arena.size) :
      r.code.place (Splicing.entry b₂.code.arena.size ps id) = enterBehind opening ps id := by
    rw [hplace]
    exact h.place_entry hb hps haccepted hs hb₃ hid
  have harena : r.written.code.program = r.written.code.arena.toList :=
    InstructionStream.program_ofArray (InstructionStream.wellFormed_written hwf.code).fits
  have hcarried := hs.carried hb₂ hb₃ hr.code hwf
  rw [h.probedProgram_eq hb hps haccepted, ← hb.code.length_eq, harena] at hcarried
  have hprogram := forall₂_imp_mem hcarried fun i hi i' hcarried =>
    hcarried.congr fun t ht => hentry t (inside_behind hb hopening i hi t ht)
  have hclauses := h.clauses_written hb hs hr hentry
  obtain ⟨old, hrest⟩ := h.rest
  refine ⟨⟨rfl, hprogram, hclauses, unreferenced_of_carried hprogram hclauses, ?_, ?_⟩, fun id hid => ?_⟩
  · exact (congrArg MethodBody.initLocals hr.rest :).trans ((congrArg MethodBody.initLocals hs.rest :).trans
      (congrArg MethodBody.initLocals hrest :))
  · exact (congrArg MethodBody.localSignature hr.rest :).trans ((congrArg MethodBody.localSignature hs.rest :).trans
      (congrArg MethodBody.localSignature hrest :))
  · rw [hplace]
    exact h.place_home hb hps haccepted hs hb₃ hid

/-- An instruction lies behind the opening and its probes, with its token replaced. -/
theorem Rewritten.exists_home (h : b.Rewritten opening f ps r) (hb : b.Parsed) {id : InstrId} {i : Instruction}
    (hi : b.code.get? id = some i) : ∃ i', r.code.get? (homeBehind opening ps id) = some i' ∧
      (i.mapToken f).Carried (enterBehind opening ps) i' := by
  have hid : id.index < b.code.length := hb.code.length_eq ▸ (InstructionStream.get?_eq_some.mp hi).1
  have hblock (k : Nat) (hk : k < b.code.length) : ((Splicing.ahead ps k).flatMap Splicing.probe ++
      ((b.code.get? ⟨k⟩).map (Instruction.mapToken f)).toList).length = 3 * (Splicing.ahead ps k).length + 1 :=
    length_block hb (hb.code.length_eq ▸ hk)
  have hlen : ((Splicing.ahead ps id.index).flatMap Splicing.probe).length = 3 * (Splicing.ahead ps id.index).length :=
    Splicing.length_probes _
  obtain ⟨i', hi', hcarried⟩ := exists_getElem?_of_forall₂ h.program.flip (i := opening.length + Splicing.home ps id.index)
    (b := i.mapToken f) (by
      rw [List.getElem?_append_right (Nat.le_add_right ..), Nat.add_sub_cancel_left, Splicing.home,
        (Splicing.flatMap_range_getElem? hblock).2 id.index hid _ (by rw [hblock _ hid]; exact Nat.lt_succ_self _),
        List.getElem?_append_right (Nat.le_of_eq hlen), hlen, Nat.sub_self, hi]
      rfl)
  refine ⟨i', ?_, hcarried⟩
  rw [Array.getElem?_toList] at hi'
  exact hi'

end MethodBody

end CilProbes
