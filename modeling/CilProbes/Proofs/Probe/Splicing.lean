import CilProbes.Proofs.Body.Parsing
import CilProbes.Probe.Splice
import Mathlib.Data.List.Induction

/-!
# Bodies with spliced probes

What any number of splices make of a body (`Spliced`, `spliced_spliceAll`): in front of every instruction stand the
probes for it, in the order in which they were spliced, and everything that referred to an instruction with probes
refers to the first of them.
-/

namespace CilProbes

/-- A probe that is to be put in front of an instruction. -/
structure Splicing where
  target : InstrId
  api : ProbeApi
  id : UInt32
  deriving DecidableEq

namespace Splicing

/-- The number of the probe can be pushed as a signed word. -/
def isAccepted (p : Splicing) : Bool :=
  p.id ≤ 0x7FFFFFFF

/-- The instructions of the probe. -/
def probe (p : Splicing) : List Instruction :=
  p.api.probe p.id

/-- The handles of a probe. -/
def handles (next : Nat) : List InstrId :=
  [⟨next⟩, ⟨next + 1⟩, ⟨next + 2⟩]

/-- The handles of the probes in front of an instruction, where the first probe of all gets the handle `next`. -/
def handlesAt (id : InstrId) : (next : Nat) → List Splicing → List InstrId
  | _, [] => []
  | next, p :: ps => if p.target = id then handles next ++ handlesAt id (next + 3) ps else handlesAt id (next + 3) ps

/-- The first instruction of the probes in front of an instruction, or the instruction if it has none. -/
def entry (next : Nat) (ps : List Splicing) (id : InstrId) : InstrId :=
  (handlesAt id next ps).headD id

theorem length_probes (ps : List Splicing) : (ps.flatMap probe).length = 3 * ps.length := by
  induction ps with
  | nil => rfl
  | cons p ps ih =>
    rw [List.flatMap_cons, List.length_append, ih, List.length_cons]
    show 3 + _ = _
    omega

/-- A probe has no branches. -/
theorem map_mapTargets_probe (f : InstrId → InstrId) (p : Splicing) :
    p.probe.map (Instruction.mapTargets f) = p.probe :=
  rfl

theorem map_mapTargets_probes (f : InstrId → InstrId) (ps : List Splicing) :
    (ps.flatMap probe).map (Instruction.mapTargets f) = ps.flatMap probe := by
  simp only [List.map_flatMap, map_mapTargets_probe]

variable {next : Nat} {ps : List Splicing} {p : Splicing} {id : InstrId}

theorem handlesAt_concat : handlesAt id next (ps ++ [p]) =
    handlesAt id next ps ++ if p.target = id then handles (next + 3 * ps.length) else [] := by
  induction ps generalizing next with
  | nil =>
    simp only [List.nil_append, handlesAt, List.length_nil, Nat.mul_zero, Nat.add_zero, List.append_nil]
  | cons q ps ih =>
    have hnext : next + 3 + 3 * ps.length = next + 3 * (q :: ps).length := by rw [List.length_cons]; omega
    rw [List.cons_append, handlesAt, handlesAt, ih, hnext]
    split
    · rw [List.append_assoc]
    · rfl

/-- The handles of probes are new. -/
theorem le_of_mem_handlesAt {x : InstrId} (h : x ∈ handlesAt id next ps) :
    next ≤ x.index ∧ x.index < next + 3 * ps.length := by
  induction ps generalizing next with
  | nil => cases h
  | cons q ps ih =>
    have hrest (hx : x ∈ handlesAt id (next + 3) ps) : next ≤ x.index ∧ x.index < next + 3 * (q :: ps).length := by
      have := ih hx
      rw [List.length_cons]
      omega
    rw [handlesAt] at h
    split at h
    · rcases List.mem_append.mp h with h | h
      · simp only [handles, List.mem_cons, List.not_mem_nil, or_false] at h
        rcases h with rfl | rfl | rfl <;> simp only [List.length_cons] <;> omega
      · exact hrest h
    · exact hrest h

theorem length_handlesAt : (handlesAt id next ps).length = 3 * (ps.filter (·.target = id)).length := by
  induction ps generalizing next with
  | nil => rfl
  | cons q ps ih =>
    rw [handlesAt]
    split
    · next h =>
      rw [List.filter_cons_of_pos (by simpa using h), List.length_append, ih, List.length_cons]
      show 3 + _ = _
      omega
    · next h => rw [List.filter_cons_of_neg (by simpa using h), ih]

/-- A handle of a probe at an instruction comes from a splice there. -/
theorem exists_of_mem_handlesAt {x : InstrId} (h : x ∈ handlesAt id next ps) :
    ∃ p ∈ ps, p.target = id := by
  have hpos := List.length_pos_of_mem h
  rw [length_handlesAt] at hpos
  obtain ⟨p, hp⟩ := List.exists_mem_of_length_pos (l := ps.filter (·.target = id)) (by omega)
  obtain ⟨hp, htarget⟩ := List.mem_filter.mp hp
  exact ⟨p, hp, of_decide_eq_true htarget⟩

/-- The entry is the first of the probes and the instruction. -/
theorem getElem?_entry (next : Nat) (ps : List Splicing) (id : InstrId) :
    (handlesAt id next ps ++ [id])[0]? = some (entry next ps id) := by
  unfold entry
  cases handlesAt id next ps <;> rfl

theorem entry_mem (next : Nat) (ps : List Splicing) (id : InstrId) :
    entry next ps id ∈ handlesAt id next ps ++ [id] :=
  List.mem_of_getElem? (getElem?_entry next ps id)

/-- A further probe becomes the entry of its instruction if that has none yet. -/
theorem entry_concat (hp : p.target.index < next) :
    entry next (ps ++ [p]) id =
      if entry next ps id = p.target then ⟨next + 3 * ps.length⟩ else entry next ps id := by
  unfold entry
  rw [handlesAt_concat]
  cases hold : handlesAt id next ps with
  | nil =>
    simp only [List.nil_append, List.headD_nil, eq_comm (a := id)]
    split <;> rfl
  | cons x xs =>
    have hx := (le_of_mem_handlesAt (x := x) (hold ▸ List.mem_cons_self)).1
    have hne : x ≠ p.target := fun h => by rw [h] at hx; omega
    rw [List.cons_append, List.headD_cons, List.headD_cons, if_neg hne]

end Splicing

/-! ## Inserting instructions -/

namespace InstructionStream

variable {s : InstructionStream} {front back : List InstrId}

/-- The instructions of a probe stand in front of the place where they were inserted. -/
theorem insertProbe_ok (h : s.ids = front ++ back) (api : ProbeApi) (id : UInt32) :
    ∃ t, s.insertAllAt front.length (api.probe id) = .ok t ∧ t.arena.toList = s.arena.toList ++ api.probe id ∧
      t.ids = front ++ (Splicing.handles s.arena.size ++ back) := by
  obtain ⟨t₁, h₁, harena₁, hids₁⟩ := insertAt_ok h (.loadString api.hitsFile)
  have hids₁ : t₁.ids = front ++ [s.nextId] ++ back := by rw [hids₁, List.append_assoc, List.singleton_append]
  obtain ⟨t₂, h₂, harena₂, hids₂⟩ := insertAt_ok hids₁ (.loadInt id.toInt32)
  have hids₂ : t₂.ids = front ++ [s.nextId] ++ [t₁.nextId] ++ back := by
    rw [hids₂, List.append_assoc (front ++ _), List.singleton_append]
  obtain ⟨t₃, h₃, harena₃, hids₃⟩ := insertAt_ok hids₂ (.call api.hitMethod)
  rw [List.length_append, List.length_singleton] at h₂
  rw [List.length_append, List.length_append, List.length_singleton, List.length_singleton] at h₃
  refine ⟨t₃, ?_, ?_, ?_⟩
  · exact bind_ok.mpr ⟨t₁, h₁, bind_ok.mpr ⟨t₂, h₂, bind_ok.mpr ⟨t₃, h₃, rfl⟩⟩⟩
  · simp [harena₃, harena₂, harena₁, ProbeApi.probe]
  · simp [hids₃, Splicing.handles, nextId, harena₁, harena₂]

end InstructionStream

/-! ## Splices -/

namespace MethodBody

/-- Splices one probe after another; a splice that is refused changes nothing. -/
def spliceAll (b : MethodBody) (ps : List Splicing) : MethodBody :=
  ps.foldl (fun b p =>
    match b.splice p.target p.api p.id with
    | .ok (_, b) => b
    | .error _ => b) b

/-- What splicing the given probes, all of them accepted, makes of a body. -/
structure Spliced (b : MethodBody) (ps : List Splicing) (b' : MethodBody) : Prop where
  ids : b'.code.ids = b.code.ids.flatMap fun id => Splicing.handlesAt id b.code.arena.size ps ++ [id]
  arena : b'.code.arena.toList =
    b.code.arena.toList.map (Instruction.mapTargets (Splicing.entry b.code.arena.size ps)) ++ ps.flatMap Splicing.probe
  rest : b' = { b with
    code := b'.code
    clauses := b.clauses.map (ExceptionClause.mapReferences (Splicing.entry b.code.arena.size ps)) }

variable {b b' : MethodBody} {ps : List Splicing} {p : Splicing}

theorem Spliced.nil (b : MethodBody) : Spliced b [] b where
  ids := (List.flatMap_singleton' _).symm
  arena := by
    have hid : Splicing.entry b.code.arena.size [] = fun id => id := rfl
    rw [hid, List.flatMap_nil, List.append_nil]
    refine (List.map_id'' (fun i => ?_) _).symm
    rw [Instruction.mapTargets_eq, Operand.mapTargets_id]
  rest := by
    have hid : Splicing.entry b.code.arena.size [] = fun id => id := rfl
    rw [hid, List.map_id'' ExceptionClause.mapReferences_id]

theorem Spliced.size (h : Spliced b ps b') : b'.code.arena.size = b.code.arena.size + 3 * ps.length := by
  rw [← Array.length_toList, h.arena, List.length_append, List.length_map, Array.length_toList, Splicing.length_probes]

theorem accepted_of_splice {target entry : InstrId} {api : ProbeApi} {id : UInt32}
    (h : b.splice target api id = .ok (entry, b')) : id ≤ 0x7FFFFFFF := by
  unfold splice at h
  split at h
  · cases h
  · next hle => exact UInt32.not_lt.mp hle

/-- What is in front of the instruction that is to get another probe. -/
theorem Spliced.split_ids (h : Spliced b ps b') (hb : b.code.WellFormed) (htarget : p.target ∈ b.code.ids) :
    ∃ front back, p.target ∉ front ∧ b'.code.ids = front ++ p.target :: back ∧
      (b.code.ids.flatMap fun id => Splicing.handlesAt id b.code.arena.size (ps ++ [p]) ++ [id]) =
        front ++ (Splicing.handles b'.code.arena.size ++ p.target :: back) := by
  obtain ⟨front, back, hids⟩ := List.append_of_mem htarget
  have hnodup := hb.nodup
  rw [hids, List.nodup_middle, List.nodup_cons, List.mem_append, not_or] at hnodup
  obtain ⟨⟨hfront, hback⟩, _⟩ := hnodup
  have hsame (list : List InstrId) (hlist : p.target ∉ list) :
      (list.flatMap fun id => Splicing.handlesAt id b.code.arena.size (ps ++ [p]) ++ [id]) =
        list.flatMap fun id => Splicing.handlesAt id b.code.arena.size ps ++ [id] := by
    refine List.flatMap_congr fun id hid => ?_
    have hne : p.target ≠ id := fun heq => hlist (heq ▸ hid)
    rw [Splicing.handlesAt_concat, if_neg hne, List.append_nil]
  refine ⟨(front.flatMap fun id => Splicing.handlesAt id b.code.arena.size ps ++ [id]) ++
    Splicing.handlesAt p.target b.code.arena.size ps,
    back.flatMap fun id => Splicing.handlesAt id b.code.arena.size ps ++ [id], ?_, ?_, ?_⟩
  · have hold := (hb.mem_ids _).mp htarget
    rw [List.mem_append, not_or]
    refine ⟨fun hmem => ?_, fun hmem => ?_⟩
    · obtain ⟨id, hid, hmem⟩ := List.mem_flatMap.mp hmem
      rcases List.mem_append.mp hmem with hmem | hmem
      · exact absurd (Splicing.le_of_mem_handlesAt hmem).1 (Nat.not_le.mpr hold)
      · exact hfront (List.mem_singleton.mp hmem ▸ hid)
    · exact absurd (Splicing.le_of_mem_handlesAt hmem).1 (Nat.not_le.mpr hold)
  · rw [h.ids, hids]
    simp
  · rw [hids, List.flatMap_append, List.flatMap_cons, hsame front hfront, hsame back hback, Splicing.handlesAt_concat,
      if_pos rfl, h.size]
    simp

/-- One more probe that is accepted. -/
theorem Spliced.concat (h : Spliced b ps b') (hb : b.code.WellFormed) (htarget : p.target ∈ b.code.ids)
    (hp : p.isAccepted = true) : ∃ b'', b'.splice p.target p.api p.id = .ok (b'.code.nextId, b'') ∧
      Spliced b (ps ++ [p]) b'' := by
  obtain ⟨front, back, hfront, hids, hnew⟩ := h.split_ids hb htarget
  obtain ⟨code, hcode, harena, hcodeIds⟩ := InstructionStream.insertProbe_ok hids p.api p.id
  have hentry : (fun id => if id = p.target then b'.code.nextId else id) ∘ Splicing.entry b.code.arena.size ps =
      Splicing.entry b.code.arena.size (ps ++ [p]) := by
    funext id
    rw [Function.comp_apply, Splicing.entry_concat ((hb.mem_ids _).mp htarget), ← h.size]
    rfl
  refine ⟨(b'.withCode code).redirect p.target b'.code.nextId, ?_, ?_, ?_, ?_⟩
  · have hposition : b'.code.position? p.target = some front.length := by
      rw [InstructionStream.position?_eq, hids, InstructionStream.idxOf?_append hfront]
    have haccepted : ¬ 0x7FFFFFFF < p.id := UInt32.not_lt.mpr (of_decide_eq_true hp)
    unfold splice
    rw [if_neg haccepted, hposition]
    exact bind_ok.mpr ⟨code, hcode, rfl⟩
  · show code.ids = _
    rw [hcodeIds, hnew]
  · show (code.arena.map (Instruction.mapTargets _)).toList = _
    rw [Array.toList_map, harena, h.arena, List.map_append, List.map_append, List.map_map, List.flatMap_append,
      List.flatMap_singleton, ← hentry, List.append_assoc, Splicing.map_mapTargets_probes]
    exact congrArg₂ _ (List.map_congr_left fun i _ => i.mapTargets_mapTargets ..) rfl
  · have hclauses : b'.clauses.map (ExceptionClause.mapReferences fun id =>
        if id = p.target then b'.code.nextId else id) =
        b.clauses.map (ExceptionClause.mapReferences (Splicing.entry b.code.arena.size (ps ++ [p]))) := by
      rw [congrArg MethodBody.clauses h.rest, List.map_map, ← hentry]
      exact List.map_congr_left fun c _ => ExceptionClause.mapReferences_mapReferences ..
    rw [← hclauses]
    obtain ⟨maxStack, initLocals, localSignature, code', clauses⟩ := b'
    cases h.rest
    rfl

/-- The probes that are accepted are spliced, and nothing else happens. -/
theorem spliced_spliceAll (hb : b.code.WellFormed) (h : ∀ p ∈ ps, p.target ∈ b.code.ids) :
    Spliced b (ps.filter Splicing.isAccepted) (b.spliceAll ps) := by
  induction ps using List.reverseRecOn with
  | nil => exact .nil b
  | append_singleton ps p ih =>
    have hold := ih fun q hq => h q (List.mem_append_left _ hq)
    have htarget := h p (List.mem_append_right _ List.mem_cons_self)
    unfold spliceAll at hold ⊢
    rw [List.foldl_append, List.foldl_cons, List.foldl_nil, List.filter_append]
    cases hp : p.isAccepted with
    | true =>
      obtain ⟨b'', hsplice, hnew⟩ := hold.concat hb htarget hp
      rw [hsplice, List.filter_cons_of_pos hp]
      exact hnew
    | false =>
      have hrefused : 0x7FFFFFFF < p.id := UInt32.not_le.mp (of_decide_eq_false hp)
      rw [List.filter_cons_of_neg (Bool.eq_false_iff.mp hp), List.filter_nil, List.append_nil]
      unfold splice
      rw [if_pos hrefused]
      exact hold

end MethodBody

end CilProbes
