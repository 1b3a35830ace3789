import CilProbes.Proofs.Probe.Flow

/-!
# Probes do not change the flow of control

A body into which probes were spliced, and that was written and read again, is the body it was, with the probes passed
on the way into their instructions (`Transparent`, `splice_transparent`).
-/

namespace CilProbes

namespace MethodBody

open Splicing (ahead enter home origin isProbe enterId originId)

/-- The body without its probes; a reference to a probe is read as one to the instruction that the probe is for. -/
def withoutProbes (ps : List Splicing) (r : MethodBody) : MethodBody :=
  { r with
    code := InstructionStream.ofArray (((List.range r.code.length).filter fun p => !isProbe ps p).filterMap fun p =>
      (r.code.get? ⟨p⟩).map (Instruction.mapTargets (originId ps))).toArray
    clauses := r.clauses.map (ExceptionClause.mapReferences (originId ps)) }

/-- The instructions of `r` are those of `b` behind their probes, and refer to the first probes of their targets. -/
structure Interleaved (b : MethodBody) (ps : List Splicing) (r : MethodBody) : Prop where
  size : r.code.arena.size = enter ps b.code.length
  order : r.code = InstructionStream.ofArray r.code.arena
  probes : ∀ k < b.code.length, ∀ j i, ((ahead ps k).flatMap Splicing.probe)[j]? = some i →
    ∃ offset, r.code.get? ⟨enter ps k + j⟩ = some { i with offset }
  carried : ∀ k i, b.code.get? ⟨k⟩ = some i →
    ∃ i', r.code.get? ⟨home ps k⟩ = some i' ∧ i.Carried (enterId ps) i'
  clauses : r.clauses = b.clauses.map (ExceptionClause.mapReferences (enterId ps))
  initLocals : r.initLocals = b.initLocals
  localSignature : r.localSignature = b.localSignature

variable {b b' r : MethodBody} {ps : List Splicing} {e : EncodedBody}

section Written

variable (hb : b.Parsed) (hps : ∀ p ∈ ps, p.target.index < b.code.length) (hwidened : (b.spliceAll ps).Widened b')
include hb hps

theorem spliced_of_parsed : b.Spliced (ps.filter Splicing.isAccepted) (b.spliceAll ps) :=
  spliced_spliceAll hb.wellFormed.code fun p hp =>
    (hb.wellFormed.code.mem_ids p.target).mpr (hb.code.length_eq ▸ hps p hp)

include hwidened

/-- What refers to an instruction is led to the first of its probes. -/
theorem place_entry_widened {id : InstrId} (hid : id.index < b.code.arena.size) : b'.code.place
    (Splicing.entry b.code.arena.size (ps.filter Splicing.isAccepted) id) = enterId ps id := by
  have hsame : b'.code.place = (b.spliceAll ps).code.place := by
    unfold InstructionStream.place
    rw [hwidened.code.ids]
  rw [hsame]
  exact (spliced_of_parsed hb hps).place_entry hb.code (hb.wellFormed.spliceAll ps) hid

/-- Probes are written as they are, but for their offsets. -/
theorem written_probe {k j : Nat} {i : Instruction} (hk : k < b.code.length)
    (hi : ((ahead ps k).flatMap Splicing.probe)[j]? = some i) :
    ∃ offset, b'.written.code.get? ⟨enter ps k + j⟩ = some { i with offset } := by
  have hwf := hb.wellFormed.spliceAll ps
  obtain ⟨hshort, htargets, _⟩ := Instruction.plain_of_mem_probe (List.mem_of_getElem? hi)
  have hwiden : i.widen = i := if_neg hshort
  have hprogram := hwidened.code.program_getElem? hwf.code
    ((spliced_of_parsed hb hps).program_probe hb hwf (hb.code.length_eq ▸ hk) hi)
  rw [hwiden, or_self] at hprogram
  refine ⟨some (UInt32.ofNat (b'.code.startAt (enter ps k + j))), ?_⟩
  show b'.code.written.arena[enter ps k + j]? = _
  rw [InstructionStream.written_getElem?, hprogram, Option.map_some,
    Instruction.mapTargets_of_targets_eq_nil htargets]

/-- The instructions of the body are written behind their probes. -/
theorem written_home {k : Nat} {i : Instruction} (hi : b.code.get? ⟨k⟩ = some i) :
    ∃ i', b'.written.code.get? ⟨home ps k⟩ = some i' ∧ i.Carried (enterId ps) i' := by
  have hwf := hb.wellFormed.spliceAll ps
  have hinside := hb.code.inside i (Array.mem_of_getElem? hi)
  obtain ⟨j, hj, hcarried⟩ : ∃ j, b'.code.program[home ps k]? = some j ∧
      i.Carried (Splicing.entry b.code.arena.size (ps.filter Splicing.isAccepted)) j := by
    rcases hwidened.code.program_getElem? hwf.code ((spliced_of_parsed hb hps).program_home hb hwf hi) with hj | hj
    · exact ⟨_, hj, .inl rfl, rfl⟩
    · exact ⟨_, hj, Instruction.relaxed_widen _⟩
  have hnew := (hcarried.mapTargets b'.code.place).congr fun t ht =>
    place_entry_widened hb hps hwidened (hinside t ht)
  rw [Instruction.mapTargets_eq] at hnew
  refine ⟨{ j with
    operand := j.operand.mapTargets b'.code.place
    offset := some (UInt32.ofNat (b'.code.startAt (home ps k))) }, ?_, hnew.opcode, hnew.operand⟩
  show b'.code.written.arena[home ps k]? = _
  rw [InstructionStream.written_getElem?, hj, Option.map_some]

theorem written_clauses : b'.written.clauses = b.clauses.map (ExceptionClause.mapReferences (enterId ps)) := by
  have hclauses : b'.clauses = b.clauses.map (ExceptionClause.mapReferences
      (Splicing.entry b.code.arena.size (ps.filter Splicing.isAccepted))) :=
    (congrArg MethodBody.clauses hwidened.rest).trans (congrArg MethodBody.clauses (spliced_of_parsed hb hps).rest)
  show b'.clauses.map _ = _
  rw [hclauses, List.map_map]
  refine List.map_congr_left fun c hc => ?_
  rw [Function.comp_apply, ExceptionClause.mapReferences_mapReferences]
  exact ExceptionClause.mapReferences_congr fun id hid => place_entry_widened hb hps hwidened (hb.inside c hc id hid)

theorem size_written_spliced : b'.written.code.arena.size = enter ps b.code.length := by
  have hwf := hb.wellFormed.spliceAll ps
  show b'.code.written.arena.size = _
  rw [InstructionStream.size_written (hwidened.wellFormed hwf).code, hwidened.code.ids, ← hwf.code.length_program,
    (spliced_of_parsed hb hps).length_program hb hwf, hb.code.length_eq]

end Written

/-- A spliced body that is written and read again. -/
theorem interleaved_of_encode (hb : b.Parsed) (hps : ∀ p ∈ ps, p.target.index < b.code.length)
    (h : (b.spliceAll ps).encode = .ok e b') : parse e.bytes = .ok b'.written ∧ Interleaved b ps b'.written := by
  obtain ⟨hwidened, hparse, -⟩ := parse_encode (hb.wellFormed.spliceAll ps) h
  have hrest := hwidened.rest
  have hspliced := spliced_of_parsed hb hps
  exact ⟨hparse, {
    size := size_written_spliced hb hps hwidened
    order := rfl
    probes := fun _ hk _ _ hi => written_probe hb hps hwidened hk hi
    carried := fun _ _ hi => written_home hb hps hwidened hi
    clauses := written_clauses hb hps hwidened
    initLocals := (congrArg MethodBody.initLocals hrest :).trans (congrArg MethodBody.initLocals hspliced.rest :)
    localSignature :=
      (congrArg MethodBody.localSignature hrest :).trans (congrArg MethodBody.localSignature hspliced.rest :) }⟩

theorem filterMap_getElem? {α : Type} (as : List α) : (List.range as.length).filterMap (fun k => as[k]?) = as := by
  induction as with
  | nil => rfl
  | cons a as ih =>
    rw [List.length_cons, List.range_succ_eq_map, List.filterMap_cons, List.filterMap_map]
    exact congrArg (a :: ·) ih

theorem originId_comp_enterId : originId ps ∘ enterId ps = fun id => id := by
  funext id
  simp [originId, enterId]

namespace Interleaved

variable (h : Interleaved b ps r)
include h

theorem length_eq : r.code.length = enter ps b.code.length := by
  rw [← h.size, congrArg InstructionStream.length h.order]
  exact Array.size_ofFn

/-! ## The probes can be taken out again -/

/-- Without its probes the body is what it was. -/
theorem relaxed_withoutProbes (hb : b.Parsed) :
    List.Forall₂ Instruction.Relaxed b.code.arena.toList (withoutProbes ps r).code.arena.toList := by
  have harena := filterMap_getElem? b.code.arena.toList
  rw [Array.length_toList, ← hb.code.length_eq] at harena
  rw [← harena]
  show List.Forall₂ _ _ (List.filterMap _ (List.filter _ (List.range r.code.length)))
  rw [h.length_eq, Splicing.filter_not_isProbe, List.filterMap_map]
  refine forall₂_filterMap fun k hk => ?_
  have hk : k < b.code.arena.size := hb.code.length_eq ▸ List.mem_range.mp hk
  have hi : b.code.get? ⟨k⟩ = some b.code.arena[k] := Array.getElem?_eq_getElem hk
  obtain ⟨i', hi', hcarried⟩ := h.carried k _ hi
  refine ⟨_, _, (Array.getElem?_toList ..).trans hi, by rw [Function.comp_apply, hi']; rfl, ?_⟩
  have hback := hcarried.mapTargets (originId ps)
  rw [originId_comp_enterId] at hback
  unfold Instruction.Carried at hback
  rwa [Instruction.mapTargets_eq, Operand.mapTargets_id] at hback

theorem clauses_withoutProbes : (withoutProbes ps r).clauses = b.clauses := by
  show r.clauses.map _ = _
  rw [h.clauses, List.map_map]
  refine List.map_id'' (fun c => ?_) _
  rw [Function.comp_apply, ExceptionClause.mapReferences_mapReferences, originId_comp_enterId,
    ExceptionClause.mapReferences_id]

/-! ## The ways through the code -/

/-- At a place where a probe lies, control passes on to the next place. -/
theorem passes_probe {p q : Nat} (hp : p < enter ps b.code.length) (hprobe : isProbe ps p = true) :
    r.code.Passes p q ↔ q = p + 1 := by
  have hk : origin ps p < b.code.length := Splicing.lt_enter_iff.mp hp
  obtain ⟨hlo, hhi⟩ := Splicing.enter_origin_le_le_home ps p
  have hj : p - enter ps (origin ps p) < ((ahead ps (origin ps p)).flatMap Splicing.probe).length := by
    have hne : p ≠ home ps (origin ps p) := by simpa [isProbe] using hprobe
    rw [Splicing.length_probes]
    unfold home at hhi hne
    omega
  obtain ⟨i, hi⟩ : ∃ i, ((ahead ps (origin ps p)).flatMap Splicing.probe)[p - enter ps (origin ps p)]? = some i :=
    ⟨_, List.getElem?_eq_getElem hj⟩
  obtain ⟨offset, hoffset⟩ := h.probes _ hk _ _ hi
  obtain ⟨_, htargets, hfalls⟩ := Instruction.plain_of_mem_probe (List.mem_of_getElem? hi)
  rw [Nat.add_sub_cancel' hlo] at hoffset
  constructor
  · rintro ⟨i', hi', ⟨_, hq⟩ | hq⟩
    · exact hq
    · rw [hoffset] at hi'
      cases hi'
      have hmem : (⟨q⟩ : InstrId) ∈ i.targets := hq
      rw [htargets] at hmem
      exact absurd hmem List.not_mem_nil
  · intro hq
    exact ⟨_, hoffset, .inl ⟨hfalls, hq⟩⟩

/-- At the home of an instruction, control passes to the entries of the instructions that it passed to before. -/
theorem passes_home (hb : b.Parsed) {j q : Nat} (hj : j < b.code.length) :
    r.code.Passes (home ps j) q ↔ ∃ k, q = enter ps k ∧ b.code.Passes j k := by
  have hj : j < b.code.arena.size := hb.code.length_eq ▸ hj
  have hi : b.code.get? ⟨j⟩ = some b.code.arena[j] := Array.getElem?_eq_getElem hj
  obtain ⟨i', hi', hcarried⟩ := h.carried j _ hi
  constructor
  · rintro ⟨found, hfound, hq⟩
    rw [hi'] at hfound
    cases hfound
    rw [hcarried.fallsThrough, hcarried.targets, List.mem_map] at hq
    rcases hq with ⟨hfalls, rfl⟩ | ⟨t, ht, htq⟩
    · exact ⟨j + 1, rfl, _, hi, .inl ⟨hfalls, rfl⟩⟩
    · exact ⟨t.index, congrArg InstrId.index htq.symm, _, hi, .inr ht⟩
  · rintro ⟨k, rfl, found, hfound, hk⟩
    rw [hi] at hfound
    cases hfound
    refine ⟨i', hi', ?_⟩
    rw [hcarried.fallsThrough, hcarried.targets, List.mem_map]
    rcases hk with ⟨hfalls, rfl⟩ | hk
    · exact .inl ⟨hfalls, rfl⟩
    · exact .inr ⟨⟨k⟩, hk, rfl⟩

/-- The ways through the code are those through its probes, and those there were before, each to an entry. -/
theorem passes_iff (hb : b.Parsed) {p q : Nat} : r.code.Passes p q ↔
    (∃ j k, p = home ps j ∧ q = enter ps k ∧ b.code.Passes j k) ∨
      p < enter ps b.code.length ∧ isProbe ps p = true ∧ q = p + 1 := by
  constructor
  · intro hpass
    have hp : p < enter ps b.code.length := by
      obtain ⟨i, hi, _⟩ := hpass
      exact h.size ▸ (InstructionStream.get?_eq_some.mp hi).1
    cases hprobe : isProbe ps p with
    | true => exact .inr ⟨hp, rfl, (h.passes_probe hp hprobe).mp hpass⟩
    | false =>
      have hhome := Splicing.eq_home_of_not_isProbe hprobe
      rw [hhome] at hpass
      obtain ⟨k, hk⟩ := (h.passes_home hb (Splicing.lt_enter_iff.mp hp)).mp hpass
      exact .inl ⟨_, k, hhome, hk⟩
  · rintro (⟨j, k, rfl, rfl, hpass⟩ | ⟨hp, hprobe, hq⟩)
    · have hj : j < b.code.length := by
        obtain ⟨i, hi, _⟩ := hpass
        exact hb.code.length_eq ▸ (InstructionStream.get?_eq_some.mp hi).1
      exact (h.passes_home hb hj).mpr ⟨k, rfl, hpass⟩
    · exact (h.passes_probe hp hprobe).mpr hq

/-- An instruction with probes is reached from the last of them only. -/
theorem reached (hb : b.Parsed) {k : Nat} (hk : ahead ps k ≠ []) :
    (∀ p, r.code.Passes p (home ps k) → p + 1 = home ps k ∧ isProbe ps p = true) ∧
      ∀ c ∈ r.clauses, ⟨home ps k⟩ ∉ c.references := by
  refine ⟨fun p hp => ?_, fun c hc hmem => ?_⟩
  · rcases (h.passes_iff hb).mp hp with ⟨_, j, _, hj, _⟩ | ⟨_, hprobe, hnext⟩
    · exact absurd hj.symm (Splicing.enter_ne_home hk j)
    · exact ⟨hnext.symm, hprobe⟩
  · rw [h.clauses] at hc
    obtain ⟨old, _, rfl⟩ := List.mem_map.mp hc
    rw [ExceptionClause.references_mapReferences] at hmem
    obtain ⟨id, _, hid⟩ := List.mem_map.mp hmem
    exact Splicing.enter_ne_home hk id.index (congrArg InstrId.index hid)

/-! ## Regions -/

/-- A place is in the regions that its instruction was in. -/
theorem sameRegions : List.Forall₂ (fun c c' => ∀ p, c.SameRegions (origin ps p) c' p) b.clauses r.clauses := by
  rw [h.clauses, List.forall₂_map_right_iff]
  have hstop (stop? : Option InstrId) (p : Nat) :
      (∀ stop, stop?.map (enterId ps) = some stop → p < stop.index) ↔
        ∀ stop, stop? = some stop → origin ps p < stop.index := by
    cases stop? with
    | none => simp
    | some stop => simp [enterId, Splicing.lt_enter_iff]
  refine List.forall₂_same.mpr fun c _ p => ⟨?_, ?_, ?_⟩
  · exact and_congr Splicing.enter_le_iff (hstop c.tryEnd p)
  · exact and_congr Splicing.enter_le_iff (hstop c.handlerEnd p)
  · unfold ExceptionClause.Filters ExceptionClause.mapReferences
    cases c.filterStart with
    | none => simp
    | some start => simp [enterId, Splicing.enter_le_iff, Splicing.lt_enter_iff]

end Interleaved

/-- The rewritten body is the original with probes on the way into its instructions, and nothing else. -/
structure Transparent (b : MethodBody) (ps : List Splicing) (r : MethodBody) : Prop where
  interleaved : Interleaved b ps r
  /-- Taking the probes out gives the instructions back, with their operands and targets. -/
  instructions : List.Forall₂ Instruction.Relaxed b.code.arena.toList (withoutProbes ps r).code.arena.toList
  /-- Taking the probes out gives the clauses back. -/
  clauses : (withoutProbes ps r).clauses = b.clauses
  /-- Every way into an instruction leads to the first of its probes. -/
  passes : ∀ p q, r.code.Passes p q ↔
    (∃ j k, p = home ps j ∧ q = enter ps k ∧ b.code.Passes j k) ∨
      p < enter ps b.code.length ∧ isProbe ps p = true ∧ q = p + 1
  /-- Only the last probe of an instruction leads to the instruction itself. -/
  reached : ∀ k, ahead ps k ≠ [] →
    (∀ p, r.code.Passes p (home ps k) → p + 1 = home ps k ∧ isProbe ps p = true) ∧
      ∀ c ∈ r.clauses, ⟨home ps k⟩ ∉ c.references
  /-- Probes are in the regions of their instructions. -/
  regions : List.Forall₂ (fun c c' => ∀ p, c.SameRegions (origin ps p) c' p) b.clauses r.clauses

/-- Splicing probes into a parsed body, writing it and reading it again leaves the flow of control as it was. -/
theorem splice_transparent {data : List UInt8} {b b' : MethodBody} {ps : List Splicing} {e : EncodedBody}
    (hdata : parse data = .ok b) (hps : ∀ p ∈ ps, p.target.index < b.code.length)
    (h : (b.spliceAll ps).encode = .ok e b') : ∃ r, parse e.bytes = .ok r ∧ Transparent b ps r := by
  have hb := parsed_of_parse hdata
  obtain ⟨hparse, hr⟩ := interleaved_of_encode hb hps h
  refine ⟨b'.written, hparse, hr, hr.relaxed_withoutProbes hb, hr.clauses_withoutProbes, fun p q => hr.passes_iff hb,
    fun k hk => hr.reached hb hk, hr.sameRegions⟩

/-- A loop of two instructions, `nop` and a short branch back to it, with two probes at its head. -/
theorem splice_transparent_loop : ∃ b e b' r,
    parse [0x0E, 0x00, 0x2B, 0xFD] = .ok b ∧ 0 < b.code.length ∧
      (b.spliceAll [⟨⟨0⟩, ⟨⟨0x70000001⟩, ⟨0x0A000001⟩⟩, 7⟩, ⟨⟨0⟩, ⟨⟨0x70000001⟩, ⟨0x0A000001⟩⟩, 8⟩]).encode = .ok e b' ∧
      parse e.bytes = .ok r ∧
      Transparent b [⟨⟨0⟩, ⟨⟨0x70000001⟩, ⟨0x0A000001⟩⟩, 7⟩, ⟨⟨0⟩, ⟨⟨0x70000001⟩, ⟨0x0A000001⟩⟩, 8⟩] r := by
  have hcheck : (match parse [0x0E, 0x00, 0x2B, 0xFD] with
      | .ok b =>
        match (b.spliceAll [⟨⟨0⟩, ⟨⟨0x70000001⟩, ⟨0x0A000001⟩⟩, 7⟩,
          ⟨⟨0⟩, ⟨⟨0x70000001⟩, ⟨0x0A000001⟩⟩, 8⟩]).encode with
        | .ok _ _ => decide (0 < b.code.length)
        | .error _ _ => false
      | .error _ => false) = true := by
    decide +kernel
  split at hcheck
  · next b hb =>
    split at hcheck
    · next e b' he =>
      have hlen : 0 < b.code.length := of_decide_eq_true hcheck
      obtain ⟨r, hr, htransparent⟩ := splice_transparent hb (by simp [hlen]) he
      exact ⟨b, e, b', r, hb, hlen, he, hr, htransparent⟩
    · cases hcheck
  · cases hcheck

end MethodBody

end CilProbes
