import CilProbes.Proofs.Coverage.Preparing
import CilProbes.Proofs.Coverage.Probed

/-!
# Which points get probes

The points of a method are listed document by document. Those that lie on a statement are selected; the list is cut at
the first point out of scope, and at the first selected one whose instruction is modified by the one before it
(`Weave.selection`). Just the selected points in front of the cut get probes (`Weave.method_places`).

The cut is found on the body as it was before any probe, while probing looks at the body that it has changed so far. A
probe ends in a call, which modifies nothing, and keeps the opcodes of what was there, so both see the same
(`MethodBody.Spliced.isModified_eq`).
-/

namespace CilProbes

/-! ## Modified instructions -/

namespace InstructionStream

variable {s : InstructionStream} {id : InstrId} {front back : List InstrId}

theorem previous?_eq (hs : s.ids.Nodup) (h : s.ids = front ++ id :: back) : s.previous? id = front.getLast? := by
  have hfront : id ∉ front := by
    intro hmem
    rw [h, List.nodup_middle, List.nodup_cons] at hs
    exact hs.1 (List.mem_append_left _ hmem)
  unfold previous?
  rw [position?_eq, h, idxOf?_append hfront]
  rcases List.eq_nil_or_concat front with rfl | ⟨front, last, rfl⟩
  · rfl
  · rw [List.concat_eq_append, List.length_append, List.length_singleton, List.getLast?_concat]
    dsimp only
    rw [← Array.getElem?_toList]
    show s.ids[front.length]? = _
    rw [h, List.concat_eq_append, List.append_assoc, List.getElem?_append_right (Nat.le_refl _), Nat.sub_self]
    rfl

end InstructionStream

theorem Instruction.isModifier_mapTargets (f : InstrId → InstrId) (i : Instruction) :
    (i.mapTargets f).isModifier = i.isModifier := by
  rw [mapTargets_eq]
  rfl

namespace MethodBody

open Weave (isModified)

variable {b b' : MethodBody} {ps : List Splicing} {id : InstrId}

theorem isModified_eq_of_previous (h : b.code.previous? id = none ∨ ∃ x, b.code.previous? id = some x ∧
    (b.code.get? x).any Instruction.isModifier = false) : isModified b id = false := by
  unfold isModified
  rcases h with h | ⟨x, h, hx⟩
  · rw [h]
    rfl
  · rw [h, Option.bind_some]
    cases hget : b.code.get? x with
    | none => rfl
    | some i =>
      rw [hget] at hx
      exact hx

/-- No instruction of a probe modifies the one after it. -/
theorem isModifier_of_mem_probes {i : Instruction} (h : i ∈ ps.flatMap Splicing.probe) : i.isModifier = false := by
  obtain ⟨p, -, hi⟩ := List.mem_flatMap.mp h
  simp only [Splicing.probe, ProbeApi.probe, List.mem_cons, List.not_mem_nil, or_false] at hi
  rcases hi with rfl | rfl | rfl <;> rfl

theorem Spliced.get?_handlesAt (h : Spliced b ps b') {x : InstrId}
    (hx : x ∈ Splicing.handlesAt id b.code.arena.size ps) : (b'.code.get? x).any Instruction.isModifier = false := by
  obtain ⟨p, hp, i, hi, hget⟩ := h.get?_probe hx
  rw [hget]
  exact isModifier_of_mem_probes (List.mem_flatMap.mpr ⟨p, hp, hi⟩)

/-- Probes change nothing about which instructions are modified, if they stand in front of none that is. -/
theorem Spliced.isModified_eq (h : Spliced b ps b') (hb : b.code.WellFormed) (hb' : b'.code.WellFormed)
    (hid : id ∈ b.code.ids) (hps : ∀ p ∈ ps, p.target = id → isModified b id = false) :
    isModified b' id = isModified b id := by
  obtain ⟨front, back, hids⟩ := List.append_of_mem hid
  have hids' : b'.code.ids =
      ((front.flatMap fun x => Splicing.handlesAt x b.code.arena.size ps ++ [x]) ++
        Splicing.handlesAt id b.code.arena.size ps) ++
        id :: (back.flatMap fun x => Splicing.handlesAt x b.code.arena.size ps ++ [x]) := by
    rw [h.ids, hids]
    simp
  have hprevious := InstructionStream.previous?_eq hb.nodup hids
  have hprevious' := InstructionStream.previous?_eq hb'.nodup hids'
  rcases List.eq_nil_or_concat (Splicing.handlesAt id b.code.arena.size ps) with hnil | ⟨handles, last, hconcat⟩
  · -- without probes in front of it, the instruction has the same one before it
    rw [hnil, List.append_nil] at hprevious'
    rcases List.eq_nil_or_concat front with rfl | ⟨front, last, rfl⟩
    · rw [isModified_eq_of_previous (.inl hprevious), isModified_eq_of_previous (.inl hprevious')]
    · rw [List.concat_eq_append, List.getLast?_concat] at hprevious
      rw [List.concat_eq_append, List.flatMap_append, List.flatMap_singleton, ← List.append_assoc,
        List.getLast?_concat] at hprevious'
      have hlast : last ∈ b.code.ids := by
        rw [hids]
        simp
      unfold isModified
      rw [hprevious, hprevious', Option.bind_some, Option.bind_some, h.get?_old ((hb.mem_ids last).mp hlast)]
      cases b.code.get? last with
      | none => rfl
      | some i => exact i.isModifier_mapTargets _
  · -- otherwise the last instruction of a probe is before it
    have hmem : last ∈ Splicing.handlesAt id b.code.arena.size ps := by
      rw [hconcat]
      simp
    obtain ⟨p, hp, htarget⟩ := Splicing.exists_of_mem_handlesAt hmem
    rw [hps p hp htarget]
    rw [hconcat, List.concat_eq_append, ← List.append_assoc, List.getLast?_concat] at hprevious'
    exact isModified_eq_of_previous (.inr ⟨last, hprevious', h.get?_handlesAt hmem⟩)

end MethodBody

namespace Weave

open Session (Keeps)

/-! ## Selections -/

/-- Probing a method with this body ends at the point. -/
def Context.cuts (c : Context) (s : Session) (b : MethodBody) (p : SequencePoint) : Bool :=
  (c.source? p).isNone || (c.selects s p && isModified b p.instruction)

/-- The selected ones of the points in front of the cut. -/
def Context.chosen (c : Context) (s : Session) (b : MethodBody) (ps : List SequencePoint) : List SequencePoint :=
  (ps.takeWhile fun p => !c.cuts s b p).filter (c.selects s)

/-- The points of a method that get probes, in the order in which they do. -/
def selection (c : Context) (s : Session) (m : Method) : List SequencePoint :=
  match m.body with
  | some b => c.chosen s b (grouped m.points)
  | none => []

/-- There are as many numbers from `next` on that can be pushed as signed words. -/
def Suffices (next : UInt32) (count : Nat) : Prop :=
  count = 0 ∨ next.toNat + count ≤ 0x80000000

instance (next : UInt32) (count : Nat) : Decidable (Suffices next count) :=
  inferInstanceAs (Decidable (_ ∨ _))

variable {c : Context} {typeName method : String} {p : SequencePoint} {ps : List SequencePoint} {b body : MethodBody}
  {done : List Mark} {view : Session} {s : Logged Session}

theorem chosen_of_cuts (h : c.cuts view b p = true) : c.chosen view b (p :: ps) = [] := by
  unfold Context.chosen
  rw [List.takeWhile_cons_of_neg (by simp [h])]
  rfl

theorem chosen_of_not_selects (hcut : c.cuts view b p = false) (h : c.selects view p = false) :
    c.chosen view b (p :: ps) = c.chosen view b ps := by
  unfold Context.chosen
  rw [List.takeWhile_cons_of_pos (by simp [hcut]), List.filter_cons_of_neg (by simp [h])]

theorem chosen_of_selects (hcut : c.cuts view b p = false) (h : c.selects view p = true) :
    c.chosen view b (p :: ps) = p :: c.chosen view b ps := by
  unfold Context.chosen
  rw [List.takeWhile_cons_of_pos (by simp [hcut]), List.filter_cons_of_pos h]

theorem unmodified_of_selects (hcut : c.cuts view b p = false) (h : c.selects view p = true) :
    isModified b p.instruction = false := by
  unfold Context.cuts at hcut
  rw [h, Bool.true_and, Bool.or_eq_false_iff] at hcut
  exact hcut.2

/-- The point has a document, and one in scope can be read. -/
structure Legible (c : Context) (view : Session) (p : SequencePoint) : Prop where
  inside : p.span.document.toNat < c.documents.size
  lines : ∀ document, c.source? p = some document → ∃ lines, view.lines? ⟨document⟩ = some lines

/-! ## Single points -/

/-- Splicing a probe for a point, and passing on. -/
def probeThen (c : Context) (typeName method relative instruction : String) (p : SequencePoint)
    (ps : List SequencePoint) (body : MethodBody) : Edit (Logged Session) (MethodBody × List PlacedProbe) := do
  let id ← Session.nextId
  let (_, body) ← Edit.ofExcept (body.splice p.instruction c.api id)
  let (body, placed) ← points c typeName method ps body
  return (body, c.report typeName method relative instruction id p.span :: placed)

/-- At a point out of scope probing ends. -/
theorem points_out {document : String} (hdocument : c.documents[p.span.document.toNat]? = some document)
    (hout : c.scope.resolve document = none) : points c typeName method (p :: ps) body s =
      .ok (body, []) { s with log := s.log.push (.stoppedOutOfScope typeName method document) } := by
  rw [points, hdocument]
  dsimp only
  rw [hout]
  rfl

/-- At a point in scope it matters whether it lies on a statement, and whether its instruction is modified. -/
theorem points_in {document relative : String} {found : Option (List Char)} {i : Instruction} {t : Logged Session}
    (hdocument : c.documents[p.span.document.toNat]? = some document) (hrelative : c.scope.resolve document = some relative)
    (hfound : Session.statement? ⟨document⟩ p.span s = .ok found t) (hi : body.code.get? p.instruction = some i) :
    points c typeName method (p :: ps) body s =
      if found.isNone then points c typeName method ps body t
      else if isModified body p.instruction then
        .ok (body, []) { t with log := t.log.push (.stoppedAtModifier typeName method p.span.startLine) }
      else probeThen c typeName method relative (i.line body.code.label p.instruction) p ps body t := by
  rw [points, hdocument]
  dsimp only
  rw [hrelative]
  refine (edit_bind_of_ok hfound).trans ?_
  cases found with
  | none => rfl
  | some text =>
    dsimp only
    cases isModified body p.instruction with
    | true => rfl
    | false =>
      unfold InstructionStream.describe probeThen
      rw [hi]
      rfl

/-- At a point probing ends, passes on, or splices a probe and passes on, as its selection and its cut tell. -/
theorem points_cons (typeName method : String) (ps : List SequencePoint) (hp : Legible c view p)
    (hkeeps : ∀ q lines, view.lines? q = some lines → s.value.lines? q = some lines)
    (hmodified : isModified body p.instruction = isModified b p.instruction) {i : Instruction}
    (hi : body.code.get? p.instruction = some i) :
    ∃ t, Keeps s t ∧
      ((c.cuts view b p = true ∧ points c typeName method (p :: ps) body s = .ok (body, []) t) ∨
      (c.cuts view b p = false ∧ c.selects view p = false ∧
        points c typeName method (p :: ps) body s = points c typeName method ps body t) ∨
      (c.cuts view b p = false ∧ c.selects view p = true ∧ ∃ document relative instruction,
        c.documents[p.span.document.toNat]? = some document ∧ c.scope.resolve document = some relative ∧
        points c typeName method (p :: ps) body s = probeThen c typeName method relative instruction p ps body t)) := by
  obtain ⟨document, hdocument⟩ : ∃ document, c.documents[p.span.document.toNat]? = some document :=
    ⟨_, Array.getElem?_eq_getElem hp.inside⟩
  have hsource := source?_eq hdocument
  unfold Context.cuts
  cases hrelative : c.scope.resolve document with
  | none =>
    rw [SourceScope.contains, hrelative] at hsource
    rw [hsource]
    exact ⟨_, .logged s _, .inl ⟨rfl, points_out hdocument hrelative⟩⟩
  | some relative =>
    rw [SourceScope.contains, hrelative] at hsource
    obtain ⟨lines, hview⟩ := hp.lines document hsource
    obtain ⟨t, hstatement, ht⟩ := Session.statement?_ok (hkeeps _ _ hview) p.span
    rw [selects_eq hsource hview, hsource, points_in hdocument hrelative hstatement hi, ← hmodified]
    cases (SourceText.extract lines p.span).filter SourceText.isStatement with
    | none => exact ⟨t, ht, .inr (.inl ⟨rfl, rfl, rfl⟩)⟩
    | some text =>
      cases isModified body p.instruction with
      | true => exact ⟨_, ht.trans (.logged t _), .inl ⟨rfl, rfl⟩⟩
      | false => exact ⟨t, ht, .inr (.inr ⟨rfl, rfl, document, relative, _, hdocument, hrelative, rfl⟩)⟩

/-! ## All points -/

/-- The marks are at the given points, in order, and name their documents, spans and method; their numbers are those
given out between two states. -/
structure Marking (c : Context) (typeName method : String) (ps : List SequencePoint) (ids : ProbeIds)
    (marks : List Mark) (ids' : ProbeIds) : Prop where
  points : marks.map Mark.point = ps
  reports : ∀ mark ∈ marks, mark.Reports c typeName method
  numbers : ids.Numbers (marks.map fun mark => mark.probe.id) ids'

theorem Marking.nil (c : Context) (typeName method : String) (ids : ProbeIds) :
    Marking c typeName method [] ids [] ids where
  points := rfl
  reports := fun _ h => absurd h List.not_mem_nil
  numbers := .nil ids

theorem Marking.cons (mark : Mark) {marks : List Mark} {ids ids' : ProbeIds} (hid : mark.probe.id = ids.next)
    (haccepted : ids.next ≤ 0x7FFFFFFF) (hmark : mark.Reports c typeName method)
    (h : Marking c typeName method ps ids.take.2 marks ids') :
    Marking c typeName method (mark.point :: ps) ids (mark :: marks) ids' where
  points := by rw [List.map_cons, h.points]
  reports := List.forall_mem_cons.mpr ⟨hmark, h.reports⟩
  numbers := by
    rw [List.map_cons, hid]
    exact (ProbeIds.numbers_take haccepted).append h.numbers

section Probes

variable {relative instruction : String}

/-- A number that is too large is refused. -/
theorem probeThen_refused (h : 0x7FFFFFFF < s.value.ids.next) :
    ∃ id t, probeThen c typeName method relative instruction p ps body s = .error (.probeIdTooLarge id) t := by
  refine ⟨s.value.ids.next, { s with value := { s.value with ids := s.value.ids.take.2 } }, ?_⟩
  have hrefused : body.splice p.instruction c.api s.value.ids.next = .error (.probeIdTooLarge s.value.ids.next) := by
    unfold MethodBody.splice
    rw [if_pos h]
  refine (edit_bind_of_ok (x := Session.nextId) rfl).trans (edit_bind_of_error ?_)
  rw [hrefused]
  rfl

/-- The probe is spliced, and its report comes in front of the later ones. -/
theorem probeThen_eq {entry : InstrId} {body₁ : MethodBody}
    (h : body.splice p.instruction c.api s.value.ids.next = .ok (entry, body₁)) :
    probeThen c typeName method relative instruction p ps body s =
      (do
        let (body, placed) ← points c typeName method ps body₁
        return (body, c.report typeName method relative instruction s.value.ids.next p.span :: placed) :
          Edit (Logged Session) (MethodBody × List PlacedProbe))
        { s with value := { s.value with ids := s.value.ids.take.2 } } := by
  refine (edit_bind_of_ok (x := Session.nextId) rfl).trans (edit_bind_of_ok (a := (entry, body₁)) ?_)
  rw [h]
  rfl

end Probes

theorem suffices_succ {ids : ProbeIds} {count : Nat} :
    Suffices ids.next (count + 1) ↔ ids.next ≤ 0x7FFFFFFF ∧ Suffices ids.take.2.next count := by
  unfold Suffices
  have hlimit : ids.next ≤ 0x7FFFFFFF ↔ ids.next.toNat ≤ 0x7FFFFFFF := UInt32.le_iff_toNat_le
  constructor
  · rintro (hzero | hsum)
    · cases hzero
    · have haccepted : ids.next ≤ 0x7FFFFFFF := hlimit.mpr (by omega)
      have hnext : ids.take.2.next.toNat = ids.next.toNat + 1 := (ProbeIds.numbers_take haccepted).next
      exact ⟨haccepted, .inr (by omega)⟩
  · rintro ⟨haccepted, hcount⟩
    have hnext : ids.take.2.next.toNat = ids.next.toNat + 1 := (ProbeIds.numbers_take haccepted).next
    rw [hlimit] at haccepted
    exact .inr (by omega)

/-- At each point of a method the probes are those for the selected points in front of the cut, as long as there are
numbers for them. -/
theorem points_places (typeName method : String) (ps : List SequencePoint) (done : List Mark) (hb : b.WellFormed)
    (hspliced : b.Spliced (done.map (Mark.splicing c.api)) body)
    (hbody : body.WellFormed) (hdone : ∀ mark ∈ done, isModified b mark.point.instruction = false)
    (hps : ∀ p ∈ ps, p.instruction ∈ b.code.ids ∧ Legible c view p)
    (hkeeps : ∀ q lines, view.lines? q = some lines → s.value.lines? q = some lines) :
    (Suffices s.value.ids.next (c.chosen view b ps).length → ∃ marks body' s',
      points c typeName method ps body s = .ok (body', marks.map Mark.probe) s' ∧
      Marking c typeName method (c.chosen view b ps) s.value.ids marks s'.value.ids ∧
      b.Spliced ((done ++ marks).map (Mark.splicing c.api)) body') ∧
    (¬ Suffices s.value.ids.next (c.chosen view b ps).length → ∃ id s',
      points c typeName method ps body s = .error (.probeIdTooLarge id) s') := by
  -- the probes that are there already change no decision, and each probe is the next one behind them
  induction ps generalizing body done s with
  | nil =>
    refine ⟨fun _ => ⟨[], body, s, rfl, .nil .., by rwa [List.append_nil]⟩, fun hnot => absurd (.inl rfl) hnot⟩
  | cons p ps ih =>
    obtain ⟨⟨hp, hlegible⟩, hrest⟩ := List.forall_mem_cons.mp hps
    have hmodified : isModified body p.instruction = isModified b p.instruction := by
      refine hspliced.isModified_eq hb.code hbody.code hp fun q hq htarget => ?_
      obtain ⟨mark, hmark, rfl⟩ := List.mem_map.mp hq
      rw [← htarget]
      exact hdone mark hmark
    obtain ⟨i, hi⟩ := hb.code.exists_get? hp
    have hi' := hspliced.get?_old ((hb.code.mem_ids p.instruction).mp hp)
    rw [hi, Option.map_some] at hi'
    obtain ⟨t, ht, ⟨hcut, hpoints⟩ | ⟨hcut, hskip, hpoints⟩ |
      ⟨hcut, hselected, document, relative, instruction, hdocument, hrelative, hpoints⟩⟩ :=
      points_cons typeName method ps hlegible hkeeps hmodified hi'
    · rw [chosen_of_cuts hcut, hpoints, ← ht.ids]
      exact ⟨fun _ => ⟨[], body, t, rfl, .nil .., by rwa [List.append_nil]⟩, fun hnot => absurd (.inl rfl) hnot⟩
    · rw [chosen_of_not_selects hcut hskip, hpoints, ← ht.ids]
      exact ih done hspliced hbody hdone hrest fun q lines hq => ht.lines q lines (hkeeps q lines hq)
    · rw [chosen_of_selects hcut hselected, hpoints, List.length_cons, suffices_succ, ← ht.ids]
      by_cases haccepted : t.value.ids.next ≤ 0x7FFFFFFF
      · let mark : Mark := ⟨p, c.report typeName method relative instruction t.value.ids.next p.span⟩
        obtain ⟨body₁, hsplice, hspliced₁⟩ :=
          hspliced.concat (p := mark.splicing c.api) hb.code hp (decide_eq_true haccepted)
        rw [← List.map_singleton, ← List.map_append] at hspliced₁
        have hunmodified := unmodified_of_selects hcut hselected
        have hlater := ih (s := { t with value := { t.value with ids := t.value.ids.take.2 } }) _ hspliced₁
          (hbody.splice hsplice)
          (List.forall_mem_append.mpr ⟨hdone, List.forall_mem_singleton.mpr hunmodified⟩) hrest
          fun q lines hq => ht.lines q lines (hkeeps q lines hq)
        rw [probeThen_eq hsplice]
        constructor
        · rintro ⟨-, hsuffices⟩
          obtain ⟨marks, body', s', hmore, hmarking, hfinal⟩ := hlater.1 hsuffices
          rw [List.append_assoc] at hfinal
          exact ⟨mark :: marks, body', s', edit_bind_ok.mpr ⟨_, s', hmore, rfl⟩,
            .cons mark rfl haccepted ⟨document, relative, instruction, hdocument, hrelative, rfl⟩ hmarking, hfinal⟩
        · intro hnot
          obtain ⟨id, s', hfault⟩ := hlater.2 fun hsuffices => hnot ⟨haccepted, hsuffices⟩
          exact ⟨id, s', edit_bind_of_error hfault⟩
      · exact ⟨fun hsuffices => absurd hsuffices.1 haccepted, fun _ => probeThen_refused (UInt32.not_le.mp haccepted)⟩

/-! ## Methods -/

/-- The method with the probes of the marks, spliced in their order, and with the stack that they need. -/
structure Probes (c : Context) (m : Method) (marks : List Mark) (m' : Method) : Prop where
  body : Option.Rel (fun b b' => ∃ spliced, b.Spliced (marks.map (Mark.splicing c.api)) spliced ∧
    b' = { spliced with maxStack := if marks = [] then b.maxStack else addSaturating b.maxStack probeDepth }) m.body m'.body
  rest : m' = { m with body := m'.body }

/-- The module in which probes are placed: the loaded one as it is, or as it is prepared for probing. -/
def Offers (m woven : Module) : Prop :=
  woven = m ∨ ∃ config prepared, prepareRecording config (m.addAttribute config.markerAttribute) = .ok prepared ∧
    woven = (importApi config prepared).2

variable {m woven : Module} {a : Method}

theorem Offers.wellFormed (h : Offers m woven) (hm : m.WellFormed) : woven.withoutTables.WellFormed := by
  have hwf := hm.withoutTables
  rcases h with rfl | ⟨config, prepared, hprepared, rfl⟩
  · exact hwf
  · have hmarked : (m.addAttribute config.markerAttribute).withoutTables.WellFormed := hwf
    rw [withoutTables_importApi]
    exact wellFormed_withoutTables_prepareRecording hmarked hprepared

theorem Offers.documents_eq (h : Offers m woven) : woven.documents = m.documents := by
  rcases h with rfl | ⟨config, prepared, hprepared, rfl⟩
  · rfl
  · rw [documents_importApi, documents_prepareRecording hprepared]
    rfl

/-- The stack is raised if there is a probe. -/
theorem raised_eq {marks : List Mark} (h : b.Spliced (marks.map (Mark.splicing c.api)) body) :
    (if (marks.map Mark.probe).isEmpty then body
      else { body with maxStack := addSaturating body.maxStack probeDepth }) =
      { body with maxStack := if marks = [] then b.maxStack else addSaturating b.maxStack probeDepth } := by
  have hstack : body.maxStack = b.maxStack := by rw [h.rest]
  rw [← hstack]
  cases marks with
  | nil => rfl
  | cons mark marks => rfl

/-- Whatever probes a method with this body gets, they are at points that lie on statements. -/
theorem method_marks (hbody : a.body = some b) (hb : b.code.WellFormed)
    (hmem : ∀ p ∈ a.points, p.instruction ∈ b.code.ids) (h : Weave.method c typeName a s = .ok (a', placed) s') :
    ∃ marks spliced, placed = marks.map Mark.probe ∧ b.Spliced (marks.map (Mark.splicing c.api)) spliced ∧
      spliced.code.WellFormed ∧ a' = { a with body := some { spliced with
        maxStack := if marks = [] then b.maxStack else addSaturating b.maxStack probeDepth } } ∧
      ∀ mark ∈ marks, mark.point ∈ a.points ∧ c.selects s'.value mark.point = true := by
  unfold Weave.method at h
  rw [hbody] at h
  obtain ⟨⟨body, found⟩, s₁, hpoints, h₁⟩ := edit_bind_ok.mp h
  have hstart : b.Spliced (([] : List Mark).map (Mark.splicing c.api)) b := .nil b
  obtain ⟨-, marks, hsub, hmarks, hspliced, hcode, rfl, -⟩ :=
    points_ok hb hstart hb (fun p hp => hmem p (mem_of_mem_grouped hp)) hpoints
  cases h₁
  refine ⟨marks, body, rfl, hspliced, hcode, ?_, fun mark hmark => ⟨?_, (hmarks mark hmark).2.2⟩⟩
  · exact congrArg (fun body => { a with body := some body }) (raised_eq hspliced)
  · exact mem_of_mem_grouped (hsub.subset (List.mem_map_of_mem hmark))

theorem method_places_of_ready (ha : Ready a) (hlegible : ∀ p ∈ a.points, Legible c s.value p) :
    (Suffices s.value.ids.next (selection c s.value a).length → ∃ marks a' s',
      Weave.method c typeName a s = .ok (a', marks.map Mark.probe) s' ∧
      Marking c typeName a.name (selection c s.value a) s.value.ids marks s'.value.ids ∧ Probes c a marks a') ∧
    (¬ Suffices s.value.ids.next (selection c s.value a).length → ∃ id s',
      Weave.method c typeName a s = .error (.probeIdTooLarge id) s') := by
  unfold Weave.method selection
  cases hbody : a.body with
  | none =>
    refine ⟨fun _ => ⟨[], a, s, rfl, .nil .., ⟨?_, rfl⟩⟩, fun hnot => absurd (.inl rfl) hnot⟩
    rw [hbody]
    exact .none
  | some b =>
    obtain ⟨hb, hmem⟩ := ha b hbody
    have hpoints := points_places (c := c) (s := s) typeName a.name (grouped a.points) [] hb (.nil b) hb
      (fun _ hmark => absurd hmark List.not_mem_nil)
      (fun p hp => ⟨hmem p (mem_of_mem_grouped hp), hlegible p (mem_of_mem_grouped hp)⟩) fun _ _ h => h
    dsimp only
    constructor
    · intro hsuffices
      obtain ⟨marks, body, s', hok, hmarking, hspliced⟩ := hpoints.1 hsuffices
      refine ⟨marks, _, s', edit_bind_ok.mpr ⟨_, s', hok, rfl⟩, hmarking, ?_, rfl⟩
      rw [hbody]
      exact .some ⟨body, hspliced, raised_eq hspliced⟩
    · intro hnot
      obtain ⟨id, s', hfault⟩ := hpoints.2 hnot
      exact ⟨id, s', edit_bind_of_error hfault⟩

/-- A module with the method `nop`, `nop`, `volatile.`, `nop`, `ret`. -/
def cutImage : List UInt8 :=
  [0x43, 0x49, 0x4C, 0x4D, 1, 0, 0, 0, 1, 0x61, 0, 0, 0, 1, 0, 0, 0, 0, 0, 8, 0x3C, 0x4D, 0x6F, 0x64, 0x75, 0x6C, 0x65,
    0x3E, 1, 0x16, 0, 0, 0, 1, 0x66, 0, 1, 7, 0x1A, 0, 0, 0xFE, 0x13, 0, 0x2A, 0]

/-- A point at each of its instructions, in two documents by turns. -/
def cutSymbols : List UInt8 :=
  [0x43, 0x50, 0x44, 0x42, 1, 0, 2, 3, 0x73, 0x2F, 0x63, 3, 0x73, 0x2F, 0x64, 1, 1, 0, 0, 6, 34, 2, 0, 0, 2, 1, 1, 0, 1, 1,
    0, 2, 0, 0, 0, 2, 1, 0, 1, 2, 0, 0, 1, 2, 0, 2, 0, 0, 0, 2, 1, 0, 2, 2, 0]

/-- Two lines in one document, three in the other with a brace in the middle. -/
def cutSession : Session where
  disk.entries := [(Disk.home, .folder), (Disk.home ++ [['s']], .folder),
    (Disk.home ++ [['s'], ['c']], .file [0x61, 0x3B, 0x0A, 0x62, 0x3B, 0x0A]),
    (Disk.home ++ [['s'], ['d']], .file [0x78, 0x3B, 0x0A, 0x7B, 0x0A, 0x79, 0x3B, 0x0A])]

def cutContext : Context where
  scope := .below "s" ["s/c", "s/d"]
  documents := #["s/c", "s/d"]
  assembly := "a"
  api := ⟨⟨0x70000001⟩, ⟨0x0A000001⟩⟩

end Weave

end CilProbes
