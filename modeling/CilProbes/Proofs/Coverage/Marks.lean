import CilProbes.Proofs.Coverage.Sources
import CilProbes.Proofs.Coverage.Walk
import CilProbes.Proofs.Coverage.Weaving
import CilProbes.Proofs.Module.WellFormed
import CilProbes.Proofs.Probe.Written

/-!
# Which probes are placed

Placing probes in some types marks some of the points of each method that is walked, and splices a probe for each mark
(`Weave.types_ok`). The numbers of all marks follow one another in the order of the walk, from the next number of the
session before to that of the session after (`ProbeIds.Numbers`).
-/

namespace CilProbes

/-! ## Numbers -/

/-- The numbers are those given out between two states, in order. -/
structure ProbeIds.Numbers (ids : ProbeIds) (numbers : List UInt32) (ids' : ProbeIds) : Prop where
  consecutive : numbers.map UInt32.toNat = List.range' ids.next.toNat numbers.length
  next : ids'.next.toNat = ids.next.toNat + numbers.length

namespace ProbeIds

variable {ids ids' ids'' : ProbeIds} {ns ns' : List UInt32}

theorem Numbers.nil (ids : ProbeIds) : Numbers ids [] ids where
  consecutive := rfl
  next := rfl

theorem Numbers.append (h : Numbers ids ns ids') (h' : Numbers ids' ns' ids'') : Numbers ids (ns ++ ns') ids'' where
  consecutive := by
    rw [List.map_append, h.consecutive, h'.consecutive, h.next, List.length_append, List.range'_append_1]
  next := by
    rw [h'.next, h.next, List.length_append, Nat.add_assoc]

/-- A number that is accepted is not the last one. -/
theorem numbers_take (h : ids.next ≤ 0x7FFFFFFF) : Numbers ids [ids.next] ids.take.2 where
  consecutive := rfl
  next := by
    have hlt : ids.next.toNat ≤ 0x7FFFFFFF := UInt32.le_iff_toNat_le.mp h
    have hne : ids.next ≠ 0xFFFFFFFF := fun heq => absurd hlt (by rw [heq]; decide)
    unfold take
    rw [if_neg hne]
    show (ids.next + 1).toNat = _
    rw [UInt32.toNat_add, UInt32.toNat_one, Nat.mod_eq_of_lt (by omega)]
    rfl

end ProbeIds

namespace Weave

/-! ## Marks -/

/-- A point with the report of the probe in front of its instruction. -/
structure Mark where
  point : SequencePoint
  probe : PlacedProbe

/-- The probe as it is spliced. -/
def Mark.splicing (api : ProbeApi) (m : Mark) : Splicing where
  target := m.point.instruction
  api
  id := m.probe.id

/-- The report of the probe names its method, its source file in scope and its span. -/
def Mark.Reports (c : Context) (typeName method : String) (m : Mark) : Prop :=
  ∃ document relative instruction, c.documents[m.point.span.document.toNat]? = some document ∧
    c.scope.resolve document = some relative ∧
    m.probe = c.report typeName method relative instruction m.probe.id m.point.span

variable {c : Context} {typeName method : String} {ps : List SequencePoint} {b b' body body' : MethodBody}
  {done : List Mark} {placed : List PlacedProbe} {s s' : Logged Session}

/-- At a point the placing of probes ends, or passes on, or puts a probe in front of the instruction and passes on; the
last only at a statement. -/
theorem points_cons_ok {p : SequencePoint} (h : points c typeName method (p :: ps) body s = .ok (body', placed) s') :
    ∃ t, Session.Keeps s t ∧ ((body' = body ∧ placed = [] ∧ s' = t) ∨
      points c typeName method ps body t = .ok (body', placed) s' ∨
      ∃ (mark : Mark) (entry : InstrId) (body₁ : MethodBody) (more : List PlacedProbe),
        mark.point = p ∧ mark.probe.id = t.value.ids.next ∧ mark.Reports c typeName method ∧
        c.selects t.value p = true ∧ body.splice p.instruction c.api mark.probe.id = .ok (entry, body₁) ∧
        points c typeName method ps body₁ { t with value := { t.value with ids := t.value.ids.take.2 } } =
          .ok (body', more) s' ∧ placed = mark.probe :: more) := by
  unfold points at h
  cases hdocument : c.documents[p.span.document.toNat]? with
  | none =>
    rw [hdocument] at h
    cases h
  | some document =>
    have hsource := source?_eq hdocument
    rw [hdocument] at h
    dsimp only at h
    cases hrelative : c.scope.resolve document with
    | none =>
      rw [hrelative] at h
      cases h
      exact ⟨_, .logged s _, .inl ⟨rfl, rfl, rfl⟩⟩
    | some relative =>
      rw [SourceScope.contains, hrelative] at hsource
      rw [hrelative] at h
      dsimp only at h
      obtain ⟨found, t, hfound, h₁⟩ := edit_bind_ok.mp h
      obtain ⟨hkeeps, lines, hlines, hstatement⟩ := Session.lines?_of_statement? hfound
      have hselects := selects_eq hsource hlines
      rw [← hstatement] at hselects
      cases found with
      | none => exact ⟨t, hkeeps, .inr (.inl h₁)⟩
      | some text =>
        dsimp only at h₁
        split at h₁
        · cases h₁
          exact ⟨_, hkeeps.trans (.logged t _), .inl ⟨rfl, rfl, rfl⟩⟩
        · obtain ⟨instruction, t, hinstruction, h₂⟩ := edit_bind_ok.mp h₁
          obtain ⟨-, rfl⟩ := ofExcept_ok hinstruction
          obtain ⟨id, s₃, hid, h₃⟩ := edit_bind_ok.mp h₂
          cases hid
          obtain ⟨⟨entry, body₁⟩, s₄, hspliced, h₄⟩ := edit_bind_ok.mp h₃
          obtain ⟨hsplice, rfl⟩ := ofExcept_ok hspliced
          obtain ⟨⟨body₂, more⟩, s₅, hmore, h₅⟩ := edit_bind_ok.mp h₄
          cases h₅
          exact ⟨t, hkeeps, .inr (.inr
            ⟨⟨p, c.report typeName method relative instruction t.value.ids.next p.span⟩, entry, body₁, more,
            rfl, rfl, ⟨document, relative, instruction, hdocument, hrelative, rfl⟩, hselects, hsplice, hmore, rfl⟩)⟩

/-- Placing probes at some points of a method gives marks at some of them that lie on statements, in their order. -/
theorem points_ok (hb : b.code.WellFormed) (hspliced : b.Spliced (done.map (Mark.splicing c.api)) body)
    (hbody : body.code.WellFormed) (hps : ∀ p ∈ ps, p.instruction ∈ b.code.ids)
    (h : points c typeName method ps body s = .ok (body', placed) s') :
    s.value.KeepsLines s'.value ∧ ∃ marks, (marks.map Mark.point).Sublist ps ∧
      (∀ m ∈ marks, m.Reports c typeName method ∧ m.probe.id ≤ 0x7FFFFFFF ∧ c.selects s'.value m.point = true) ∧
      b.Spliced ((done ++ marks).map (Mark.splicing c.api)) body' ∧ body'.code.WellFormed ∧
      placed = marks.map Mark.probe ∧ s.value.ids.Numbers (placed.map PlacedProbe.id) s'.value.ids := by
  -- What is marked already stays in front; each probe is the next one behind it.
  induction ps generalizing body done placed s with
  | nil =>
    cases h
    exact ⟨.refl _, [], .slnil, fun _ hm => absurd hm List.not_mem_nil, by rwa [List.append_nil], hbody, rfl, .nil _⟩
  | cons p ps ih =>
    obtain ⟨hp, hrest⟩ := List.forall_mem_cons.mp hps
    obtain ⟨t, ht, ⟨rfl, rfl, rfl⟩ | hlater |
      ⟨mark, entry, body₁, more, rfl, hid, hreports, hselects, hsplice, hlater, rfl⟩⟩ := points_cons_ok h
    · exact ⟨ht.lines, [], List.nil_sublist _, fun _ hm => absurd hm List.not_mem_nil, by rwa [List.append_nil], hbody,
        rfl, ht.ids ▸ .nil _⟩
    · obtain ⟨hkeeps, marks, hsub, hmarks⟩ := ih hspliced hbody hrest hlater
      rw [ht.ids] at hmarks
      exact ⟨.trans ht.lines hkeeps, marks, hsub.cons p, hmarks⟩
    · have haccepted := MethodBody.accepted_of_splice hsplice
      have hle := haccepted
      obtain ⟨body₁', hsplice', hspliced'⟩ :=
        hspliced.concat (p := mark.splicing c.api) hb hp (decide_eq_true haccepted)
      have hsame := hsplice.symm.trans hsplice'
      cases hsame
      rw [← List.map_singleton, ← List.map_append] at hspliced'
      obtain ⟨hkeeps, marks, hsub, hall, hmarks, hwf, rfl, hnumbers⟩ :=
        ih hspliced' (MethodBody.wellFormed_code_splice hbody hsplice) hrest hlater
      rw [List.append_assoc, List.singleton_append] at hmarks
      rw [hid] at hle
      refine ⟨.trans ht.lines hkeeps, mark :: marks, hsub.cons_cons _, List.forall_mem_cons.mpr
        ⟨⟨hreports, haccepted, selects_of_keepsLines hkeeps hselects⟩, hall⟩, hmarks, hwf, rfl, ?_⟩
      rw [List.map_cons, hid, ← ht.ids]
      exact (ProbeIds.numbers_take (ht.ids ▸ hle)).append (ht.ids ▸ hnumbers)

/-! ## Methods -/

/-- A method of a type, with the marks of the probes that are placed in it. -/
structure Marked where
  typeName : String
  method : Method
  marks : List Mark

namespace Marked

/-- The probes as they are spliced. -/
def splicings (api : ProbeApi) (w : Marked) : List Splicing :=
  w.marks.map (Mark.splicing api)

/-- The marks in the order in which their probes stand in the program of the body. -/
def standing (w : Marked) (b : MethodBody) : List Mark :=
  b.code.ids.flatMap fun id => w.marks.filter fun m => m.point.instruction = id

/--
The marks are at points of the method, in the order in which these are taken, and each stands in the program of the body
once; their numbers can be pushed as signed words. A method without body has none.
-/
structure Valid (c : Context) (w : Marked) : Prop where
  points : (w.marks.map Mark.point).Sublist (grouped w.method.points)
  reports : ∀ m ∈ w.marks, m.Reports c w.typeName w.method.name
  accepted : ∀ m ∈ w.marks, m.probe.id ≤ 0x7FFFFFFF
  once : ∀ b ∈ w.method.body, (w.standing b).Perm w.marks
  bare : w.method.body = none → w.marks = []

/-- The body is that of the method with its probes. -/
structure Probed (c : Context) (w : Marked) (b b' : MethodBody) : Prop where
  wellFormed : b'.WellFormed
  spliced : ∃ spliced maxStack, b.Spliced (w.splicings c.api) spliced ∧ b' = { spliced with maxStack }

/-- The method is what placing the probes makes of it. -/
structure Yields (c : Context) (w : Marked) (e : String × Method) : Prop where
  typeName : e.1 = w.typeName
  body : Option.Rel (w.Probed c) w.method.body e.2.body
  rest : e.2 = { w.method with body := e.2.body }

end Marked

/-- Collecting elements key by key collects each of those that have one of the keys. -/
theorem perm_flatMap_filter {α β : Type} [DecidableEq β] (key : α → β) {keys : List β} (h : keys.Nodup) (xs : List α) :
    (keys.flatMap fun k => xs.filter fun x => key x = k).Perm (xs.filter fun x => key x ∈ keys) := by
  induction keys with
  | nil => simp
  | cons k keys ih =>
    obtain ⟨hk, hkeys⟩ := List.nodup_cons.mp h
    have hsplit := List.filter_append_perm (fun x => decide (key x = k)) (xs.filter fun x => key x ∈ k :: keys)
    rw [List.filter_filter, List.filter_filter] at hsplit
    rw [List.flatMap_cons]
    refine List.Perm.trans (List.Perm.append ?_ ((ih hkeys).trans ?_)) hsplit
    · exact .of_eq (List.filter_congr fun x _ => by by_cases hx : key x = k <;> simp [hx])
    · refine .of_eq (List.filter_congr fun x _ => ?_)
      by_cases hx : key x = k
      · simp [hx, hk]
      · simp [hx]

theorem Marked.perm_standing {w : Marked} {b : MethodBody} (hb : b.code.WellFormed)
    (h : ∀ m ∈ w.marks, m.point.instruction ∈ b.code.ids) : (w.standing b).Perm w.marks := by
  have hperm := perm_flatMap_filter (fun m : Mark => m.point.instruction) hb.nodup w.marks
  rwa [List.filter_eq_self.mpr fun m hm => decide_eq_true (h m hm)] at hperm

/-- The points are at instructions of the body, which is well formed. -/
def Ready (m : Method) : Prop :=
  ∀ b ∈ m.body, b.WellFormed ∧ ∀ p ∈ m.points, p.instruction ∈ b.code.ids

/-- The probes that are placed in some methods, one method after another. -/
structure Places (c : Context) (before after : List (String × Method)) (placed : List PlacedProbe)
    (s s' : Logged Session) (ws : List Marked) : Prop where
  walked : before = ws.map fun w => (w.typeName, w.method)
  yields : List.Forall₂ (Marked.Yields c) ws after
  valid : ∀ w ∈ ws, w.Valid c
  reports : placed = (ws.flatMap Marked.marks).map Mark.probe
  numbers : s.value.ids.Numbers (placed.map PlacedProbe.id) s'.value.ids

variable {before before' after after' : List (String × Method)} {placed' : List PlacedProbe} {s'' : Logged Session}
  {ws ws' : List Marked}

theorem Places.nil (s : Logged Session) : Places c [] [] [] s s [] where
  walked := rfl
  yields := .nil
  valid _ hw := absurd hw List.not_mem_nil
  reports := rfl
  numbers := .nil _

theorem Places.append (h : Places c before after placed s s' ws) (h' : Places c before' after' placed' s' s'' ws') :
    Places c (before ++ before') (after ++ after') (placed ++ placed') s s'' (ws ++ ws') where
  walked := by rw [h.walked, h'.walked, List.map_append]
  yields := List.rel_append h.yields h'.yields
  valid := List.forall_mem_append.mpr ⟨h.valid, h'.valid⟩
  reports := by rw [List.flatMap_append, List.map_append, ← h.reports, ← h'.reports]
  numbers := by
    rw [List.map_append]
    exact h.numbers.append h'.numbers

theorem mem_of_mem_grouped {p : SequencePoint} (h : p ∈ grouped ps) : p ∈ ps := by
  obtain ⟨document, _, h⟩ := List.mem_flatMap.mp h
  exact (List.mem_filter.mp h).1

variable {m m' : Method} {ms ms' : List Method}

theorem method_ok (hm : Ready m) (h : Weave.method c typeName m s = .ok (m', placed) s') :
    ∃ w, Places c [(typeName, m)] [(typeName, m')] placed s s' [w] := by
  unfold Weave.method at h
  cases hbody : m.body with
  | none =>
    rw [hbody] at h
    cases h
    refine ⟨⟨typeName, m, []⟩, rfl, .cons ⟨rfl, by rw [hbody]; exact .none, rfl⟩ .nil,
      List.forall_mem_singleton.mpr ⟨List.nil_sublist _, fun _ hm => absurd hm List.not_mem_nil,
        fun _ hm => absurd hm List.not_mem_nil, fun b hb => ?_, fun _ => rfl⟩, rfl, .nil _⟩
    exact absurd hb (by simp [hbody])
  | some b =>
    rw [hbody] at h
    obtain ⟨⟨body, placed⟩, s₁, hpoints, h₁⟩ := edit_bind_ok.mp h
    obtain ⟨hb, hmem⟩ := hm b hbody
    have hstart : b.Spliced (([] : List Mark).map (Mark.splicing c.api)) b := .nil b
    obtain ⟨-, marks, hsub, hreports, hspliced, hcode, rfl, hnumbers⟩ :=
      points_ok hb.code hstart hb.code (fun p hp => hmem p (mem_of_mem_grouped hp)) hpoints
    cases h₁
    have hwf := hspliced.wellFormed hb hcode
    have hpoint : ∀ mark ∈ marks, mark.point.instruction ∈ b.code.ids := fun mark hmark =>
      hmem _ (mem_of_mem_grouped (hsub.subset (List.mem_map_of_mem hmark)))
    refine ⟨⟨typeName, m, marks⟩, rfl, .cons ⟨rfl, ?_, rfl⟩ .nil, List.forall_mem_singleton.mpr ⟨hsub,
      fun mark hmark => (hreports mark hmark).1, fun mark hmark => (hreports mark hmark).2.1, ?_, ?_⟩, ?_, hnumbers⟩
    · rw [hbody]
      refine .some ⟨?_, ?_⟩
      · split
        · exact hwf
        · exact ⟨hwf.code, hwf.clauses⟩
      · split
        · exact ⟨body, body.maxStack, hspliced, rfl⟩
        · exact ⟨body, _, hspliced, rfl⟩
    · intro b' hb'
      rw [hbody] at hb'
      cases hb'
      exact Marked.perm_standing hb.code hpoint
    · exact fun hnone => by rw [hbody] at hnone; cases hnone
    · rw [List.flatMap_singleton]

theorem methods_ok (hms : ∀ m ∈ ms, Ready m) (h : methods c typeName ms s = .ok (ms', placed) s') :
    ∃ ws, Places c (ms.map fun m => (typeName, m)) (ms'.map fun m => (typeName, m)) placed s s' ws := by
  induction ms generalizing ms' placed s with
  | nil =>
    cases h
    exact ⟨[], .nil _⟩
  | cons m ms ih =>
    obtain ⟨hm, hrest⟩ := List.forall_mem_cons.mp hms
    obtain ⟨⟨m', here⟩, s₁, hfirst, h₁⟩ := edit_bind_ok.mp h
    obtain ⟨⟨ms', later⟩, s₂, hlater, h₂⟩ := edit_bind_ok.mp h₁
    cases h₂
    obtain ⟨w, hw⟩ := method_ok hm hfirst
    obtain ⟨ws, hws⟩ := ih hrest hlater
    exact ⟨[w] ++ ws, hw.append hws⟩

/-! ## Types -/

theorem Places.length_eq (h : Places c before after placed s s' ws) : after.length = before.length := by
  rw [h.walked, List.length_map, h.yields.length_eq]

open TypeDef (walk walkNested walkAll fill fillAll allMethods methodsOf)

theorem fullName_of_fill {t t' : TypeDef} (h : ∀ more, fill t (t'.allMethods ++ more) = (t', more)) :
    t'.fullName = t.fullName := by
  rw [← TypeDef.fullName_fill t (t'.allMethods ++ []), h]

mutual

/-- Placing the probes of a type gives a type of the same form. -/
theorem type_ok (typeName : String) : ∀ (t : TypeDef) {t' : TypeDef} {placed : List PlacedProbe}
    {s s' : Logged Session}, (∀ e ∈ walk typeName t, Ready e.2) → Weave.type c typeName t s = .ok (t', placed) s' →
      (∃ ws, Places c (walk typeName t) (walk typeName t') placed s s' ws) ∧
        ∀ more, fill t (t'.allMethods ++ more) = (t', more)
  | ⟨flags, space, name, own, nested⟩, t', placed, s, s', hready, h => by
    rw [walk] at hready
    obtain ⟨hinner, hown⟩ := List.forall_mem_append.mp hready
    unfold Weave.type at h
    obtain ⟨⟨nested', inner⟩, s₁, hnested, h₁⟩ := edit_bind_ok.mp h
    obtain ⟨⟨own', here⟩, s₂, hmethods, h₂⟩ := edit_bind_ok.mp h₁
    cases h₂
    obtain ⟨⟨ws, hws⟩, hfill⟩ := nestedTypes_ok typeName nested hinner hnested
    obtain ⟨vs, hvs⟩ := methods_ok (fun m hm => hown _ (List.mem_map_of_mem hm)) hmethods
    have hlen := hvs.length_eq
    rw [List.length_map, List.length_map] at hlen
    refine ⟨⟨ws ++ vs, ?_⟩, fun more => ?_⟩
    · rw [walk, walk]
      exact hws.append hvs
    · rw [fill, allMethods, List.append_assoc, ← hlen, List.drop_left, List.take_left, hfill]

theorem nestedTypes_ok (outer : String) : ∀ (ts : List TypeDef) {ts' : List TypeDef} {placed : List PlacedProbe}
    {s s' : Logged Session}, (∀ e ∈ walkNested outer ts, Ready e.2) →
      Weave.nestedTypes c outer ts s = .ok (ts', placed) s' →
        (∃ ws, Places c (walkNested outer ts) (walkNested outer ts') placed s s' ws) ∧
          ∀ more, fillAll ts (methodsOf ts' ++ more) = (ts', more)
  | [], ts', placed, s, s', _, h => by
    unfold Weave.nestedTypes at h
    cases h
    refine ⟨⟨[], ?_⟩, fun more => ?_⟩
    · rw [walkNested]
      exact .nil _
    · rw [fillAll, methodsOf, List.nil_append]
  | t :: ts, ts', placed, s, s', hready, h => by
    rw [walkNested] at hready
    obtain ⟨hfirst, hrest⟩ := List.forall_mem_append.mp hready
    unfold Weave.nestedTypes at h
    obtain ⟨⟨t', here⟩, s₁, htype, h₁⟩ := edit_bind_ok.mp h
    obtain ⟨⟨ts', later⟩, s₂, htypes, h₂⟩ := edit_bind_ok.mp h₁
    cases h₂
    obtain ⟨⟨ws, hws⟩, hfill⟩ := type_ok _ t hfirst htype
    obtain ⟨⟨vs, hvs⟩, hfillAll⟩ := nestedTypes_ok outer ts hrest htypes
    refine ⟨⟨ws ++ vs, ?_⟩, fun more => ?_⟩
    · rw [walkNested, walkNested, fullName_of_fill hfill]
      exact hws.append hvs
    · rw [fillAll, methodsOf, List.append_assoc, hfill]
      dsimp only
      rw [hfillAll]

end

theorem types_ok {ts ts' : List TypeDef} (hready : ∀ e ∈ walkAll ts, Ready e.2)
    (h : types c ts s = .ok (ts', placed) s') :
    (∃ ws, Places c (walkAll ts) (walkAll ts') placed s s' ws) ∧
      ∀ more, fillAll ts (methodsOf ts' ++ more) = (ts', more) := by
  induction ts generalizing ts' placed s with
  | nil =>
    cases h
    exact ⟨⟨[], .nil _⟩, fun more => rfl⟩
  | cons t ts ih =>
    obtain ⟨hfirst, hrest⟩ := List.forall_mem_append.mp hready
    obtain ⟨⟨t', here⟩, s₁, htype, h₁⟩ := edit_bind_ok.mp h
    obtain ⟨⟨ts', later⟩, s₂, htypes, h₂⟩ := edit_bind_ok.mp h₁
    cases h₂
    obtain ⟨⟨ws, hws⟩, hfill⟩ := type_ok _ t hfirst htype
    obtain ⟨⟨vs, hvs⟩, hfillAll⟩ := ih hrest htypes
    refine ⟨⟨ws ++ vs, ?_⟩, fun more => ?_⟩
    · rw [walkAll, walkAll, fullName_of_fill hfill]
      exact hws.append hvs
    · rw [fillAll, methodsOf, List.append_assoc, hfill]
      dsimp only
      rw [hfillAll]

end Weave

end CilProbes
