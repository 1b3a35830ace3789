import CilProbes.Proofs.Coverage.Histories
import CilProbes.Proofs.Coverage.Marker
import CilProbes.Proofs.Coverage.Prepared

/-!
# What probing changes

The module that is loaded after it was probed is the pristine one with what probing adds, and with nothing else
(`Weave.Difference`, `Weave.module_differs`): its marker, what its probes refer to, an initializer if it lacked one, the
opening of the initializer, and the probes in front of the reported points. A marker whose size does not fit in its field
is written all the same, and then the module cannot be loaded (`Weave.module_differs_oversized`).
-/

namespace CilProbes

theorem sublist_flatMap_append {α : Type} (front : α → List α) (xs : List α) :
    xs.Sublist (xs.flatMap fun x => front x ++ [x]) := by
  induction xs with
  | nil => exact .slnil
  | cons x xs ih =>
    rw [List.flatMap_cons, List.append_assoc, List.singleton_append]
    exact (ih.cons_cons x).trans (List.sublist_append_right _ _)

/-! ## Methods -/

namespace Method

/-- The methods differ in their bodies only. -/
theorem withBody_trans {m m' m'' : Method} (h : m' = { m with body := m'.body }) (h' : m'' = { m' with body := m''.body }) :
    m'' = { m with body := m''.body } :=
  h'.trans (congrArg (fun old : Method => { old with body := m''.body }) h)

end Method

namespace Weave

open TypeDef (walkAll fillAll methodsOf)

/-- What becomes of a method that is probed, in the files that are written. -/
structure Marked.Becomes (c : Context) (opening : List Instruction) (f : Token → Token) (w : Marked) (r : Method) :
    Prop where
  valid : w.Valid c
  body : Option.Rel (MethodBody.Rewritten opening f (w.splicings c.api)) w.method.body r.body
  rest : r = { w.method with
    body := r.body
    points := w.method.points.map fun p =>
      { p with instruction := MethodBody.homeBehind opening (w.splicings c.api) p.instruction } }

section Methods

variable {c : Context} {opening : List Instruction} {f : Token → Token} {w : Marked} {e : String × Method} {a m : Method}
  {documents : Nat}

/-- A method with probes has the instructions from before in their order. -/
theorem Marked.Yields.extends (h : w.Yields c e) : e.2.Extends w.method where
  body b' hb' := by
    have hbody := h.body
    rw [hb'] at hbody
    generalize w.method.body = body at hbody
    cases hbody with
    | some hprobed =>
      obtain ⟨hwf, spliced, maxStack, hspliced, rfl⟩ := hprobed
      refine ⟨_, rfl, hwf, ?_⟩
      rw [hspliced.ids]
      exact sublist_flatMap_append _ _
  bare hnone := by
    have hbody := h.body
    rw [hnone] at hbody
    generalize w.method.body = body at hbody
    cases hbody
    rfl
  rest := h.rest

/-- The marks of a method name instructions of its body. -/
theorem mem_ids_of_mark {b : MethodBody} (ha : a.Anchored documents) (hb : b ∈ a.body)
    (hmarks : (w.marks.map Mark.point).Sublist (grouped a.points)) :
    ∀ mark ∈ w.marks, mark.point.instruction ∈ b.code.ids := by
  intro mark hmark
  have hmem := mem_of_mem_grouped (hmarks.subset (List.mem_map_of_mem hmark))
  exact (ha.anchors b hb).subset (List.mem_map_of_mem hmem)

/-- What is read of a body behind an opening that got the probes of its marks. -/
theorem rewritten_ok {b b₂ b₃ r : MethodBody} (hb : b.Parsed) (hopened : b.Opened opening f b₂) (hb₂ : b₂.WellFormed)
    (hopening : ∀ i ∈ opening, i.targets = []) (hmem : ∀ mark ∈ w.marks, mark.point.instruction ∈ b.code.ids)
    (haccepted : ∀ mark ∈ w.marks, mark.probe.id ≤ 0x7FFFFFFF) (hprobed : w.Probed c b₂ b₃) (hwidened : b₃.Widened r) :
    b.Rewritten opening f (w.splicings c.api) r.written ∧
      ∀ id ∈ b.code.ids, r.code.place id = MethodBody.homeBehind opening (w.splicings c.api) id := by
  have hinside : ∀ id ∈ b.code.ids, id.index < b.code.arena.size :=
    fun id hid => (hb.code.wellFormed.mem_ids id).mp hid
  have htargets : ∀ p ∈ w.splicings c.api, p.target.index < b.code.arena.size := by
    intro p hp
    obtain ⟨mark, hmark, rfl⟩ := List.mem_map.mp hp
    exact hinside _ (hmem mark hmark)
  have hids : ∀ p ∈ w.splicings c.api, p.isAccepted = true := by
    intro p hp
    obtain ⟨mark, hmark, rfl⟩ := List.mem_map.mp hp
    exact decide_eq_true (haccepted mark hmark)
  obtain ⟨hwf, spliced, maxStack, hspliced, rfl⟩ := hprobed
  obtain ⟨hrewritten, hplaces⟩ :=
    hopened.rewritten hb hb₂ hopening htargets hids hspliced ⟨hwf.code, hwf.clauses⟩ hwidened
  exact ⟨hrewritten, fun id hid => hplaces id (hinside id hid)⟩

/-- A method has a body in the files that are written if it had one, and its points are where their instructions are. -/
theorem bodies_ok (hparsed : ∀ b ∈ a.body, b.Parsed) (ha : a.Anchored documents)
    (hopened : Option.Rel (MethodBody.Opened opening f) a.body w.method.body) (hreadable : w.method.Readable)
    (hopening : ∀ i ∈ opening, i.targets = []) (hmarks : (w.marks.map Mark.point).Sublist (grouped a.points))
    (haccepted : ∀ mark ∈ w.marks, mark.probe.id ≤ 0x7FFFFFFF) (hprobed : Option.Rel (w.Probed c) w.method.body e.2.body)
    (hwidened : Option.Rel MethodBody.Widened e.2.body m.body) :
    Option.Rel (MethodBody.Rewritten opening f (w.splicings c.api)) a.body (m.body.map MethodBody.written) ∧
      (m.body.map fun b => b.placePoints a.points).getD [] = a.points.map fun p =>
        { p with instruction := MethodBody.homeBehind opening (w.splicings c.api) p.instruction } := by
  cases hbody : a.body with
  | none =>
    rw [hbody] at hopened
    rw [eq_none_of_rel_none hopened] at hprobed
    rw [eq_none_of_rel_none hprobed] at hwidened
    rw [eq_none_of_rel_none hwidened, ha.bare hbody]
    exact ⟨.none, rfl⟩
  | some b =>
    rw [hbody] at hopened
    obtain ⟨b₂, hb₂, hopened⟩ := exists_of_rel_some hopened
    rw [hb₂] at hprobed
    obtain ⟨b₃, hb₃, hprobed⟩ := exists_of_rel_some hprobed
    rw [hb₃] at hwidened
    obtain ⟨r, hr, hwidened⟩ := exists_of_rel_some hwidened
    obtain ⟨hrewritten, hplaces⟩ := rewritten_ok (hparsed b hbody) hopened (hreadable.body b₂ hb₂) hopening
      (mem_ids_of_mark ha hbody hmarks) haccepted hprobed hwidened
    rw [hr]
    refine ⟨.some hrewritten, List.map_congr_left fun p hp => ?_⟩
    have hplace := hplaces p.instruction ((ha.anchors b hbody).subset (List.mem_map_of_mem hp))
    exact congrArg (fun instruction => ({ p with instruction } : SequencePoint)) hplace

theorem becomes_ok (hparsed : ∀ b ∈ a.body, b.Parsed) (ha : a.Anchored documents) (hopened : a.Opened opening f w.method)
    (hreadable : w.method.Readable) (hvalid : w.Valid c) (hyields : w.Yields c e) (hwidened : e.2.Widened m)
    (hopening : ∀ i ∈ opening, i.targets = []) : ({ w with method := a } : Marked).Becomes c opening f m.reread := by
  have hrest := Method.withBody_trans (Method.withBody_trans hopened.rest hyields.rest) hwidened.rest
  have hname : w.method.name = a.name := (congrArg Method.name hopened.rest :)
  have hpoints : w.method.points = a.points := (congrArg Method.points hopened.rest :)
  have hpoints' : m.points = a.points := (congrArg Method.points hrest :)
  have hmarks : (w.marks.map Mark.point).Sublist (grouped a.points) := hpoints ▸ hvalid.points
  obtain ⟨hbody, hplaced⟩ := bodies_ok hparsed ha hopened.body hreadable hopening hmarks hvalid.accepted hyields.body
    hwidened.body
  refine ⟨⟨hmarks, hname ▸ hvalid.reports, hvalid.accepted, fun b hb => ?_, fun hnone => ?_⟩, hbody, ?_⟩
  · exact Marked.perm_standing (hparsed b hb).code.wellFormed (mem_ids_of_mark ha hb hmarks)
  · have hbody := hopened.body
    rw [show a.body = none from hnone] at hbody
    exact hvalid.bare (eq_none_of_rel_none hbody)
  · show ({ m with body := m.reread.body, points := (m.body.map fun b => b.placePoints m.points).getD [] } : Method) = _
    rw [hpoints', hplaced]
    exact congrArg (fun old : Method => { old with
      body := m.reread.body
      points := a.points.map fun p : SequencePoint =>
        { p with instruction := MethodBody.homeBehind opening (w.splicings c.api) p.instruction } }) hrest

end Methods

/-- The methods before and after probes are placed, in the order of their rows. -/
theorem Places.exists_rows {c : Context} {ts woven : List TypeDef} {placed : List PlacedProbe} {s s' : Logged Session}
    {ws : List Marked} (h : Places c (walkAll ts) (walkAll woven) placed s s' ws)
    (hfill : ∀ more, fillAll ts (methodsOf woven ++ more) = (woven, more)) : ∃ rows : List (Marked × String × Method),
      methodsOf ts = rows.map (fun row => row.1.method) ∧ methodsOf woven = rows.map (fun row => row.2.2) ∧
      (∀ row ∈ rows, row.1.Valid c ∧ row.1.Yields c row.2) ∧
      placed.Perm ((rows.flatMap fun row => row.1.marks).map Mark.probe) := by
  have hlen := h.yields.length_eq
  have hwoven : (fillAll ts (methodsOf woven)).1 = woven := by
    have := hfill []
    rw [List.append_nil] at this
    rw [this]
  have hcount : (methodsOf ts).length ≤ (methodsOf woven).length := by
    rw [← (TypeDef.perm_walkAll ts).length_eq, ← (TypeDef.perm_walkAll woven).length_eq, List.length_map, List.length_map,
      h.length_eq]
  have hfst : (ws.zip (walkAll woven)).map Prod.fst = ws := List.map_fst_zip (Nat.le_of_eq hlen)
  have hsnd : (ws.zip (walkAll woven)).map Prod.snd = walkAll woven := List.map_snd_zip (Nat.le_of_eq hlen.symm)
  have hbefore : walkAll ts = (ws.zip (walkAll woven)).map fun row => (row.1.typeName, row.1.method) := by
    rw [h.walked]
    conv_lhs => rw [← hfst, List.map_map]
    rfl
  obtain ⟨rows, hperm, hold, hnew⟩ := TypeDef.exists_rows hcount hbefore (g := Prod.snd) (by rw [hwoven, hsnd])
  rw [hwoven] at hnew
  refine ⟨rows, hold, hnew, fun row hrow => ?_, ?_⟩
  · have hmem := hperm.subset hrow
    exact ⟨h.valid _ (List.of_mem_zip hmem).1, (List.forall₂_iff_zip.mp h.yields).2 hmem⟩
  · rw [h.reports]
    conv_lhs => rw [← hfst, List.flatMap_map]
    exact (hperm.symm.flatMap_right _).map _

/-! ## Modules -/

/--
How the module that is loaded after probing differs from the pristine one. The methods of the pristine one, completed by
an initializer if it lacked one, are listed with the marks of their probes in the order of their rows; the module has
what becomes of them in the same rows of the same types.
-/
structure Difference (config : Config) (p : Path) (m r : Module) where
  api : ProbeApi
  init : Token
  /-- The row of the module initializer. -/
  initializer : Nat
  methods : List Marked
  name : r.name = m.name
  documents : r.documents = m.documents
  attributes : r.attributes = m.attributes ++ [config.markerAttribute]
  imports : Imports config m api init r
  initializer_eq : m.completed.initializerIndex? = some initializer
  methods_eq : m.completed.methods = methods.map Marked.method
  length_eq : r.methods.length = methods.length
  becomes : ∀ (i : Nat) (w : Marked), methods[i]? = some w → ∃ a, r.methods[i]? = some a ∧
    w.Becomes (contextOf config p (m.documents.getD []) m api) (if i = initializer then opening api init else [])
      m.renumber a
  types : r.types = (fillAll m.completed.types r.methods).1
  tokens : ∀ (token : Token) (method : Method), m.method? token = some method →
    ∃ (i : Nat) (w : Marked) (a : Method), methods[i]? = some w ∧ w.method = method ∧ r.methods[i]? = some a ∧
      r.method? (m.renumber token) = some a
  others : ∀ token : Token, token.table ≠ Table.methodDef.code → m.renumber token = token

/-- All marks, in the order of the rows of their methods. -/
def Difference.marks {config : Config} {p : Path} {m r : Module} (d : Difference config p m r) : List Mark :=
  d.methods.flatMap Marked.marks

variable {config : Config} {p : Path} {m saved : Module} {image symbols : List UInt8} {before after : Logged Session}
  {placed : List PlacedProbe} {files : Image.Files} {given : List Method} {woven : List TypeDef} {ws : List Marked}
  {c : Context} {s s' : Logged Session}

/-- What is read of a method at its row; no token names a row of more than 24 bits, and then the points are lost. -/
def rereadAt (i : Nat) (a : Method) : Method :=
  if i + 1 < 2 ^ 24 then a.reread else a.written

theorem rereadAt_eq {i : Nat} {a : Method} (h : a.reread.points ≠ [] → i + 1 < 2 ^ 24) : rereadAt i a = a.reread := by
  unfold rereadAt
  split
  · rfl
  · next hrow =>
    have hpoints : a.reread.points = [] := by_contra fun hne => hrow (h hne)
    exact congrArg (fun points => ({ a.written with points } : Method)) hpoints.symm

/-- What was written with other methods is read with these. -/
theorem reread_withMethods (hlen : given.length = m.methods.length) (hwidened : (m.withMethods given).Widened saved) :
    List.Forall₂ Method.Widened given saved.methods ∧ saved.reread = m.withMethods (saved.methods.mapIdx rereadAt) := by
  have hmethods := hwidened.methods
  rw [Module.methods_withMethods hlen] at hmethods
  have hcount : saved.methods.length = m.methods.length := hmethods.length_eq.symm.trans hlen
  have hsaved : saved = m.withMethods saved.methods := hwidened.rest.trans (Module.withMethods_withMethods hlen)
  refine ⟨hmethods, ?_⟩
  exact (congrArg (·.withMethods (saved.methods.mapIdx rereadAt)) hsaved).trans (Module.withMethods_withMethods hcount)

section Rows

variable {api : ProbeApi} {init : Token} {index n : Nat} {M : Module} {rows : List (Marked × String × Method)}
  {methods : List Method}

/-- The methods before the module was prepared, with the marks of their probes. -/
def originals (m : Module) (rows : List (Marked × String × Method)) : List Marked :=
  List.zipWith (fun row a => { row.1 with method := a }) rows m.completed.methods

theorem targets_opening {i : Instruction} (h : i ∈ opening api init) : i.targets = [] := by
  rcases List.mem_pair.mp h with rfl | rfl <;> rfl

theorem becomes_originals (hparsed : ∀ a ∈ m.completed.methods, ∀ b ∈ a.body, b.Parsed)
    (hanchored : ∀ a ∈ m.completed.methods, a.Anchored n) (hopens : Opens m (opening api init) index methods)
    (hmethods : methods = rows.map fun row => row.1.method) (hreadable : ∀ a ∈ methods, a.Readable)
    (hrows : ∀ row ∈ rows, row.1.Valid c ∧ row.1.Yields c row.2)
    (hwidened : List.Forall₂ Method.Widened (rows.map fun row => row.2.2) saved.methods) :
    ∀ (i : Nat) (w : Marked), (originals m rows)[i]? = some w → ∃ a, (saved.methods.map Method.reread)[i]? = some a ∧
      w.Becomes c (if i = index then opening api init else []) m.renumber a := by
  intro i w hw
  obtain ⟨row, a, hrow, ha, rfl⟩ := List.getElem?_zipWith_eq_some.mp hw
  obtain ⟨a', ha', hopened⟩ := hopens.methods i a ha
  have hmem := List.mem_of_getElem? ha'
  rw [hmethods, List.getElem?_map, hrow] at ha'
  cases ha'
  obtain ⟨hvalid, hyields⟩ := hrows row (List.mem_of_getElem? hrow)
  have hnew : (rows.map fun row => row.2.2)[i]? = some row.2.2 := by rw [List.getElem?_map, hrow]; rfl
  obtain ⟨r, hr, hrwidened⟩ := exists_getElem?_of_forall₂ hwidened.flip hnew
  refine ⟨r.reread, by rw [List.getElem?_map, hr]; rfl, ?_⟩
  have ha := List.mem_of_getElem? ha
  refine becomes_ok (hparsed a ha) (hanchored a ha) hopened (hreadable _ hmem) hvalid hyields hrwidened fun j hj => ?_
  split at hj
  · exact targets_opening hj
  · exact absurd hj List.not_mem_nil

theorem length_originals (h : rows.length = m.completed.methods.length) : (originals m rows).length = rows.length := by
  unfold originals
  rw [List.length_zipWith, ← h, Nat.min_self]

theorem map_method_originals (h : rows.length = m.completed.methods.length) :
    (originals m rows).map Marked.method = m.completed.methods := by
  unfold originals
  refine List.ext_getElem (by simp [h]) fun i _ _ => ?_
  rw [List.getElem_map, List.getElem_zipWith]

theorem flatMap_marks_originals (h : rows.length = m.completed.methods.length) :
    (originals m rows).flatMap Marked.marks = rows.flatMap fun row => row.1.marks := by
  rw [List.flatMap_def, List.flatMap_def]
  unfold originals
  refine congrArg List.flatten (List.ext_getElem (by simp [h]) fun i _ _ => ?_)
  rw [List.getElem_map, List.getElem_zipWith, List.getElem_map]

/-- The new token of a method leads to what became of it. -/
theorem tokens_originals {r : Module} {token : Token} {method : Method} (hroom : m.Roomy)
    (hcount : rows.length = m.completed.methods.length)
    (hrows : ∀ (i : Nat) (w : Marked), (originals m rows)[i]? = some w → ∃ a, r.methods[i]? = some a)
    (h : m.method? token = some method) : ∃ (i : Nat) (w : Marked) (a : Method), (originals m rows)[i]? = some w ∧
      w.method = method ∧ r.methods[i]? = some a ∧ r.method? (m.renumber token) = some a := by
  obtain ⟨i, hindex, hfound⟩ := Option.bind_eq_some_iff.mp (Module.method?_renumber h hroom.methods)
  rw [← map_method_originals hcount, List.getElem?_map] at hfound
  obtain ⟨w, hw, rfl⟩ := Option.map_eq_some_iff.mp hfound
  obtain ⟨a, ha⟩ := hrows i w hw
  refine ⟨i, w, a, hw, rfl, ha, ?_⟩
  unfold Module.method?
  rw [hindex, Option.bind_some, ha]

end Rows

/-- How a pristine module becomes the module that is written: it is prepared, and its methods get the probes. -/
structure Woven (config : Config) (p : Path) (m saved : Module) where
  api : ProbeApi
  init : Token
  initializer : Nat
  prepared : Module
  /-- The methods of the prepared module with their marks, and what they are with the probes. -/
  rows : List (Marked × String × Method)
  imports : m.Roomy → Imports config m api init prepared
  opens : Opens m (opening api init) initializer prepared.methods
  prepared_eq : prepared = { m with
    attributes := m.attributes ++ [config.markerAttribute]
    memberRefs := prepared.memberRefs
    userStrings := prepared.userStrings
    types := (fillAll m.completed.types prepared.methods).1 }
  readable : ∀ a ∈ prepared.methods, a.Readable
  methods_eq : prepared.methods = rows.map fun row => row.1.method
  placed : ∀ row ∈ rows, row.1.Valid (contextOf config p (m.documents.getD []) m api) ∧
    row.1.Yields (contextOf config p (m.documents.getD []) m api) row.2
  widened : (prepared.withMethods (rows.map fun row => row.2.2)).Widened saved

namespace Woven

/-- All marks, in the order of the rows of their methods. -/
def marks (w : Woven config p m saved) : List Mark :=
  w.rows.flatMap fun row => row.1.marks

/-- The methods of the completed module with their marks. -/
def originals (w : Woven config p m saved) : List Marked :=
  Weave.originals m w.rows

theorem count (w : Woven config p m saved) : w.rows.length = m.completed.methods.length := by
  rw [← w.opens.length, w.methods_eq, List.length_map]

variable (w : Woven config p m saved)

theorem reread_eq : List.Forall₂ Method.Widened (w.rows.map fun row => row.2.2) saved.methods ∧
    saved.reread.methods = saved.methods.mapIdx rereadAt ∧
    saved.reread = { w.prepared with types := (fillAll m.completed.types saved.reread.methods).1 } := by
  have hlen : (w.rows.map fun row => row.2.2).length = w.prepared.methods.length := by
    rw [w.methods_eq, List.length_map, List.length_map]
  obtain ⟨hforall, hreread⟩ := reread_withMethods hlen w.widened
  have hsaved : (saved.methods.mapIdx rereadAt).length = w.prepared.methods.length := by
    rw [List.length_mapIdx, ← hforall.length_eq, hlen]
  have hnew : saved.reread.methods = saved.methods.mapIdx rereadAt := by
    rw [hreread, Module.methods_withMethods hsaved]
  refine ⟨hforall, hnew, ?_⟩
  rw [hnew, hreread]
  have htypes : w.prepared.types = (fillAll m.completed.types w.prepared.methods).1 := (congrArg Module.types w.prepared_eq :)
  have hfill : (fillAll w.prepared.types (saved.methods.mapIdx rereadAt)).1 =
      (fillAll m.completed.types (saved.methods.mapIdx rereadAt)).1 := by
    rw [htypes]
    exact congrArg Prod.fst (TypeDef.fillAll_fillAll m.completed.types w.prepared.methods _
      (Nat.le_of_eq w.opens.length.symm))
  exact congrArg (fun types => ({ w.prepared with types } : Module)) hfill

theorem length_reread : saved.reread.methods.length = w.originals.length := by
  obtain ⟨hforall, hnew, -⟩ := w.reread_eq
  unfold originals
  rw [length_originals w.count, hnew, List.length_mapIdx, ← hforall.length_eq, List.length_map]

/-- What is read of the methods that were written, if tokens name those with points. -/
theorem becomes (hparsed : ∀ a ∈ m.completed.methods, ∀ b ∈ a.body, b.Parsed) {documents : Nat}
    (hanchored : ∀ a ∈ m.completed.methods, a.Anchored documents) (i : Nat) (o : Marked) (ho : w.originals[i]? = some o)
    (hrow : o.method.points ≠ [] → i + 1 < 2 ^ 24) :
    ∃ a, saved.reread.methods[i]? = some a ∧ o.Becomes (contextOf config p (m.documents.getD []) m w.api)
      (if i = w.initializer then opening w.api w.init else []) m.renumber a := by
  obtain ⟨hforall, hnew, -⟩ := w.reread_eq
  obtain ⟨_, ha, hbecomes⟩ := becomes_originals hparsed hanchored w.opens w.methods_eq w.readable w.placed hforall i o ho
  rw [List.getElem?_map] at ha
  obtain ⟨a, hsaved, rfl⟩ := Option.map_eq_some_iff.mp ha
  refine ⟨a.reread, ?_, hbecomes⟩
  have hpoints : a.reread.points ≠ [] → i + 1 < 2 ^ 24 := fun hne => hrow fun hnone => hne <| by
    rw [hbecomes.rest, hnone]
    rfl
  rw [hnew, List.getElem?_mapIdx, hsaved, Option.map_some, rereadAt_eq hpoints]

end Woven

/-- What is read with the probes differs from the pristine module as told. -/
theorem Woven.exists_difference (w : Woven config p m saved) (hroom : m.Roomy)
    (hparsed : ∀ a ∈ m.completed.methods, ∀ b ∈ a.body, b.Parsed) {documents : Nat}
    (hanchored : ∀ a ∈ m.completed.methods, a.Anchored documents) :
    ∃ d : Difference config p m saved.reread, d.marks = w.marks := by
  have hlimit : m.completed.methods.length < 2 ^ 24 := by
    have hle := m.length_completed_le
    have hlt := hroom.methods
    omega
  have hbecomes (i : Nat) (o : Marked) (ho : w.originals[i]? = some o) :=
    w.becomes hparsed hanchored i o ho fun _ => by
      have hi := (List.getElem?_eq_some_iff.mp ho).1
      rw [originals, length_originals w.count, w.count] at hi
      omega
  obtain ⟨-, -, hkept⟩ := w.reread_eq
  have himports := w.imports hroom
  have hname : w.prepared.name = m.name := (congrArg Module.name w.prepared_eq :)
  have hdocuments : w.prepared.documents = m.documents := (congrArg Module.documents w.prepared_eq :)
  have hattributes : w.prepared.attributes = m.attributes ++ [config.markerAttribute] :=
    (congrArg Module.attributes w.prepared_eq :)
  refine ⟨{
    api := w.api, init := w.init, initializer := w.initializer, methods := w.originals
    name := (congrArg Module.name hkept :).trans hname
    documents := (congrArg Module.documents hkept :).trans hdocuments
    attributes := (congrArg Module.attributes hkept :).trans hattributes
    imports := himports.congr (congrArg Module.memberRefs hkept :) (congrArg Module.userStrings hkept :)
    initializer_eq := w.opens.initializer
    methods_eq := (map_method_originals w.count).symm
    length_eq := w.length_reread
    becomes := hbecomes
    types := (congrArg Module.types hkept :)
    tokens := fun _ _ hmethod => tokens_originals hroom w.count (fun i o ho => (hbecomes i o ho).imp fun _ h => h.1) hmethod
    others := fun _ htable => Module.renumber_of_table_ne htable }, flatMap_marks_originals w.count⟩

/-- What is read from the files of a well-formed module, whatever was written before. -/
theorem loadedFrom_attached {fresh : Module} {file : SymbolFile} {data : List UInt8} (h : Module.parse image = .ok fresh)
    (hfile : SymbolFile.parse data = .ok file) (hwf : file.WellFormed) : (fresh.attached file).LoadedFrom image data := by
  obtain ⟨log, hattach⟩ := Module.attach_ok hwf fresh #[]
  exact ⟨fresh, file, #[], log, h, hfile, hattach⟩

/-- Methods with probes may take the places of the methods of a well-formed module. -/
theorem wellFormed_woven {rows : List (Marked × String × Method)} (hm : m.WellFormed)
    (hold : m.methods = rows.map fun row => row.1.method) (hrows : ∀ row ∈ rows, row.1.Valid c ∧ row.1.Yields c row.2) :
    (m.withMethods (rows.map fun row => row.2.2)).WellFormed := by
  refine hm.extend ?_
  rw [hold, List.forall₂_map_left_iff, List.forall₂_map_right_iff]
  exact List.forall₂_same.mpr fun row hrow => (hrows row hrow).2.extends

/-- What is written when a module is probed is woven from the pristine module, and is read from the files. -/
theorem Rewrites.exists_woven (hconfig : config.Writable)
    (h : Rewrites config p image symbols before after placed files) : ∃ (m saved : Module) (data : List UInt8),
      m.LoadedFrom image symbols ∧ files.symbols = some data ∧ saved.reread.LoadedFrom files.image data ∧
      ∃ w : Woven config p m saved, placed.Perm (w.marks.map Mark.probe) := by
  obtain ⟨m, documents, prepared, woven, saved, hloaded, hdocuments, -, -, hprepared, htypes, hencode⟩ := h
  have hwf := hloaded.wellFormed
  obtain ⟨init, himports, index, methods, hopens, hM⟩ := prepared_eq hprepared
  have hready := wellFormed_importApi (wellFormed_prepareRecording (hwf.addAttribute hconfig.markerAttribute) hconfig
    hprepared) hconfig
  have hsome : ({ (importApi config prepared).2 with types := woven } : Module).documents = some documents :=
    documents_woven hdocuments hprepared
  generalize (importApi config prepared).2 = M at *
  generalize (importApi config prepared).1 = api at *
  have hcontext : contextOf config p documents M api = contextOf config p (m.documents.getD []) m api := by
    unfold contextOf
    rw [hdocuments, show M.name = m.name from (congrArg Module.name hM :)]
    rfl
  rw [hcontext] at htypes
  obtain ⟨⟨ws, hws⟩, hfill⟩ := types_ok (ready_of_wellFormed hready.withoutTables) htypes
  obtain ⟨rows, hold, hnew, hrows, hperm⟩ := hws.exists_rows hfill
  have hsame : ({ M with types := woven } : Module) = M.withMethods (rows.map fun row => row.2.2) := by
    have := hfill []
    rw [List.append_nil, hnew] at this
    unfold Module.withMethods
    rw [this]
  rw [hsame] at hencode hsome
  obtain ⟨hwidened, hparse, data, file, hdata, hfile, hfileWf, hattached⟩ :=
    Module.attached_encode (wellFormed_woven hready hold hrows) hsome hencode
  have hcompleted : (m.addAttribute config.markerAttribute).completed.types = m.completed.types := Module.completed_types rfl
  rw [hcompleted] at hM
  have hopens : Opens m (opening api init) index methods := hopens.of_types rfl
  have hmethods : M.methods = methods := by
    have htypes : M.types = (m.completed.withMethods methods).types := (congrArg Module.types hM :)
    exact (congrArg methodsOf htypes).trans (Module.methods_withMethods hopens.length)
  subst hmethods
  refine ⟨m, saved, data, hloaded, hdata, hattached ▸ loadedFrom_attached hparse hfile hfileWf, {
    api, init, initializer := index, prepared := M, rows
    imports := fun hroom => by
      have himports := himports ⟨hroom.methods, hroom.memberRefs, hroom.userStrings⟩
      exact ⟨himports.members, himports.strings, himports.init, himports.hitMethod, himports.hitsFile⟩
    opens := hopens
    prepared_eq := hM
    readable := hready.methods
    methods_eq := hold
    placed := hrows
    widened := hwidened }, hperm⟩

theorem Rewrites.differs (hconfig : config.Writable) (h : Rewrites config p image symbols before after placed files) :
    ∃ m : Module, m.LoadedFrom image symbols ∧ (m.Roomy → ∃ (r : Module) (data : List UInt8), files.symbols = some data ∧
      r.LoadedFrom files.image data ∧ ∃ d : Difference config p m r, placed.Perm (d.marks.map Mark.probe)) := by
  obtain ⟨m, saved, data, hloaded, hdata, hreread, w, hperm⟩ := h.exists_woven hconfig
  refine ⟨m, hloaded, fun hroom => ⟨saved.reread, data, hdata, hreread, ?_⟩⟩
  obtain ⟨d, hd⟩ := w.exists_difference hroom
    (Module.forall_mem_completed Module.parsed_emptyInitializer hloaded.parsed)
    (Module.forall_mem_completed (Module.anchored_emptyInitializer _) hloaded.wellFormed.anchored)
  exact ⟨d, hd ▸ hperm⟩

/--
A module that was probed is loaded from its files as it was loaded before, after its backup was restored, but for what
probing adds.
-/
theorem module_differs {s s' : Logged Session} {backup : Backup} {companion : Option Path} (hconfig : config.Writable)
    (h : Weave.module config p s = .ok (.probed backup companion placed) s') :
    ∃ (found : Bool) (t : Logged Session) (m : Module), (Backup.of p config.backupSuffix).restore s = .ok found t ∧
      (∃ u, Session.loadModule p t = .ok m u) ∧ (m.Roomy → ∃ (r : Module) (u : Logged Session),
        Session.loadModule p s' = .ok r u ∧ ∃ d : Difference config p m r, placed.Perm (d.marks.map Mark.probe)) := by
  obtain ⟨found, t, image, symbols, before, after, files, hrestore, himage, hsymbols, hrewrites, himage', hsymbols'⟩ :=
    exists_rewrites h
  obtain ⟨m, hm, hdiffers⟩ := hrewrites.differs hconfig
  obtain ⟨u, hload, -⟩ := hm.loadModule himage hsymbols
  refine ⟨found, t, m, hrestore, ⟨u, hload⟩, fun hroom => ?_⟩
  obtain ⟨r, data, hdata, hr, hdifference⟩ := hdiffers hroom
  rw [hdata] at hsymbols'
  obtain ⟨u', hload', -⟩ := hr.loadModule himage' hsymbols'
  exact ⟨r, u', hload', hdifference⟩

instance decidableExistsProbed {P : Backup → Option Path → List PlacedProbe → Prop} [∀ b c l, Decidable (P b c l)] :
    ∀ outcome : Outcome, Decidable (∃ b c l, outcome = .probed b c l ∧ P b c l)
  | .skipped _ => .isFalse fun ⟨_, _, _, ha, _⟩ => (by cases ha)
  | .probed b c l => decidable_of_iff (P b c l) ⟨fun h => ⟨b, c, l, rfl, h⟩, fun ⟨_, _, _, ha, h⟩ => (by cases ha; exact h)⟩

/-- The image of a module of two types, in which a method of the first one calls that of the second one. -/
def callImage : List UInt8 :=
  [0x43, 0x49, 0x4C, 0x4D, 1, 0, 0, 0, 1, 0x61, 0, 0, 0, 2, 0, 0, 0, 0, 0, 8, 0x3C, 0x4D, 0x6F, 0x64, 0x75, 0x6C, 0x65,
    0x3E, 1, 0x16, 0, 0, 0, 1, 0x66, 0, 1, 7, 0x1A, 0x28, 2, 0, 0, 6, 0x2A, 0, 0, 0, 0, 0, 0, 1, 0x42, 1, 0x16, 0, 0, 0, 1,
    0x67, 0, 1, 2, 0x06, 0x2A, 0]

/-- The disk with that module in place of the small one. -/
def callDisk : Disk :=
  (Backup.smallDisk []).put [['w'], ['a', '.', 'd', 'l', 'l']] (.file callImage)

/-- The method that is called gets another token when the module gets an initializer. -/
theorem module_differs_call : ∃ (s' u : Logged Session) (backup : Backup) (placed : List PlacedProbe) (m r : Module),
    (Backup.smallConfig "~").Writable ∧
    Weave.module (Backup.smallConfig "~") ⟨"/w/a.dll"⟩ ⟨{ disk := callDisk }, #[]⟩ = .ok (.probed backup none placed) s' ∧
    placed.length = 1 ∧ m.Roomy ∧ Session.loadModule ⟨"/w/a.dll"⟩ s' = .ok r u ∧
    (∃ d : Difference (Backup.smallConfig "~") ⟨"/w/a.dll"⟩ m r, placed.Perm (d.marks.map Mark.probe)) ∧
    (m.method? ⟨0x06000002⟩).map Method.name = some "g" ∧ (r.method? ⟨0x06000003⟩).map Method.name = some "g" := by
  have hwritable : (Backup.smallConfig "~").Writable := by
    constructor <;> (unfold Field.Writable; decide +kernel)
  obtain ⟨_, s', hmodule, backup, _, placed, rfl, rfl, hlen⟩ : ∃ outcome s',
      Weave.module (Backup.smallConfig "~") ⟨"/w/a.dll"⟩ ⟨{ disk := callDisk }, #[]⟩ = .ok outcome s' ∧
      ∃ backup companion placed, outcome = .probed backup companion placed ∧ companion = none ∧ placed.length = 1 := by
    decide +kernel
  obtain ⟨_, t, hrestore, m, _, hload, hroom, hname, hrenumber⟩ : ∃ found t,
      (Backup.of ⟨"/w/a.dll"⟩ "~").restore ⟨{ disk := callDisk }, #[]⟩ = .ok found t ∧
      ∃ m u, (Session.loadModule ⟨"/w/a.dll"⟩).run t = .ok m u ∧
        (m.methods.length < 2 ^ 24 - 2 ∧ m.memberRefs.length < 2 ^ 24 - 2 ∧ m.userStrings.length < 2 ^ 24 - 2) ∧
        (m.method? ⟨0x06000002⟩).map Method.name = some "g" ∧ m.renumber ⟨0x06000002⟩ = ⟨0x06000003⟩ := by
    decide +kernel
  obtain ⟨_, t', m', hrestore', ⟨_, hload'⟩, hdiffers⟩ := module_differs hwritable hmodule
  obtain ⟨-, rfl⟩ := EStateM.Result.ok.inj (hrestore.symm.trans hrestore')
  obtain ⟨rfl, -⟩ := EStateM.Result.ok.inj (hload.symm.trans hload')
  obtain ⟨hmethods, hmemberRefs, huserStrings⟩ := hroom
  obtain ⟨r, u, hreload, d, hd⟩ := hdiffers ⟨hmethods, hmemberRefs, huserStrings⟩
  obtain ⟨g, hg, hgname⟩ := Option.map_eq_some_iff.mp hname
  obtain ⟨i, w, a, hw, rfl, ha, htoken⟩ := d.tokens _ g hg
  obtain ⟨a', ha', hbecomes⟩ := d.becomes i w hw
  obtain rfl : a = a' := Option.some_inj.mp (ha.symm.trans ha')
  refine ⟨s', u, backup, placed, m, r, hwritable, hmodule, hlen, ⟨hmethods, hmemberRefs, huserStrings⟩, hreload, ⟨d, hd⟩,
    hname, ?_⟩
  rw [← hrenumber, htoken, Option.map_some, hbecomes.rest]
  exact congrArg some hgname

/-- With a marker that nothing is left of the size of, the small module is probed, and its file is refused then. -/
theorem refused_of_oversized (letters : Nat) (hsize : (letters + 3) % 2 ^ 32 = 0) :
    ∃ (s' t u : Logged Session) (backup : Backup) (placed : List PlacedProbe) (m : Module) (image : List UInt8)
      (fault : Fault), Weave.module ((Backup.smallConfig "~").marking (oversized letters)) ⟨"/w/a.dll"⟩
        ⟨{ disk := Backup.smallDisk [] }, #[]⟩ = .ok (.probed backup none placed) s' ∧
      (Backup.of ⟨"/w/a.dll"⟩ "~").restore ⟨{ disk := Backup.smallDisk [] }, #[]⟩ = .ok false t ∧
      Session.loadModule ⟨"/w/a.dll"⟩ t = .ok m u ∧ m.Roomy ∧ s'.value.disk.content? ⟨"/w/a.dll"⟩ = some image ∧
      Module.parse image = .error fault := by
  obtain ⟨_, s, hmodule, backup, _, placed, rfl, rfl⟩ : ∃ outcome s,
      Weave.module (Backup.smallConfig "~") ⟨"/w/a.dll"⟩ ⟨{ disk := Backup.smallDisk [] }, #[]⟩ = .ok outcome s ∧
      ∃ backup companion placed, outcome = .probed backup companion placed ∧ companion = none := by
    decide +kernel
  obtain ⟨_, t, hrestore, rfl, himage, hsymbols, m, u, hload, hroom⟩ : ∃ found t,
      (Backup.of ⟨"/w/a.dll"⟩ "~").restore ⟨{ disk := Backup.smallDisk [] }, #[]⟩ = .ok found t ∧ found = false ∧
      t.value.disk.content? ⟨"/w/a.dll"⟩ = some Backup.smallImage ∧
      t.value.disk.content? (SymbolFile.pathFor ⟨"/w/a.dll"⟩) = some Backup.smallSymbols ∧
      ∃ m u, (Session.loadModule ⟨"/w/a.dll"⟩).run t = .ok m u ∧
        (m.methods.length < 2 ^ 24 - 2 ∧ m.memberRefs.length < 2 ^ 24 - 2 ∧ m.userStrings.length < 2 ^ 24 - 2) := by
    decide +kernel
  have hlacks (m : Module) (hm : m.LoadedFrom Backup.smallImage Backup.smallSymbols) :
      m.hasAttribute (oversized letters) = false := by
    obtain ⟨fresh, file, hfresh, -, -, rfl⟩ := hm.exists_attached
    obtain ⟨_, hparse, hnone⟩ : ∃ fresh, Module.parse Backup.smallImage = .ok fresh ∧ fresh.attributes = [] := by
      decide +kernel
    cases hfresh.symm.trans hparse
    show fresh.attributes.contains _ = false
    rw [hnone]
    rfl
  obtain ⟨s', hmodule'⟩ := exists_module_marker hmodule hrestore himage hsymbols hlacks
  obtain ⟨_, _, _, _, _, _, files, -, -, -, hrewrites, hfile, -⟩ := exists_rewrites hmodule'
  have hrefused := hrewrites.parse_oversized (by rw [← hsize]; exact congrArg (· % 2 ^ 32) (length_encode_oversized letters))
    (encode_oversized letters) (by decide)
  exact ⟨s', t, u, backup, placed, m, files.image, _, hmodule', hrestore, hload, ⟨hroom.1, hroom.2.1, hroom.2.2⟩, hfile,
    hrefused⟩

/-- With a marker of 4 GiB the small module is probed, and then its file cannot be loaded. -/
theorem module_differs_oversized : ∃ (config : Config) (s' t u : Logged Session) (backup : Backup)
    (placed : List PlacedProbe) (m : Module), config = (Backup.smallConfig "~").marking (oversized (2 ^ 32 - 3)) ∧
    Weave.module config ⟨"/w/a.dll"⟩ ⟨{ disk := Backup.smallDisk [] }, #[]⟩ = .ok (.probed backup none placed) s' ∧
    (Backup.of ⟨"/w/a.dll"⟩ config.backupSuffix).restore ⟨{ disk := Backup.smallDisk [] }, #[]⟩ = .ok false t ∧
    Session.loadModule ⟨"/w/a.dll"⟩ t = .ok m u ∧ m.Roomy ∧
    ¬ ∃ (r : Module) (u' : Logged Session), Session.loadModule ⟨"/w/a.dll"⟩ s' = .ok r u' := by
  obtain ⟨s', t, u, backup, placed, m, image, fault, hmodule, hrestore, hload, hroom, himage, hrefused⟩ :=
    refused_of_oversized (2 ^ 32 - 3) (by decide)
  exact ⟨_, s', t, u, backup, placed, m, rfl, hmodule, hrestore, hload, hroom, Session.not_loadModule himage hrefused⟩

end Weave

end CilProbes
