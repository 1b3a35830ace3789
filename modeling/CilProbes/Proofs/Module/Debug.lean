import CilProbes.Proofs.Module.Points
import Mathlib.Data.List.TakeWhile

/-!
# What attaching debug information gives

Attaching a symbol file whose points lie in its documents always succeeds; it gives the points of each record to the
method of its token (`Module.attach_ok`). The records that a module writes give every method its own points
(`Method.foldl_attach_records`).
-/

namespace CilProbes

namespace Method

/-- The method with the points that some instruction starts at, if it has a body. -/
def withAnchored (m : Method) (points : List OffsetPoint) : Method :=
  match m.body with
  | some b => { m with points := anchor b.code.offsetTable points }
  | none => m

/-- Gives the points of a record to the method of its token. -/
def attach (methods : List Method) (r : MethodRecord) : List Method :=
  match r.token.index? .methodDef with
  | some index => methods.modify index (withAnchored · r.points)
  | none => methods

theorem length_attach (methods : List Method) (r : MethodRecord) : (attach methods r).length = methods.length := by
  unfold attach
  split
  · exact List.length_modify ..
  · rfl

theorem length_foldl_attach (records : List MethodRecord) (methods : List Method) :
    (records.foldl attach methods).length = methods.length := by
  induction records generalizing methods with
  | nil => rfl
  | cons r records ih => exact (ih _).trans (length_attach methods r)

/-- Why a record is refused: it is one of a method with a body, and a point of it is in a document that the file lacks. -/
def refusal? (documents : Nat) (methods : List Method) (r : MethodRecord) : Option Fault := do
  let index ← r.token.index? .methodDef
  let m ← methods[index]?
  let _ ← m.body
  let p ← r.stray? documents
  return .malformed (.pointDocument m.name p.span.document)

theorem refusal?_eq_none {documents : Nat} {r : MethodRecord} (h : ∀ p ∈ r.points, p.span.document.toNat < documents)
    (methods : List Method) : refusal? documents methods r = none := by
  unfold refusal?
  rw [MethodRecord.stray?_eq_none.mpr h]
  simp

end Method

namespace DebugTarget

variable {σ : Type} {documents : Nat} {log : Log}

theorem reportLoose_ok (method : String) (table : OffsetTable) (points : List OffsetPoint) (value : σ) (log : Log) :
    ∃ log', reportLoose method table points ⟨value, log⟩ = .ok () ⟨value, log'⟩ := by
  induction points generalizing log with
  | nil => exact ⟨log, rfl⟩
  | cons p points ih =>
    unfold reportLoose at ih ⊢
    by_cases hp : table.contains p.offset
    · obtain ⟨log', hlog⟩ := ih log
      refine ⟨log', edit_bind_ok.mpr ⟨(), ⟨value, log⟩, ?_, hlog⟩⟩
      dsimp only
      rw [if_pos hp]
      rfl
    · obtain ⟨log', hlog⟩ := ih (log.push (.pointWithoutInstruction p.offset method))
      refine ⟨log', edit_bind_ok.mpr ⟨(), _, ?_, hlog⟩⟩
      dsimp only
      rw [if_neg hp]
      rfl

/-- The points are given up to the first one in a document that the file lacks, which is refused. -/
theorem anchored_eq (documents : Nat) (method : String) (table : OffsetTable) (points : List OffsetPoint) (value : σ)
    (log : Log) : ∃ log', anchored documents method table points ⟨value, log⟩ =
      match points.find? fun p => documents ≤ p.span.document.toNat with
      | some p => .error (.malformed (.pointDocument method p.span.document)) ⟨value, log'⟩
      | none => .ok (Method.anchor table points) ⟨value, log'⟩ := by
  let known : OffsetPoint → Bool := fun p => p.span.document.toNat < documents
  have hrest : points.drop (points.takeWhile known).length = points.dropWhile known :=
    calc points.drop (points.takeWhile known).length
        = (points.takeWhile known ++ points.dropWhile known).drop (points.takeWhile known).length := by
          rw [List.takeWhile_append_dropWhile]
      _ = points.dropWhile known := List.drop_left ..
  have hnot (p : OffsetPoint) : (!decide (documents ≤ p.span.document.toNat)) = known p := by
    rw [← decide_not, decide_eq_decide, Nat.not_le]
  obtain ⟨log', hlog⟩ := reportLoose_ok method table (points.takeWhile known) value log
  refine ⟨log', (edit_bind_of_ok hlog).trans ?_⟩
  rw [hrest, List.find?_eq_head?_dropWhile_not, funext hnot]
  cases points.dropWhile known <;> rfl

/-- The methods with their instructions by offset. -/
def ofMethods (methods : List Method) : Array DebugTarget :=
  (methods.map ofMethod).toArray

theorem toList_ofMethods (methods : List Method) : (ofMethods methods).toList.map DebugTarget.method = methods := by
  unfold ofMethods
  rw [List.map_map]
  exact List.map_id'' (fun _ => rfl) methods

theorem ofMethods_modify {methods : List Method} {index : Nat} {m : Method} (f : Method → Method)
    (h : methods[index]? = some m) :
    ofMethods (methods.modify index f) = (ofMethods methods).setIfInBounds index (ofMethod (f m)) := by
  refine Array.ext_getElem? fun k => ?_
  obtain ⟨hlt, rfl⟩ := List.getElem?_eq_some_iff.mp h
  unfold ofMethods
  rw [List.getElem?_toArray, List.getElem?_map, List.getElem?_modify, Array.getElem?_setIfInBounds]
  by_cases hk : index = k
  · subst hk
    simp [hlt]
  · simp [hk]

theorem getElem?_ofMethods (methods : List Method) (index : Nat) :
    (ofMethods methods)[index]? = methods[index]?.map ofMethod := by
  unfold ofMethods
  rw [List.getElem?_toArray, List.getElem?_map]

/-- A record is refused, and nothing is attached, or its points are given to the method of its token. -/
theorem attachRecord_eq (documents : Nat) (methods : List Method) (r : MethodRecord) (log : Log) :
    ∃ log', attachRecord documents r ⟨ofMethods methods, log⟩ =
      match Method.refusal? documents methods r with
      | some fault => .error fault ⟨ofMethods methods, log'⟩
      | none => .ok () ⟨ofMethods (Method.attach methods r), log'⟩ := by
  unfold attachRecord Method.attach Method.refusal? MethodRecord.stray?
  cases r.token.index? .methodDef with
  | none => exact ⟨_, rfl⟩
  | some index =>
    simp only [edit_get_bind, getElem?_ofMethods, Option.bind_eq_bind, Option.bind_some]
    cases hmethod : methods[index]? with
    | none =>
      rw [List.modify_eq_self (List.getElem?_eq_none_iff.mp hmethod)]
      exact ⟨_, rfl⟩
    | some m =>
      rw [ofMethods_modify _ hmethod]
      obtain ⟨name, flags, implFlags, signature, body, points⟩ := m
      cases body with
      | none =>
        refine ⟨log.push (.methodWithoutBody name), ?_⟩
        have hsame := ofMethods_modify id hmethod
        rw [List.modify_id] at hsame
        exact congrArg (fun targets => EStateM.Result.ok () (Logged.mk targets (log.push (.methodWithoutBody name)))) hsame
      | some b =>
        obtain ⟨log', hanchored⟩ := anchored_eq documents name b.code.offsetTable r.points (ofMethods methods) log
        refine ⟨log', ?_⟩
        cases hfind : r.points.find? fun p => decide (documents ≤ p.span.document.toNat) with
        | some p =>
          rw [hfind] at hanchored
          exact edit_bind_of_error hanchored
        | none =>
          rw [hfind] at hanchored
          exact edit_bind_of_ok hanchored

theorem forM_attachRecord_ok {records : List MethodRecord}
    (h : ∀ r ∈ records, ∀ p ∈ r.points, p.span.document.toNat < documents) (methods : List Method) (log : Log) :
    ∃ log', records.forM (attachRecord documents) ⟨ofMethods methods, log⟩ =
      .ok () ⟨ofMethods (records.foldl Method.attach methods), log'⟩ := by
  induction records generalizing methods log with
  | nil => exact ⟨log, rfl⟩
  | cons r records ih =>
    obtain ⟨log₁, hr⟩ := attachRecord_eq documents methods r log
    rw [Method.refusal?_eq_none (h r List.mem_cons_self)] at hr
    obtain ⟨log₂, hrecords⟩ := ih (fun r' hr' => h r' (List.mem_cons_of_mem r hr')) (Method.attach methods r) log₁
    exact ⟨log₂, edit_bind_ok.mpr ⟨(), _, hr, hrecords⟩⟩

end DebugTarget

namespace Module

theorem load_ok {σ : Type} {data : List UInt8} {m : Module} {s s' : Logged σ} :
    load data s = .ok m s' ↔ parse data = .ok m ∧ s' = { s with log := s.log.push (.parsed m.name m.types.length) } := by
  constructor
  · intro h
    obtain ⟨fresh, hparse, h⟩ := ofExcept_bind_ok h
    obtain ⟨_, t, hlog, h⟩ := edit_bind_ok.mp h
    cases hlog
    cases h
    exact ⟨hparse, rfl⟩
  · rintro ⟨hparse, rfl⟩
    unfold load
    rw [hparse]
    rfl

/-- The module with the points of a symbol file. -/
def attached (m : Module) (symbols : SymbolFile) : Module :=
  { m.withMethods (symbols.methods.foldl Method.attach m.methods) with documents := some symbols.documents }

theorem attach_ok {symbols : SymbolFile} (h : symbols.WellFormed) (m : Module) (log : Log) :
    ∃ log', attach symbols ⟨m, log⟩ = .ok () ⟨m.attached symbols, log'⟩ := by
  obtain ⟨log', hlog⟩ := DebugTarget.forM_attachRecord_ok h.inside m.methods log
  refine ⟨log', edit_bind_ok.mpr ⟨(), ⟨m.withMethods (symbols.methods.foldl Method.attach m.methods), log'⟩, ?_, rfl⟩⟩
  unfold onTargets
  refine edit_onPart_ok.mpr ⟨_, hlog, ?_⟩
  rw [DebugTarget.toList_ofMethods]

theorem eq_attached {symbols : SymbolFile} {m m' : Module} {log log' : Log} (h : symbols.WellFormed)
    (hattach : attach symbols ⟨m, log⟩ = .ok () ⟨m', log'⟩) : m' = m.attached symbols := by
  obtain ⟨_, hattached⟩ := attach_ok h m log
  rw [hattach] at hattached
  cases hattached
  rfl

end Module

/-! ## The records of a module -/

namespace Token

/-- A row of 24 bits is found again. -/
theorem index?_atIndex {index : Nat} (h : index + 1 < 2 ^ 24) (table : Table) :
    (atIndex table index).index? table = some index := by
  have hrow : (atIndex table index).row.toNat = index + 1 := by
    rw [atIndex, row_ofParts, UInt32.toNat_ofNat']
    omega
  unfold index?
  have hne : (atIndex table index).row ≠ 0 := fun hzero => by
    rw [hzero] at hrow
    cases hrow
  rw [if_pos ⟨table_ofParts .., hne⟩, hrow]
  rfl

/-- The row behind the last one that tokens have room for is taken for row 0. -/
theorem index?_atIndex_limit (table : Table) : (atIndex table (2 ^ 24 - 1)).index? table = none := by
  cases table <;> rfl

end Token

namespace Method

variable {methods : List Method} {images : List Image.MethodImage}

theorem withAnchored_nil {m : Method} (h : m.points = []) : m.withAnchored [] = m := by
  obtain ⟨name, flags, implFlags, signature, body, points⟩ := m
  cases h
  cases body <;> rfl

/-- What a method with a given row gets from the records of its module. -/
def recorded (index : Nat) (m : Method) (points : List OffsetPoint) : Method :=
  if index + 1 < 2 ^ 24 then m.withAnchored points else m

theorem modify_append {α : Type} (front : List α) (a : α) (back : List α) (f : α → α) :
    (front ++ a :: back).modify front.length f = front ++ f a :: back := by
  rw [List.modify_eq_take_drop, List.take_left, List.drop_left]
  rfl

theorem attach_append {done more : List Method} {m : Method} (points : List OffsetPoint)
    (hrow : done.length < 2 ^ 24) :
    attach (done ++ m :: more) ⟨.atIndex .methodDef done.length, points⟩ =
      done ++ m.recorded done.length points :: more := by
  unfold attach recorded
  by_cases h : done.length + 1 < 2 ^ 24
  · rw [if_pos h, Token.index?_atIndex h]
    exact modify_append ..
  · rw [if_neg h, show done.length = 2 ^ 24 - 1 by omega, Token.index?_atIndex_limit]

/-- Records give their points to the methods that they are counted with. -/
theorem foldl_attach_from (done : List Method) (hfresh : ∀ m ∈ methods, m.points = [])
    (hlen : methods.length = images.length)
    (hrows : ∀ i image, images[i]? = some image → 2 ^ 24 ≤ done.length + i → image.points = []) :
    ((images.mapIdx fun i image => (⟨.atIndex .methodDef (done.length + i), image.points⟩ : MethodRecord)).filter
      fun r => !r.points.isEmpty).foldl attach (done ++ methods) =
        done ++ (methods.zip images).mapIdx fun i pair => pair.1.recorded (done.length + i) pair.2.points := by
  induction images generalizing done methods with
  | nil =>
    rw [List.length_nil, List.length_eq_zero_iff] at hlen
    subst hlen
    rfl
  | cons image images ih =>
    cases methods with
    | nil => cases hlen
    | cons m methods =>
      rw [List.zip_cons_cons, List.mapIdx_cons, List.mapIdx_cons]
      simp only [Nat.add_zero]
      have hlength : (done ++ [m.recorded done.length image.points]).length = done.length + 1 := List.length_append
      have hrest := ih (done ++ [m.recorded done.length image.points])
        (fun m' hm' => hfresh m' (List.mem_cons_of_mem m hm')) (Nat.succ.inj hlen) (fun i image' himage hrow => by
          refine hrows (i + 1) image' himage ?_
          rw [hlength] at hrow
          omega)
      have hshift (i : Nat) : done.length + 1 + i = done.length + (i + 1) := by omega
      rw [hlength, List.append_assoc, List.append_assoc] at hrest
      simp only [hshift] at hrest
      refine Eq.trans ?_ hrest
      by_cases hempty : image.points = []
      · have hsame : m.recorded done.length image.points = m := by
          unfold recorded
          rw [hempty, withAnchored_nil (hfresh m List.mem_cons_self), ite_self]
        rw [List.filter_cons_of_neg (by simp [hempty]), hsame]
        rfl
      · have hrow : done.length < 2 ^ 24 := Nat.not_le.mp fun hle => hempty (hrows 0 image rfl hle)
        rw [List.filter_cons_of_pos (by simp [hempty]), List.foldl_cons, attach_append image.points hrow]
        rfl

/-- What the methods of a module get from its records. -/
theorem foldl_attach_records (hfresh : ∀ m ∈ methods, m.points = []) (hlen : methods.length = images.length)
    (hrows : ∀ i image, images[i]? = some image → 2 ^ 24 ≤ i → image.points = []) :
    (Image.records images).foldl attach methods =
      (methods.zip images).mapIdx fun i pair => pair.1.recorded i pair.2.points := by
  have := foldl_attach_from [] hfresh hlen (by simpa using hrows)
  unfold Image.records
  simpa only [List.nil_append, List.length_nil, Nat.zero_add] using this

end Method

end CilProbes
