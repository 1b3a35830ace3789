import CilProbes.Proofs.Module.Debug
import CilProbes.Proofs.Symbols.File
import Mathlib.Data.List.Induction

/-!
# Attaching that fails

The records of a symbol file are attached one after another, and a record that is refused ends this. The methods then
have the points of the records before it (`Module.attach_error`): nothing changed only if these records give no method
other points than it has. Attaching a file that was read does not fail.
-/

namespace CilProbes

namespace Method

/-- What the method at a row gets from records: the points of the last one with its token. -/
def given (records : List MethodRecord) (index : Nat) (m : Method) : Method :=
  match (records.filter fun r => r.token.index? .methodDef = some index).getLast? with
  | some r => m.withAnchored r.points
  | none => m

@[simp] theorem name_withAnchored (m : Method) (points : List OffsetPoint) : (m.withAnchored points).name = m.name := by
  unfold withAnchored
  split <;> rfl

@[simp] theorem body_withAnchored (m : Method) (points : List OffsetPoint) : (m.withAnchored points).body = m.body := by
  unfold withAnchored
  split <;> rfl

theorem withAnchored_withAnchored (m : Method) (points later : List OffsetPoint) :
    (m.withAnchored points).withAnchored later = m.withAnchored later := by
  obtain ⟨name, flags, implFlags, signature, body, old⟩ := m
  cases body <;> rfl

theorem withAnchored_given (records : List MethodRecord) (index : Nat) (m : Method) (later : List OffsetPoint) :
    (m.given records index).withAnchored later = m.withAnchored later := by
  unfold given
  split
  · exact withAnchored_withAnchored ..
  · rfl

/-- A method is as it was if no record has its token; else it has got the points of such a record. -/
theorem given_cases (records : List MethodRecord) (index : Nat) (m : Method) :
    (∀ r ∈ records, r.token.index? .methodDef ≠ some index) ∧ m.given records index = m ∨
      ∃ r ∈ records, r.token.index? .methodDef = some index ∧ m.given records index = m.withAnchored r.points := by
  unfold given
  cases hlast : (records.filter fun r => r.token.index? .methodDef = some index).getLast? with
  | none =>
    refine .inl ⟨fun r hr htoken => ?_, rfl⟩
    rw [List.getLast?_eq_none_iff, List.filter_eq_nil_iff] at hlast
    exact hlast r hr (decide_eq_true htoken)
  | some r =>
    obtain ⟨hr, htoken⟩ := List.mem_filter.mp (List.mem_of_getLast? hlast)
    exact .inr ⟨r, hr, of_decide_eq_true htoken, rfl⟩

theorem given_concat (records : List MethodRecord) (r : MethodRecord) (index : Nat) (m : Method) :
    m.given (records ++ [r]) index =
      if r.token.index? .methodDef = some index then (m.given records index).withAnchored r.points
      else m.given records index := by
  rw [withAnchored_given]
  unfold given
  rw [List.filter_append, List.getLast?_append]
  by_cases hr : r.token.index? .methodDef = some index
  · rw [if_pos hr, List.filter_singleton, decide_eq_true hr]
    rfl
  · rw [if_neg hr, List.filter_singleton, decide_eq_false hr]
    rfl

/-- One record after another is attached; in the end, every method has got the points of the last one with its token. -/
theorem foldl_attach_eq (records : List MethodRecord) (methods : List Method) :
    records.foldl attach methods = methods.mapIdx (given records) := by
  induction records using List.reverseRecOn with
  | nil => exact List.ext_getElem? fun k => by rw [List.getElem?_mapIdx, List.foldl_nil]; exact Option.map_id'.symm
  | append_singleton records r ih =>
    rw [List.foldl_append, ih, List.foldl_cons, List.foldl_nil]
    refine List.ext_getElem? fun k => ?_
    rw [List.getElem?_mapIdx, funext (given_concat records r k)]
    unfold attach
    cases r.token.index? .methodDef with
    | none => simp [List.getElem?_mapIdx]
    | some index =>
      rw [List.getElem?_modify, List.getElem?_mapIdx]
      by_cases hk : index = k <;> simp [hk, Function.comp_def]

/-- What was attached before has no part in whether a record is refused. -/
theorem refusal?_attach (documents : Nat) (methods : List Method) (r q : MethodRecord) :
    refusal? documents (attach methods r) q = refusal? documents methods q := by
  unfold attach refusal?
  cases r.token.index? .methodDef with
  | none => rfl
  | some row =>
    refine Option.bind_congr fun index _ => ?_
    rw [List.getElem?_modify]
    cases methods[index]? with
    | none => rfl
    | some m => by_cases hrow : row = index <;> simp [hrow]

end Method

/-- A walk over records stops at the first one that is refused, with the methods as the records before it left them. -/
theorem DebugTarget.forM_attachRecord_error {documents : Nat} {records : List MethodRecord} {methods : List Method}
    {log : Log} {fault : Fault} {t : Logged (Array DebugTarget)}
    (h : records.forM (attachRecord documents) ⟨ofMethods methods, log⟩ = .error fault t) :
    ∃ done r later, records = done ++ r :: later ∧ (∀ q ∈ done, Method.refusal? documents methods q = none) ∧
      Method.refusal? documents methods r = some fault ∧ t.value = ofMethods (done.foldl Method.attach methods) := by
  induction records generalizing methods log with
  | nil => cases h
  | cons r records ih =>
    obtain ⟨log', hr⟩ := attachRecord_eq documents methods r log
    cases hrefusal : Method.refusal? documents methods r with
    | some found =>
      rw [hrefusal] at hr
      cases (edit_bind_of_error hr).symm.trans h
      exact ⟨[], r, records, rfl, fun _ hq => absurd hq List.not_mem_nil, hrefusal, rfl⟩
    | none =>
      rw [hrefusal] at hr
      obtain ⟨done, r', later, rfl, hdone, hr', ht⟩ := ih ((edit_bind_of_ok hr).symm.trans h)
      simp only [Method.refusal?_attach] at hdone hr'
      exact ⟨r :: done, r', later, rfl, List.forall_mem_cons.mpr ⟨hrefusal, hdone⟩, hr', ht⟩

namespace Module

variable {m m' : Module} {symbols : SymbolFile} {log log' : Log} {fault : Fault}

/-- An attachment that fails does so at a record, and puts back the methods as they are there. -/
theorem attach_error_steps (h : attach symbols ⟨m, log⟩ = .error fault ⟨m', log'⟩) :
    ∃ t, symbols.methods.forM (DebugTarget.attachRecord symbols.documents.length) ⟨DebugTarget.ofMethods m.methods, log⟩ =
      .error fault t ∧ m' = m.withMethods (t.value.toList.map DebugTarget.method) := by
  rcases edit_bind_error.mp h with hrecords | ⟨_, _, _, hdocuments⟩
  · obtain ⟨t, ht, hput⟩ := edit_onPart_error.mp hrecords
    cases hput
    exact ⟨t, ht, rfl⟩
  · cases hdocuments

/--
Where attaching fails, a record is refused, and the methods have got what the records in front of it give them. So the
module is as it was just if each of its methods had that already. The symbol file is not one that was read.
-/
theorem attach_error (h : attach symbols ⟨m, log⟩ = .error fault ⟨m', log'⟩) :
    (∃ done r later, symbols.methods = done ++ r :: later ∧
      (∀ q ∈ done, Method.refusal? symbols.documents.length m.methods q = none) ∧
      Method.refusal? symbols.documents.length m.methods r = some fault ∧
      m' = m.withMethods (m.methods.mapIdx (Method.given done)) ∧
      (m' = m ↔ ∀ (i : Nat) (a : Method), m.methods[i]? = some a → a.given done i = a)) ∧
    ∀ data, SymbolFile.parse data ≠ .ok symbols := by
  refine ⟨?_, fun data hparse => ?_⟩
  · obtain ⟨t, hrecords, rfl⟩ := attach_error_steps h
    obtain ⟨done, r, later, hsplit, hdone, hrefusal, hmethods⟩ := DebugTarget.forM_attachRecord_error hrecords
    rw [hmethods, DebugTarget.toList_ofMethods, Method.foldl_attach_eq]
    refine ⟨done, r, later, hsplit, hdone, hrefusal, rfl, fun hsame i a ha => ?_, fun hsame => ?_⟩
    · have hgiven : (m.withMethods (m.methods.mapIdx (Method.given done))).methods =
          m.methods.mapIdx (Method.given done) := methods_withMethods List.length_mapIdx
      rw [hsame] at hgiven
      have hi := congrArg (fun methods => methods[i]?) hgiven
      rw [List.getElem?_mapIdx, ha] at hi
      exact (Option.some.inj hi).symm
    · have hgiven : m.methods.mapIdx (Method.given done) = m.methods := by
        refine List.ext_getElem? fun i => ?_
        rw [List.getElem?_mapIdx]
        cases ha : m.methods[i]? with
        | none => rfl
        | some a => exact congrArg some (hsame i a ha)
      rw [hgiven, withMethods_methods]
  · obtain ⟨_, hattach⟩ := attach_ok (SymbolFile.parsed_of_parse hparse).toWellFormed m log
    cases h.symm.trans hattach

/-! ## Files that were not read -/

/-- A module with the method `f`, which returns at once, and the method `g` without body. -/
def twoMethodImage : List UInt8 :=
  [0x43, 0x49, 0x4C, 0x4D, 1, 0, 0, 0, 1, 0x61, 0, 0, 0, 1, 0, 0, 0, 0, 0, 8, 0x3C, 0x4D, 0x6F, 0x64, 0x75, 0x6C, 0x65,
    0x3E, 2, 0x16, 0, 0, 0, 1, 0x66, 0, 1, 2, 0x06, 0x2A, 0x16, 0, 0, 0, 1, 0x67, 0, 0, 0]

/-- A record for the method at a row, with a point at its start in the given document. -/
def startRecord (row : UInt32) (document : UInt64) : MethodRecord where
  token := .ofParts Table.methodDef.code row
  points := [⟨0, { document, startLine := 1, startColumn := 1, endLine := 1, endColumn := 3, hidden := false }⟩]

/-- The record of `f` is refused; that of `g` in front of it is dropped. -/
def refusedSymbols : SymbolFile where
  documents := ["s/d"]
  methods := [startRecord 2 0, startRecord 1 1]

/-- The second record of `f` is refused, behind one that is attached. -/
def tornSymbols : SymbolFile where
  documents := ["s/d"]
  methods := [startRecord 1 0, startRecord 2 0, startRecord 1 1]

/-- Where the records in front of the refused one reach no method with a body, the module is as it was. -/
theorem attach_error_unchanged : ∃ (m m' : Module) (log' : Log), parse twoMethodImage = .ok m ∧
    attach refusedSymbols ⟨m, #[]⟩ = .error (.malformed (.pointDocument "f" 1)) ⟨m', log'⟩ ∧ m' = m := by
  obtain ⟨m, hparse, hgiven, _, ⟨m', log'⟩, hattach, rfl⟩ : ∃ m, parse twoMethodImage = .ok m ∧
      (∀ n < 2, m.methods.mapIdx (Method.given (refusedSymbols.methods.take n)) = m.methods) ∧
      ∃ fault s', attach refusedSymbols ⟨m, #[]⟩ = .error fault s' ∧ fault = .malformed (.pointDocument "f" 1) := by
    decide +kernel
  refine ⟨m, m', log', hparse, hattach, ?_⟩
  obtain ⟨⟨done, r, later, hsplit, -, -, hm', -⟩, -⟩ := attach_error hattach
  have hlength : done.length < 2 := by
    have := congrArg List.length hsplit
    rw [List.length_append, List.length_cons] at this
    have htwo : refusedSymbols.methods.length = 2 := rfl
    omega
  have hdone : refusedSymbols.methods.take done.length = done := by
    rw [hsplit]
    exact List.take_left ..
  rw [hm', ← hdone, hgiven _ hlength, withMethods_methods]

/-- Where one of them reaches a method, its points stay although attaching fails. -/
theorem attach_error_changes : ∃ (m m' : Module) (log' : Log), parse twoMethodImage = .ok m ∧
    attach tornSymbols ⟨m, #[]⟩ = .error (.malformed (.pointDocument "f" 1)) ⟨m', log'⟩ ∧
    (m.methods.map fun a => a.points.length) = [0, 0] ∧ (m'.methods.map fun a => a.points.length) = [1, 0] ∧ m' ≠ m := by
  obtain ⟨m, hparse, hbefore, _, ⟨m', log'⟩, hattach, rfl, hafter⟩ : ∃ m, parse twoMethodImage = .ok m ∧
      (m.methods.map fun a => a.points.length) = [0, 0] ∧
      ∃ fault s', attach tornSymbols ⟨m, #[]⟩ = .error fault s' ∧ fault = .malformed (.pointDocument "f" 1) ∧
        (s'.value.methods.map fun a => a.points.length) = [1, 0] := by
    decide +kernel
  refine ⟨m, m', log', hparse, hattach, hbefore, hafter, ?_⟩
  rintro rfl
  exact absurd (hbefore.symm.trans hafter) (by decide)

end Module

end CilProbes
