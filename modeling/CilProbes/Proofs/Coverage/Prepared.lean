import CilProbes.Proofs.Coverage.Preparing
import CilProbes.Proofs.Module.Completing

/-!
# What preparing a module changes

A module that is prepared for probing differs from the one before in its tables, which may get two members and a string
more; in the initializer that completes it; in the tokens that are renumbered for that; and in the opening of the
initializer (`Weave.prepared_eq`).
-/

namespace CilProbes

/-- The body of the method has got an opening, and the tokens in it were replaced. -/
structure Method.Opened (opening : List Instruction) (f : Token → Token) (m m' : Method) : Prop where
  body : Option.Rel (MethodBody.Opened opening f) m.body m'.body
  rest : m' = { m with body := m'.body }

namespace Method

theorem opened_mapTokens (m : Method) (f : Token → Token) : m.Opened [] f (m.mapTokens f) where
  body := by
    rw [mapTokens_eq]
    cases m.body with
    | none => exact .none
    | some b => exact .some (b.opened_map f)
  rest := rfl

/-- An opening at the start of a body. -/
theorem Opened.withOpening {m m' : Method} {f : Token → Token} {opening : List Instruction} {b : MethodBody}
    {code : InstructionStream} {maxStack : UInt16} (h : m.Opened [] f m') (hb : m'.body = some b)
    (hcode : b.code.insertAllAt 0 opening = .ok code) :
    m.Opened opening f { m' with body := some { b.withCode code with maxStack } } where
  body := by
    have hbody := h.body
    rw [hb] at hbody
    generalize m.body = body at hbody ⊢
    cases hbody with
    | some hopened => exact .some (hopened.insertAllAt hcode)
  rest := by
    conv_lhs => rw [h.rest]

end Method

namespace Module

variable {m m₁ : Module}

theorem completed_eq (m : Module) : m.completed = { m with types := m.completed.types } := by
  unfold completed addToFirstType
  split
  · rfl
  · split <;> rfl

/-- Completing a module looks at its types only. -/
theorem completed_types (h : m₁.types = m.types) : m₁.completed.types = m.completed.types := by
  have hsame : m₁.hasInitializer = m.hasInitializer := by
    unfold hasInitializer
    rw [h]
  unfold completed addToFirstType
  rw [hsame, h]
  split
  · exact h
  · cases m.types with
    | nil => exact h
    | cons t ts => rfl

theorem renumber_of_types (h : m₁.types = m.types) : m₁.renumber = m.renumber := by
  unfold renumber hasInitializer
  rw [h]

/-- Ensuring that there is an initializer looks at the types only. -/
theorem ensureInitializer_of_types {m₂ : Module} {index : Nat} (htypes : m₁.types = m.types)
    (h : m₁.ensureInitializer = .ok (index, m₂)) : m.completed.initializerIndex? = some index ∧
      m₂.methods = m.completed.methods.map (Method.mapTokens m.renumber) ∧
      ∀ given, m₂.withMethods given = { m₁ with types := (TypeDef.fillAll m.completed.types given).1 } := by
  obtain ⟨hindex, rfl⟩ := ensureInitializer_eq h
  have hcompleted : m₁.completed.types = m.completed.types := completed_types htypes
  have hmethods : m₁.completed.methods = m.completed.methods := congrArg TypeDef.methodsOf hcompleted
  rw [renumber_of_types htypes]
  refine ⟨?_, ?_, fun given => ?_⟩
  · unfold initializerIndex? at hindex ⊢
    rwa [hcompleted] at hindex
  · rw [methods_withMethods (List.length_map ..), hmethods]
  · rw [withMethods_withMethods (List.length_map ..), completed_eq]
    unfold withMethods
    rw [hcompleted]

end Module

namespace Weave

variable {config : Config} {m prepared : Module}

/-- The call that prepares recording. -/
def opening (api : ProbeApi) (init : Token) : List Instruction :=
  [.loadString api.hitsFile, .call init]

/-- What preparing adds to the tables of a module, and what the tokens of probes stand for then. -/
structure Imports (config : Config) (m : Module) (api : ProbeApi) (init : Token) (m' : Module) : Prop where
  members : ∃ extra, extra.Sublist [initMember config, hitMember config] ∧ m'.memberRefs = m.memberRefs ++ extra
  strings : ∃ extra, extra.Sublist [config.hitsFile] ∧ m'.userStrings = m.userStrings ++ extra
  init : m'.member? init = some (initMember config)
  hitMethod : m'.member? api.hitMethod = some (hitMember config)
  hitsFile : m'.string? api.hitsFile = some config.hitsFile

theorem Imports.congr {m' m'' : Module} {api : ProbeApi} {init : Token} (h : Imports config m api init m')
    (hmembers : m''.memberRefs = m'.memberRefs) (hstrings : m''.userStrings = m'.userStrings) :
    Imports config m api init m'' where
  members := hmembers ▸ h.members
  strings := hstrings ▸ h.strings
  init := by
    unfold Module.member?
    rw [hmembers]
    exact h.init
  hitMethod := by
    unfold Module.member?
    rw [hmembers]
    exact h.hitMethod
  hitsFile := by
    unfold Module.string?
    rw [hstrings]
    exact h.hitsFile

/-- The row of the module initializer in the completed module gets the opening; the tokens of all methods are renumbered. -/
structure Opens (m : Module) (opening : List Instruction) (index : Nat) (methods : List Method) : Prop where
  initializer : m.completed.initializerIndex? = some index
  length : methods.length = m.completed.methods.length
  methods : ∀ (i : Nat) (a : Method), m.completed.methods[i]? = some a →
    ∃ a', methods[i]? = some a' ∧ a.Opened (if i = index then opening else []) m.renumber a'

/-- The opening is put in the row of the initializer after all tokens were renumbered. -/
theorem opens_modify {opening : List Instruction} {index : Nat} {b : MethodBody} {code : InstructionStream}
    {maxStack : UInt16} {methods : List Method} (hindex : m.completed.initializerIndex? = some index)
    (hmethods : methods = m.completed.methods.map (Method.mapTokens m.renumber)) {method : Method}
    (hmethod : methods[index]? = some method) (hb : method.body = some b) (hcode : b.code.insertAllAt 0 opening = .ok code) :
    Opens m opening index (methods.modify index fun method =>
      { method with body := some { b.withCode code with maxStack } }) where
  initializer := hindex
  length := by rw [List.length_modify, hmethods, List.length_map]
  methods i a ha := by
    have hkept := a.opened_mapTokens m.renumber
    have hget : methods[i]? = some (a.mapTokens m.renumber) := by
      rw [hmethods, List.getElem?_map, ha]
      rfl
    by_cases hi : i = index
    · subst hi
      rw [List.getElem?_modify_eq, hget, if_pos rfl]
      rw [hget] at hmethod
      cases hmethod
      exact ⟨_, rfl, hkept.withOpening hb hcode⟩
    · rw [List.getElem?_modify_ne _ _ (Ne.symm hi), hget, if_neg hi]
      exact ⟨_, rfl, hkept⟩

/-- Opening looks at the types of the module only. -/
theorem Opens.of_types {m₁ : Module} {opening : List Instruction} {index : Nat} {methods : List Method}
    (h : Opens m₁ opening index methods) (htypes : m₁.types = m.types) : Opens m opening index methods := by
  have hcompleted : m₁.completed.types = m.completed.types := Module.completed_types htypes
  have hmethods : m₁.completed.methods = m.completed.methods := congrArg TypeDef.methodsOf hcompleted
  obtain ⟨hinitializer, hlength, hopened⟩ := h
  unfold Module.initializerIndex? at hinitializer
  rw [hcompleted] at hinitializer
  rw [hmethods] at hlength hopened
  rw [Module.renumber_of_types htypes] at hopened
  exact ⟨hinitializer, hlength, hopened⟩

/-- Probes refer to the string that the initializer refers to. -/
theorem importApi_eq {prepared m' : Module} (h : prepared.userStrings = (m.internString config.hitsFile).2.userStrings)
    (hm' : m' = (prepared.importMember (hitMember config)).2) : importApi config prepared =
      ({ hitsFile := (m.internString config.hitsFile).1
         hitMethod := (prepared.importMember (hitMember config)).1 }, m') := by
  unfold importApi
  rw [Module.internString_again h, hm']
  rfl

/-- The tables of a prepared module, with all that probes refer to. -/
theorem imports_ok {prepared m₁ : Module} (hroom : m.Roomy) (hm₁ : m₁ = (m.importMember (initMember config)).2)
    (hmembers : prepared.memberRefs = m₁.memberRefs)
    (hstrings : prepared.userStrings = (m₁.internString config.hitsFile).2.userStrings) :
    Imports config m (importApi config prepared).1 (m.importMember (initMember config)).1
      (importApi config prepared).2 := by
  rw [importApi_eq hstrings rfl]
  obtain ⟨first, hfirst, hinit⟩ := Module.importMember_eq m (initMember config)
  obtain ⟨text, htext, hstring⟩ := Module.internString_eq m₁ config.hitsFile
  obtain ⟨second, hsecond, hhit⟩ := Module.importMember_eq prepared (hitMember config)
  have hprepared : prepared.memberRefs = m.memberRefs ++ first := by rw [hmembers, hm₁, hinit]
  have hlast : (prepared.importMember (hitMember config)).2.memberRefs = prepared.memberRefs ++ second := by rw [hhit]
  have hstrings' : (prepared.importMember (hitMember config)).2.userStrings = m.userStrings ++ text := by
    rw [hhit, hstrings, hstring, hm₁, hinit]
  have hmemberRefs := hroom.memberRefs
  have huserStrings := hroom.userStrings
  refine ⟨⟨first ++ second, hfirst.append hsecond, ?_⟩, ⟨text, htext, hstrings'⟩, ?_, ?_, ?_⟩
  · rw [hlast, hprepared, List.append_assoc]
  · have hfound : (m.importMember (initMember config)).2.member? (m.importMember (initMember config)).1 =
        some (initMember config) := Module.member?_importMember (by omega)
    have hsame : prepared.memberRefs = (m.importMember (initMember config)).2.memberRefs := by rw [hmembers, hm₁]
    rw [hsame] at hlast
    exact Module.member?_of_append hfound hlast
  · have hlength := hfirst.length_le
    refine Module.member?_importMember ?_
    rw [hprepared, List.length_append]
    rw [List.length_singleton] at hlength
    omega
  · have hfound : (m₁.internString config.hitsFile).2.string? (m₁.internString config.hitsFile).1 =
        some config.hitsFile := Module.string?_internString (by
      rw [hm₁, hinit]
      exact Nat.lt_of_lt_of_le (Nat.succ_lt_succ huserStrings) (by decide))
    unfold Module.string? at hfound ⊢
    rw [← hstrings] at hfound
    rw [hhit]
    exact hfound

theorem prepared_eq (h : prepareRecording config m = .ok prepared) :
    ∃ init, (m.Roomy → Imports config m (importApi config prepared).1 init (importApi config prepared).2) ∧
      ∃ index methods, Opens m (opening (importApi config prepared).1 init) index methods ∧
        (importApi config prepared).2 = { m with
          memberRefs := (importApi config prepared).2.memberRefs
          userStrings := (importApi config prepared).2.userStrings
          types := (TypeDef.fillAll m.completed.types methods).1 } := by
  obtain ⟨m₁, index, m₂, method, b, code, maxStack, rfl, hensure, hmethod, hb, hcode, hprepared⟩ := prepareRecording_ok h
  obtain ⟨first, -, hinit⟩ := Module.importMember_eq m (initMember config)
  obtain ⟨text, -, hstring⟩ := Module.internString_eq (m.importMember (initMember config)).2 config.hitsFile
  have hm₁ : ((m.importMember (initMember config)).2.internString config.hitsFile).2 =
      { m with memberRefs := m.memberRefs ++ first, userStrings := m.userStrings ++ text } := by rw [hstring, hinit]
  have htypes : ((m.importMember (initMember config)).2.internString config.hitsFile).2.types = m.types := by
    rw [hm₁]
  obtain ⟨hindex, hmethods, hfill⟩ := Module.ensureInitializer_of_types htypes hensure
  have hgiven : prepared = { m with
      memberRefs := m.memberRefs ++ first
      userStrings := m.userStrings ++ text
      types := (TypeDef.fillAll m.completed.types (m₂.methods.modify index fun method =>
        { method with body := some { b.withCode code with maxStack } })).1 } := by
    rw [hprepared]
    unfold Module.withBody
    rw [hfill, hm₁]
  have hstrings : prepared.userStrings =
      ((m.importMember (initMember config)).2.internString config.hitsFile).2.userStrings := by rw [hgiven, hm₁]
  have hmembers : prepared.memberRefs = (m.importMember (initMember config)).2.memberRefs := by rw [hgiven, hinit]
  refine ⟨_, fun hroom => imports_ok hroom rfl hmembers hstrings, index, m₂.methods.modify index fun method =>
    { method with body := some { b.withCode code with maxStack } }, ?_, ?_⟩
  · rw [importApi_eq hstrings rfl]
    exact opens_modify hindex hmethods hmethod hb hcode
  · obtain ⟨second, -, hhit⟩ := Module.importMember_eq prepared (hitMember config)
    rw [importApi_eq hstrings rfl]
    dsimp only
    rw [hhit, hgiven]

end Weave

end CilProbes
