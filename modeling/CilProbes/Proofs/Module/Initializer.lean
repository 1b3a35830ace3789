import CilProbes.Proofs.Module.Completing

/-!
# Adding an initializer keeps method references

Methods have rows by their places, so an initializer that is put in moves every method behind it (`Module.movedTo`),
wherever the method lies in the tree of types. The tokens in code follow: what named a method names it at its new place,
and what named none names none (`Module.follows_renumber`). The methods are otherwise as they were
(`Module.ensureInitializer_keeps`), and an initializer that is there is not added again. The operation proceeds in steps
that change the module (`Module.initializerSteps`); when it fails it has changed nothing (`Module.initializerSteps_eq`).
-/

namespace CilProbes

/-! ## Methods up to their tokens -/

/-- The same operand, but for a token, which is related. -/
inductive Operand.Retokened (R : Token → Token → Prop) : Operand → Operand → Prop
  | token {t t' : Token} : R t t' → Retokened R (.token t) (.token t')
  | other {o : Operand} : (∀ t, o ≠ .token t) → Retokened R o o

/-- The same code, but for the tokens in it. -/
structure InstructionStream.Retokened (R : Token → Token → Prop) (s s' : InstructionStream) : Prop where
  order : s'.order = s.order
  size : s'.arena.size = s.arena.size
  instructions : ∀ id i, s.get? id = some i →
    ∃ operand, i.operand.Retokened R operand ∧ s'.get? id = some { i with operand }

/-- The same body, but for the tokens in its code. -/
structure MethodBody.Retokened (R : Token → Token → Prop) (b b' : MethodBody) : Prop where
  rest : b' = b.withCode b'.code
  code : b.code.Retokened R b'.code

/-- The same method, but for the tokens in its code. -/
structure Method.Retokened (R : Token → Token → Prop) (a a' : Method) : Prop where
  rest : a' = { a with body := a'.body }
  body : Option.Rel (MethodBody.Retokened R) a.body a'.body

section Retokened

variable {R : Token → Token → Prop} {f : Token → Token}

theorem Instruction.retokened_mapToken (h : ∀ tok, R tok (f tok)) (i : Instruction) :
    ∃ operand, i.operand.Retokened R operand ∧ i.mapToken f = { i with operand } := by
  obtain ⟨opcode, operand, offset⟩ := i
  cases operand with
  | token tok => exact ⟨.token (f tok), .token (h tok), rfl⟩
  | none | immediate | target | switch => exact ⟨_, .other (fun _ hne => by cases hne), rfl⟩

theorem InstructionStream.retokened_map (h : ∀ tok, R tok (f tok)) (s : InstructionStream) :
    s.Retokened R (s.map (Instruction.mapToken f)) where
  order := rfl
  size := Array.size_map
  instructions id i hi := by
    obtain ⟨operand, hoperand, hmap⟩ := i.retokened_mapToken h
    refine ⟨operand, hoperand, ?_⟩
    unfold get? at hi ⊢
    show (s.arena.map _)[id.index]? = _
    rw [Array.getElem?_map, hi, ← hmap]
    rfl

theorem Method.retokened_mapTokens (h : ∀ tok, R tok (f tok)) (a : Method) : a.Retokened R (a.mapTokens f) := by
  rw [mapTokens_eq]
  constructor
  · rfl
  · cases hbody : a.body with
    | none => exact .none
    | some b => exact .some ⟨rfl, b.code.retokened_map h⟩

end Retokened

namespace Module

variable {m m' : Module} {index : Nat} {tok : Token} {fault : Fault} {t : TypeDef} {ts : List TypeDef}

/-! ## Places -/

/-- The place for an initializer, if the module lacks one. -/
def initializerPlace? (m : Module) : Option Nat :=
  if m.hasInitializer then none else m.types.head?.map fun t => t.methods.length

/-- The methods in order of their rows, with an empty initializer at its place if there is one for it. -/
def withInitializer (m : Module) (methods : List Method) : List Method :=
  match m.initializerPlace? with
  | some place => methods.insertIdx place .emptyInitializer
  | none => methods

/-- Where a method is when the initializer is there. -/
def movedTo (m : Module) (index : Nat) : Nat :=
  match m.initializerPlace? with
  | some place => if place ≤ index then index + 1 else index
  | none => index

theorem methods_completed (m : Module) : m.completed.methods = m.withInitializer m.methods := by
  unfold completed withInitializer initializerPlace?
  split
  · rfl
  · cases htypes : m.types with
    | nil =>
      rw [addToFirstType_eq_self htypes]
      rfl
    | cons t ts =>
      rw [methods_addToFirstType htypes, methods_eq_of_types htypes]
      exact (InstructionStream.insertIdx_append ..).symm

theorem withInitializer_map (m : Module) (f : Token → Token) (methods : List Method) :
    (m.withInitializer methods).map (Method.mapTokens f) = m.withInitializer (methods.map (Method.mapTokens f)) := by
  unfold withInitializer
  split
  · rw [List.map_insertIdx, mapTokens_emptyInitializer]
  · rfl

/-- Every method is where it was moved to. -/
theorem getElem?_withInitializer (m : Module) (methods : List Method) (index : Nat) :
    (m.withInitializer methods)[m.movedTo index]? = methods[index]? := by
  unfold withInitializer movedTo
  split
  · split
    · next hle => exact List.getElem?_insertIdx_of_gt (Nat.lt_succ_of_le hle)
    · next hlt => exact List.getElem?_insertIdx_of_lt (Nat.not_le.mp hlt)
  · rfl

/-! ## Tokens -/

/-- What a token names when a row was inserted is what it named before, at its new place. -/
theorem index?_of_shiftMethod {row : Nat} (h : (tok.shiftMethod (row + 1)).index? .methodDef = some index) :
    ∃ before, tok.index? .methodDef = some before ∧ index = if row ≤ before then before + 1 else before := by
  unfold Token.shiftMethod at h
  split at h
  · next hmoves =>
    obtain ⟨htable, hrow⟩ := hmoves
    obtain ⟨-, hindex⟩ := index?_eq_some.mp h
    have hlt : tok.row.toNat < 2 ^ 24 := by
      unfold Token.row
      rw [UInt32.toNat_ofNat']
      omega
    rw [Token.row_ofParts, UInt32.toNat_add, UInt32.toNat_one] at hindex
    refine ⟨tok.row.toNat - 1, index?_eq_some.mpr ⟨htable, by omega⟩, ?_⟩
    rw [if_pos (by omega)]
    omega
  · next hstays =>
    refine ⟨index, h, ?_⟩
    obtain ⟨htable, hrow⟩ := index?_eq_some.mp h
    rw [if_neg fun hle => hstays ⟨htable, by omega⟩]

/-- A token names at its new place what it named before, and nothing if it named nothing; other tokens stay. -/
structure Follows (m m' : Module) (tok tok' : Token) : Prop where
  named : ∀ index < m.methods.length, tok.index? .methodDef = some index →
    tok'.index? .methodDef = some (m.movedTo index)
  dangling : tok.table = Table.methodDef.code → m.method? tok = none →
    tok'.table = Table.methodDef.code ∧ m'.method? tok' = none
  other : tok.table ≠ Table.methodDef.code → tok' = tok

theorem table_renumber (m : Module) (tok : Token) : (m.renumber tok).table = tok.table := by
  unfold renumber
  split
  · rfl
  · unfold Token.shiftMethod
    split
    · next hmoves => rw [Token.table_ofParts, hmoves.1]
    · rfl

theorem index?_renumber (htypes : m.types = t :: ts) (h : tok.index? .methodDef = some index)
    (hlimit : index + 2 < 2 ^ 24) : (m.renumber tok).index? .methodDef = some (m.movedTo index) := by
  unfold renumber movedTo initializerPlace?
  split
  · exact h
  · rw [htypes]
    exact index?_shiftMethod h hlimit

theorem index?_of_renumber (htypes : m.types = t :: ts) (h : (m.renumber tok).index? .methodDef = some index) :
    ∃ before, tok.index? .methodDef = some before ∧ index = m.movedTo before := by
  unfold renumber at h
  unfold movedTo initializerPlace?
  split at h
  · next hinitializer => exact ⟨index, h, by rw [if_pos hinitializer]⟩
  · next hinitializer =>
    rw [htypes] at h ⊢
    rw [if_neg hinitializer]
    exact index?_of_shiftMethod h

theorem follows_renumber (htypes : m.types = t :: ts) (hmethods : m'.methods.length = m.completed.methods.length)
    (hlimit : m.methods.length < 2 ^ 24 - 2) (tok : Token) : m.Follows m' tok (m.renumber tok) where
  named index hindex hnamed := index?_renumber htypes hnamed (by omega)
  dangling htable hnone := by
    refine ⟨(m.table_renumber tok).trans htable, Option.eq_none_iff_forall_ne_some.mpr fun method hmethod => ?_⟩
    obtain ⟨index, hindex, hmethod⟩ := Option.bind_eq_some_iff.mp hmethod
    obtain ⟨before, hbefore, rfl⟩ := index?_of_renumber htypes hindex
    have hlt : m.movedTo before < m.completed.methods.length := hmethods ▸ (List.getElem?_eq_some_iff.mp hmethod).1
    -- A method that is there now, and is where an old one was moved to, is an old one.
    have hold : m.methods[before]? = some m.completed.methods[m.movedTo before] := by
      rw [← m.getElem?_withInitializer m.methods before, ← m.methods_completed, List.getElem?_eq_getElem hlt]
    unfold method? at hnone
    rw [hbefore, Option.bind_some, hold] at hnone
    cases hnone
  other htable := renumber_of_table_ne htable

/-! ## The operation -/

/-- The place of an initializer, if it has a body. -/
def withBodyAt (index : Nat) : Edit Module Nat := fun m =>
  if ((m.types.head?.bind fun t => t.methods[index]?).bind Method.body).isSome then .ok index m
  else .error (.malformed (.initializerBody m.name)) m

/-- Finds the initializer or adds one, in steps that change the module where it is. -/
def initializerSteps : Edit Module Nat := do
  match (← get).globalType? with
  | none => throw (.malformed (.noModuleType (← get).name))
  | some t =>
    match t.methods.findIdx? Method.isTypeInitializer with
    | some index => withBodyAt index
    | none =>
      modify fun m => m.shiftMethodRows (t.methods.length + 1)
      modify fun m => m.addToFirstType .emptyInitializer
      withBodyAt t.methods.length

/-- The first type of a module to which an initializer was added. -/
theorem types_added (htypes : m.types = t :: ts) (row : Nat) : ∃ nested ts',
    ((m.shiftMethodRows row).addToFirstType .emptyInitializer).types =
      { t with methods := t.methods.map (Method.mapTokens (Token.shiftMethod row)) ++ [.emptyInitializer], nested } ::
        ts' := by
  obtain ⟨nested, ts', hshifted⟩ : ∃ nested ts', (m.shiftMethodRows row).types =
      { t with methods := (m.methods.map (Method.mapTokens (Token.shiftMethod row))).take t.methods.length, nested } ::
        ts' := by
    obtain ⟨flags, space, name, own, nested⟩ := t
    unfold shiftMethodRows withMethods
    rw [htypes]
    exact ⟨_, _, rfl⟩
  refine ⟨nested, ts', ?_⟩
  rw [addToFirstType_of_types hshifted, methods_eq_of_types htypes, List.map_append,
    List.take_left' (List.length_map ..)]

/-- The initializer that was added has a body. -/
theorem getElem?_added (methods : List Method) (f : Token → Token) :
    (methods.map (Method.mapTokens f) ++ [.emptyInitializer])[methods.length]? = some .emptyInitializer := by
  rw [List.getElem?_append_right (Nat.le_of_eq (List.length_map ..)), List.length_map, Nat.sub_self]
  rfl

theorem withBodyAt_of_types (htypes : m.types = t :: ts) : withBodyAt index m =
    if (t.methods[index]?.bind Method.body).isSome then .ok index m
    else .error (.malformed (.initializerBody m.name)) m := by
  unfold withBodyAt
  rw [htypes]
  rfl

/-- The steps that can fail come before any change, or find what the change has added. -/
theorem initializerSteps_eq (m : Module) :
    initializerSteps m = match m.ensureInitializer with
      | .ok (index, m') => .ok index m'
      | .error fault => .error fault m := by
  unfold initializerSteps Module.ensureInitializer
  rw [edit_get_bind]
  cases hglobal : m.globalType? with
  | none => rfl
  | some t =>
    obtain ⟨-, ts, htypes⟩ := exists_types_of_globalType? hglobal
    dsimp only
    cases hfind : t.methods.findIdx? Method.isTypeInitializer with
    | some index =>
      show withBodyAt index m = _
      rw [withBodyAt_of_types htypes]
      dsimp only
      split <;> rfl
    | none =>
      obtain ⟨nested, ts', hadded⟩ := types_added htypes (t.methods.length + 1)
      show withBodyAt t.methods.length ((m.shiftMethodRows (t.methods.length + 1)).addToFirstType .emptyInitializer) = _
      rw [withBodyAt_of_types hadded, getElem?_added]
      rfl

theorem ensureInitializer_again (h : m.ensureInitializer = .ok (index, m')) :
    m'.ensureInitializer = .ok (index, m') := by
  obtain ⟨t, ts, htypes, hglobal, ⟨-, -, rfl⟩ | ⟨hfind, rfl, rfl⟩⟩ := ensureInitializer_ok.mp h
  · exact h
  · obtain ⟨nested, ts', hadded⟩ := types_added htypes (t.methods.length + 1)
    refine ensureInitializer_ok.mpr ⟨_, _, hadded, hglobal, .inl ⟨?_, ?_, rfl⟩⟩
    · rw [List.findIdx?_append, List.findIdx?_map]
      rw [show Method.isTypeInitializer ∘ Method.mapTokens _ = Method.isTypeInitializer from rfl, hfind]
      simp [isTypeInitializer_emptyInitializer]
    · rw [getElem?_added]
      rfl

/-- The same module but for tokens in code, with an empty initializer after the first type's methods if it had none. -/
structure Initialized (m m' : Module) : Prop where
  methods : ∃ methods, List.Forall₂ (Method.Retokened (m.Follows m')) m.methods methods ∧
    m'.methods = m.withInitializer methods ∧ ∀ index, m'.methods[m.movedTo index]? = methods[index]?
  rest : m' = m.completed.withMethods m'.methods

theorem initialized_of_ensureInitializer (hlimit : m.methods.length < 2 ^ 24 - 2)
    (h : m.ensureInitializer = .ok (index, m')) : m.Initialized m' := by
  obtain ⟨t, ts, htypes, -⟩ := ensureInitializer_ok.mp h
  obtain ⟨-, hm'⟩ := ensureInitializer_eq h
  have hmethods : m'.methods = m.withInitializer (m.methods.map (Method.mapTokens m.renumber)) := by
    rw [hm', methods_withMethods (List.length_map ..), methods_completed, withInitializer_map]
  have hlength : m'.methods.length = m.completed.methods.length := by
    rw [hm', methods_withMethods (List.length_map ..), List.length_map]
  constructor
  · refine ⟨_, ?_, hmethods, fun index => ?_⟩
    · refine List.forall₂_map_right_iff.mpr (List.forall₂_same.mpr fun a _ => ?_)
      exact a.retokened_mapTokens (follows_renumber htypes hlength hlimit)
    · rw [hmethods, getElem?_withInitializer]
  · rw [hm', methods_withMethods (List.length_map ..)]

/--
Making sure that there is an initializer keeps what every token in code names, and every other operand; it adds one
method at most, and none when there is an initializer. When it fails, the module is as it was.
-/
theorem initializerSteps_keeps (hlimit : m.methods.length < 2 ^ 24 - 2) :
    (∀ index m', initializerSteps m = .ok index m' →
      m.ensureInitializer = .ok (index, m') ∧ m.Initialized m' ∧ initializerSteps m' = .ok index m') ∧
    ∀ fault m', initializerSteps m = .error fault m' → m.ensureInitializer = .error fault ∧ m' = m := by
  constructor
  · intro index m' h
    rw [initializerSteps_eq] at h
    cases hensure : m.ensureInitializer with
    | error fault =>
      rw [hensure] at h
      cases h
    | ok result =>
      rw [hensure] at h
      cases h
      refine ⟨rfl, initialized_of_ensureInitializer hlimit hensure, ?_⟩
      rw [initializerSteps_eq, ensureInitializer_again hensure]
  · intro fault m' h
    rw [initializerSteps_eq] at h
    cases hensure : m.ensureInitializer with
    | error fault =>
      rw [hensure] at h
      cases h
      exact ⟨rfl, rfl⟩
    | ok result =>
      rw [hensure] at h
      cases h

/-- A module with one method in its first type, which calls what the tokens name, and one in another type. -/
def calling (tokens : List Token) : Module where
  name := "a"
  types :=
    [{ space := "", name := globalTypeName,
       methods := [⟨"f", 0x16, 0, [],
         some { maxStack := 0, code := (tokens.map Instruction.call).foldl .push {} }, []⟩] },
     { space := "", name := "B", methods := [⟨"g", 0x16, 0, [], none, []⟩] }]

/-- Of four tokens the first one names the first method, the second one the other one, and two name nothing. -/
theorem initializerSteps_keeps_calling : ∃ m m' : Module,
    m = calling [⟨0x06000001⟩, ⟨0x06000002⟩, ⟨0x06000003⟩, ⟨0x06FFFFFF⟩] ∧ m.methods.length < 2 ^ 24 - 2 ∧
    initializerSteps m = .ok 1 m' ∧ m.Initialized m' ∧ initializerSteps m' = .ok 1 m' ∧
    m'.methods.head?.map (fun method => method.body.map fun b => b.code.program.map Instruction.operand) =
      some (some [.token ⟨0x06000001⟩, .token ⟨0x06000003⟩, .token ⟨0x06000004⟩, .token ⟨0x06000000⟩]) := by
  obtain ⟨hlimit, index, m', hsteps, rfl, hcalls⟩ :
      (calling [⟨0x06000001⟩, ⟨0x06000002⟩, ⟨0x06000003⟩, ⟨0x06FFFFFF⟩]).methods.length < 2 ^ 24 - 2 ∧
      ∃ index m', initializerSteps (calling [⟨0x06000001⟩, ⟨0x06000002⟩, ⟨0x06000003⟩, ⟨0x06FFFFFF⟩]) = .ok index m' ∧
        index = 1 ∧
        m'.methods.head?.map (fun method => method.body.map fun b => b.code.program.map Instruction.operand) =
          some (some [.token ⟨0x06000001⟩, .token ⟨0x06000003⟩, .token ⟨0x06000004⟩, .token ⟨0x06000000⟩]) := by
    decide +kernel
  obtain ⟨-, hkept, hagain⟩ := (initializerSteps_keeps hlimit).1 1 m' hsteps
  exact ⟨_, m', rfl, hlimit, hsteps, hkept, hagain, hcalls⟩

end Module

end CilProbes
