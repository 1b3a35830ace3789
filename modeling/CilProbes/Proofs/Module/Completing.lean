import CilProbes.Proofs.Module.Edits
import CilProbes.Proofs.Probe.Opening

/-!
# Modules that get an initializer

A module that lacks an initializer is completed by an empty one (`Module.completed`), which moves the methods behind it
on by a row. The method tokens in its code are renumbered (`Module.ensureInitializer_eq`), and a renumbered token names
the method that it named before (`Module.method?_renumber`).
-/

namespace CilProbes

namespace Module

variable {m m' : Module} {index : Nat} {t : TypeDef} {ts : List TypeDef}

/-- The module, with an empty initializer at the end of its first type if it lacks one. -/
def completed (m : Module) : Module :=
  if m.hasInitializer then m else m.addToFirstType .emptyInitializer

/-- What becomes of the tokens in code when the module is completed. -/
def renumber (m : Module) : Token → Token :=
  if m.hasInitializer then id
  else Token.shiftMethod ((m.types.head?.map fun t => t.methods.length).getD 0 + 1)

/-- The row of the module initializer, counted from 0. -/
def initializerIndex? (m : Module) : Option Nat :=
  m.types.head?.bind fun t => t.methods.findIdx? Method.isTypeInitializer

/-- Every table that tokens refer to has room for two more rows. -/
structure Roomy (m : Module) : Prop where
  methods : m.methods.length < 2 ^ 24 - 2
  memberRefs : m.memberRefs.length < 2 ^ 24 - 2
  userStrings : m.userStrings.length < 2 ^ 24 - 2

theorem mapTokens_id (method : Method) : method.mapTokens id = method := by
  obtain ⟨name, flags, implFlags, signature, body, points⟩ := method
  rw [Method.mapTokens_eq]
  have hbody : (body.map fun b => b.withCode (b.code.map (Instruction.mapToken id))) = body := by
    refine (congrArg (Option.map · body) (funext fun b => ?_)).trans (congrFun Option.map_id body)
    have harena : b.code.arena.map (Instruction.mapToken id) = b.code.arena :=
      (congrArg (Array.map · b.code.arena) (funext Instruction.mapToken_id)).trans (Array.map_id _)
    unfold InstructionStream.map
    rw [harena]
    rfl
  exact congrArg (Method.mk name flags implFlags signature · points) hbody

theorem mapTokens_emptyInitializer (f : Token → Token) :
    Method.mapTokens f .emptyInitializer = .emptyInitializer := by
  rw [Method.mapTokens_eq]
  simp [Method.emptyInitializer, MethodBody.withCode, InstructionStream.map, InstructionStream.push, Instruction.ret,
    Instruction.mapToken]

/-- Methods may be put in place before or after a method is added. -/
theorem addToFirstType_withMethods {own rest : List Method} (h : m.types = t :: ts) (hown : own.length = t.methods.length)
    (method : Method) : (m.withMethods (own ++ rest)).addToFirstType method =
      (m.addToFirstType method).withMethods (own ++ method :: rest) := by
  obtain ⟨name, attributes, memberRefs, userStrings, types, documents⟩ := m
  obtain ⟨flags, space, typeName, methods, nested⟩ := t
  dsimp only at h hown
  subst h
  have hlen : methods.length + 1 = (own ++ [method]).length := by rw [List.length_append, hown]; rfl
  unfold addToFirstType withMethods
  simp only [TypeDef.fillAll, TypeDef.fill, List.length_append, List.length_singleton]
  rw [hlen, ← hown, List.take_left, List.drop_left, List.append_cons own method rest, List.take_left, List.drop_left]

theorem initializerIndex?_of_types (h : m.types = t :: ts) :
    m.initializerIndex? = t.methods.findIdx? Method.isTypeInitializer := by
  unfold initializerIndex?
  rw [h]
  rfl

theorem forall_mem_completed {P : Method → Prop} (hempty : P .emptyInitializer) (h : ∀ a ∈ m.methods, P a) :
    ∀ a ∈ m.completed.methods, P a := by
  unfold completed
  split
  · exact h
  · exact forall_mem_addToFirstType hempty h

theorem length_completed_le (m : Module) : m.completed.methods.length ≤ m.methods.length + 1 := by
  unfold completed
  split
  · exact Nat.le_succ _
  · cases htypes : m.types with
    | nil =>
      rw [addToFirstType_eq_self htypes]
      exact Nat.le_succ _
    | cons t ts =>
      rw [methods_addToFirstType htypes, methods_eq_of_types htypes, List.length_append, List.length_append,
        List.length_cons]
      exact Nat.le_refl _

theorem parsed_emptyInitializer : ∀ b ∈ Method.emptyInitializer.body, b.Parsed := by
  intro b hb
  have hwf := readable_emptyInitializer.body b hb
  cases hb
  exact ⟨⟨hwf.code, rfl, by simp [InstructionStream.push, Instruction.ret, Instruction.targets, Operand.targets],
    List.pairwise_singleton ..⟩, fun _ hc => absurd hc List.not_mem_nil, fun _ hc => absurd hc List.not_mem_nil⟩

/-- Ensuring that there is an initializer completes the module, and renumbers the tokens in its code. -/
theorem ensureInitializer_eq (h : m.ensureInitializer = .ok (index, m')) :
    m.completed.initializerIndex? = some index ∧
      m' = m.completed.withMethods (m.completed.methods.map (Method.mapTokens m.renumber)) := by
  obtain ⟨t, ts, htypes, -, ⟨hfind, -, rfl⟩ | ⟨hfind, rfl, rfl⟩⟩ := ensureInitializer_ok.mp h
  · have hsome : m'.hasInitializer = true := by
      rw [hasInitializer_of_types htypes, List.any_eq_true]
      obtain ⟨hlt, hfits, -⟩ := List.findIdx?_eq_some_iff_getElem.mp hfind
      exact ⟨_, List.getElem_mem hlt, hfits⟩
    unfold completed renumber
    rw [if_pos hsome, if_pos hsome, List.map_id'' mapTokens_id, withMethods_methods, initializerIndex?_of_types htypes]
    exact ⟨hfind, rfl⟩
  · have hnone : m.hasInitializer = false :=
      (hasInitializer_of_types htypes).trans (any_isTypeInitializer_eq_false hfind)
    have hadded := congrArg types (addToFirstType_of_types htypes .emptyInitializer)
    unfold completed renumber
    rw [hnone, if_neg Bool.false_ne_true, if_neg Bool.false_ne_true, htypes]
    refine ⟨?_, ?_⟩
    · rw [initializerIndex?_of_types hadded, List.findIdx?_append, hfind]
      simp [isTypeInitializer_emptyInitializer]
    · rw [methods_addToFirstType htypes, List.map_append, List.map_cons, mapTokens_emptyInitializer,
        ← addToFirstType_withMethods htypes (List.length_map ..), ← List.map_append, ← methods_eq_of_types htypes]
      rfl

/-! ## Tokens -/

theorem index?_eq_some {tok : Token} {table : Table} :
    tok.index? table = some index ↔ tok.table = table.code ∧ tok.row.toNat = index + 1 := by
  unfold Token.index?
  split
  · next h =>
    have hpos : tok.row.toNat ≠ 0 := fun hzero => h.2 (UInt32.toNat_inj.mp hzero)
    rw [Option.some_inj, and_iff_right h.1]
    omega
  · next h =>
    constructor
    · intro hnone
      cases hnone
    · rintro ⟨htable, hrow⟩
      refine absurd ⟨htable, fun hzero => ?_⟩ h
      rw [hzero] at hrow
      cases hrow

/-- A method row that is inserted moves the rows from there on. -/
theorem index?_shiftMethod {tok : Token} {row : Nat} (h : tok.index? .methodDef = some index)
    (hlimit : index + 2 < 2 ^ 24) : (tok.shiftMethod (row + 1)).index? .methodDef =
      some (if row ≤ index then index + 1 else index) := by
  obtain ⟨htable, hrow⟩ := index?_eq_some.mp h
  unfold Token.shiftMethod
  by_cases hle : row ≤ index
  · rw [if_pos ⟨htable, by omega⟩, if_pos hle, index?_eq_some]
    refine ⟨Token.table_ofParts .., ?_⟩
    rw [Token.row_ofParts, UInt32.toNat_add, hrow, UInt32.toNat_one]
    omega
  · rw [if_neg (fun hmoves => hle (by omega)), if_neg hle]
    exact h

theorem renumber_of_table_ne {tok : Token} (h : tok.table ≠ Table.methodDef.code) : m.renumber tok = tok := by
  unfold renumber
  split
  · rfl
  · unfold Token.shiftMethod
    rw [if_neg fun hmoves => h hmoves.1]

/-- A renumbered token names the same method. -/
theorem method?_renumber {tok : Token} {method : Method} (h : m.method? tok = some method)
    (hlimit : m.methods.length < 2 ^ 24 - 2) : m.completed.method? (m.renumber tok) = some method := by
  obtain ⟨index, hindex, hmethod⟩ := Option.bind_eq_some_iff.mp h
  unfold completed renumber
  cases hinitializer : m.hasInitializer with
  | true => exact h
  | false =>
    rw [if_neg Bool.false_ne_true, if_neg Bool.false_ne_true]
    cases htypes : m.types with
    | nil =>
      unfold methods at hmethod
      rw [htypes] at hmethod
      cases hmethod
    | cons t ts =>
      have hlt : index < m.methods.length := (List.getElem?_eq_some_iff.mp hmethod).1
      unfold method?
      show (Token.index? (Token.shiftMethod (t.methods.length + 1) tok) .methodDef).bind _ = _
      rw [index?_shiftMethod hindex (by omega), Option.bind_some, methods_addToFirstType htypes]
      rw [methods_eq_of_types htypes] at hmethod
      split
      · next hle =>
        rw [List.getElem?_append_right hle] at hmethod
        rw [List.getElem?_append_right (Nat.le_succ_of_le hle), Nat.succ_sub hle]
        exact hmethod
      · next hlt =>
        rw [List.getElem?_append_left (Nat.not_le.mp hlt)] at hmethod ⊢
        exact hmethod

end Module

end CilProbes
