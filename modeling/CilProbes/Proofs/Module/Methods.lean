import CilProbes.Module.Initializer
import CilProbes.Proofs.Outcome

/-!
# The methods of a module

The methods of a tree of types can be taken out and put back in: what is put in is found there
(`Module.methods_withMethods`), and the tree around it stays as it is (`Module.withMethods_withMethods`,
`Module.withMethods_methods`).
-/

namespace CilProbes

namespace TypeDef

theorem mem_methodsOf {ts : List TypeDef} {method : Method} :
    method ∈ methodsOf ts ↔ ∃ t ∈ ts, method ∈ t.allMethods := by
  induction ts with
  | nil => simp [methodsOf]
  | cons t ts ih => simp [methodsOf, ih]

mutual

theorem fill_methods : ∀ (t : TypeDef) (given : List Method), t.allMethods.length ≤ given.length →
    (fill t given).1.allMethods = given.take t.allMethods.length ∧ (fill t given).2 = given.drop t.allMethods.length
  | ⟨flags, space, name, methods, nested⟩, given, h => by
    rw [allMethods, List.length_append] at h
    obtain ⟨hinner, hleft⟩ := fillAll_methods nested (given.drop methods.length) (by rw [List.length_drop]; omega)
    rw [fill, allMethods, allMethods, List.length_append]
    refine ⟨?_, ?_⟩
    · rw [hinner, List.take_add]
    · rw [hleft, List.drop_drop]

theorem fillAll_methods : ∀ (ts : List TypeDef) (given : List Method), (methodsOf ts).length ≤ given.length →
    methodsOf (fillAll ts given).1 = given.take (methodsOf ts).length ∧
      (fillAll ts given).2 = given.drop (methodsOf ts).length
  | [], given, _ => ⟨by rw [fillAll, methodsOf, List.length_nil, List.take_zero], by
      rw [fillAll, methodsOf, List.length_nil, List.drop_zero]⟩
  | t :: ts, given, h => by
    rw [methodsOf, List.length_append] at h
    obtain ⟨hfirst, hleft⟩ := fill_methods t given (by omega)
    obtain ⟨hrest, hlast⟩ := fillAll_methods ts (fill t given).2 (by rw [hleft, List.length_drop]; omega)
    rw [fillAll, methodsOf, methodsOf, List.length_append]
    refine ⟨?_, ?_⟩
    · rw [hfirst, hrest, hleft, List.take_add]
    · rw [hlast, hleft, List.drop_drop]

end

mutual

/-- Filling twice is filling with the methods that come last. -/
theorem fill_fill : ∀ (t : TypeDef) (given later : List Method), t.allMethods.length ≤ given.length →
    fill (fill t given).1 later = fill t later
  | ⟨flags, space, name, methods, nested⟩, given, later, h => by
    rw [allMethods, List.length_append] at h
    have hlen : (given.take methods.length).length = methods.length := by rw [List.length_take]; omega
    rw [fill, fill, hlen, fillAll_fillAll nested _ _ (by rw [List.length_drop]; omega), fill]

theorem fillAll_fillAll : ∀ (ts : List TypeDef) (given later : List Method), (methodsOf ts).length ≤ given.length →
    fillAll (fillAll ts given).1 later = fillAll ts later
  | [], _, _, _ => rfl
  | t :: ts, given, later, h => by
    rw [methodsOf, List.length_append] at h
    have hleft := (fill_methods t given (by omega)).2
    have hrest := fillAll_fillAll ts (fill t given).2 (fill t later).2 (by rw [hleft, List.length_drop]; omega)
    simp only [fillAll, fill_fill t given later (by omega), hrest]

end

mutual

theorem fill_self : ∀ (t : TypeDef) (more : List Method), fill t (t.allMethods ++ more) = (t, more)
  | ⟨flags, space, name, methods, nested⟩, more => by
    rw [fill, allMethods, List.append_assoc, List.drop_left, List.take_left, fillAll_self nested more]

theorem fillAll_self : ∀ (ts : List TypeDef) (more : List Method), fillAll ts (methodsOf ts ++ more) = (ts, more)
  | [], _ => rfl
  | t :: ts, more => by
    simp only [fillAll, methodsOf, List.append_assoc, fill_self t, fillAll_self ts]

end

end TypeDef

namespace Module

variable {m : Module} {given later : List Method}

theorem methods_withMethods (h : given.length = m.methods.length) : (m.withMethods given).methods = given := by
  have := (TypeDef.fillAll_methods m.types given (Nat.le_of_eq h.symm)).1
  rwa [show (TypeDef.methodsOf m.types).length = given.length from h.symm, List.take_length] at this

theorem withMethods_withMethods (h : given.length = m.methods.length) :
    (m.withMethods given).withMethods later = m.withMethods later := by
  unfold withMethods
  rw [TypeDef.fillAll_fillAll m.types given later (Nat.le_of_eq h.symm)]

theorem hasInitializer_withMethods
    (h : List.Forall₂ (fun a b => Method.isTypeInitializer a = Method.isTypeInitializer b) m.methods given) :
    (m.withMethods given).hasInitializer = m.hasInitializer := by
  obtain ⟨name, attributes, memberRefs, userStrings, types, documents⟩ := m
  cases types with
  | nil => rfl
  | cons t ts =>
    obtain ⟨flags, space, name, own, nested⟩ := t
    have hown := List.forall₂_take own.length h
    rw [show methods _ = own ++ TypeDef.methodsOf nested ++ TypeDef.methodsOf ts by
      simp only [methods, TypeDef.methodsOf, TypeDef.allMethods], List.append_assoc, List.take_left] at hown
    have hmap := map_eq_of_forall₂ hown fun _ _ _ hab => hab
    have hany := congrArg (fun flags => flags.any id) hmap
    simp only [List.any_map] at hany
    exact hany.symm

theorem withMethods_methods (m : Module) : m.withMethods m.methods = m := by
  have := TypeDef.fillAll_self m.types []
  rw [List.append_nil] at this
  unfold withMethods methods
  rw [this]

end Module

end CilProbes
