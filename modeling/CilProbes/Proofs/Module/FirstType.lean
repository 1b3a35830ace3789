import CilProbes.Module.Initializer

/-!
# The first type

The module initializer belongs to the first type. A method that is added there comes behind the methods of that type and
in front of those of all others (`Module.methods_addToFirstType`), so each of these moves on by one row at most
(`Module.moved_of_added`).
-/

namespace CilProbes

namespace Module

variable {m m' : Module} {t : TypeDef} {ts : List TypeDef} {a : Method} {i index : Nat}

theorem exists_types_of_globalType? (h : m.globalType? = some t) :
    (t.name = globalTypeName ∧ t.space = "") ∧ ∃ ts, m.types = t :: ts := by
  obtain ⟨ht, hglobal⟩ := Option.filter_eq_some_iff.mp h
  exact ⟨of_decide_eq_true hglobal, List.head?_eq_some_iff.mp ht⟩

/-! ## Initializers -/

theorem hasInitializer_of_types (h : m.types = t :: ts) :
    m.hasInitializer = t.methods.any Method.isTypeInitializer := by
  unfold hasInitializer
  rw [h]

theorem any_isTypeInitializer_eq_false (h : t.methods.findIdx? Method.isTypeInitializer = none) :
    t.methods.any Method.isTypeInitializer = false :=
  List.any_eq_false.mpr fun a ha => by simpa using List.findIdx?_eq_none_iff.mp h a ha

theorem isTypeInitializer_emptyInitializer : Method.emptyInitializer.isTypeInitializer = true := by decide +kernel

/-- An initializer that is there has a body and stays as it is; one that is not is added. -/
theorem ensureInitializer_ok : m.ensureInitializer = .ok (index, m') ↔
    ∃ t ts, m.types = t :: ts ∧ (t.name = globalTypeName ∧ t.space = "") ∧
      ((t.methods.findIdx? Method.isTypeInitializer = some index ∧
          (t.methods[index]?.bind Method.body).isSome = true ∧ m' = m) ∨
        (t.methods.findIdx? Method.isTypeInitializer = none ∧ index = t.methods.length ∧
          m' = (m.shiftMethodRows (t.methods.length + 1)).addToFirstType .emptyInitializer)) := by
  constructor
  · intro h
    unfold ensureInitializer at h
    split at h
    · cases h
    · next t ht =>
      obtain ⟨hglobal, ts, htypes⟩ := exists_types_of_globalType? ht
      refine ⟨t, ts, htypes, hglobal, ?_⟩
      split at h
      · next hfind =>
        split at h
        · next hbody =>
          cases h
          exact .inl ⟨hfind, hbody, rfl⟩
        · cases h
      · next hfind =>
        cases h
        exact .inr ⟨hfind, rfl, rfl⟩
  · rintro ⟨t, ts, htypes, hglobal, hor⟩
    have ht : m.globalType? = some t := by
      unfold globalType?
      rw [htypes, List.head?_cons, Option.filter_some, if_pos (decide_eq_true hglobal)]
    unfold ensureInitializer
    rw [ht]
    dsimp only
    rcases hor with ⟨hfind, hbody, rfl⟩ | ⟨hfind, rfl, rfl⟩
    · rw [hfind]
      exact if_pos hbody
    · rw [hfind]

/-! ## Added methods -/

theorem addToFirstType_of_types (h : m.types = t :: ts) (method : Method) :
    m.addToFirstType method = { m with types := { t with methods := t.methods ++ [method] } :: ts } := by
  unfold addToFirstType
  rw [h]

/-- Without types there is no place for a method. -/
theorem addToFirstType_eq_self (h : m.types = []) (method : Method) : m.addToFirstType method = m := by
  unfold addToFirstType
  rw [h]

theorem documents_addToFirstType (m : Module) (method : Method) : (m.addToFirstType method).documents = m.documents := by
  unfold addToFirstType
  split <;> rfl

theorem methods_eq_of_types (h : m.types = t :: ts) :
    m.methods = t.methods ++ (TypeDef.methodsOf t.nested ++ TypeDef.methodsOf ts) := by
  obtain ⟨flags, space, name, own, nested⟩ := t
  unfold methods
  rw [h]
  simp only [TypeDef.methodsOf, TypeDef.allMethods, List.append_assoc]

theorem methods_addToFirstType (h : m.types = t :: ts) (method : Method) : (m.addToFirstType method).methods =
    t.methods ++ method :: (TypeDef.methodsOf t.nested ++ TypeDef.methodsOf ts) := by
  have htypes := congrArg types (addToFirstType_of_types h method)
  rw [methods_eq_of_types htypes, List.append_assoc, List.singleton_append]

theorem hasInitializer_addToFirstType (h : m.types = t :: ts) (ha : a.isTypeInitializer = true) :
    (m.addToFirstType a).hasInitializer = true := by
  rw [hasInitializer_of_types (congrArg types (addToFirstType_of_types h a)), List.any_append]
  exact Bool.or_eq_true_iff.mpr (.inr (List.any_eq_true.mpr ⟨a, List.mem_singleton_self a, ha⟩))

theorem forall_mem_addToFirstType {P : Method → Prop} {method : Method} (hnew : P method) (h : ∀ a ∈ m.methods, P a) :
    ∀ a ∈ (m.addToFirstType method).methods, P a := by
  cases htypes : m.types with
  | nil =>
    rw [addToFirstType_eq_self htypes]
    exact h
  | cons t ts =>
    rw [methods_eq_of_types htypes] at h
    obtain ⟨hown, hrest⟩ := List.forall_mem_append.mp h
    rw [methods_addToFirstType htypes]
    exact List.forall_mem_append.mpr ⟨hown, List.forall_mem_cons.mpr ⟨hnew, hrest⟩⟩

/-- Every method but the added one was there before, at most one row in front. -/
theorem moved_of_added {method : Method} (htypes : m.types = t :: ts)
    (h : (m.addToFirstType method).methods[i]? = some a) : a = method ∨ ∃ j, i ≤ j + 1 ∧ m.methods[j]? = some a := by
  rw [methods_addToFirstType htypes] at h
  rw [methods_eq_of_types htypes]
  rcases Nat.lt_or_ge i t.methods.length with hlt | hge
  · rw [List.getElem?_append_left hlt] at h
    exact .inr ⟨i, Nat.le_succ i, by rwa [List.getElem?_append_left hlt]⟩
  · obtain ⟨k, rfl⟩ := Nat.exists_eq_add_of_le hge
    rw [List.getElem?_append_right (Nat.le_add_right ..), Nat.add_sub_cancel_left] at h
    cases k with
    | zero => exact .inl (Option.some.inj h).symm
    | succ k =>
      refine .inr ⟨t.methods.length + k, Nat.le_refl _, ?_⟩
      rw [List.getElem?_append_right (Nat.le_add_right ..), Nat.add_sub_cancel_left]
      exact h

end Module

end CilProbes
