import CilProbes.Proofs.Module.Methods

/-!
# The order of probing

Methods are probed type by type, those of nested types before those of the type around them (`TypeDef.walkAll`). The
walk meets methods of the types only (`TypeDef.mem_walkAll`), and a tree that is filled with other methods is walked
alike (`TypeDef.forall₂_walkAll_fillAll`).
-/

namespace CilProbes

namespace TypeDef

mutual

/-- The methods of a type of the given name, each with the name of its type. -/
def walk (typeName : String) : TypeDef → List (String × Method)
  | ⟨_, _, _, own, nested⟩ => walkNested typeName nested ++ own.map fun m => (typeName, m)

/-- The methods of the types nested in a type of the given name. -/
def walkNested (outer : String) : List TypeDef → List (String × Method)
  | [] => []
  | t :: ts => walk (outer ++ "/" ++ t.fullName) t ++ walkNested outer ts

end

/-- The methods of the outermost types. -/
def walkAll : List TypeDef → List (String × Method)
  | [] => []
  | t :: ts => walk t.fullName t ++ walkAll ts

mutual

theorem perm_walk (typeName : String) : ∀ t : TypeDef, ((walk typeName t).map Prod.snd).Perm t.allMethods
  | ⟨_, _, _, own, nested⟩ => by
    have hown : (own.map fun m => (typeName, m)).map Prod.snd = own := by rw [List.map_map]; exact List.map_id' own
    rw [walk, allMethods, List.map_append, hown]
    exact ((perm_walkNested typeName nested).append_right own).trans List.perm_append_comm

theorem perm_walkNested (outer : String) : ∀ ts : List TypeDef, ((walkNested outer ts).map Prod.snd).Perm (methodsOf ts)
  | [] => by
    rw [walkNested, methodsOf]
    exact .nil
  | t :: ts => by
    rw [walkNested, methodsOf, List.map_append]
    exact (perm_walk _ t).append (perm_walkNested outer ts)

end

/-- The methods that are walked are all methods. -/
theorem perm_walkAll (ts : List TypeDef) : ((walkAll ts).map Prod.snd).Perm (methodsOf ts) := by
  induction ts with
  | nil => exact .nil
  | cons t ts ih =>
    rw [walkAll, methodsOf, List.map_append]
    exact (perm_walk _ t).append ih

/-! ## Other methods in the same places -/

section Fill

variable {R : Method → Method → Prop}

/-- Methods of the same type that are related. -/
def Alike (R : Method → Method → Prop) (e e' : String × Method) : Prop :=
  e.1 = e'.1 ∧ R e.2 e'.2

theorem fullName_fill (t : TypeDef) (given : List Method) : (fill t given).1.fullName = t.fullName := by
  cases t
  rfl

/-- What the methods of the first type and of the others are filled with. -/
theorem forall₂_methodsOf_cons {t : TypeDef} {ts : List TypeDef} {given : List Method}
    (h : List.Forall₂ R (methodsOf (t :: ts)) (given.take (methodsOf (t :: ts)).length)) :
    List.Forall₂ R t.allMethods (given.take t.allMethods.length) ∧
      List.Forall₂ R (methodsOf ts) ((given.drop t.allMethods.length).take (methodsOf ts).length) ∧
      (fill t given).2 = given.drop t.allMethods.length := by
  rw [methodsOf, List.length_append] at h
  have hfirst := List.forall₂_take t.allMethods.length h
  have hrest := List.forall₂_drop t.allMethods.length h
  rw [List.take_left, List.take_take, Nat.min_eq_left (Nat.le_add_right ..)] at hfirst
  rw [List.drop_left, List.drop_take, Nat.add_sub_cancel_left] at hrest
  have hlen := hfirst.length_eq
  rw [List.length_take] at hlen
  exact ⟨hfirst, hrest, (fill_methods t given (by omega)).2⟩

mutual

theorem forall₂_walk_fill (typeName : String) : ∀ (t : TypeDef) (given : List Method),
    List.Forall₂ R t.allMethods (given.take t.allMethods.length) →
      List.Forall₂ (Alike R) (walk typeName t) (walk typeName (fill t given).1)
  | ⟨_, _, _, own, nested⟩, given, h => by
    rw [allMethods, List.length_append] at h
    have hown := List.forall₂_take own.length h
    have hinner := List.forall₂_drop own.length h
    rw [List.take_left, List.take_take, Nat.min_eq_left (Nat.le_add_right ..)] at hown
    rw [List.drop_left, List.drop_take, Nat.add_sub_cancel_left] at hinner
    rw [fill, walk, walk]
    refine List.rel_append (forall₂_walkNested_fillAll typeName nested _ hinner) ?_
    rw [List.forall₂_map_left_iff, List.forall₂_map_right_iff]
    exact hown.imp fun _ _ hab => ⟨rfl, hab⟩

theorem forall₂_walkNested_fillAll (outer : String) : ∀ (ts : List TypeDef) (given : List Method),
    List.Forall₂ R (methodsOf ts) (given.take (methodsOf ts).length) →
      List.Forall₂ (Alike R) (walkNested outer ts) (walkNested outer (fillAll ts given).1)
  | [], _, _ => .nil
  | t :: ts, given, h => by
    obtain ⟨hfirst, hrest, hleft⟩ := forall₂_methodsOf_cons h
    rw [fillAll, walkNested, walkNested, fullName_fill]
    refine List.rel_append (forall₂_walk_fill _ t given hfirst) (forall₂_walkNested_fillAll outer ts _ ?_)
    rw [hleft]
    exact hrest

end

/-- A tree that is filled with other methods is walked in the same order. -/
theorem forall₂_walkAll_fillAll {ts : List TypeDef} {given : List Method}
    (h : List.Forall₂ R (methodsOf ts) (given.take (methodsOf ts).length)) :
    List.Forall₂ (Alike R) (walkAll ts) (walkAll (fillAll ts given).1) := by
  induction ts generalizing given with
  | nil => exact .nil
  | cons t ts ih =>
    obtain ⟨hfirst, hrest, hleft⟩ := forall₂_methodsOf_cons h
    rw [fillAll, walkAll, walkAll, fullName_fill]
    refine List.rel_append (forall₂_walk_fill _ t given hfirst) (ih ?_)
    rw [hleft]
    exact hrest

end Fill

/-! ## Rows -/

section Rows

variable {α : Type} {f g : α → String × Method}

theorem length_walk_fill (typeName : String) {t : TypeDef} {given : List Method} (h : t.allMethods.length ≤ given.length) :
    (walk typeName (fill t given).1).length = (walk typeName t).length := by
  have hold := (perm_walk typeName t).length_eq
  have hnew := (perm_walk typeName (fill t given).1).length_eq
  rw [List.length_map] at hold hnew
  rw [hold, hnew, (fill_methods t given h).1, List.length_take, Nat.min_eq_left h]

theorem length_walkNested_fillAll (outer : String) {ts : List TypeDef} {given : List Method}
    (h : (methodsOf ts).length ≤ given.length) :
    (walkNested outer (fillAll ts given).1).length = (walkNested outer ts).length := by
  have hold := (perm_walkNested outer ts).length_eq
  have hnew := (perm_walkNested outer (fillAll ts given).1).length_eq
  rw [List.length_map] at hold hnew
  rw [hold, hnew, (fillAll_methods ts given h).1, List.length_take, Nat.min_eq_left h]

/-- Two walks that are the images of one list are so in both parts. -/
theorem exists_append {walked walked' later later' : List (String × Method)} {as : List α}
    (hlen : walked'.length = walked.length) (hf : walked ++ later = as.map f) (hg : walked' ++ later' = as.map g) :
    ∃ front back, as = front ++ back ∧ walked = front.map f ∧ later = back.map f ∧ walked' = front.map g ∧
      later' = back.map g := by
  obtain ⟨front, back, rfl, rfl, rfl⟩ := List.map_eq_append_iff.mp hf.symm
  rw [List.map_append] at hg
  rw [List.length_map] at hlen
  obtain ⟨rfl, rfl⟩ := List.append_inj hg (by rw [hlen, List.length_map])
  exact ⟨front, back, rfl, rfl, rfl, rfl, rfl⟩

mutual

theorem exists_rows_fill (typeName : String) : ∀ (t : TypeDef) (given : List Method) (as : List α),
    t.allMethods.length ≤ given.length → walk typeName t = as.map f → walk typeName (fill t given).1 = as.map g →
      ∃ rows : List α, rows.Perm as ∧ t.allMethods = rows.map (fun a => (f a).2) ∧
        (fill t given).1.allMethods = rows.map fun a => (g a).2
  | ⟨_, _, _, own, nested⟩, given, as, hlen, hf, hg => by
    rw [allMethods, List.length_append] at hlen
    have hinner : (methodsOf nested).length ≤ (given.drop own.length).length := by rw [List.length_drop]; omega
    rw [fill, walk] at hg
    rw [walk] at hf
    obtain ⟨front, back, rfl, hfront, hback, hfront', hback'⟩ :=
      exists_append (length_walkNested_fillAll typeName hinner) hf hg
    obtain ⟨rows, hperm, hrows, hrows'⟩ := exists_rows_fillNested typeName nested _ front hinner hfront hfront'
    have hown (methods : List Method) : (methods.map fun m => (typeName, m)).map Prod.snd = methods := by
      rw [List.map_map]
      exact List.map_id' methods
    refine ⟨back ++ rows, (List.perm_append_comm).trans (hperm.append_right back), ?_, ?_⟩
    · rw [allMethods, List.map_append, ← hrows, ← hown own, hback, List.map_map]
      rfl
    · rw [fill, allMethods, List.map_append, ← hrows', ← hown (given.take own.length), hback', List.map_map]
      rfl

theorem exists_rows_fillNested (outer : String) : ∀ (ts : List TypeDef) (given : List Method) (as : List α),
    (methodsOf ts).length ≤ given.length → walkNested outer ts = as.map f →
      walkNested outer (fillAll ts given).1 = as.map g →
        ∃ rows : List α, rows.Perm as ∧ methodsOf ts = rows.map (fun a => (f a).2) ∧
          methodsOf (fillAll ts given).1 = rows.map fun a => (g a).2
  | [], given, as, _, hf, _ => by
    obtain rfl : as = [] := List.map_eq_nil_iff.mp hf.symm
    exact ⟨[], .nil, rfl, rfl⟩
  | t :: ts, given, as, hlen, hf, hg => by
    rw [methodsOf, List.length_append] at hlen
    have hfirst : t.allMethods.length ≤ given.length := by omega
    have hrest : (methodsOf ts).length ≤ (fill t given).2.length := by
      rw [(fill_methods t given hfirst).2, List.length_drop]
      omega
    rw [fillAll, walkNested, fullName_fill] at hg
    rw [walkNested] at hf
    obtain ⟨front, back, rfl, hfront, hback, hfront', hback'⟩ := exists_append (length_walk_fill _ hfirst) hf hg
    obtain ⟨rows, hperm, hrows, hrows'⟩ := exists_rows_fill _ t given front hfirst hfront hfront'
    obtain ⟨more, hmore, hlater, hlater'⟩ := exists_rows_fillNested outer ts _ back hrest hback hback'
    refine ⟨rows ++ more, hperm.append hmore, ?_, ?_⟩
    · rw [methodsOf, List.map_append, hrows, hlater]
    · rw [fillAll, methodsOf, List.map_append, hrows', hlater']

end

/-- What goes with the methods in the order of a walk can be put in the order of their rows. -/
theorem exists_rows {ts : List TypeDef} {given : List Method} {as : List α} (hlen : (methodsOf ts).length ≤ given.length)
    (hf : walkAll ts = as.map f) (hg : walkAll (fillAll ts given).1 = as.map g) :
    ∃ rows : List α, rows.Perm as ∧ methodsOf ts = rows.map (fun a => (f a).2) ∧
      methodsOf (fillAll ts given).1 = rows.map fun a => (g a).2 := by
  induction ts generalizing given as with
  | nil =>
    obtain rfl : as = [] := List.map_eq_nil_iff.mp hf.symm
    exact ⟨[], .nil, rfl, rfl⟩
  | cons t ts ih =>
    rw [methodsOf, List.length_append] at hlen
    have hfirst : t.allMethods.length ≤ given.length := by omega
    have hrest : (methodsOf ts).length ≤ (fill t given).2.length := by
      rw [(fill_methods t given hfirst).2, List.length_drop]
      omega
    rw [fillAll, walkAll, fullName_fill] at hg
    rw [walkAll] at hf
    obtain ⟨front, back, rfl, hfront, hback, hfront', hback'⟩ := exists_append (length_walk_fill _ hfirst) hf hg
    obtain ⟨rows, hperm, hrows, hrows'⟩ := exists_rows_fill _ t given front hfirst hfront hfront'
    obtain ⟨more, hmore, hlater, hlater'⟩ := ih hrest hback hback'
    refine ⟨rows ++ more, hperm.append hmore, ?_, ?_⟩
    · rw [methodsOf, List.map_append, hrows, hlater]
    · rw [fillAll, methodsOf, List.map_append, hrows', hlater']

end Rows

end TypeDef

theorem Module.forall₂_walkAll_withMethods {R : Method → Method → Prop} {m : Module} {given : List Method}
    (h : List.Forall₂ R m.methods given) :
    List.Forall₂ (TypeDef.Alike R) (TypeDef.walkAll m.types) (TypeDef.walkAll (m.withMethods given).types) := by
  refine TypeDef.forall₂_walkAll_fillAll ?_
  rw [show (TypeDef.methodsOf m.types).length = given.length from h.length_eq, List.take_length]
  exact h

end CilProbes
