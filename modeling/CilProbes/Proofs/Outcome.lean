import CilProbes.Log
import Mathlib.Data.List.Forall2

/-!
# Successful outcomes

What a success of a composed operation says of its parts: of a sequence (`bind_ok`, `edit_bind_ok`), of a computation on
a result (`map_ok`), and of a walk over a list (`each_ok`, `forall₂_of_mapM`, `mapM_of_forall₂`). That an operation
succeeds, and that its result has a property, is decided by running it.
-/

namespace CilProbes

variable {ε α β σ : Type}

instance decidableExistsOk {x : Except ε α} {P : α → Prop} [DecidablePred P] : Decidable (∃ a, x = .ok a ∧ P a) :=
  match x with
  | .ok a => decidable_of_iff (P a) ⟨fun h => ⟨a, rfl, h⟩, fun ⟨_, ha, h⟩ => (by cases ha; exact h)⟩
  | .error _ => .isFalse fun ⟨_, ha, _⟩ => (by cases ha)

instance decidableEqError [DecidableEq ε] {x : Except ε α} {e : ε} : Decidable (x = .error e) :=
  match x with
  | .ok _ => .isFalse fun h => (by cases h)
  | .error found => decidable_of_iff (found = e) ⟨congrArg Except.error, Except.error.inj⟩

instance decidableExistsEditOk {x : EStateM.Result ε σ α} {P : α → σ → Prop} [∀ a s, Decidable (P a s)] :
    Decidable (∃ a s, x = .ok a s ∧ P a s) :=
  match x with
  | .ok a s => decidable_of_iff (P a s) ⟨fun h => ⟨a, s, rfl, h⟩, fun ⟨_, _, ha, h⟩ => (by cases ha; exact h)⟩
  | .error _ _ => .isFalse fun ⟨_, _, ha, _⟩ => (by cases ha)

/-- Also where the operation runs on a state that varies. -/
instance decidableExistsRunOk {act : Edit σ α} {s : σ} {P : α → σ → Prop} [∀ a s', Decidable (P a s')] :
    Decidable (∃ a s', act s = .ok a s' ∧ P a s') :=
  decidableExistsEditOk

instance decidableExistsRunError {act : Edit σ α} {s : σ} {P : Fault → σ → Prop} [∀ e s', Decidable (P e s')] :
    Decidable (∃ e s', act s = .error e s' ∧ P e s') :=
  match act s with
  | .ok _ _ => .isFalse fun ⟨_, _, he, _⟩ => (by cases he)
  | .error e s' => decidable_of_iff (P e s') ⟨fun h => ⟨e, s', rfl, h⟩, fun ⟨_, _, he, h⟩ => (by cases he; exact h)⟩

theorem bind_ok {x : Except ε α} {f : α → Except ε β} {b : β} :
    x >>= f = .ok b ↔ ∃ a, x = .ok a ∧ f a = .ok b := by
  cases x with
  | ok a => exact ⟨fun h => ⟨a, rfl, h⟩, fun ⟨_, ha, h⟩ => (by cases ha; exact h)⟩
  | error fault => exact ⟨fun h => (by cases h), fun ⟨_, ha, _⟩ => (by cases ha)⟩

theorem bind_of_ok {x : Except ε α} {f : α → Except ε β} {a : α} (h : x = .ok a) : x >>= f = f a := by
  rw [h]
  rfl

theorem map_ok {x : Except ε α} {f : α → β} {b : β} : x.map f = .ok b ↔ ∃ a, x = .ok a ∧ f a = b := by
  cases x with
  | ok a => exact ⟨fun h => ⟨a, rfl, Except.ok.inj h⟩, fun ⟨_, ha, h⟩ => (by cases ha; exact congrArg Except.ok h)⟩
  | error fault => exact ⟨fun h => (by cases h), fun ⟨_, ha, _⟩ => (by cases ha)⟩

theorem edit_bind_ok {x : Edit σ α} {f : α → Edit σ β} {s s' : σ} {b : β} :
    (x >>= f) s = .ok b s' ↔ ∃ a s₁, x s = .ok a s₁ ∧ f a s₁ = .ok b s' := by
  show EStateM.bind x f s = _ ↔ _
  unfold EStateM.bind
  cases hx : x s with
  | ok a s₁ => exact ⟨fun h => ⟨a, s₁, rfl, h⟩, fun ⟨_, _, ha, h⟩ => (by cases ha; exact h)⟩
  | error fault s₁ => exact ⟨fun h => (by cases h), fun ⟨_, _, ha, _⟩ => (by cases ha)⟩

theorem edit_bind_error {x : Edit σ α} {f : α → Edit σ β} {s s' : σ} {fault : Fault} :
    (x >>= f) s = .error fault s' ↔ x s = .error fault s' ∨ ∃ a s₁, x s = .ok a s₁ ∧ f a s₁ = .error fault s' := by
  show EStateM.bind x f s = _ ↔ _
  unfold EStateM.bind
  cases hx : x s with
  | ok a s₁ =>
    refine ⟨fun h => .inr ⟨a, s₁, rfl, h⟩, ?_⟩
    rintro (h | ⟨_, _, ha, h⟩)
    · cases h
    · cases ha
      exact h
  | error found s₁ =>
    refine ⟨fun h => .inl (by cases h; rfl), ?_⟩
    rintro (h | ⟨_, _, ha, -⟩)
    · cases h
      rfl
    · cases ha

theorem edit_bind_of_ok {x : Edit σ α} {f : α → Edit σ β} {s t : σ} {a : α} (h : x s = .ok a t) :
    (x >>= f) s = f a t := by
  show EStateM.bind x f s = _
  unfold EStateM.bind
  rw [h]

theorem edit_bind_of_error {x : Edit σ α} {f : α → Edit σ β} {s t : σ} {fault : Fault} (h : x s = .error fault t) :
    (x >>= f) s = .error fault t := by
  show EStateM.bind x f s = _
  unfold EStateM.bind
  rw [h]

theorem edit_onPart_ok {τ : Type} {get : σ → τ} {put : σ → τ → σ} {act : Edit τ α} {s s' : σ} {a : α} :
    Edit.onPart get put act s = .ok a s' ↔ ∃ t, act (get s) = .ok a t ∧ put s t = s' := by
  unfold Edit.onPart
  cases act (get s) with
  | ok found t => exact ⟨fun h => (by cases h; exact ⟨t, rfl, rfl⟩), fun ⟨_, ht, h⟩ => (by cases ht; cases h; rfl)⟩
  | error fault t => exact ⟨fun h => (by cases h), fun ⟨_, ht, _⟩ => (by cases ht)⟩

theorem edit_onPart_error {τ : Type} {get : σ → τ} {put : σ → τ → σ} {act : Edit τ α} {s s' : σ} {fault : Fault} :
    Edit.onPart get put act s = .error fault s' ↔ ∃ t, act (get s) = .error fault t ∧ put s t = s' := by
  unfold Edit.onPart
  cases act (get s) with
  | ok a t => exact ⟨fun h => (by cases h), fun ⟨_, ht, _⟩ => (by cases ht)⟩
  | error found t => exact ⟨fun h => (by cases h; exact ⟨t, rfl, rfl⟩), fun ⟨_, ht, h⟩ => (by cases ht; cases h; rfl)⟩

theorem edit_onOther_ok {τ : Type} {value value' : τ} {act : Edit (Logged τ) α} {s s' : Logged σ} {a : α} :
    Edit.onOther value act s = .ok (a, value') s' ↔
      act ⟨value, s.log⟩ = .ok a ⟨value', s'.log⟩ ∧ s'.value = s.value := by
  unfold Edit.onOther
  obtain ⟨found, log⟩ := s'
  constructor
  · intro h
    split at h
    · next hact =>
      cases h
      exact ⟨hact, rfl⟩
    · cases h
  · rintro ⟨hact, rfl⟩
    rw [hact]

theorem edit_get_bind {f : σ → Edit σ α} {s : σ} : ((get : Edit σ σ) >>= f) s = f s s :=
  rfl

theorem ofExcept_ok {x : Except Fault α} {s s' : σ} {a : α} (h : Edit.ofExcept x s = .ok a s') :
    x = .ok a ∧ s' = s := by
  cases x with
  | ok b => cases h; exact ⟨rfl, rfl⟩
  | error fault => cases h

theorem ofExcept_bind_ok {x : Except Fault α} {f : α → Edit σ β} {s s' : σ} {b : β}
    (h : (Edit.ofExcept x >>= f) s = .ok b s') : ∃ a, x = .ok a ∧ f a s = .ok b s' := by
  cases x with
  | ok a => exact ⟨a, rfl, h⟩
  | error fault => cases h

/-- Working on one element after another gives a result and a new element for each. -/
theorem each_ok {act : Edit σ α} {ss ss' : List σ} {as : List α} (h : Edit.each act ss = .ok as ss') :
    ∃ pairs : List (α × σ), as = pairs.map Prod.fst ∧ ss' = pairs.map Prod.snd ∧
      List.Forall₂ (fun s p => act s = .ok p.1 p.2) ss pairs := by
  induction ss generalizing as ss' with
  | nil =>
    cases h
    exact ⟨[], rfl, rfl, .nil⟩
  | cons s ss ih =>
    rw [Edit.each] at h
    cases hs : act s with
    | error fault s' => rw [hs] at h; cases h
    | ok a s' =>
      rw [hs] at h
      dsimp only at h
      cases hss : Edit.each act ss with
      | error fault rest => rw [hss] at h; cases h
      | ok more rest =>
        rw [hss] at h
        cases h
        obtain ⟨pairs, rfl, rfl, hpairs⟩ := ih hss
        exact ⟨(a, s') :: pairs, rfl, rfl, .cons hs hpairs⟩

theorem each_of_forall₂ {act : Edit σ α} {ss : List σ} {pairs : List (α × σ)}
    (h : List.Forall₂ (fun s p => act s = .ok p.1 p.2) ss pairs) :
    Edit.each act ss = .ok (pairs.map Prod.fst) (pairs.map Prod.snd) := by
  induction h with
  | nil => rfl
  | cons hs _ ih =>
    rw [Edit.each, hs]
    dsimp only
    rw [ih]
    rfl

theorem exists_of_rel_some {R : α → β → Prop} {a : α} {o : Option β} (h : Option.Rel R (some a) o) :
    ∃ b, o = some b ∧ R a b := by
  cases h with
  | some hab => exact ⟨_, rfl, hab⟩

theorem eq_none_of_rel_none {R : α → β → Prop} {o : Option β} (h : Option.Rel R none o) : o = none := by
  cases h
  rfl

/-- A walk that succeeds gives the outcome of every element. -/
theorem forall₂_of_mapM {f : α → Except ε β} {as : List α} {bs : List β} (h : as.mapM f = .ok bs) :
    List.Forall₂ (fun a b => f a = .ok b) as bs := by
  induction as generalizing bs with
  | nil => cases h; exact .nil
  | cons a as ih =>
    rw [List.mapM_cons] at h
    obtain ⟨b, hb, h⟩ := bind_ok.mp h
    obtain ⟨bs', hbs, h⟩ := bind_ok.mp h
    cases h
    exact .cons hb (ih hbs)

/-- Walks over elements and over what they stand for go alike if the steps do. -/
theorem mapM_map_congr {γ : Type} {f : α → Except ε γ} {g : β → Except ε γ} {h : α → β} {as : List α}
    (hstep : ∀ a ∈ as, g (h a) = f a) : (as.map h).mapM g = as.mapM f := by
  induction as with
  | nil => rfl
  | cons a as ih =>
    obtain ⟨ha, has⟩ := List.forall_mem_cons.mp hstep
    rw [List.map_cons, List.mapM_cons, List.mapM_cons, ha, ih has]

theorem forall₂_filterMap {ι : Type} {R : α → β → Prop} {f : ι → Option α} {g : ι → Option β} {is : List ι}
    (h : ∀ i ∈ is, ∃ a b, f i = some a ∧ g i = some b ∧ R a b) :
    List.Forall₂ R (is.filterMap f) (is.filterMap g) := by
  induction is with
  | nil => exact .nil
  | cons i is ih =>
    obtain ⟨a, b, ha, hb, hab⟩ := h i List.mem_cons_self
    rw [List.filterMap_cons_some ha, List.filterMap_cons_some hb]
    exact .cons hab (ih fun j hj => h j (List.mem_cons_of_mem _ hj))

theorem exists_of_mem_right {R : α → β → Prop} {as : List α} {bs : List β} (h : List.Forall₂ R as bs) :
    ∀ b ∈ bs, ∃ a ∈ as, R a b := by
  induction h with
  | nil => exact fun _ hb => absurd hb List.not_mem_nil
  | cons hab _ ih =>
    refine List.forall_mem_cons.mpr ⟨⟨_, List.mem_cons_self, hab⟩, fun b hb => ?_⟩
    obtain ⟨a, ha, hr⟩ := ih b hb
    exact ⟨a, List.mem_cons_of_mem _ ha, hr⟩

theorem exists_getElem?_of_forall₂ {R : α → β → Prop} {as : List α} {bs : List β} (h : List.Forall₂ R as bs) {i : Nat}
    {b : β} (hb : bs[i]? = some b) : ∃ a, as[i]? = some a ∧ R a b := by
  induction h generalizing i with
  | nil => cases hb
  | cons hab _ ih =>
    cases i with
    | zero =>
      cases hb
      exact ⟨_, rfl, hab⟩
    | succ i => exact ih hb

theorem forall₂_modify {R : α → α → Prop} {as : List α} {f : α → α} {i : Nat} {a : α} (hrefl : ∀ a ∈ as, R a a)
    (ha : as[i]? = some a) (hf : R a (f a)) : List.Forall₂ R as (as.modify i f) := by
  induction as generalizing i with
  | nil => cases ha
  | cons b as ih =>
    have hrest : ∀ a ∈ as, R a a := fun a ha => hrefl a (List.mem_cons_of_mem b ha)
    cases i with
    | zero =>
      cases ha
      exact .cons hf (List.forall₂_same.mpr hrest)
    | succ i => exact .cons (hrefl b List.mem_cons_self) (ih hrest ha)

theorem forall₂_imp_mem {R S : α → β → Prop} {as : List α} {bs : List β} (h : List.Forall₂ R as bs)
    (himp : ∀ a ∈ as, ∀ b, R a b → S a b) : List.Forall₂ S as bs := by
  induction h with
  | nil => exact .nil
  | cons hab _ ih => exact .cons (himp _ List.mem_cons_self _ hab) (ih fun a ha => himp a (List.mem_cons_of_mem _ ha))

theorem exists_forall₂ {γ : Type} {R : α → β → Prop} {S : α → γ → Prop} {T : β → γ → Prop} {as : List α} {bs : List β}
    (h : List.Forall₂ R as bs) (hex : ∀ a ∈ as, ∀ b ∈ bs, R a b → ∃ c, S a c ∧ T b c) :
    ∃ cs, List.Forall₂ S as cs ∧ List.Forall₂ T bs cs := by
  induction h with
  | nil => exact ⟨[], .nil, .nil⟩
  | cons hab _ ih =>
    obtain ⟨c, hc, hc'⟩ := hex _ List.mem_cons_self _ List.mem_cons_self hab
    obtain ⟨cs, hcs, hcs'⟩ := ih fun a ha b hb => hex a (List.mem_cons_of_mem _ ha) b (List.mem_cons_of_mem _ hb)
    exact ⟨c :: cs, .cons hc hcs, .cons hc' hcs'⟩

theorem forall₂_comp {γ : Type} {R : α → β → Prop} {S : β → γ → Prop} {T : α → γ → Prop} {as : List α} {bs : List β}
    {cs : List γ} (h : List.Forall₂ R as bs) (h' : List.Forall₂ S bs cs) (hT : ∀ a b c, R a b → S b c → T a c) :
    List.Forall₂ T as cs := by
  induction h generalizing cs with
  | nil =>
    cases h'
    exact .nil
  | cons hab _ ih =>
    cases h' with
    | cons hbc hrest => exact .cons (hT _ _ _ hab hbc) (ih hrest)

theorem map_eq_of_forall₂ {γ : Type} {R : α → β → Prop} {as : List α} {bs : List β} {f : α → γ} {g : β → γ}
    (h : List.Forall₂ R as bs) (hfg : ∀ a ∈ as, ∀ b, R a b → f a = g b) : as.map f = bs.map g := by
  induction h with
  | nil => rfl
  | cons hab _ ih =>
    rw [List.map_cons, List.map_cons, hfg _ List.mem_cons_self _ hab,
      ih fun a ha => hfg a (List.mem_cons_of_mem _ ha)]

theorem mapM_of_forall₂ {f : α → Except ε β} {as : List α} {bs : List β}
    (h : List.Forall₂ (fun a b => f a = .ok b) as bs) : as.mapM f = .ok bs := by
  induction h with
  | nil => rfl
  | cons ha _ ih =>
    rw [List.mapM_cons, ha, ih]
    rfl

end CilProbes
