import CilProbes.Module.Initializer
import CilProbes.Proofs.Module.Points

/-!
# Well-formed modules

In a well-formed module every body is well formed, and the points of a method lie in its program order
(`Module.WellFormed`). It stays so when methods get further instructions (`Module.WellFormed.extend`).
-/

namespace CilProbes

/-! ## Bodies -/

/-- The body is well formed, and keeps the instructions of the other one in their order. -/
structure MethodBody.Extends (b' b : MethodBody) : Prop where
  wellFormed : b'.WellFormed
  ids : b.code.ids.Sublist b'.code.ids

theorem MethodBody.Widened.extends {b b' : MethodBody} (h : b.Widened b') (hb : b.WellFormed) : b'.Extends b where
  wellFormed := h.wellFormed hb
  ids := by
    rw [h.code.ids]

/-! ## Methods -/

namespace Method

/-- The points lie in program order, in the documents of the module; a method without body has none. -/
structure Anchored (documents : Nat) (m : Method) : Prop where
  anchors : ∀ b ∈ m.body, b.Anchors m.points
  bare : m.body = none → m.points = []
  spans : ∀ p ∈ m.points, p.span.WellFormed
  inside : ∀ p ∈ m.points, p.span.document.toNat < documents

/-- The methods differ in their bodies only, and the body of the first extends that of the other. -/
structure Extends (m' m : Method) : Prop where
  body : ∀ b' ∈ m'.body, ∃ b ∈ m.body, b'.Extends b
  bare : m'.body = none → m.body = none
  rest : m' = { m with body := m'.body }

variable {m m' : Method} {documents : Nat}

theorem Widened.extends (h : m.Widened m') (hm : m.Readable) : m'.Extends m where
  body b' hb' := by
    obtain ⟨b, hb, hwidened⟩ := h.exists_body hb'
    exact ⟨b, hb, hwidened.extends (hm.body b hb)⟩
  bare := h.body_eq_none
  rest := h.rest

theorem Extends.refl (hm : m.Readable) : m.Extends m :=
  ⟨fun b hb => ⟨b, hb, hm.body b hb, List.Sublist.refl _⟩, fun hnone => hnone, rfl⟩

theorem Extends.points_eq (h : m'.Extends m) : m'.points = m.points :=
  (congrArg points h.rest :)

theorem Extends.readable (h : m'.Extends m) (hm : m.Readable) : m'.Readable where
  name := by
    rw [h.rest]
    exact hm.name
  body b' hb' := by
    obtain ⟨b, _, hextends⟩ := h.body b' hb'
    exact hextends.wellFormed

theorem Extends.anchored (h : m'.Extends m) (hm : m.Anchored documents) : m'.Anchored documents where
  anchors b' hb' := by
    obtain ⟨b, hb, hextends⟩ := h.body b' hb'
    unfold MethodBody.Anchors
    rw [h.points_eq]
    exact (hm.anchors b hb).trans hextends.ids
  bare hnone := by
    rw [h.points_eq]
    exact hm.bare (h.bare hnone)
  spans := by
    rw [h.points_eq]
    exact hm.spans
  inside := by
    rw [h.points_eq]
    exact hm.inside

end Method

/-! ## Modules -/

namespace Module

/-- How many rows may have points. Tokens reach the rows below `2 ^ 24`, and a module initializer moves rows on by one. -/
def pointRows (m : Module) : Nat :=
  if m.hasInitializer then 2 ^ 24 else 2 ^ 24 - 1

/-- The module can be read, and the points of its methods are in order. -/
structure WellFormed (m : Module) : Prop extends m.Readable where
  documents : ∀ documents ∈ m.documents, ∀ document ∈ documents, Field.Writable document
  anchored : ∀ method ∈ m.methods, method.Anchored (m.documents.getD []).length
  rows : ∀ i method, m.methods[i]? = some method → m.pointRows ≤ i → method.points = []

variable {m m' : Module} {methods : List Method}

theorem pointRows_le (m : Module) : m.pointRows ≤ 2 ^ 24 := by
  unfold pointRows
  split <;> omega

theorem le_pointRows (m : Module) : 2 ^ 24 - 1 ≤ m.pointRows := by
  unfold pointRows
  split <;> omega

/-- The methods of a well-formed module may get further instructions. -/
theorem WellFormed.extend (hm : m.WellFormed) (h : List.Forall₂ (fun a b => Method.Extends b a) m.methods methods) :
    (m.withMethods methods).WellFormed := by
  have hlen : methods.length = m.methods.length := h.length_eq.symm
  have hmethods : (m.withMethods methods).methods = methods := methods_withMethods hlen
  have hinitializer : (m.withMethods methods).hasInitializer = m.hasInitializer :=
    hasInitializer_withMethods (h.imp fun a b hab => by rw [hab.rest]; rfl)
  refine ⟨hm.toReadable.withMethods hlen fun method hmethod => ?_, hm.documents, fun method hmethod => ?_,
    fun i method hmethod hi => ?_⟩
  · obtain ⟨old, hold, hextends⟩ := exists_of_mem_right h method hmethod
    exact hextends.readable (hm.methods old hold)
  · rw [hmethods] at hmethod
    obtain ⟨old, hold, hextends⟩ := exists_of_mem_right h method hmethod
    exact hextends.anchored (hm.anchored old hold)
  · rw [hmethods] at hmethod
    obtain ⟨old, hold, hextends⟩ := exists_getElem?_of_forall₂ h hmethod
    rw [hextends.points_eq]
    refine hm.rows i old hold ?_
    unfold pointRows at hi ⊢
    rwa [hinitializer] at hi

theorem Widened.wellFormed (h : m.Widened m') (hm : m.WellFormed) : m'.WellFormed := by
  rw [h.rest]
  exact hm.extend (forall₂_imp_mem h.methods fun method hmethod _ hwidened => hwidened.extends (hm.methods method hmethod))

end Module

end CilProbes
