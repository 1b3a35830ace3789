import CilProbes.Module.Debug
import CilProbes.Proofs.Machine.Image
import CilProbes.Proofs.Machine.Symbols

/-!
# Loading in range

A symbol file is attached to a module as a machine does it, and with that all that is done when files of unknown origin
are loaded: reading the image, reading the symbol file and attaching it. None of it leaves the range of the machine
(`loading_in_range`).
-/

namespace CilProbes.Machine

variable {σ α β : Type}

/-- An operation on a value that has no outcome where it leaves the range of the machine. -/
abbrev CheckedEdit (σ : Type) := OptionT (Edit σ)

/-- A computation with machine words. -/
def compute (o : Option α) : CheckedEdit σ α :=
  OptionT.mk (pure o)

/-- The operation stays in range and does what `e` does. -/
def Does (m : CheckedEdit σ α) (e : Edit σ α) : Prop :=
  m.run = some <$> e

/-! ## Attaching -/

/-- The index of the method that a token stands for; row 0 stands for none. -/
def methodIndex (t : Token) : Option (Option Nat) := do
  let table ← shiftRight 32 t.value.toNat 24
  let row := t.value.toNat &&& 0xFFFFFF
  if UInt8.ofNat table = Table.methodDef.code ∧ row ≠ 0 then return some (← sub row 1) else return none

/-- The points that a record gives a method with the given instructions, in a file with `documents` documents. -/
def anchored (documents : Nat) (method : String) (table : OffsetTable) (points : List OffsetPoint) :
    CheckedEdit (Logged σ) (List SequencePoint) := do
  let known := points.takeWhile fun p => p.span.document.toNat < documents
  (DebugTarget.reportLoose method table known : Edit (Logged σ) Unit)
  match points.drop known.length with
  | p :: _ =>
    let _ ← compute (add sizeBits p.span.document.toNat 1)
    (throw (.malformed (.pointDocument method p.span.document)) : Edit (Logged σ) (List SequencePoint))
  | [] => return Method.anchor table points

/-- Attaches a record of a symbol file with `documents` documents to the methods of a module. -/
def attachRecord (documents : Nat) (r : MethodRecord) : CheckedEdit (Logged (Array DebugTarget)) Unit := do
  match ← compute (methodIndex r.token) with
  | none => (Edit.log (.unknownMethod r.token) : Edit (Logged (Array DebugTarget)) Unit)
  | some index =>
    match (← get).value[index]? with
    | none => (Edit.log (.unknownMethod r.token) : Edit (Logged (Array DebugTarget)) Unit)
    | some target =>
      match target.table with
      | none => (Edit.log (.methodWithoutBody target.method.name) : Edit (Logged (Array DebugTarget)) Unit)
      | some table =>
        let points ← anchored documents target.method.name table.get r.points
        modify fun s => { s with value := s.value.setIfInBounds index (target.withPoints points) }

/-- Attaches a symbol file: the points of its records, and then its documents. -/
def attach (symbols : SymbolFile) : CheckedEdit (Logged Module) Unit := do
  OptionT.mk (Module.onTargets (symbols.methods.forM (attachRecord symbols.documents.length)).run)
  modify fun s => { s with value := { s.value with documents := some symbols.documents } }

/-! ## Staying in range -/

namespace Does

variable {m : CheckedEdit σ α} {e : Edit σ α} {f : α → CheckedEdit σ β} {g : α → Edit σ β}

theorem bind (h : Does m e) (hf : ∀ a, Does (f a) (g a)) : Does (m >>= f) (e >>= g) := by
  show (m.run >>= fun
    | some a => (f a).run
    | none => Pure.pure none) = some <$> (e >>= g)
  rw [show m.run = some <$> e from h]
  simp only [map_eq_pure_bind, bind_assoc, pure_bind]
  refine bind_congr fun a => ?_
  rw [show (f a).run = some <$> g a from hf a, map_eq_pure_bind]

theorem lift (e : Edit σ α) : Does (liftM e : CheckedEdit σ α) e :=
  (map_eq_pure_bind some e).symm

theorem pure (a : α) : Does (Pure.pure a : CheckedEdit σ α) (Pure.pure a) :=
  rfl

theorem compute_bind {o : Option α} {a : α} {e : Edit σ β} (h : o = some a) (hf : Does (f a) e) :
    Does (compute o >>= f) e := by
  subst h
  exact hf

theorem forM {f : β → CheckedEdit σ Unit} {g : β → Edit σ Unit} {bs : List β} (h : ∀ b ∈ bs, Does (f b) (g b)) :
    Does (bs.forM f) (bs.forM g) := by
  induction bs with
  | nil => exact pure ()
  | cons b bs ih => exact (h b List.mem_cons_self).bind fun _ => ih fun x hx => h x (List.mem_cons_of_mem b hx)

end Does

theorem methodIndex_eq (t : Token) : methodIndex t = some (t.index? .methodDef) := by
  have hrow : t.value.toNat &&& 0xFFFFFF = t.row.toNat := by
    have hlt := t.value.toNat_lt
    rw [Nat.and_two_pow_sub_one_eq_mod t.value.toNat 24, Token.row, UInt32.toNat_ofNat']
    omega
  have hzero : t.row.toNat ≠ 0 ↔ t.row ≠ 0 := not_congr (UInt32.toNat_inj (b := 0))
  unfold methodIndex Token.index?
  rw [shiftRight_eq (by decide)]
  show (if t.table = Table.methodDef.code ∧ t.value.toNat &&& 0xFFFFFF ≠ 0 then _ else _) = _
  rw [hrow]
  by_cases h : t.table = Table.methodDef.code ∧ t.row ≠ 0
  · rw [if_pos ⟨h.1, hzero.mpr h.2⟩, if_pos h, sub_eq (Nat.one_le_iff_ne_zero.mpr (hzero.mpr h.2))]
    rfl
  · rw [if_neg fun h' => h ⟨h'.1, hzero.mp h'.2⟩, if_neg h]
    rfl

/-- An operation on a part. -/
theorem Does.onPart {τ : Type} {m : CheckedEdit τ α} {e : Edit τ α} (h : Does m e) (get : σ → τ) (put : σ → τ → σ) :
    Does (OptionT.mk (Edit.onPart get put m.run)) (Edit.onPart get put e) := by
  show Edit.onPart get put m.run = some <$> Edit.onPart get put e
  rw [show m.run = some <$> e from h]
  funext s
  show Edit.onPart get put (EStateM.map some e) s = EStateM.map some (Edit.onPart get put e) s
  unfold Edit.onPart EStateM.map
  dsimp only
  cases e (get s) <;> rfl

theorem does_anchored {documents : Nat} {points : List OffsetPoint} (hpoints : ∀ p ∈ points, p.span.document.toNat < dataLimit)
    (method : String) (table : OffsetTable) : Does (anchored documents method table points : CheckedEdit (Logged σ) _)
      (DebugTarget.anchored documents method table points) := by
  refine (Does.lift _).bind fun _ => ?_
  cases hrest : points.drop (points.takeWhile fun p => decide (p.span.document.toNat < documents)).length with
  | nil => exact .pure _
  | cons p rest =>
    have hp : p ∈ points := List.mem_of_mem_drop (hrest ▸ List.mem_cons_self)
    have hnumber : add sizeBits p.span.document.toNat 1 = some (p.span.document.toNat + 1) :=
      add_eq (Nat.lt_of_le_of_lt (hpoints p hp) (by decide))
    exact .compute_bind hnumber (.lift _)

theorem does_attachRecord (documents : Nat) {r : MethodRecord} (hpoints : ∀ p ∈ r.points, p.span.document.toNat < dataLimit) :
    Does (attachRecord documents r) (DebugTarget.attachRecord documents r) := by
  refine .compute_bind (methodIndex_eq r.token) ?_
  unfold DebugTarget.attachRecord
  cases r.token.index? .methodDef with
  | none => exact .lift _
  | some index =>
    refine (Does.lift get).bind fun s => ?_
    cases s.value[index]? with
    | none => exact .lift _
    | some target =>
      dsimp only
      cases target.table with
      | none => exact .lift _
      | some table => exact (does_anchored hpoints target.method.name table.get).bind fun points => .lift _

theorem does_attach {symbols : SymbolFile}
    (hpoints : ∀ r ∈ symbols.methods, ∀ p ∈ r.points, p.span.document.toNat < dataLimit) :
    Does (attach symbols) (Module.attach symbols) := by
  have hrecords : Does (symbols.methods.forM (attachRecord symbols.documents.length))
      (symbols.methods.forM (DebugTarget.attachRecord symbols.documents.length)) :=
    .forM fun r hr => does_attachRecord _ (hpoints r hr)
  exact (hrecords.onPart _ _).bind fun _ => .lift _

/-- **Loading stays in range**: whatever the bytes of an image and of a symbol file are, reading either of them ends with a
value or a fault, and so does attaching the file that was read to any module. On the way no sum, difference, product or
negation leaves its word, no shift is as wide as its word, nothing is cut out of the data where it is not, every section
and every record lies behind the one before, and no type lies deeper than the nesting limit. The outcome is the one of
`Module.parse`, `SymbolFile.parse` and `Module.attach`. -/
theorem loading_in_range {imageData symbolData : List UInt8} (himage : imageData.length < dataLimit)
    (hsymbols : symbolData.length < dataLimit) :
    (parseImage imageData).run = some (Module.parse imageData) ∧
      (parseSymbols symbolData).run = some (SymbolFile.parse symbolData) ∧
      ∀ symbols, SymbolFile.parse symbolData = .ok symbols → ∀ s,
        (attach symbols).run s = (some <$> Module.attach symbols) s :=
  ⟨run_parseImage himage, run_parseSymbols hsymbols, fun _ hparse s =>
    congrFun (does_attach (document_lt_of_symbols hparse)) s⟩

/-- An image of one method, which has a branch backwards and a `finally` clause. -/
def branchImage : List UInt8 :=
  [0x43, 0x49, 0x4C, 0x4D, 1, 0, 0, 0, 1, 0x6D, 0, 0, 0, 1, 0, 0, 0, 0, 0, 1, 0x54, 1, 0, 0, 0, 0, 1, 0x66, 0,
    1, 32, 0x0B, 0x30, 8, 0, 4, 0, 0, 0, 0, 0, 0, 0, 0x00, 0x2B, 0xFD, 0x2A,
    1, 16, 0, 0, 2, 0, 0, 0, 1, 1, 0, 2, 0, 0, 0, 0, 0]

/-- Its symbols, with two points. -/
def branchSymbols : List UInt8 :=
  [0x43, 0x50, 0x44, 0x42, 1, 0, 1, 1, 0x61, 1, 1, 0, 0, 6, 11, 1, 0, 0, 1, 5, 2, 3, 1, 0, 2, 0]

theorem loading_in_range_branch : ∃ m symbols t, (parseImage branchImage).run = some (.ok m) ∧
    (parseSymbols branchSymbols).run = some (.ok symbols) ∧ (attach symbols).run ⟨m, #[]⟩ = .ok (some ()) t ∧
    (t.value.methods.map fun f : Method => (f.body.map fun b => b.clauses.length, f.points.length)) = [(some 1, 2)] := by
  have hrun : (match Module.parse branchImage, SymbolFile.parse branchSymbols with
      | .ok m, .ok symbols =>
        match Module.attach symbols ⟨m, #[]⟩ with
        | .ok _ t => decide ((t.value.methods.map fun f : Method =>
          (f.body.map fun b => b.clauses.length, f.points.length)) = [(some 1, 2)])
        | .error _ _ => false
      | _, _ => false) = true := by decide +kernel
  obtain ⟨himage, hsymbols, hattach⟩ :=
    @loading_in_range branchImage branchSymbols (by decide +kernel) (by decide +kernel)
  split at hrun
  · next m symbols hm hs =>
    split at hrun
    · next t ht =>
      refine ⟨m, symbols, t, himage.trans (congrArg some hm), hsymbols.trans (congrArg some hs), ?_, of_decide_eq_true hrun⟩
      rw [hattach symbols hs]
      show EStateM.map some (Module.attach symbols) _ = _
      unfold EStateM.map
      rw [ht]
    · cases hrun
  · cases hrun

end CilProbes.Machine
