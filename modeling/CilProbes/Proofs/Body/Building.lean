import CilProbes.Proofs.Body.RoundTrip
import CilProbes.Proofs.Code.Building

/-!
# Built bodies

A body whose stream was built by adding instructions, with clauses that are well formed, survives being written: it is
read as the same body, handle by place (`Built.parse_of_encode`). A tiny header has no room for the stack depth, which
then reads 8 and was no more.
-/

namespace CilProbes

/-- The same clause, up to what the instructions are called that it refers to. -/
structure ExceptionClause.Agrees (R : InstrId → InstrId → Prop) (c c' : ExceptionClause) : Prop where
  kind : c'.kind = c.kind
  classToken : c'.classToken = c.classToken
  tryStart : R c.tryStart c'.tryStart
  tryEnd : Option.Rel R c.tryEnd c'.tryEnd
  handlerStart : R c.handlerStart c'.handlerStart
  handlerEnd : Option.Rel R c.handlerEnd c'.handlerEnd
  filterStart : Option.Rel R c.filterStart c'.filterStart

theorem optionRel_map {α β : Type} {R : α → β → Prop} {f : α → β} {o : Option α} (h : ∀ a, o = some a → R a (f a)) :
    Option.Rel R o (o.map f) := by
  cases o with
  | none => exact .none
  | some a => exact .some (h a rfl)

theorem ExceptionClause.agrees_mapReferences {R : InstrId → InstrId → Prop} {f : InstrId → InstrId}
    {c : ExceptionClause} (h : ∀ id ∈ c.references, R id (f id)) : c.Agrees R (c.mapReferences f) := by
  simp only [mem_references] at h
  exact ⟨rfl, rfl, h _ (.inr (.inl rfl)), optionRel_map fun id hid => h id (.inr (.inr (.inl hid))),
    h _ (.inr (.inr (.inr (.inl rfl)))), optionRel_map fun id hid => h id (.inr (.inr (.inr (.inr hid)))),
    optionRel_map fun id hid => h id (.inl hid)⟩

/-- The body was written with a tiny header. -/
def EncodedBody.isTiny (e : EncodedBody) : Bool :=
  match e.bytes with
  | first :: _ => first &&& 3 == Flags.tinyFormat.toUInt8
  | [] => false

namespace MethodBody

/-- The code is a built stream, and the clauses have filters and types as their kinds say. -/
structure Built (b : MethodBody) : Prop where
  code : b.code.Built
  clauses : ∀ c ∈ b.clauses, c.WellFormed

variable {b b' : MethodBody} {e : EncodedBody} {code : EncodedCode}

theorem Built.wellFormed (hb : b.Built) : b.WellFormed :=
  ⟨hb.code.wellFormed, hb.clauses⟩

theorem isTiny_header (b : MethodBody) (codeSize : Nat) (hasClauses : Bool) (tail : List UInt8) (starts : StartTable) :
    (EncodedBody.mk (b.header codeSize hasClauses ++ tail) starts).isTiny = false := by
  have hformat := (b.headerFlags_eq hasClauses).2.2.2
  show (UInt8.ofNat (b.headerFlags hasClauses).toNat &&& 3 == Flags.tinyFormat.toUInt8) = false
  rw [hformat]
  decide

theorem isTiny_assemble (hb : b.WellFormed) (hc : b.code.EncodedAs code) (h : b.assemble code = .ok e) :
    e.isTiny = b.hasTinyHeader := by
  obtain ⟨records, hrecords, hbytes, -⟩ := assemble_ok h
  rw [← isTiny_eq hb.code hc (forall₂_of_mapM hrecords).length_eq.symm]
  obtain ⟨bytes, starts⟩ := e
  cases hbytes with
  | tiny hsmall =>
    rw [hsmall]
    exact beq_iff_eq.mpr (tiny_header (length_of_isTiny hsmall)).1
  | bare hlarge hlimit =>
    rw [hlarge]
    exact isTiny_header ..
  | full content hlarge hlimit hfull hcontent =>
    rw [hlarge]
    exact isTiny_header ..

theorem maxStack_le_of_hasTinyHeader (h : b.hasTinyHeader = true) : b.maxStack ≤ 8 := by
  simp only [hasTinyHeader, Bool.and_eq_true, decide_eq_true_eq] at h
  exact h.1.1.1.2

/-- The instructions that a clause of a written body refers to are there. -/
theorem references_of_toRecord {t : InstructionStream} {c : ExceptionClause} {r : ClauseRecord} (hc : t.EncodedAs code)
    (ht : t.WellFormed) (hwf : c.WellFormed) (h : c.toRecord code = .ok r) : ∀ id ∈ c.references, id ∈ t.ids := by
  have hplaced {id : InstrId} {offset : Nat} (h : ExceptionClause.offsetIn code (some id) = .ok offset) : id ∈ t.ids :=
    ((hc.starts_eq_some ht).mp (offsetIn_ok h)).1
  obtain ⟨tryStart, hTryStart, h⟩ := bind_ok.mp h
  obtain ⟨tryEnd, hTryEnd, h⟩ := bind_ok.mp h
  obtain ⟨handlerStart, hHandlerStart, h⟩ := bind_ok.mp h
  obtain ⟨handlerEnd, hHandlerEnd, h⟩ := bind_ok.mp h
  intro id hid
  rcases ExceptionClause.mem_references.mp hid with hid | rfl | hid | rfl | hid
  · have hkind : c.kind.filter = true := by rw [← hwf.filter, hid]; rfl
    dsimp only at h
    split at h
    · cases h
    · rw [hid] at h
      dsimp only at h
      obtain ⟨word, hword, -⟩ := bind_ok.mp h
      obtain ⟨_, hFilterStart, -⟩ := map_ok.mp hword
      exact hplaced hFilterStart
  · exact hplaced hTryStart
  · rw [hid] at hTryEnd
    exact hplaced hTryEnd
  · exact hplaced hHandlerStart
  · rw [hid] at hHandlerEnd
    exact hplaced hHandlerEnd

/-- A built body that is written is read as the same body, handle by place. -/
theorem Built.parse_of_encode (hb : b.Built) (h : b.encode = .ok e b') :
    b.Widened b' ∧ ∃ r, parse e.bytes = .ok r ∧
      r.initLocals = b.initLocals ∧ r.localSignature = b.localSignature ∧ b'.code.SameProgram r.code ∧
      List.Forall₂ (ExceptionClause.Agrees (b'.code.SamePlace r.code)) b.clauses r.clauses ∧
      (∀ x, (e.starts.get? x).isSome ↔ x ∈ b'.code.ids) ∧
      (∀ x y, b'.code.SamePlace r.code x y →
        (r.code.get? y).bind (fun j => j.offset.map UInt32.toNat) = e.starts.get? x) ∧
      if e.isTiny then r.maxStack = 8 ∧ b.maxStack ≤ 8 else r.maxStack = b.maxStack := by
  have hwf := hb.wellFormed
  unfold encode at h
  split at h
  · cases h
  · next code stream hcode =>
    obtain ⟨hw, hc⟩ := InstructionStream.encode_ok hwf.code hcode
    have hwidened : b.Widened (b.withCode stream) := ⟨hw, rfl⟩
    have hwf' := hwidened.wellFormed hwf
    split at h
    · next bytes hbytes =>
      cases h
      obtain ⟨hparse, hstarts⟩ := parse_assemble hwf' hc hbytes
      have htiny := isTiny_assemble hwf' hc hbytes
      have ht := hwf'.code
      refine ⟨hwidened, _, hparse, rfl, rfl, InstructionStream.sameProgram_written ht (hc.inside ht), ?_, ?_, ?_, ?_⟩
      · obtain ⟨records, hrecords, -⟩ := bind_ok.mp hbytes
        have hall := forall₂_of_mapM hrecords
        show List.Forall₂ _ b.clauses (b.clauses.map _)
        rw [List.forall₂_map_right_iff]
        refine List.forall₂_same.mpr fun c hmem => ExceptionClause.agrees_mapReferences fun id hid => ?_
        obtain ⟨r, -, hr⟩ := exists_of_mem_right hall.flip c hmem
        exact InstructionStream.samePlace_written ht (references_of_toRecord hc ht (hb.clauses c hmem) hr id hid)
      · intro x
        rw [hstarts]
        exact (hc.exactStarts ht).placed x
      · intro x y hxy
        rw [hstarts]
        exact hc.offset_written ht hxy
      · rw [htiny]
        split
        · next hsmall =>
          have hdepth : (b.withCode stream).maxStack ≤ 8 := maxStack_le_of_hasTinyHeader hsmall
          exact ⟨if_pos hsmall, hdepth⟩
        · next hlarge => exact if_neg hlarge
    · cases h

/-- Two instructions with a clause that catches by type and one with a filter; the handler of the first is open. -/
theorem parse_of_encode_clauses : ∃ b e b' r, Built b ∧ b.clauses.length = 2 ∧ b.encode = .ok e b' ∧
    parse e.bytes = .ok r ∧ b'.code.SameProgram r.code ∧
    List.Forall₂ (ExceptionClause.Agrees (b'.code.SamePlace r.code)) b.clauses r.clauses := by
  let typed : ExceptionClause := ⟨{}, ⟨0⟩, some ⟨1⟩, ⟨1⟩, none, none, ⟨0x01000001⟩⟩
  let filtered : ExceptionClause := ⟨{ filter := true }, ⟨0⟩, some ⟨1⟩, ⟨0⟩, some ⟨1⟩, some ⟨1⟩, ⟨0⟩⟩
  obtain ⟨nop, hnop, ret, hret, e, b', he, -⟩ :
      ∃ nop, Instruction.make 0 0x00 .none = .ok nop ∧ ∃ ret, Instruction.make 0 0x2A .none = .ok ret ∧
      ∃ e b', encode { maxStack := 1, code := (InstructionStream.push {} nop).push ret, clauses := [typed, filtered] } =
        .ok e b' ∧ True := by
    decide +kernel
  have hbuilt : Built { maxStack := 1, code := (InstructionStream.push {} nop).push ret, clauses := [typed, filtered] } :=
    ⟨.push (.push .empty hnop) hret,
      List.forall_mem_cons.mpr ⟨⟨rfl, fun h => (by cases h)⟩, List.forall_mem_singleton.mpr ⟨rfl, fun _ => rfl⟩⟩⟩
  obtain ⟨-, r, hr, -, -, hsame, hclauses, -⟩ := hbuilt.parse_of_encode he
  exact ⟨_, e, b', r, hbuilt, rfl, he, hr, hsame, hclauses⟩

end MethodBody

end CilProbes
