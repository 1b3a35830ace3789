import CilProbes.Proofs.Body.Parsing
import CilProbes.Proofs.Code.Canonical

/-!
# Writing bodies that were read

A body that was read stays as it is when it is written. What is read then is the same body, but for a stack depth that a
tiny header has no room for (`MethodBody.Decoded.written_eq`), and that body is written in the same bytes again
(`MethodBody.Decoded.encode_settled`).
-/

namespace CilProbes

namespace InstructionStream

variable {s : InstructionStream} {data : List UInt8}

/-- Decoded code is what its stream is written as. -/
theorem encodedAs_of_decode (h : decode data = .ok s) : s.EncodedAs ⟨data, s.layout.starts⟩ := by
  obtain ⟨ds, hds⟩ := decode_decodedFrom h
  exact hds.encodedAs (parsed_of_decode h)

/-- The handles and the offsets of decoded code are those that it is read with again. -/
theorem written_of_decode (h : decode data = .ok s) : s.written = s := by
  have hwritten := (encodedAs_of_decode h).decode (parsed_of_decode h).wellFormed
  rw [h] at hwritten
  exact (Except.ok.inj hwritten).symm

theorem Parsed.place_eq (h : s.Parsed) {id : InstrId} (hid : id.index < s.arena.size) : s.place id = id := by
  refine h.wellFormed.place_eq (k := id.index) ?_
  rw [h.ids_eq, List.getElem?_map, List.getElem?_range hid]
  rfl

end InstructionStream

namespace MethodBody

/-- The body as it is read when it was read before and written; with a tiny header its stack depth is 8. -/
def settled (b : MethodBody) : MethodBody :=
  { b with maxStack := if b.hasTinyHeader then 8 else b.maxStack }

variable {b b' : MethodBody} {code : EncodedCode} {e : EncodedBody}

theorem Decoded.written_eq (h : b.Decoded) : b.written = b.settled := by
  obtain ⟨data, hdata⟩ := h.decoded
  have hclauses : b.clauses.map (ExceptionClause.mapReferences b.code.place) = b.clauses := by
    refine (List.map_congr_left fun c hc => ?_).trans (List.map_id _)
    rw [ExceptionClause.mapReferences_congr fun id hid => h.code.place_eq (h.inside c hc id hid)]
    exact c.mapReferences_id
  unfold written settled
  rw [InstructionStream.written_of_decode hdata, hclauses]

/-- The stack depth is not part of a tiny header, and in a fat one it is as it was. -/
theorem assemble_settled (hb : b.WellFormed) (hcode : b.code.EncodedAs code) :
    b.settled.assemble code = b.assemble code := by
  by_cases htiny : b.hasTinyHeader = true
  · have htiny' : b.settled.hasTinyHeader = true := by
      unfold settled
      rw [if_pos htiny]
      simp only [hasTinyHeader, Bool.and_eq_true] at htiny ⊢
      exact ⟨⟨⟨⟨htiny.1.1.1.1, rfl⟩, htiny.1.1.2⟩, htiny.1.2⟩, htiny.2⟩
    unfold assemble
    rw [show b.settled.clauses = b.clauses from rfl]
    cases hrecords : b.clauses.mapM (ExceptionClause.toRecord code) with
    | error fault => rfl
    | ok records =>
      have hlen := (forall₂_of_mapM hrecords).length_eq.symm
      have hsmall := (isTiny_eq hb.code hcode hlen).trans htiny
      have hsmall' := (isTiny_eq (b := b.settled) hb.code hcode hlen).trans htiny'
      exact Eq.trans (if_pos hsmall') (if_pos hsmall).symm
  · unfold settled
    rw [if_neg htiny]

/-- A body with decoded code stays as it is when it is written, and is put together around the code that was decoded. -/
theorem encode_eq_assemble {data : List UInt8} (h : InstructionStream.decode data = .ok b.code) : b.encode =
    match b.assemble ⟨data, b.code.layout.starts⟩ with
    | .ok e => .ok e b
    | .error fault => .error fault b := by
  have hstream := (InstructionStream.encodedAs_of_decode h).encode (InstructionStream.parsed_of_decode h).wellFormed
  unfold encode
  rw [hstream]
  rfl

/-- A body that was read is written as it is, and so is the body that is read then, in the same bytes. -/
theorem Decoded.encode_settled (h : b.Decoded) (hencode : b.encode = .ok e b') :
    b' = b ∧ b.settled.encode = .ok e b.settled := by
  obtain ⟨data, hdata⟩ := h.decoded
  have hassemble : b.settled.assemble ⟨data, b.settled.code.layout.starts⟩ =
      b.assemble ⟨data, b.code.layout.starts⟩ :=
    assemble_settled h.wellFormed (InstructionStream.encodedAs_of_decode hdata)
  rw [encode_eq_assemble hdata] at hencode
  rw [encode_eq_assemble (b := b.settled) hdata, hassemble]
  split at hencode
  · next bytes hbytes =>
    cases hencode
    exact ⟨rfl, rfl⟩
  · cases hencode

end MethodBody

end CilProbes
