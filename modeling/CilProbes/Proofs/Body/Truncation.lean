import CilProbes.Proofs.Body.RoundTrip
import CilProbes.Proofs.Bytes.Sized

/-!
# Cut-off bodies

A part of a written body is not read as a body, wherever it ends, with one exception. The header of the body announces a
section for the clauses, but the section is only looked at where four bytes are left for its own header. So a body that
is cut off behind its code and before the end of the section header is read, and has no clauses (`parse_take`).
-/

namespace CilProbes

/-! ## Sections -/

namespace ClauseSection

variable {records : List ClauseRecord} {bytes : List UInt8}

/-- Where not even the header of a section is left, there is no section. -/
theorem chain_of_length_lt (h : bytes.length < 4) : chain bytes = .ok [] := by
  rw [chain]
  intro kind b1 b2 b3 content hbytes
  rw [hbytes] at h
  simp only [List.length_cons] at h
  omega

/-- A section has as many bytes as its header says. -/
theorem chain_of_lt_size {kind b1 b2 b3 : UInt8} {content : List UInt8} (hkind : kind &&& Flags.clauseSection ≠ 0)
    (hsize : content.length + 4 < size (kind &&& Flags.fatSection != 0) b1 b2 b3) :
    chain (kind :: b1 :: b2 :: b3 :: content) = .error .outOfBounds := by
  have htake : (content.take (size (kind &&& Flags.fatSection != 0) b1 b2 b3 - 4)).length = content.length := by
    rw [List.length_take]
    omega
  rw [chain, if_neg hkind]
  dsimp only
  rw [htake, if_pos (.inr hsize)]

theorem four_le_length (h : encode records = .ok bytes) : 4 ≤ bytes.length := by
  obtain ⟨kind, b1, b2, b3, content, rfl, -⟩ := encode_ok h
  simp

/-- A section that is cut off is out of bounds, unless its header is cut off: then it is not seen. -/
theorem chain_take {n : Nat} (h : encode records = .ok bytes) (hn : n < bytes.length) :
    chain (bytes.take n) = if n < 4 then .ok [] else .error .outOfBounds := by
  split
  · next hshort =>
    apply chain_of_length_lt
    rw [List.length_take]
    omega
  · next hlong =>
    obtain ⟨kind, b1, b2, b3, content, rfl, hkind, -, hsize, -⟩ := encode_ok h
    obtain ⟨k, rfl⟩ : ∃ k, n = k + 4 := ⟨n - 4, by omega⟩
    apply chain_of_lt_size hkind
    rw [hsize]
    simp only [List.length_cons, List.length_take] at hn ⊢
    omega

end ClauseSection

namespace MethodBody

variable {b b' : MethodBody} {e : EncodedBody} {code : EncodedCode} {codeSize n : Nat} {hasClauses : Bool}

/-! ## Headers and code -/

theorem sized_readHeader : Reader.Sized readHeader headerSize := by
  have hdepth : Reader.Sized Reader.uint16 2 := (Reader.sized_word 2).bind_pure _
  have hfields : Reader.Sized readHeader (2 + (2 + (4 + (4 + 0)))) :=
    (Reader.sized_word 2).bind fun flags => hdepth.bind fun maxStack => (Reader.sized_word 4).bind fun codeSize =>
      Reader.sized_uint32.bind fun localSignature => .pure (flags, maxStack, codeSize, localSignature)
  exact hfields

/-- Without its last bytes, code behind a tiny header is shorter than the header says. -/
theorem parse_take_tiny {code : List UInt8} (hlt : code.length < 64) (hn : n < code.length + 1) :
    ∃ fault, parse (((UInt8.ofNat (code.length * 4) ||| Flags.tinyFormat.toUInt8) :: code).take n) = .error fault := by
  obtain ⟨hformat, hsize⟩ := tiny_header hlt
  cases n with
  | zero => exact ⟨_, rfl⟩
  | succ k =>
    refine ⟨.outOfBounds, ?_⟩
    rw [List.take_succ_cons]
    unfold parse
    dsimp only
    rw [if_pos hformat, hsize, if_pos]
    rw [List.length_take]
    omega

/-- A fat header cannot be cut off. -/
theorem parse_take_header (hn : n < headerSize) :
    ∃ fault, parse ((b.header codeSize hasClauses).take n) = .error fault := by
  cases n with
  | zero => exact ⟨_, rfl⟩
  | succ k =>
    obtain ⟨first, rest, hrest, hformat⟩ : ∃ first rest, b.header codeSize hasClauses = first :: rest ∧
        first &&& 3 = Flags.fatFormat.toUInt8 := ⟨_, _, rfl, (b.headerFlags_eq hasClauses).2.2.2⟩
    have hlen : (first :: rest.take k).length < headerSize := by
      rw [List.length_cons, List.length_take]
      omega
    obtain ⟨c, hshort⟩ := sized_readHeader.short (Cursor.start (first :: rest.take k)) hlen
    refine ⟨.outOfBounds, ?_⟩
    rw [hrest, List.take_succ_cons]
    unfold parse
    dsimp only
    rw [hformat, if_neg (by decide), if_pos rfl]
    unfold parseFat Reader.run
    rw [hshort]
    rfl

/-- Neither can the code behind a fat header. -/
theorem parse_take_code {tail : List UInt8} (hlimit : codeSize < wordLimit) (hn : n < headerSize + codeSize) :
    ∃ fault, parse ((b.header codeSize hasClauses ++ tail).take n) = .error fault := by
  have hlen := b.length_header codeSize hasClauses
  rcases Nat.lt_or_ge n headerSize with hheader | hcode
  · rw [List.take_append_of_le_length (hlen ▸ Nat.le_of_lt hheader)]
    exact parse_take_header hheader
  · refine ⟨.outOfBounds, ?_⟩
    have hshort : (tail.take (n - headerSize)).length < codeSize := by
      rw [List.length_take]
      omega
    rw [List.take_append, hlen, List.take_of_length_le (hlen ▸ hcode), parse_header_append b hasClauses _ hlimit,
      if_pos hshort]

/-! ## Sections behind the code -/

/-- Behind the code, the part of the section that is left decides. -/
theorem parse_take_section {code content : List UInt8} (hlimit : code.length < wordLimit)
    (hn : headerSize + code.length ≤ n) :
    parse ((b.header code.length true ++ (code ++ (Field.padding 4 (headerSize + code.length) ++ content))).take n) =
      InstructionStream.decode code >>= fun s =>
      ClauseSection.chain (content.take (n - ClauseSection.aligned (headerSize + code.length))) >>= fun records =>
      (records.mapM (ClauseRecord.resolve s.offsetTable code.length)).map fun clauses =>
        { b with code := s, clauses } := by
  obtain ⟨k, rfl⟩ : ∃ k, n = headerSize + (code.length + k) := ⟨n - (headerSize + code.length), by omega⟩
  have htake : (b.header code.length true ++ (code ++ (Field.padding 4 (headerSize + code.length) ++ content))).take
      (headerSize + (code.length + k)) = b.header code.length true ++
        (code ++ (Field.padding 4 (headerSize + code.length) ++ content).take k) := by
    rw [← b.length_header code.length true, List.take_length_add_append, List.take_length_add_append]
  have hdrop : ((Field.padding 4 (headerSize + code.length) ++ content).take k).drop (gap code.length) =
      content.take (headerSize + (code.length + k) - ClauseSection.aligned (headerSize + code.length)) := by
    rw [List.drop_take, ← length_padding, List.drop_left, aligned_eq, ← length_padding, Nat.add_sub_add_left,
      Nat.add_sub_add_left]
  have hlong : ¬ (code ++ (Field.padding 4 (headerSize + code.length) ++ content).take k).length < code.length := by
    rw [List.length_append]
    omega
  rw [htake, parse_header_append b true _ hlimit, if_neg hlong, List.take_left, ← List.drop_drop, List.drop_left,
    hdrop]
  rfl

/-- A body with a section is refused if its section is, and read without it if the header of the section is cut off. -/
theorem parse_take_full {code content : List UInt8} {records : List ClauseRecord} (hlimit : code.length < wordLimit)
    (hcontent : ClauseSection.encode records = .ok content)
    (hn : n < (b.header code.length true ++
      (code ++ (Field.padding 4 (headerSize + code.length) ++ content))).length) :
    if headerSize + code.length ≤ n ∧ n < ClauseSection.aligned (headerSize + code.length) + 4 then
      parse ((b.header code.length true ++ (code ++ (Field.padding 4 (headerSize + code.length) ++ content))).take n) =
        (InstructionStream.decode code).map fun s => { b with code := s, clauses := [] }
    else ∃ fault, parse ((b.header code.length true ++
      (code ++ (Field.padding 4 (headerSize + code.length) ++ content))).take n) = .error fault := by
  rcases Nat.lt_or_ge n (headerSize + code.length) with hcode | hsection
  · rw [if_neg fun hcut => Nat.not_lt.mpr hcut.1 hcode]
    exact parse_take_code hlimit hcode
  · have hleft : n - ClauseSection.aligned (headerSize + code.length) < content.length := by
      rw [List.length_append, List.length_append, List.length_append, length_header, length_padding] at hn
      rw [aligned_eq]
      have := ClauseSection.four_le_length hcontent
      omega
    rw [parse_take_section hlimit hsection, ClauseSection.chain_take hcontent hleft]
    split
    · next hcut =>
      rw [if_pos (by omega)]
      cases InstructionStream.decode code <;> rfl
    · next hcut =>
      rw [if_neg fun hlt => hcut ⟨hsection, by omega⟩]
      cases InstructionStream.decode code <;> exact ⟨_, rfl⟩

/-! ## Bodies -/

/-- Five bytes of code, of which three are guarded by a `finally` clause. -/
def finallyBody : List UInt8 :=
  [0x0B, 0x30, 8, 0, 5, 0, 0, 0, 0, 0, 0, 0, 0x00, 0xDE, 1, 0xDC, 0x2A, 0, 0, 0, 1, 16, 0, 0, 2, 0, 0, 0, 3, 3, 0, 1,
    0, 0, 0, 0]

/-- The code of a body that was put together cannot be cut off; its clauses can. -/
theorem parse_take_assemble (h : b.assemble code = .ok e) (hn : n < e.bytes.length) :
    if b.clauses ≠ [] ∧ headerSize + code.code.length ≤ n ∧
        n < ClauseSection.aligned (headerSize + code.code.length) + 4 then
      parse (e.bytes.take n) = (InstructionStream.decode code.code).map fun s => { b with code := s, clauses := [] }
    else ∃ fault, parse (e.bytes.take n) = .error fault := by
  obtain ⟨records, hrecords, hbytes, -⟩ := assemble_ok h
  have hempty : b.clauses = [] ↔ records = [] := by
    rw [← List.length_eq_zero_iff, (forall₂_of_mapM hrecords).length_eq, List.length_eq_zero_iff]
  generalize e.bytes = bytes at hbytes hn ⊢
  cases hbytes with
  | tiny hsmall =>
    rw [if_neg fun hcut => hcut.1 (hempty.mpr rfl)]
    exact parse_take_tiny (length_of_isTiny hsmall) hn
  | bare hlarge hlimit =>
    rw [if_neg fun hcut => hcut.1 (hempty.mpr rfl)]
    rw [List.length_append, List.append_nil, length_header] at hn
    exact parse_take_code hlimit hn
  | full content hlarge hlimit hfull hcontent =>
    simp only [ne_eq, mt hempty.mp hfull, not_false_eq_true, true_and]
    exact parse_take_full hlimit hcontent hn

/--
A part of a written body is refused, or it is read as the code alone: that is where it ends behind the code, and before
the end of the header of the section that holds the clauses.
-/
theorem parse_take (h : b.encode = .ok e b') (hn : n < e.bytes.length) :
    ∃ code stream, InstructionStream.encode b.code = .ok code stream ∧
      if b.clauses ≠ [] ∧ headerSize + code.code.length ≤ n ∧
          n < ClauseSection.aligned (headerSize + code.code.length) + 4 then
        parse (e.bytes.take n) = (InstructionStream.decode code.code).map fun s => { b with code := s, clauses := [] }
      else ∃ fault, parse (e.bytes.take n) = .error fault := by
  obtain ⟨code, stream, hcode, -, hassemble⟩ := encode_steps h
  exact ⟨code, stream, hcode, parse_take_assemble hassemble hn⟩

/-- Cut off in its section, the body is refused. -/
theorem parse_take_finally_section : ∃ (b : MethodBody) (e : EncodedBody) (b' : MethodBody), b.encode = .ok e b' ∧
    e.bytes = finallyBody ∧ 24 < e.bytes.length ∧ ∃ fault, parse (e.bytes.take 24) = .error fault := by
  obtain ⟨b, -, e, b', he, hbytes, hlen, hcode⟩ : ∃ b, parse finallyBody = .ok b ∧ ∃ e b', b.encode = .ok e b' ∧
      e.bytes = finallyBody ∧ 24 < e.bytes.length ∧
      ∃ code stream, InstructionStream.encode b.code = .ok code stream ∧ code.code.length = 5 := by
    decide +kernel
  obtain ⟨code, stream, hencode, hlength⟩ := hcode
  obtain ⟨code', stream', hencode', hcut⟩ := parse_take he hlen
  cases hencode.symm.trans hencode'
  refine ⟨b, e, b', he, hbytes, hlen, ?_⟩
  rwa [hlength, if_neg fun hbefore => absurd hbefore.2 (by decide)] at hcut

/-- Cut off before its section, it is read, and has lost its clause. -/
theorem parse_take_finally_code : ∃ (b : MethodBody) (e : EncodedBody) (b' : MethodBody),
    parse finallyBody = .ok b ∧ b.encode = .ok e b' ∧ e.bytes = finallyBody ∧ 17 < e.bytes.length ∧
      b.clauses.length = 1 ∧ parse (e.bytes.take 17) = .ok { b with clauses := [] } := by
  obtain ⟨b, hb, e, b', he, hbytes, hlen, hclauses, c, hc, rfl⟩ : ∃ b, parse finallyBody = .ok b ∧
      ∃ e b', b.encode = .ok e b' ∧ e.bytes = finallyBody ∧ 17 < e.bytes.length ∧ b.clauses.length = 1 ∧
      ∃ c, parse (e.bytes.take 17) = .ok c ∧ c = { b with clauses := [] } := by
    decide +kernel
  exact ⟨b, e, b', hb, he, hbytes, hlen, hclauses, hc⟩

end MethodBody

end CilProbes
