import CilProbes.Proofs.Body.RoundTrip
import CilProbes.Proofs.Bytes.Taken

/-!
# What parsing a body gives

A parsed body is well formed, its branches and clauses refer to its own instructions, and its instructions are those of
the code that was read (`decoded_of_parse`).
-/

namespace CilProbes

/-- What parsing gives: decoded code, and well-formed clauses that refer to it. -/
structure MethodBody.Parsed (b : MethodBody) : Prop where
  code : b.code.Parsed
  clauses : ∀ c ∈ b.clauses, c.WellFormed
  inside : ∀ c ∈ b.clauses, ∀ id ∈ c.references, id.index < b.code.arena.size

/-- A parsed body; its instructions lie where they were read. -/
structure MethodBody.Decoded (b : MethodBody) : Prop extends b.Parsed where
  decoded : ∃ data, InstructionStream.decode data = .ok b.code

theorem MethodBody.Parsed.wellFormed {b : MethodBody} (h : b.Parsed) : b.WellFormed :=
  ⟨h.code.wellFormed, h.clauses⟩

section Clauses

variable {s : InstructionStream} {c : ExceptionClause} {r : ClauseRecord} {codeSize : Nat}

theorem index_lt_of_startOf {offset : UInt32} {id : InstrId}
    (h : ClauseRecord.startOf s.offsetTable offset = .ok id) : id.index < s.arena.size := by
  unfold ClauseRecord.startOf at h
  split at h
  · next found hfound =>
    cases h
    obtain ⟨i, hi, _⟩ := InstructionStream.offsetTable_sound hfound
    exact (InstructionStream.get?_eq_some.mp (InstructionStream.mem_entries.mp hi).2).1
  · cases h

theorem index_lt_of_endOf {offset length : UInt32} {id : Option InstrId}
    (h : ClauseRecord.endOf s.offsetTable codeSize offset length = .ok id) :
    ∀ x, id = some x → x.index < s.arena.size := by
  unfold ClauseRecord.endOf at h
  dsimp only at h
  split at h
  · cases h
  · split at h
    · cases h
      exact fun _ hx => absurd hx (by simp)
    · obtain ⟨found, hfound, rfl⟩ := map_ok.mp h
      intro x hx
      cases hx
      exact index_lt_of_startOf hfound

/-- A record stands for a well-formed clause that refers to the instructions of the body. -/
theorem clause_of_resolve (h : r.resolve s.offsetTable codeSize = .ok c) :
    c.WellFormed ∧ ∀ id ∈ c.references, id.index < s.arena.size := by
  obtain ⟨tryStart, hTryStart, h⟩ := bind_ok.mp h
  obtain ⟨tryEnd, hTryEnd, h⟩ := bind_ok.mp h
  obtain ⟨handlerStart, hHandlerStart, h⟩ := bind_ok.mp h
  obtain ⟨handlerEnd, hHandlerEnd, h⟩ := bind_ok.mp h
  have hinside {x : InstrId} (hx : tryStart = x ∨ tryEnd = some x ∨ handlerStart = x ∨ handlerEnd = some x) :
      x.index < s.arena.size := by
    rcases hx with rfl | hx | rfl | hx
    · exact index_lt_of_startOf hTryStart
    · exact index_lt_of_endOf hTryEnd x hx
    · exact index_lt_of_startOf hHandlerStart
    · exact index_lt_of_endOf hHandlerEnd x hx
  dsimp only at h
  split at h
  · next hkind =>
    obtain ⟨filter, hfilter, h⟩ := bind_ok.mp h
    obtain ⟨filterStart, hFilterStart, rfl⟩ := map_ok.mp hfilter
    cases h
    refine ⟨⟨hkind.symm, fun huntyped => ?_⟩, fun x hx => ?_⟩
    · have huntyped : r.kind.isTyped = false := huntyped
      rw [huntyped]
      rfl
    · rcases ExceptionClause.mem_references.mp hx with hx | hx
      · cases hx
        exact index_lt_of_startOf hFilterStart
      · exact hinside hx
  · next hkind =>
    cases h
    refine ⟨⟨(Bool.eq_false_iff.mpr hkind).symm, fun huntyped => ?_⟩, fun x hx => ?_⟩
    · have huntyped : r.kind.isTyped = false := huntyped
      rw [huntyped]
      rfl
    · rcases ExceptionClause.mem_references.mp hx with hx | hx
      · cases hx
      · exact hinside hx

end Clauses

namespace MethodBody

/-- A body as it is read from code, whose size has a header field, and from records of clauses for that code. -/
structure ReadFrom (b : MethodBody) (bytes : List UInt8) (records : List ClauseRecord) : Prop where
  limit : bytes.length < wordLimit
  code : InstructionStream.decode bytes = .ok b.code
  clauses : records.mapM (ClauseRecord.resolve b.code.offsetTable bytes.length) = .ok b.clauses

theorem codeSize_of_readHeader {data : List UInt8} {flags codeSize : Nat} {maxStack : UInt16} {localSignature : UInt32}
    (h : Reader.run readHeader data = .ok (flags, maxStack, codeSize, localSignature)) : codeSize < wordLimit := by
  obtain ⟨c, h⟩ := Reader.run_ok h
  obtain ⟨_, _, _, h⟩ := edit_bind_ok.mp h
  obtain ⟨_, _, _, h⟩ := edit_bind_ok.mp h
  obtain ⟨size, _, hsize, h⟩ := edit_bind_ok.mp h
  obtain ⟨_, _, _, h⟩ := edit_bind_ok.mp h
  cases h
  exact (Reader.word_took hsize).1

theorem readFrom_of_parseFat {data : List UInt8} {b : MethodBody} (h : parseFat data = .ok b) :
    ∃ bytes records, b.ReadFrom bytes records := by
  obtain ⟨⟨flags, maxStack, codeSize, localSignature⟩, hheader, h⟩ := bind_ok.mp h
  have hlimit := codeSize_of_readHeader hheader
  dsimp only at h
  split at h
  · cases h
  · next hlong =>
    have hlen : ((data.drop (flags / 0x1000 * 4)).take codeSize).length = codeSize := by
      rw [List.length_take, List.length_drop]
      omega
    obtain ⟨code, hcode, h⟩ := bind_ok.mp h
    split at h
    all_goals
      obtain ⟨records, -, h⟩ := bind_ok.mp h
      obtain ⟨clauses, hclauses, h⟩ := bind_ok.mp h
      cases h
      exact ⟨_, records, by rwa [hlen], hcode, by rwa [hlen]⟩

theorem readFrom_of_parse {data : List UInt8} {b : MethodBody} (h : parse data = .ok b) :
    ∃ bytes records, b.ReadFrom bytes records := by
  unfold parse at h
  split at h
  · cases h
  · next first rest =>
    dsimp only at h
    split at h
    · split at h
      · cases h
      · obtain ⟨code, hcode, rfl⟩ := map_ok.mp h
        refine ⟨_, [], ?_, hcode, rfl⟩
        have hfirst := (first / 4).toNat_lt
        rw [List.length_take]
        unfold wordLimit
        omega
    · split at h
      · exact readFrom_of_parseFat h
      · cases h

theorem decoded_of_parse {data : List UInt8} {b : MethodBody} (h : parse data = .ok b) : b.Decoded := by
  obtain ⟨bytes, records, hb⟩ := readFrom_of_parse h
  have hresolved : ∀ c ∈ b.clauses, c.WellFormed ∧ ∀ id ∈ c.references, id.index < b.code.arena.size := by
    intro c hc
    obtain ⟨r, -, hr⟩ := exists_of_mem_right (forall₂_of_mapM hb.clauses) c hc
    exact clause_of_resolve hr
  exact ⟨⟨InstructionStream.parsed_of_decode hb.code, fun c hc => (hresolved c hc).1, fun c hc => (hresolved c hc).2⟩,
    bytes, hb.code⟩

theorem parsed_of_parse {data : List UInt8} {b : MethodBody} (h : parse data = .ok b) : b.Parsed :=
  (decoded_of_parse h).toParsed

end MethodBody

end CilProbes
