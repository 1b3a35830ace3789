import CilProbes.Proofs.Body.Parsing
import CilProbes.Proofs.Code.Placed

/-!
# Bodies with places for handles

A body with the places of its instructions for their handles is written in the same bytes as the body itself, or it is
refused with the same fault (`encode_placed`). So two bodies that only their handles tell apart are written alike
(`encode_of_placed_eq`).
-/

namespace CilProbes

namespace ExceptionClause

variable {code : EncodedCode} {starts : StartTable} {f : InstrId → InstrId} {c : ExceptionClause}

theorem offsetIn_map (id? : Option InstrId) (h : ∀ id, id? = some id → starts.get? (f id) = code.starts.get? id) :
    offsetIn { code with starts } (id?.map f) = offsetIn code id? := by
  cases id? with
  | none => rfl
  | some id =>
    have hoffset : ({ code with starts } : EncodedCode).offsetOrEnd? (some (f id)) = code.offsetOrEnd? (some id) :=
      h id rfl
    unfold offsetIn
    rw [Option.map_some, hoffset]

/-- The record of a clause depends on where its boundaries lie, not on what they are called. -/
theorem toRecord_mapReferences (h : ∀ id ∈ c.references, starts.get? (f id) = code.starts.get? id) :
    (c.mapReferences f).toRecord { code with starts } = c.toRecord code := by
  simp only [mem_references] at h
  have hTryStart := offsetIn_map (some c.tryStart) fun id hid => h id (.inr (.inl (Option.some.inj hid)))
  have hTryEnd := offsetIn_map c.tryEnd fun id hid => h id (.inr (.inr (.inl hid)))
  have hHandlerStart := offsetIn_map (some c.handlerStart) fun id hid =>
    h id (.inr (.inr (.inr (.inl (Option.some.inj hid)))))
  have hHandlerEnd := offsetIn_map c.handlerEnd fun id hid => h id (.inr (.inr (.inr (.inr hid))))
  rw [Option.map_some] at hTryStart hHandlerStart
  unfold toRecord mapReferences
  dsimp only
  rw [hTryStart, hTryEnd, hHandlerStart, hHandlerEnd]
  cases hfilter : c.filterStart with
  | none => rfl
  | some start =>
    have hFilter := offsetIn_map (some start) fun id hid => h id (.inl (hfilter.trans hid))
    rw [Option.map_some] at hFilter ⊢
    dsimp only
    rw [hFilter]

end ExceptionClause

namespace MethodBody

/-- The branches and the clauses refer to instructions of the body. -/
structure Inside (b : MethodBody) : Prop where
  branches : ∀ i ∈ b.code.program, ∀ id ∈ i.targets, id ∈ b.code.ids
  clauses : ∀ c ∈ b.clauses, ∀ id ∈ c.references, id ∈ b.code.ids

/-- The same body with places for handles. -/
def placed (b : MethodBody) : MethodBody :=
  { b with
    code := b.code.placed
    clauses := b.clauses.map (ExceptionClause.mapReferences b.code.place) }

/-- The bytes of a body with written code and the records of its clauses. -/
def bytesOf (b : MethodBody) (code : List UInt8) (records : List ClauseRecord) : Except Fault (List UInt8) :=
  if b.isTiny code records then .ok ((UInt8.ofNat (code.length * 4) ||| Flags.tinyFormat.toUInt8) :: code)
  else if wordLimit ≤ code.length then .error (.malformed .bodyTooLarge)
  else
    let front := b.header code.length (!records.isEmpty) ++ code
    if records.isEmpty then .ok front
    else (ClauseSection.encode records).map (front ++ Field.padding 4 front.length ++ ·)

variable {b b' c c' : MethodBody} {code : EncodedCode} {e e' : EncodedBody} {id x y : InstrId}

theorem Parsed.inside_ids (hb : b.Parsed) : b.Inside where
  branches i hi id hid := by
    rw [hb.code.program_eq, Array.mem_toList_iff] at hi
    exact (hb.code.wellFormed.mem_ids id).mpr (hb.code.inside i hi id hid)
  clauses d hd id hid := (hb.code.wellFormed.mem_ids id).mpr (hb.inside d hd id hid)

theorem Widened.inside (h : b.Widened b') (hb : b.code.WellFormed) (hinside : b.Inside) : b'.Inside where
  branches := h.code.inside hb hinside.branches
  clauses := by
    rw [h.rest]
    exact fun d hd id hid => h.code.ids ▸ hinside.clauses d hd id hid

theorem Widened.place (h : b.Widened b') : b'.code.place = b.code.place := by
  unfold InstructionStream.place
  rw [h.code.ids]

/-! ## Writing -/

/-- The offsets of the instructions change no bytes but those of the clauses. -/
theorem assemble_eq (b : MethodBody) (code : EncodedCode) : b.assemble code =
    b.clauses.mapM (ExceptionClause.toRecord code) >>= fun records =>
      (b.bytesOf code.code records).map (⟨·, code.starts⟩) := by
  unfold assemble bytesOf
  refine congrArg (_ >>= ·) (funext fun records => ?_)
  dsimp only
  split
  · rfl
  · split
    · rfl
    · split
      · rfl
      · cases ClauseSection.encode records <;> rfl

/-- A body is put together from its code alike, whatever its instructions are called. -/
theorem assemble_mapReferences {starts : StartTable} {f : InstrId → InstrId} (stream : InstructionStream)
    (h : ∀ d ∈ b.clauses, ∀ id ∈ d.references, starts.get? (f id) = code.starts.get? id) :
    { b with
      code := stream
      clauses := b.clauses.map (ExceptionClause.mapReferences f) }.assemble { code with starts } =
      (b.assemble code).map fun e => { e with starts } := by
  have hrecords : (b.clauses.map (ExceptionClause.mapReferences f)).mapM
      (ExceptionClause.toRecord { code with starts }) = b.clauses.mapM (ExceptionClause.toRecord code) :=
    mapM_map_congr fun d hd => ExceptionClause.toRecord_mapReferences (h d hd)
  rw [assemble_eq, assemble_eq]
  dsimp only
  rw [hrecords]
  cases b.clauses.mapM (ExceptionClause.toRecord code) with
  | error fault => rfl
  | ok records =>
    show Except.map _ (b.bytesOf code.code records) = Except.map _ (Except.map _ (b.bytesOf code.code records))
    cases b.bytesOf code.code records <;> rfl

theorem Widened.assemble_placed (h : b.Widened b') (hb : b.code.WellFormed) (hinside : b.Inside)
    (hcode : b'.code.EncodedAs code) :
    (b.placed.withCode b'.code.placed).assemble { code with starts := b'.code.placed.layout.starts } =
      (b'.assemble code).map fun e => { e with starts := b'.code.placed.layout.starts } := by
  have hbody : b.placed.withCode b'.code.placed = { b' with
      code := b'.code.placed
      clauses := b'.clauses.map (ExceptionClause.mapReferences b'.code.place) } := by
    rw [h.place, h.rest]
    rfl
  rw [hbody]
  refine assemble_mapReferences (b := b') b'.code.placed fun d hd id hid => ?_
  rw [hcode.starts]
  exact InstructionStream.starts_placed (h.code.wellFormed hb) ((h.inside hb hinside).clauses d hd id hid)

/-- A body is written as the same body with places for handles. -/
theorem encode_placed (hb : b.code.WellFormed) (hinside : b.Inside) :
    b.placed.encode = match b.encode with
      | .error fault b' => .error fault (b.placed.withCode b'.code.placed)
      | .ok e b' => .ok { e with starts := b'.code.placed.layout.starts } (b.placed.withCode b'.code.placed) := by
  unfold encode
  rw [show b.placed.code = b.code.placed from rfl, InstructionStream.encode_placed hb hinside.branches]
  cases hencode : InstructionStream.encode b.code with
  | error fault t => rfl
  | ok code t =>
    obtain ⟨hw, hcode⟩ := InstructionStream.encode_ok hb hencode
    have hwidened : b.Widened (b.withCode t) := ⟨hw, rfl⟩
    have hassemble : (b.placed.withCode t.placed).assemble { code with starts := t.placed.layout.starts } =
        ((b.withCode t).assemble code).map fun e => { e with starts := t.placed.layout.starts } :=
      hwidened.assemble_placed hb hinside hcode
    dsimp only
    rw [hassemble]
    cases (b.withCode t).assemble code <;> rfl

/-- A written instruction starts where its place starts. -/
theorem starts_placed (hb : b.code.WellFormed) (h : b.encode = .ok e b') (hid : id ∈ b.code.ids) :
    b'.code.placed.layout.starts.get? (b.code.place id) = e.starts.get? id := by
  obtain ⟨hwidened, code, hcode, hassemble⟩ := encode_ok hb h
  rw [starts_of_assemble hassemble, hcode.starts, ← hwidened.place]
  exact InstructionStream.starts_placed (hwidened.code.wellFormed hb) (hwidened.code.ids ▸ hid)

/-- A written instruction has an offset. -/
theorem exists_start (hb : b.code.WellFormed) (h : b.encode = .ok e b') (hid : id ∈ b.code.ids) :
    ∃ start, e.starts.get? id = some start := by
  obtain ⟨hwidened, code, hcode, hassemble⟩ := encode_ok hb h
  rw [starts_of_assemble hassemble]
  exact ⟨_, (hcode.starts_eq_some (hwidened.code.wellFormed hb)).mpr ⟨hwidened.code.ids ▸ hid, rfl⟩⟩

/--
Bodies that only their handles tell apart are refused alike, or they are written in the same bytes, with the
instructions of the same places at the same offsets.
-/
theorem encode_of_placed_eq (hb : b.code.WellFormed) (hc : c.code.WellFormed) (hbin : b.Inside) (hcin : c.Inside)
    (h : b.placed = c.placed) :
    (∃ fault b' c', b.encode = .error fault b' ∧ c.encode = .error fault c') ∨
      ∃ e b' e' c', b.encode = .ok e b' ∧ c.encode = .ok e' c' ∧ e.bytes = e'.bytes ∧
        ∀ x ∈ b.code.ids, ∀ y ∈ c.code.ids, b.code.place x = c.code.place y →
          ∃ start, e.starts.get? x = some start ∧ e'.starts.get? y = some start := by
  have hsame := encode_placed hb hbin
  rw [h, encode_placed hc hcin] at hsame
  cases hbe : b.encode with
  | error fault b' =>
    rw [hbe] at hsame
    cases hce : c.encode with
    | error fault' c' =>
      rw [hce] at hsame
      obtain ⟨rfl, -⟩ := EStateM.Result.error.inj hsame
      exact .inl ⟨_, b', c', rfl, rfl⟩
    | ok e' c' =>
      rw [hce] at hsame
      cases hsame
  | ok e b' =>
    rw [hbe] at hsame
    cases hce : c.encode with
    | error fault' c' =>
      rw [hce] at hsame
      cases hsame
    | ok e' c' =>
      rw [hce] at hsame
      obtain ⟨hwritten, hbody⟩ := EStateM.Result.ok.inj hsame
      have hcode : c'.code.placed = b'.code.placed := congrArg MethodBody.code hbody
      refine .inr ⟨e, b', e', c', rfl, rfl, (congrArg EncodedBody.bytes hwritten).symm, fun x hx y hy hxy => ?_⟩
      obtain ⟨start, hstart⟩ := exists_start hb hbe hx
      refine ⟨start, hstart, ?_⟩
      rw [← starts_placed hc hce hy, ← hxy, hcode, starts_placed hb hbe hx, hstart]

end MethodBody

end CilProbes
