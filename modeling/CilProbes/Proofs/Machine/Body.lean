import CilProbes.Body.Format
import CilProbes.Proofs.Body.Clauses
import CilProbes.Proofs.Machine.Code

/-!
# Scanning method bodies

A body as a machine reads it: the sizes in its header and in its sections are compared with the data before anything is
cut out, and sections are found from their positions in the whole of the data. Every section moves the position on, so a
scan with as many steps as there are bytes comes to an end (`run_sections`).
-/

namespace CilProbes.Machine

variable {data : List UInt8}

/-- The next position that is a multiple of four: three is added, and the two lowest bits are cleared. -/
def align (pos : Nat) : Option Nat := do
  return (← add sizeBits pos 3) &&& (2 ^ sizeBits - 1 - 3)

/-! ## Sections -/

def smallClause : Scan ClauseRecord := do
  let kind := ClauseKind.ofBits (← word 2)
  let tryOffset := UInt32.ofNat (← word 2)
  let tryLength := UInt32.ofNat (← word 1)
  let handlerOffset := UInt32.ofNat (← word 2)
  let handlerLength := UInt32.ofNat (← word 1)
  return { kind, tryOffset, tryLength, handlerOffset, handlerLength, classOrFilter := ← uint32 }

def fatClause : Scan ClauseRecord := do
  let kind := ClauseKind.ofBits (← word 4)
  let tryOffset ← uint32
  let tryLength ← uint32
  let handlerOffset ← uint32
  let handlerLength ← uint32
  return { kind, tryOffset, tryLength, handlerOffset, handlerLength, classOrFilter := ← uint32 }

/-- Size of the section at a position. -/
def sectionSize (data : List UInt8) (pos : Nat) (isFat : Bool) : Checked Nat := do
  if isFat then shiftRight 32 (← (word 4).runFrom data pos) 8
  else
    let size ← byteAt data (← add sizeBits pos 1)
    return size.toNat

/-- The records of a section of the given size. -/
def sectionRecords (data : List UInt8) (pos size : Nat) (isFat : Bool) : Checked (List ClauseRecord) := do
  let content ← add sizeBits pos 4
  let room ← sub size 4
  if isFat then (times (room / ClauseRecord.fatSize) fatClause).runFrom data content
  else (times (room / ClauseRecord.smallSize) smallClause).runFrom data content

/-- The records of the section at a position, if there is one, and the position of the section after it, if any. -/
def sectionAt (data : List UInt8) (pos : Nat) : Checked (Option (List ClauseRecord × Option Nat)) := do
  let room ← add sizeBits pos 4
  if data.length < room then return none
  let kind ← byteAt data pos
  if kind &&& Flags.clauseSection = 0 then return none
  let size ← sectionSize data pos (kind &&& Flags.fatSection != 0)
  if size < 4 then throw .outOfBounds
  let stop ← add sizeBits pos size
  if data.length < stop then throw .outOfBounds
  let here ← sectionRecords data pos size (kind &&& Flags.fatSection != 0)
  if kind &&& Flags.nextSection = 0 then return some (here, none)
  return some (here, some (← align stop))

/-- The records of a chain of no more than `fuel` sections; the position may not stay where it is. -/
def sections (data : List UInt8) : (fuel pos : Nat) → Checked (List ClauseRecord)
  | 0, _ => (trap : Option _)
  | fuel + 1, pos => do
    match ← sectionAt data pos with
    | none => return []
    | some (here, none) => return here
    | some (here, some next) =>
      if next ≤ pos then (trap : Option Unit)
      return here ++ (← sections data fuel next)

/-! ## Headers -/

/-- The instruction after a range, unless the range reaches to the end of the code. -/
def endOf (table : OffsetTable) (codeSize : Nat) (offset length : UInt32) : Checked (Option InstrId) := do
  let stop ← addOr (.malformed .clauseOverflow) 32 offset.toNat length.toNat
  if stop = codeSize then return none
  return some (← MonadExcept.ofExcept (ClauseRecord.startOf table (UInt32.ofNat stop)))

/-- The clause that a record stands for in a body. -/
def clause (table : OffsetTable) (codeSize : Nat) (r : ClauseRecord) : Checked ExceptionClause := do
  let tryStart ← MonadExcept.ofExcept (ClauseRecord.startOf table r.tryOffset)
  let tryEnd ← endOf table codeSize r.tryOffset r.tryLength
  let handlerStart ← MonadExcept.ofExcept (ClauseRecord.startOf table r.handlerOffset)
  let handlerEnd ← endOf table codeSize r.handlerOffset r.handlerLength
  let filterStart ←
    if r.kind.filter then some <$> MonadExcept.ofExcept (ClauseRecord.startOf table r.classOrFilter) else pure none
  return {
    kind := r.kind, tryStart, tryEnd, handlerStart, handlerEnd, filterStart
    classToken := ⟨if r.kind.isTyped then r.classOrFilter else 0⟩ }

def header : Scan (Nat × UInt16 × Nat × UInt32) := do
  let flags ← word 2
  let maxStack ← uint16
  let codeSize ← word 4
  let localSignature ← uint32
  return (flags, maxStack, codeSize, localSignature)

def parseFat (data : List UInt8) : Checked MethodBody := do
  if data.length < MethodBody.headerSize then throw .outOfBounds
  let (flags, maxStack, codeSize, localSignature) ← header.runFrom data 0
  let size ← mul sizeBits (← shiftRight 16 flags 12) 4
  let stop ← addOr .outOfBounds sizeBits size codeSize
  if size < MethodBody.headerSize ∨ data.length < stop then throw .outOfBounds
  let code ← decode (← slice data size stop)
  let hasFlag (flag : UInt16) : Bool := UInt16.ofNat flags &&& flag != 0
  let records ← if hasFlag Flags.moreSections then sections data (data.length + 1) (← align stop) else pure []
  let clauses ← records.mapM (clause code.offsetTable codeSize)
  return { maxStack, initLocals := hasFlag Flags.initLocals, localSignature, code, clauses }

def parseBody (data : List UInt8) : Checked MethodBody := do
  if data.isEmpty then throw (.malformed .bodyEmpty)
  let first ← byteAt data 0
  if first &&& 3 = Flags.tinyFormat.toUInt8 then
    let size ← shiftRight 8 first.toNat 2
    let stop ← add sizeBits size 1
    if data.length < stop then throw .outOfBounds
    let code ← decode (← slice data 1 stop)
    return { maxStack := 8, code }
  else if first &&& 3 = Flags.fatFormat.toUInt8 then parseFat data
  else throw (.malformed (.bodyHeader first))

/-! ## Staying in range -/

theorem align_eq {pos : Nat} (h : pos < 2 ^ 63) : align pos = some (ClauseSection.aligned pos) := by
  have hsum : add sizeBits pos 3 = some (pos + 3) := add_eq (by unfold sizeBits; omega)
  have hbits : (pos + 3) &&& (2 ^ sizeBits - 1 - 3) = (pos + 3) / 4 * 4 := by
    have hmask : 2 ^ sizeBits - 1 - 3 = (2 ^ 62 - 1) <<< 2 := by decide
    have hlow : (pos + 3) / 4 * 4 = ((pos + 3) >>> 2) <<< 2 := by
      rw [Nat.shiftLeft_eq, Nat.shiftRight_eq_div_pow]
    rw [hmask, hlow]
    refine Nat.eq_of_testBit_eq fun i => ?_
    rw [Nat.testBit_and, Nat.testBit_shiftLeft, Nat.testBit_shiftLeft, Nat.testBit_two_pow_sub_one, Nat.testBit_shiftRight]
    by_cases hlowest : 2 ≤ i
    · rw [Nat.add_sub_cancel' hlowest]
      by_cases hword : i < 64
      · simp [hlowest, show i - 2 < 62 by omega]
      · have hfits : pos + 3 < 2 ^ i :=
          Nat.lt_of_lt_of_le (show pos + 3 < 2 ^ 64 by omega) (Nat.pow_le_pow_right (by decide) (Nat.not_lt.mp hword))
        simp [Nat.testBit_lt_two_pow hfits]
    · simp [hlowest]
  unfold align
  rw [hsum]
  exact congrArg some hbits

theorem follows_smallClause : Follows smallClause Reader.smallClause :=
  (follows_word 2).bind fun _ => (follows_word 2).bind fun _ => (follows_word 1).bind fun _ => (follows_word 2).bind fun _ =>
    (follows_word 1).bind fun _ => follows_uint32.bind_pure

theorem follows_fatClause : Follows fatClause Reader.fatClause :=
  (follows_word 4).bind fun _ => follows_uint32.bind fun _ => follows_uint32.bind fun _ => follows_uint32.bind fun _ =>
    follows_uint32.bind fun _ => follows_uint32.bind_pure

theorem sized_smallClause : Reader.Sized Reader.smallClause ClauseRecord.smallSize :=
  (Reader.sized_word 2).bind fun _ => (Reader.sized_word 2).bind fun _ => (Reader.sized_word 1).bind fun _ =>
    (Reader.sized_word 2).bind fun _ => (Reader.sized_word 1).bind fun _ => Reader.sized_uint32.bind_pure _

theorem sized_fatClause : Reader.Sized Reader.fatClause ClauseRecord.fatSize :=
  (Reader.sized_word 4).bind fun _ => Reader.sized_uint32.bind fun _ => Reader.sized_uint32.bind fun _ =>
    Reader.sized_uint32.bind fun _ => Reader.sized_uint32.bind fun _ => Reader.sized_uint32.bind_pure _

/-- Records are scanned in the whole of the data as they are read from their section. -/
theorem run_times {m : Scan ClauseRecord} {r : Reader ClauseRecord} {size pos room : Nat} (h : Follows m r)
    (hr : Reader.Sized r size) (hdata : data.length < dataLimit) (hpos : pos + room ≤ data.length) :
    ∃ records, ((times (room / size) m).runFrom data pos).run = some (.ok records) ∧
      Reader.run (Reader.times (((data.drop pos).take room).length / size) r) ((data.drop pos).take room) = .ok records := by
  have hlen : ((data.drop pos).take room).length = room := by
    rw [List.length_take, List.length_drop]
    omega
  have hroom : room / size * size ≤ room := Nat.div_mul_le_self room size
  obtain ⟨records, hreads⟩ := (hr.times (room / size)).reads ((data.drop pos).take (room / size * size)) (by
    rw [List.length_take, List.length_drop]
    omega)
  have hscan := (follows_times h (room / size)).run_reads hreads hdata (by omega) (List.take_append_drop _ _).symm
  have hread := (hreads 0).run (((data.drop pos).take room).drop (room / size * size))
  refine ⟨records, hscan, ?_⟩
  rw [hlen]
  rwa [← Nat.min_eq_left hroom, ← List.take_take, Nat.min_eq_left hroom, List.take_append_drop] at hread

theorem run_sectionRecords {pos size : Nat} (isFat : Bool) (hdata : data.length < dataLimit) (hsize : 4 ≤ size)
    (hpos : pos + size ≤ data.length) : ∃ records, (sectionRecords data pos size isFat).run = some (.ok records) ∧
      ClauseSection.records isFat ((data.drop (pos + 4)).take (size - 4)) = .ok records := by
  have hlimit : dataLimit = 2 ^ 29 := rfl
  have hcontent : add sizeBits pos 4 = some (pos + 4) := add_eq (by unfold sizeBits; omega)
  have hroom : pos + 4 + (size - 4) ≤ data.length := by omega
  unfold sectionRecords ClauseSection.records
  cases isFat with
  | true =>
    obtain ⟨records, hscan, hread⟩ := run_times follows_fatClause sized_fatClause hdata hroom
    exact ⟨records, run_lift_bind hcontent (run_lift_bind (sub_eq hsize) hscan), hread⟩
  | false =>
    obtain ⟨records, hscan, hread⟩ := run_times follows_smallClause sized_smallClause hdata hroom
    exact ⟨records, run_lift_bind hcontent (run_lift_bind (sub_eq hsize) hscan), hread⟩

theorem run_sectionSize {pos : Nat} {kind b1 b2 b3 : UInt8} {content : List UInt8} (isFat : Bool)
    (hdata : data.length < dataLimit) (hpos : pos ≤ data.length) (hrest : data.drop pos = kind :: b1 :: b2 :: b3 :: content) :
    (sectionSize data pos isFat).run = some (.ok (ClauseSection.size isFat b1 b2 b3)) := by
  unfold sectionSize ClauseSection.size
  cases isFat with
  | true =>
    have hword : Reader.Reads (Reader.word 4) [kind, b1, b2, b3] (Little.decode [kind, b1, b2, b3]) :=
      (Reader.reads_bytes [kind, b1, b2, b3]).bind_pure
    have hsize : Little.decode [kind, b1, b2, b3] / 2 ^ 8 = Little.decode [b1, b2, b3] := by
      have hkind := kind.toNat_lt
      show (kind.toNat + 256 * Little.decode [b1, b2, b3]) / 2 ^ 8 = _
      omega
    refine run_ok_bind ((follows_word 4).run_reads hword hdata hpos hrest) ?_
    rw [shiftRight_eq (by decide), hsize]
    rfl
  | false =>
    have hlimit : dataLimit = 2 ^ 29 := rfl
    have hbyte : byteAt data (pos + 1) = some b1 := by
      have hget := congrArg (·[1]?) hrest
      rwa [List.getElem?_drop] at hget
    exact run_lift_bind (add_eq (by unfold sizeBits; omega)) (run_lift_bind hbyte rfl)

theorem size_lt (isFat : Bool) (b1 b2 b3 : UInt8) : ClauseSection.size isFat b1 b2 b3 < 2 ^ 24 := by
  unfold ClauseSection.size
  cases isFat with
  | true => exact Nat.lt_of_lt_of_eq (Little.decode_lt [b1, b2, b3]) (show 256 ^ 3 = 2 ^ 24 by decide)
  | false => exact Nat.lt_trans b1.toNat_lt (by decide)

/-- The records of the first section of a chain, if there is one, and how far the section after it is, if any. -/
def firstSection : List UInt8 → Except Fault (Option (List ClauseRecord × Option Nat))
  | kind :: b1 :: b2 :: b3 :: content =>
    let isFat := kind &&& Flags.fatSection != 0
    let size := ClauseSection.size isFat b1 b2 b3
    let body := content.take (size - 4)
    if kind &&& Flags.clauseSection = 0 then .ok none
    else if size < 4 ∨ body.length + 4 < size then .error .outOfBounds
    else do
      let here ← ClauseSection.records isFat body
      return some (here, if kind &&& Flags.nextSection = 0 then none else some (ClauseSection.aligned size))
  | _ => .ok none

theorem aligned_bounds (n : Nat) : n ≤ ClauseSection.aligned n ∧ ClauseSection.aligned n ≤ n + 3 := by
  unfold ClauseSection.aligned
  omega

/-- A section begins with four bytes. -/
theorem exists_header {rest : List UInt8} (h : 4 ≤ rest.length) :
    ∃ kind b1 b2 b3 content, rest = kind :: b1 :: b2 :: b3 :: content := by
  match rest, h with
  | kind :: b1 :: b2 :: b3 :: content, _ => exact ⟨kind, b1, b2, b3, content, rfl⟩

/-- Where fewer than four bytes are left there is no section. -/
theorem firstSection_short {rest : List UInt8} (h : rest.length < 4) : firstSection rest = .ok none := by
  unfold firstSection
  split
  · next => exact absurd h (Nat.not_lt.mpr (Nat.le_add_left 4 _))
  · rfl

/-- A chain is its first section and the chain after it. -/
theorem chain_eq (rest : List UInt8) : ClauseSection.chain rest = (do
    match ← firstSection rest with
    | none => return []
    | some (here, none) => return here
    | some (here, some far) => return here ++ (← ClauseSection.chain (rest.drop far))) := by
  by_cases hshort : rest.length < 4
  · rw [firstSection_short hshort, ClauseSection.chain]
    · rfl
    · rintro kind b1 b2 b3 content rfl
      exact absurd hshort (Nat.not_lt.mpr (Nat.le_add_left 4 _))
  obtain ⟨kind, b1, b2, b3, content, rfl⟩ := exists_header (Nat.not_lt.mp hshort)
  rw [ClauseSection.chain, firstSection]
  dsimp only
  generalize ClauseSection.size (kind &&& Flags.fatSection != 0) b1 b2 b3 = size
  split
  · rfl
  split
  · rfl
  next hsize =>
  have hsmall : 4 ≤ size := Nat.not_lt.mp (not_or.mp hsize).1
  cases ClauseSection.records (kind &&& Flags.fatSection != 0) (content.take (size - 4)) with
  | error fault => rfl
  | ok here =>
    dsimp only
    split
    · rfl
    · have hrest : (kind :: b1 :: b2 :: b3 :: content).drop (ClauseSection.aligned size) =
          content.drop (ClauseSection.aligned size - 4) := by
        obtain ⟨far, hfar⟩ := Nat.exists_eq_add_of_le' (hsmall.trans (aligned_bounds size).1)
        rw [hfar, Nat.add_sub_cancel]
        rfl
      show _ = (do return here ++ (← ClauseSection.chain _))
      rw [hrest]
      cases ClauseSection.chain (content.drop (ClauseSection.aligned size - 4)) <;> rfl

/-- A section that another one follows is not empty, and both lie at multiples of four. -/
theorem far_of_firstSection {rest : List UInt8} {here : List ClauseRecord} {far : Nat}
    (h : firstSection rest = .ok (some (here, some far))) : 4 ≤ far ∧ far ≤ rest.length + 3 ∧ far % 4 = 0 := by
  by_cases hshort : rest.length < 4
  · rw [firstSection_short hshort] at h
    cases h
  obtain ⟨kind, b1, b2, b3, content, rfl⟩ := exists_header (Nat.not_lt.mp hshort)
  rw [firstSection] at h
  generalize ClauseSection.size (kind &&& Flags.fatSection != 0) b1 b2 b3 = size at h
  split at h
  · cases h
  split at h
  · cases h
  next hsize =>
  obtain ⟨records, -, h⟩ := bind_ok.mp h
  split at h
  · cases h
  cases h
  obtain ⟨hle, hge⟩ := aligned_bounds size
  rw [List.length_take] at hsize
  rw [List.length_cons, List.length_cons, List.length_cons, List.length_cons]
  exact ⟨by omega, by omega, Nat.mul_mod_left _ 4⟩

/-- The four bytes of a header at a position, and the content behind them. -/
theorem header_at {pos : Nat} (hlen : pos + 4 ≤ data.length) : ∃ kind b1 b2 b3 content,
    data.drop pos = kind :: b1 :: b2 :: b3 :: content ∧ byteAt data pos = some kind ∧
    data.drop (pos + 4) = content ∧ content.length = data.length - (pos + 4) := by
  obtain ⟨kind, b1, b2, b3, content, hrest⟩ := exists_header (show 4 ≤ (data.drop pos).length by
    rw [List.length_drop]
    omega)
  have hcontent : data.drop (pos + 4) = content := by
    rw [← List.drop_drop, hrest]
    rfl
  refine ⟨kind, b1, b2, b3, content, hrest, ?_, hcontent, ?_⟩
  · have hget := congrArg (·[0]?) hrest
    rwa [List.getElem?_drop] at hget
  · rw [← hcontent, List.length_drop]

/-- A section is found at its position as in front of what follows. -/
theorem run_sectionAt {pos : Nat} (hdata : data.length < dataLimit) (hpos : pos ≤ data.length + 3) (haligned : pos % 4 = 0) :
    (sectionAt data pos).run =
      some ((firstSection (data.drop pos)).map fun found => found.map fun (here, far) => (here, far.map (pos + ·))) := by
  have hlimit : dataLimit = 2 ^ 29 := rfl
  unfold sectionAt
  refine run_lift_bind (add_eq (by unfold sizeBits; omega)) ?_
  by_cases hend : data.length < pos + 4
  · rw [if_pos hend, firstSection_short (by rw [List.length_drop]; omega)]
    rfl
  rw [if_neg hend]
  obtain ⟨kind, b1, b2, b3, content, hrest, hkind, hcontent, hlen⟩ := header_at (Nat.not_lt.mp hend)
  refine run_lift_bind hkind ?_
  rw [hrest, firstSection]
  dsimp only
  by_cases hclauses : kind &&& Flags.clauseSection = 0
  · rw [if_pos hclauses, if_pos hclauses]
    rfl
  rw [if_neg hclauses, if_neg hclauses]
  refine run_ok_bind (run_sectionSize _ hdata (by omega) hrest) ?_
  have hword := size_lt (kind &&& Flags.fatSection != 0) b1 b2 b3
  generalize ClauseSection.size (kind &&& Flags.fatSection != 0) b1 b2 b3 = size at hword ⊢
  by_cases hsmall : size < 4
  · rw [if_pos hsmall, if_pos (.inl hsmall)]
    rfl
  rw [if_neg hsmall]
  have hstop : add sizeBits pos size = some (pos + size) := add_eq (by unfold sizeBits; omega)
  refine run_lift_bind hstop ?_
  have hbody : (content.take (size - 4)).length + 4 < size ↔ data.length < pos + size := by
    rw [List.length_take, hlen]
    omega
  by_cases hlong : data.length < pos + size
  · rw [if_pos hlong, if_pos (.inr (hbody.mpr hlong))]
    rfl
  rw [if_neg hlong, if_neg (not_or.mpr ⟨hsmall, mt hbody.mp hlong⟩)]
  obtain ⟨here, hscan, hread⟩ :=
    run_sectionRecords (kind &&& Flags.fatSection != 0) hdata (Nat.not_lt.mp hsmall) (Nat.not_lt.mp hlong)
  rw [hcontent] at hread
  rw [hread]
  refine run_ok_bind hscan ?_
  by_cases hlast : kind &&& Flags.nextSection = 0
  · rw [if_pos hlast, if_pos hlast]
    rfl
  rw [if_neg hlast, if_neg hlast]
  have hnext : ClauseSection.aligned (pos + size) = pos + ClauseSection.aligned size := by
    unfold ClauseSection.aligned
    omega
  refine run_lift_bind (align_eq (by omega)) ?_
  rw [hnext]
  rfl

/-- Sections are found from their positions as they are found one after another. -/
theorem run_sections (hdata : data.length < dataLimit) {fuel pos : Nat} (hfuel : data.length + 3 < pos + fuel)
    (hpos : pos ≤ data.length + 3) (haligned : pos % 4 = 0) :
    (sections data fuel pos).run = some (ClauseSection.chain (data.drop pos)) := by
  induction fuel generalizing pos with
  | zero => omega
  | succ fuel ih =>
    have hsection := run_sectionAt hdata hpos haligned
    rw [sections, chain_eq]
    cases hfirst : firstSection (data.drop pos) with
    | error fault =>
      rw [hfirst] at hsection
      exact run_error_bind hsection
    | ok found =>
      rw [hfirst] at hsection
      refine run_ok_bind hsection ?_
      cases found with
      | none => rfl
      | some found =>
        obtain ⟨here, far⟩ := found
        cases far with
        | none => rfl
        | some far =>
          obtain ⟨hfar, hwithin, hmultiple⟩ := far_of_firstSection hfirst
          rw [List.length_drop] at hwithin
          dsimp only [Option.map_some]
          rw [if_neg (by omega)]
          have hmore : (sections data fuel (pos + far)).run = some (ClauseSection.chain ((data.drop pos).drop far)) := by
            rw [List.drop_drop]
            exact ih (by omega) (by omega) (by omega)
          exact run_bind hmore fun _ _ => rfl

/-! ### Bodies -/

theorem run_endOf (table : OffsetTable) (codeSize : Nat) (offset length : UInt32) :
    (endOf table codeSize offset length).run = some (ClauseRecord.endOf table codeSize offset length) := by
  have hsum := run_addOr (.malformed .clauseOverflow) 32 offset.toNat length.toNat
  unfold endOf ClauseRecord.endOf
  have hlimit : wordLimit = 2 ^ 32 := rfl
  dsimp only
  split at hsum
  · rw [if_neg (by omega)]
    refine run_ok_bind hsum ?_
    split
    · rfl
    · cases ClauseRecord.startOf table (UInt32.ofNat (offset.toNat + length.toNat)) <;> rfl
  · rw [if_pos (by omega)]
    exact run_error_bind hsum

theorem run_clause (table : OffsetTable) (codeSize : Nat) (r : ClauseRecord) :
    (clause table codeSize r).run = some (r.resolve table codeSize) := by
  unfold clause ClauseRecord.resolve
  refine run_bind (run_ofExcept _) fun tryStart _ => run_bind (run_endOf ..) fun tryEnd _ => ?_
  refine run_bind (run_ofExcept _) fun handlerStart _ => run_bind (run_endOf ..) fun handlerEnd _ => ?_
  dsimp only
  by_cases hfilter : r.kind.filter = true
  · rw [if_pos hfilter, if_pos hfilter]
    cases ClauseRecord.startOf table r.classOrFilter <;> rfl
  · rw [if_neg hfilter, if_neg hfilter]
    rfl

theorem follows_header : Follows header MethodBody.readHeader :=
  (follows_word 2).bind fun _ => follows_uint16.bind fun _ => (follows_word 4).bind fun _ => follows_uint32.bind_pure

theorem sized_header : Reader.Sized MethodBody.readHeader MethodBody.headerSize :=
  (Reader.sized_word 2).bind fun _ => ((Reader.sized_word 2).bind_pure _).bind fun _ => (Reader.sized_word 4).bind fun _ =>
    Reader.sized_uint32.bind_pure _

theorem readHeader_short (h : data.length < MethodBody.headerSize) :
    Reader.run MethodBody.readHeader data = .error .outOfBounds := by
  obtain ⟨c, hfault⟩ := sized_header.short (Cursor.start data) h
  unfold Reader.run
  rw [hfault]

theorem readHeader_lt {flags codeSize : Nat} {maxStack : UInt16} {signature : UInt32}
    (h : Reader.run MethodBody.readHeader data = .ok (flags, maxStack, codeSize, signature)) :
    flags < 256 ^ 2 ∧ codeSize < 256 ^ 4 := by
  unfold Reader.run at h
  split at h
  · next fields c hread =>
    cases h
    obtain ⟨_, _, hflags, hread⟩ := edit_bind_ok.mp hread
    obtain ⟨_, _, _, hread⟩ := edit_bind_ok.mp hread
    obtain ⟨_, _, hsize, hread⟩ := edit_bind_ok.mp hread
    obtain ⟨_, _, _, hread⟩ := edit_bind_ok.mp hread
    cases hread
    exact ⟨(Reader.word_took hflags).1, (Reader.word_took hsize).1⟩
  · cases h

theorem run_parseFat (hdata : data.length < dataLimit) : (parseFat data).run = some (MethodBody.parseFat data) := by
  have hlimit : dataLimit = 2 ^ 29 := rfl
  have hword : 2 ^ sizeBits = 2 ^ 64 := rfl
  unfold parseFat MethodBody.parseFat
  by_cases hshort : data.length < MethodBody.headerSize
  · rw [if_pos hshort, readHeader_short hshort]
    rfl
  rw [if_neg hshort]
  refine run_bind (follows_header.run hdata) fun fields hread => ?_
  obtain ⟨flags, maxStack, codeSize, localSignature⟩ := fields
  obtain ⟨hflags, hsize⟩ := readHeader_lt hread
  -- the size of the header is a number of 4 bits times four, and the size of the code one of 32 bits
  refine run_lift_bind (shiftRight_eq (by decide)) (run_lift_bind (mul_eq (show flags / 2 ^ 12 * 4 < 2 ^ sizeBits by omega)) ?_)
  have hstop := run_addOr .outOfBounds sizeBits (flags / 2 ^ 12 * 4) codeSize
  rw [if_pos (by omega)] at hstop
  refine run_ok_bind hstop ?_
  show _ = some (if flags / 2 ^ 12 * 4 < MethodBody.headerSize ∨ data.length < flags / 2 ^ 12 * 4 + codeSize then _ else _)
  generalize flags / 2 ^ 12 * 4 = size
  by_cases hlong : size < MethodBody.headerSize ∨ data.length < size + codeSize
  · rw [if_pos hlong, if_pos hlong]
    rfl
  rw [if_neg hlong, if_neg hlong]
  obtain ⟨hheader, hlong⟩ := not_or.mp hlong
  have hcode : slice data size (size + codeSize) = some ((data.drop size).take codeSize) := by
    rw [slice_eq (Nat.le_add_right ..) (Nat.not_lt.mp hlong), Nat.add_sub_cancel_left]
  have hcodeSize : ((data.drop size).take codeSize).length < dataLimit := by
    rw [List.length_take, List.length_drop]
    omega
  refine run_lift_bind hcode (run_bind (run_decode hcodeSize) fun code _ => ?_)
  have hclauses (records : List ClauseRecord) : (do
      let clauses ← records.mapM (clause code.offsetTable codeSize)
      return ({ maxStack, initLocals := UInt16.ofNat flags &&& Flags.initLocals != 0, localSignature, code, clauses } :
        MethodBody) : Checked MethodBody).run = some (do
      let clauses ← records.mapM (ClauseRecord.resolve code.offsetTable codeSize)
      return { maxStack, initLocals := UInt16.ofNat flags &&& Flags.initLocals != 0, localSignature, code, clauses }) :=
    run_bind (run_mapM fun r _ => run_clause code.offsetTable codeSize r) fun _ _ => rfl
  dsimp only
  by_cases hmore : (UInt16.ofNat flags &&& Flags.moreSections != 0) = true
  · rw [if_pos hmore, if_pos hmore]
    obtain ⟨hle, hge⟩ := aligned_bounds (size + codeSize)
    refine run_lift_bind (align_eq (by omega)) ?_
    have hsteps : 12 ≤ size := Nat.not_lt.mp hheader
    exact run_bind (run_sections hdata (by omega) (by omega) (Nat.mul_mod_left _ 4)) fun records _ => hclauses records
  · rw [if_neg hmore, if_neg hmore]
    exact hclauses []

/-- A method body is read in range. -/
theorem run_parseBody (hdata : data.length < dataLimit) : (parseBody data).run = some (MethodBody.parse data) := by
  have hlimit : dataLimit = 2 ^ 29 := rfl
  unfold parseBody MethodBody.parse
  cases data with
  | nil => rfl
  | cons first rest =>
    rw [if_neg (show ¬ (first :: rest).isEmpty = true from Bool.false_ne_true)]
    refine run_lift_bind (a := first) rfl ?_
    dsimp only
    have hsize : (first / 4).toNat = first.toNat / 2 ^ 2 := UInt8.toNat_div ..
    have hword := first.toNat_lt
    by_cases htiny : first &&& 3 = Flags.tinyFormat.toUInt8
    · rw [if_pos htiny, if_pos htiny, hsize]
      refine run_lift_bind (shiftRight_eq (by decide)) ?_
      have hstop : add sizeBits (first.toNat / 2 ^ 2) 1 = some (first.toNat / 2 ^ 2 + 1) :=
        add_eq (by unfold sizeBits; omega)
      refine run_lift_bind hstop ?_
      rw [List.length_cons]
      by_cases hshort : rest.length < first.toNat / 2 ^ 2
      · rw [if_pos (Nat.succ_lt_succ hshort), if_pos hshort]
        rfl
      rw [if_neg (fun h => hshort (Nat.succ_lt_succ_iff.mp h)), if_neg hshort]
      have hcode : slice (first :: rest) 1 (first.toNat / 2 ^ 2 + 1) = some (rest.take (first.toNat / 2 ^ 2)) :=
        slice_eq (Nat.le_add_left ..) (Nat.succ_le_succ (Nat.not_lt.mp hshort))
      have hcodeSize : (rest.take (first.toNat / 2 ^ 2)).length < dataLimit := by
        rw [List.length_take]
        rw [List.length_cons] at hdata
        omega
      refine run_lift_bind hcode ((run_bind (run_decode hcodeSize) fun code _ => rfl).trans ?_)
      cases InstructionStream.decode (rest.take (first.toNat / 2 ^ 2)) <;> rfl
    rw [if_neg htiny, if_neg htiny]
    by_cases hfat : first &&& 3 = Flags.fatFormat.toUInt8
    · rw [if_pos hfat, if_pos hfat]
      exact run_parseFat hdata
    · rw [if_neg hfat, if_neg hfat]
      rfl

end CilProbes.Machine
