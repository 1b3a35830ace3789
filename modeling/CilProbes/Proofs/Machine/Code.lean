import CilProbes.Proofs.Code.Canonical
import CilProbes.Proofs.Machine.Bytes

/-!
# Scanning code

Code as a machine decodes it. The count of a switch is compared with the bytes that are left before anything is read for
it, and the place of a target is a signed sum. Every instruction takes at least one byte, so a scan of code that has one
more step than the code has bytes does not run out of steps (`follows_instructionsOnto`).
-/

namespace CilProbes.Machine

variable {α β : Type}

/-- An operand with the distances that stand in place of its targets; a switch may not have more cells than fit. -/
def operand : OperandKind → Scan (Operand × List Int)
  | .none => return (.none, [])
  | .int8 => return (.immediate (.int8 (← int8)), [])
  | .uint8 => return (.immediate (.uint8 (← byte)), [])
  | .uint16 => return (.immediate (.uint16 (← uint16)), [])
  | .int32 => return (.immediate (.int32 (← int32)), [])
  | .int64 => return (.immediate (.int64 (← int64)), [])
  | .float32 => return (.immediate (.float32 (← uint32)), [])
  | .float64 => return (.immediate (.float64 (← uint64)), [])
  | .token => return (.token ⟨← uint32⟩, [])
  | .shortTarget => return (.target .unresolved, [(← int8).toInt])
  | .target => return (.target .unresolved, [(← int32).toInt])
  | .switch => do
    let count ← word 4
    if (← remaining) < min (count * 4) (2 ^ sizeBits - 1) then throw .outOfBounds
    let distances ← times count (do return (← int32).toInt)
    return (.switch (List.replicate count .unresolved), distances)

/-- The offset at a distance from the end of an instruction. -/
def target (offset next : Nat) (distance : Int) : Checked UInt32 := do
  let place ← addSigned sizeBits (asSigned sizeBits next) distance
  if 0 ≤ place ∧ place < wordLimit then return UInt32.ofNat place.toNat
  else throw (.malformed (.branchOffset offset place))

/-- The instruction with an opcode, which has been read. -/
def instructionOf (offset : Nat) (page code : UInt8) : Scan DecodedInstruction :=
  match Opcode.find? page code with
  | none => do
    let _ ← shiftLeft 16 page.toNat 8
    throw (.invalidOpcode page code)
  | some opcode => do
    let (operand, distances) ← operand opcode.info.operand
    let next ← get
    let targets ← (distances.mapM (target offset next) : Checked (List UInt32))
    if wordLimit ≤ offset then throw (.malformed (.instructionOffset offset))
    return { instruction := { opcode, operand, offset := some (UInt32.ofNat offset) }, targets }

def instruction : Scan DecodedInstruction := do
  let offset ← get
  let first ← byte
  let (page, code) ← if first = OpcodeTable.extendedPage then (do return (first, ← byte)) else pure (0, first)
  instructionOf offset page code

/-- All instructions up to the end, in no more than `fuel` steps. -/
def instructions (fuel : Nat) : Scan (Array DecodedInstruction) :=
  untilEnd (fun done => do return done.push (← instruction)) fuel #[]

/-- Decodes the code of a whole body; no words are computed with where the targets are looked up. -/
def decode (code : List UInt8) : Checked InstructionStream := do
  let decoded ← (instructions (code.length + 1)).runFrom code 0
  let table := (InstructionStream.ofArray (decoded.map DecodedInstruction.instruction)).offsetTable
  let resolved ← MonadExcept.ofExcept (decoded.mapM (InstructionStream.resolve table))
  return InstructionStream.ofArray resolved

/-! ## Staying in range -/

theorem run_mapM {f : α → Checked β} {g : α → Except Fault β} {as : List α} (h : ∀ a ∈ as, (f a).run = some (g a)) :
    (as.mapM f).run = some (as.mapM g) := by
  induction as with
  | nil => rfl
  | cons a as ih =>
    rw [List.mapM_cons, List.mapM_cons]
    refine run_bind (h a List.mem_cons_self) fun b _ => ?_
    refine run_bind (ih fun x hx => h x (List.mem_cons_of_mem a hx)) fun bs _ => rfl

theorem follows_operand (kind : OperandKind) : Follows (operand kind) (Reader.operand kind) := by
  cases kind with
  | none => exact .pure _
  | int8 => exact follows_int8.bind_pure
  | uint8 => exact follows_byte.bind_pure
  | uint16 => exact follows_uint16.bind_pure
  | int32 => exact follows_int32.bind_pure
  | int64 => exact follows_int64.bind_pure
  | float32 => exact follows_uint32.bind_pure
  | float64 => exact follows_uint64.bind_pure
  | token => exact follows_uint32.bind_pure
  | shortTarget => exact follows_int8.bind_pure
  | target => exact follows_int32.bind_pure
  | switch =>
    have hcell : Follows (do return (← int32).toInt) (Int32.toInt <$> Reader.int32) := by
      rw [map_eq_pure_bind]
      exact follows_int32.bind_pure
    refine (follows_word 4).bind fun count c hc => FollowsAt.remaining_bind ?_
    dsimp only
    split
    · next hfew =>
      -- the cells do not fit, so one of them is not read either
      have hcells : Reader.Sized (Reader.times count (Int32.toInt <$> Reader.int32)) (count * 4) := by
        rw [map_eq_pure_bind]
        exact (Reader.sized_int32.bind_pure _).times count
      obtain ⟨c', hshort⟩ := hcells.short c (by omega)
      exact .throw_bind (edit_bind_of_error hshort)
    · exact ((follows_times hcell count).bind_pure) c hc

theorem run_target {offset next : Nat} {distance : Int} (hnext : next < dataLimit) (hlow : -2 ^ 31 ≤ distance)
    (hhigh : distance < 2 ^ 31) : (target offset next distance).run = some (Reader.target offset next distance) := by
  have hlimit : dataLimit = 2 ^ 29 := rfl
  have hsigned : asSigned sizeBits next = next := asSigned_eq (by unfold sizeBits; omega)
  have hsum : addSigned sizeBits next distance = some (next + distance) :=
    signed_eq (by unfold sizeBits; omega) (by unfold sizeBits; omega)
  unfold target
  rw [hsigned]
  refine run_lift_bind hsum ?_
  unfold Reader.target
  dsimp only [Int.ofNat_eq_natCast]
  split <;> rfl

theorem inReach_bounds {kind : OperandKind} {d : Int} (h : Layout.InReach kind d) : -2 ^ 31 ≤ d ∧ d < 2 ^ 31 := by
  unfold Layout.InReach at h
  split at h <;> omega

theorem follows_instructionOf (offset : Nat) (page code : UInt8) : Follows (instructionOf offset page code)
    (match Opcode.find? page code with
      | none => throw (.invalidOpcode page code)
      | some opcode => do
        let (operand, distances) ← Reader.operand opcode.info.operand
        let next ← Reader.pos
        let targets ← Edit.ofExcept (distances.mapM (Reader.target offset next))
        if wordLimit ≤ offset then Reader.fail (.instructionOffset offset)
        return { instruction := { opcode, operand, offset := some (UInt32.ofNat offset) }, targets }) := by
  unfold instructionOf
  cases Opcode.find? page code with
  | none => exact fun c hc => FollowsAt.lift_bind (if_pos (by decide)) (.throw _)
  | some opcode =>
    refine fun c hc => (follows_operand opcode.info.operand c hc).bind fun od c' hod hdata => ?_
    obtain ⟨o, ds⟩ := od
    refine FollowsAt.get_bind (FollowsAt.pos_bind ?_)
    have hnext : c'.pos < dataLimit := Nat.lt_of_le_of_lt c'.pos_le (by rwa [c'.size_eq, hdata, ← c.size_eq])
    have htargets : (ds.mapM (target offset c'.pos)).run = some (ds.mapM (Reader.target offset c'.pos)) :=
      run_mapM fun d hd =>
        have hreach := inReach_bounds ((Reader.operand_took hod).2.1 d hd)
        run_target hnext hreach.1 hreach.2
    refine (FollowsAt.ofExcept htargets).bind fun targets c'' _ _ => ?_
    dsimp only
    split
    · exact .fail_bind _
    · exact .pure _

theorem follows_instruction : Follows instruction Reader.instruction := by
  refine fun c hc => FollowsAt.get_bind (FollowsAt.pos_bind ?_)
  refine Follows.bind follows_byte (fun first => ?_) c hc
  by_cases hpage : first = OpcodeTable.extendedPage
  · rw [if_pos hpage, if_pos hpage, map_eq_pure_bind]
    exact follows_byte.bind_pure.bind fun opcode => follows_instructionOf c.pos opcode.1 opcode.2
  · rw [if_neg hpage, if_neg hpage]
    generalize ((0 : UInt8), first) = opcode
    exact (Follows.pure opcode).bind fun opcode => follows_instructionOf c.pos opcode.1 opcode.2

/-- An instruction takes at least one byte. -/
theorem instruction_advances {i : DecodedInstruction} {c c' : Cursor} (h : Reader.instruction c = .ok i c') :
    c'.remaining < c.remaining := by
  obtain ⟨hread, htook⟩ := Reader.instruction_took h
  have hbytes := hread.length_bytes (c.pos + i.instruction.size)
  have hpos := Layout.size_pos i.instruction
  have hless := htook.length_rest
  rw [hbytes, c.length_rest, c'.length_rest] at hless
  omega

theorem follows_instructions {fuel : Nat} {c : Cursor} (hc : c.size < dataLimit) (hfuel : c.remaining < fuel) :
    FollowsAt c (instructions fuel) Reader.instructions := by
  rw [← bind_pure (instructions fuel)]
  have hloop : FollowsAt c (instructions fuel >>= fun done => pure (id done)) (Reader.instructionsOnto c.remaining #[]) := by
    refine follows_untilEnd (s := fun done => do return done.push (← Reader.instruction)) (r := Reader.instructionsOnto)
      (fun done => follows_instruction.bind_pure) ?_ ?_ ?_ #[] hc hfuel (Nat.le_refl _)
    · intro done c ds c' h
      obtain ⟨i, c₁, hi, h⟩ := edit_bind_ok.mp h
      cases h
      exact instruction_advances hi
    · intro n done c hrest
      cases n with
      | zero => rfl
      | succ n =>
        unfold Reader.instructionsOnto
        rw [hrest]
        rfl
    · intro n done c hrest
      rw [Reader.instructionsOnto]
      dsimp only
      rw [if_neg (mt List.isEmpty_iff.mp hrest), bind_assoc]
      cases hi : Reader.instruction c with
      | ok i c' =>
        rw [edit_bind_of_ok hi]
        rfl
      | error fault c' =>
        rw [edit_bind_of_error hi]
  have hsame : Reader.instructionsOnto c.remaining #[] c = Reader.instructions c := rfl
  exact hloop.congr hsame

/-- Decoding stays in range and finds what it should. -/
theorem run_decode {code : List UInt8} (hcode : code.length < dataLimit) :
    (decode code).run = some (InstructionStream.decode code) := by
  have hscan := follows_instructions (c := Cursor.start code) hcode (Nat.lt_succ_self _)
  exact run_bind hscan.run_start fun decoded _ => run_bind (run_ofExcept _) fun resolved _ => rfl

end CilProbes.Machine
