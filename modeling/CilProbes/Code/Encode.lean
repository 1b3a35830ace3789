import CilProbes.Code.Decode
import CilProbes.Code.HandleTable

/-!
# Writing code

A `Layout` gives every instruction its offset. Short branches whose target has moved out of reach are widened, all of
them at once, and the code is laid out again; each round leaves fewer short branches (`shortCount_widenAll_lt`), so this
ends. Then the instructions are written, with the distances of the last layout.
-/

namespace CilProbes

/-- Where instructions start. -/
abbrev StartTable := HandleTable Nat

/-- Offsets of instructions in program order, and the size of the code. -/
structure Layout where
  starts : StartTable
  /-- Where the last instruction starts. -/
  last : Nat := 0
  size : Nat := 0

namespace Layout

/-- Places an instruction after the others. -/
def place (l : Layout) (entry : InstrId × Instruction) : Layout where
  starts := l.starts.set entry.1 l.size
  last := l.size
  size := l.size + entry.2.size

/-- The layout of instructions from an arena of the given size. -/
def ofEntries (arena : Nat) (entries : List (InstrId × Instruction)) : Layout :=
  entries.foldl place { starts := .empty arena }

/-- The distance from an offset to an instruction. -/
def distance? (l : Layout) (next : Nat) (target : InstrId) : Option Int :=
  (l.starts.get? target).map fun start => Int.ofNat start - Int.ofNat next

/-- The target of a branch, if the code does not hold it. -/
def missing? (l : Layout) (entry : InstrId × Instruction) : Option InstrId :=
  entry.2.shortTarget?.filter fun t => (l.starts.get? t).isNone

/-- The instruction is a short branch whose target is out of reach. -/
def strained (l : Layout) (entry : InstrId × Instruction) : Bool :=
  match entry.2.shortTarget? with
  | some t =>
    match l.distance? ((l.starts.get? entry.1).getD 0 + entry.2.size) t with
    | some d => d < -128 ∨ 127 < d
    | none => false
  | none => false

end Layout

/-- Written code with the offset of every instruction. -/
structure EncodedCode where
  code : List UInt8
  starts : StartTable

namespace EncodedCode

/-- The offset of an instruction; with none given, the end of the code. -/
def offsetOrEnd? (e : EncodedCode) : Option InstrId → Option Nat
  | some id => e.starts.get? id
  | none => if e.code.length < wordLimit then some e.code.length else none

end EncodedCode

namespace InstructionStream

/-- Widens the instructions of some handles. -/
def widenAll (s : InstructionStream) (ids : List InstrId) : InstructionStream :=
  ids.foldl (fun s id => s.modify id Instruction.widen) s

/-- Number of short branches in the arena. -/
def shortCount (s : InstructionStream) : Nat :=
  s.arena.countP fun i => i.IsShort

theorem shortCount_modify_widen_le (s : InstructionStream) (id : InstrId) :
    (s.modify id Instruction.widen).shortCount ≤ s.shortCount := by
  unfold shortCount modify
  split
  · simp [Array.countP_set, Instruction.not_isShort_widen]
  · exact Nat.le_refl _

theorem shortCount_modify_widen_lt {s : InstructionStream} {id : InstrId} {i : Instruction} (hi : s.get? id = some i)
    (hs : i.IsShort) : (s.modify id Instruction.widen).shortCount < s.shortCount := by
  obtain ⟨h, rfl⟩ := Array.getElem?_eq_some_iff.mp hi
  have hpos : 0 < s.arena.countP fun i => i.IsShort :=
    Array.countP_pos_iff.mpr ⟨_, Array.getElem_mem h, by simpa using hs⟩
  have hw : ¬ decide s.arena[id.index].widen.IsShort = true := by
    rw [decide_eq_true_eq]; exact Instruction.not_isShort_widen _
  unfold shortCount modify
  rw [dif_pos h]
  show (s.arena.set id.index _).countP _ < _
  rw [Array.countP_set, if_pos (decide_eq_true hs), if_neg hw]
  omega

theorem shortCount_widenAll_le (s : InstructionStream) (ids : List InstrId) :
    (s.widenAll ids).shortCount ≤ s.shortCount := by
  induction ids generalizing s with
  | nil => exact Nat.le_refl _
  | cons id ids ih => exact Nat.le_trans (ih _) (s.shortCount_modify_widen_le id)

/-- Widening leaves fewer short branches if the first of them is one. -/
theorem shortCount_widenAll_lt {s : InstructionStream} {id : InstrId} {i : Instruction} (ids : List InstrId)
    (hi : s.get? id = some i) (hs : i.IsShort) : (s.widenAll (id :: ids)).shortCount < s.shortCount :=
  Nat.lt_of_le_of_lt (shortCount_widenAll_le _ ids) (shortCount_modify_widen_lt hi hs)

theorem get?_of_mem_entries {s : InstructionStream} {entry : InstrId × Instruction} (h : entry ∈ s.entries) :
    s.get? entry.1 = some entry.2 := by
  unfold entries at h
  obtain ⟨id, _, hid⟩ := List.mem_filterMap.mp h
  obtain ⟨i, hi, rfl⟩ := Option.map_eq_some_iff.mp hid
  exact hi

theorem isShort_of_strained {l : Layout} {entry : InstrId × Instruction} (h : l.strained entry = true) :
    entry.2.IsShort := by
  unfold Layout.strained at h
  split at h
  · next t ht => exact Instruction.isShort_of_shortTarget? ht
  · cases h

/-- Lays the code out, widening short branches until every target is in reach. -/
def settle (s : InstructionStream) : EStateM.Result Fault InstructionStream Layout :=
  let entries := s.entries
  let l := Layout.ofEntries s.arena.size entries
  if wordLimit ≤ l.last then .error (.malformed .codeTooLarge) s
  else
    match entries.findSome? l.missing? with
    | some t => .error (.malformed (.branchTarget t)) s
    | none =>
      match _found : entries.filter l.strained with
      | [] => .ok l s
      | entry :: others => settle (s.widenAll (entry.1 :: others.map Prod.fst))
  termination_by s.shortCount
  decreasing_by
    have hm : entry ∈ s.entries.filter l.strained := by rw [_found]; exact List.mem_cons_self
    obtain ⟨he, hs⟩ := List.mem_filter.mp hm
    exact shortCount_widenAll_lt _ (get?_of_mem_entries he) (isShort_of_strained hs)

end InstructionStream

namespace Layout

/-- The bytes of a constant. -/
def immediate : Immediate → List UInt8
  | .int8 v => [v.toUInt8]
  | .uint8 v => [v]
  | .uint16 v => Field.uint16 v
  | .int32 v => Field.uint32 v.toUInt32
  | .int64 v => Field.uint64 v.toUInt64
  | .float32 bits => Field.uint32 bits
  | .float64 bits => Field.uint64 bits

/-- The distance from `next` to a target of the code. -/
def distance (l : Layout) (next : Nat) (target : InstrId) : Except Fault Int :=
  match l.distance? next target with
  | some d => .ok d
  | none => .error (.malformed (.branchTarget target))

/-- A distance of four bytes; `cause` tells what is wrong with one that is out of range. -/
def wide (l : Layout) (cause : Int → Malformation) (next : Nat) (target : InstrId) : Except Fault (List UInt8) := do
  let d ← l.distance next target
  if -0x80000000 ≤ d ∧ d < 0x80000000 then return Field.uint32 (Int32.ofInt d).toUInt32
  else throw (.malformed (cause d))

/-- The bytes of an operand; `next` is the offset after the instruction. -/
def operand (l : Layout) (next : Nat) (kind : OperandKind) : Operand → Except Fault (List UInt8)
  | .none => return []
  | .immediate v => return immediate v
  | .token t => return Field.uint32 t.value
  | .target t =>
    if kind = .shortTarget then do
      let d ← l.distance next t
      if -128 ≤ d ∧ d < 128 then return [(Int8.ofInt d).toUInt8]
      else throw (.malformed (.shortDisplacement d))
    else l.wide .displacement next t
  | .switch ts => do
    if wordLimit ≤ ts.length then throw (.malformed .switchTooLarge)
    return Field.uint32 (UInt32.ofNat ts.length) ++ (← ts.mapM (l.wide .switchDisplacement next)).flatten

/-- The bytes of an opcode. -/
def opcode (o : Opcode) : List UInt8 :=
  if o.page = OpcodeTable.extendedPage then [o.page, o.code] else [o.code]

/-- The bytes of an instruction that is written at `start`. -/
def instruction (l : Layout) (start : Nat) (i : Instruction) : Except Fault (List UInt8) := do
  return opcode i.opcode ++ (← l.operand (start + i.size) i.kind i.operand)

/-- Writes instructions after the bytes in `done`. -/
def codeOnto (l : Layout) : List (InstrId × Instruction) → Array UInt8 → Except Fault (Array UInt8)
  | [], done => .ok done
  | entry :: entries, done =>
    match l.instruction done.size entry.2 with
    | .ok bytes => codeOnto l entries (done ++ bytes)
    | .error fault => .error fault

end Layout

namespace InstructionStream

/-- Writes the code. Branches that had to be widened stay so, also when writing fails. -/
def encode : Edit InstructionStream EncodedCode := fun s =>
  match s.settle with
  | .error fault s => .error fault s
  | .ok l s =>
    match l.codeOnto s.entries #[] with
    | .ok code => .ok { code := code.toList, starts := l.starts } s
    | .error fault => .error fault s

end InstructionStream

end CilProbes
