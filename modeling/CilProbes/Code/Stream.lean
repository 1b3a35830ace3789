import CilProbes.Code.Instruction

/-!
# Instruction streams

The instructions of a method body. They lie in an arena, where each keeps its place for good; the program order is a
list of handles into the arena. Inserting an instruction puts it at the end of the arena and its handle into the order,
so handles held elsewhere keep naming the same instruction (`get?_push_of_get?`, `get?_insertAt_of_get?`).
-/

namespace CilProbes

structure InstructionStream where
  arena : Array Instruction := #[]
  order : Array InstrId := #[]
  deriving DecidableEq

namespace InstructionStream

/-- Number of instructions in program order. -/
def length (s : InstructionStream) : Nat :=
  s.order.size

/-- The handle that the next instruction gets. -/
def nextId (s : InstructionStream) : InstrId :=
  ⟨s.arena.size⟩

/-- Appends an instruction; its handle is `nextId`. -/
def push (s : InstructionStream) (i : Instruction) : InstructionStream :=
  { arena := s.arena.push i, order := s.order.push s.nextId }

/-- Inserts an instruction at a place of the program order; its handle is `nextId`. -/
def insertAt (s : InstructionStream) (index : Nat) (i : Instruction) : Except Fault InstructionStream :=
  if h : index ≤ s.order.size then
    .ok { arena := s.arena.push i, order := s.order.insertIdx index s.nextId h }
  else
    .error .outOfBounds

/-- The place of an instruction in program order. -/
def position? (s : InstructionStream) (id : InstrId) : Option Nat :=
  s.order.idxOf? id

/-- Inserts an instruction in front of another. -/
def insertBefore (s : InstructionStream) (target : InstrId) (i : Instruction) : Except Fault InstructionStream :=
  match s.position? target with
  | some index => s.insertAt index i
  | none => .error (.malformed (.notInStream target))

def get? (s : InstructionStream) (id : InstrId) : Option Instruction :=
  s.arena[id.index]?

/-- Changes the instruction of a handle. -/
def modify (s : InstructionStream) (id : InstrId) (f : Instruction → Instruction) : InstructionStream :=
  if h : id.index < s.arena.size then
    { s with arena := s.arena.set id.index (f s.arena[id.index]) }
  else s

/-- Changes every instruction of the arena. -/
def map (s : InstructionStream) (f : Instruction → Instruction) : InstructionStream :=
  { s with arena := s.arena.map f }

def first? (s : InstructionStream) : Option InstrId :=
  s.order[0]?

/-- The handle in front of another in program order. -/
def previous? (s : InstructionStream) (id : InstrId) : Option InstrId :=
  match s.position? id with
  | some (index + 1) => s.order[index]?
  | _ => none

/-- The instructions in program order, with their handles. -/
def entries (s : InstructionStream) : List (InstrId × Instruction) :=
  s.order.toList.filterMap fun id => (s.get? id).map fun i => (id, i)

/-- The first instruction decoded at an offset. -/
def atOffset? (s : InstructionStream) (offset : UInt32) : Option InstrId :=
  s.order.find? fun id => (s.get? id).any fun i => i.offset.any (· == offset)

/-- The first offset of a decoded instruction at or after a place of the program order. -/
def offsetFrom? (s : InstructionStream) (place : Nat) : Option UInt32 :=
  if h : place < s.order.size then
    match (s.get? s.order[place]).bind Instruction.offset with
    | some offset => some offset
    | none => s.offsetFrom? (place + 1)
  else none
  termination_by s.order.size - place

/-- The offset at which an instruction was decoded; that of the next decoded one if it was not. -/
def decodedOffset? (s : InstructionStream) (id : InstrId) : Option UInt32 :=
  (s.position? id).bind s.offsetFrom?

/-! ## Handles stay -/

theorem length_push (s : InstructionStream) (i : Instruction) : (s.push i).length = s.length + 1 :=
  Array.size_push ..

theorem get?_push_nextId (s : InstructionStream) (i : Instruction) : (s.push i).get? s.nextId = some i :=
  Array.getElem?_push_size

theorem get?_push_of_get? {s : InstructionStream} {id : InstrId} {j : Instruction} (i : Instruction)
    (h : s.get? id = some j) : (s.push i).get? id = some j := by
  obtain ⟨hlt, _⟩ := Array.getElem?_eq_some_iff.mp h
  show (s.arena.push i)[id.index]? = some j
  rw [Array.getElem?_push, if_neg (Nat.ne_of_lt hlt)]
  exact h

/-- Inserting changes the arena as appending does. -/
theorem arena_insertAt {s t : InstructionStream} {index : Nat} {i : Instruction} (h : s.insertAt index i = .ok t) :
    t.arena = (s.push i).arena := by
  unfold insertAt at h
  split at h
  · cases h; rfl
  · cases h

theorem length_insertAt {s t : InstructionStream} {index : Nat} {i : Instruction} (h : s.insertAt index i = .ok t) :
    t.length = s.length + 1 := by
  unfold insertAt at h
  split at h
  · next hle => cases h; exact Array.size_insertIdx hle
  · cases h

theorem get?_insertAt_nextId {s t : InstructionStream} {index : Nat} {i : Instruction}
    (h : s.insertAt index i = .ok t) : t.get? s.nextId = some i := by
  unfold get?
  rw [arena_insertAt h]
  exact s.get?_push_nextId i

theorem get?_insertAt_of_get? {s t : InstructionStream} {index : Nat} {i j : Instruction} {id : InstrId}
    (h : s.insertAt index i = .ok t) (hj : s.get? id = some j) : t.get? id = some j := by
  unfold get?
  rw [arena_insertAt h]
  exact get?_push_of_get? i hj

/-- The inserted instruction is where it was asked for. -/
theorem order_insertAt {s t : InstructionStream} {index : Nat} {i : Instruction} (h : s.insertAt index i = .ok t) :
    t.order[index]? = some s.nextId := by
  unfold insertAt at h
  split at h
  · next hle => cases h; exact Array.getElem?_insertIdx_self hle
  · cases h

end InstructionStream

end CilProbes
