import CilProbes.Code.Operand

/-!
# Tables by handle

Handles are counted from 0, so what is known of the instructions of a stream lies in an array with a cell for each of
them. A table is seen by its cells (`get?_set`, `get?_set_of_ne`).
-/

namespace CilProbes

/-- Values for some of the instructions of a stream. -/
structure HandleTable (α : Type) where
  cells : Array (Option α)
  deriving DecidableEq

namespace HandleTable

variable {α : Type}

/-- The table without values for an arena of the given size. -/
def empty (size : Nat) : HandleTable α :=
  ⟨Array.replicate size none⟩

/-- The number of cells. -/
def size (t : HandleTable α) : Nat :=
  t.cells.size

def get? (t : HandleTable α) (id : InstrId) : Option α :=
  t.cells[id.index]?.join

/-- Puts a value into the cell of a handle, if there is one. -/
def set (t : HandleTable α) (id : InstrId) (a : α) : HandleTable α :=
  ⟨t.cells.setIfInBounds id.index (some a)⟩

/-- The values with their handles, in the order of the handles. -/
def toList (t : HandleTable α) : List (InstrId × α) :=
  t.cells.toList.zipIdx.filterMap fun (cell, index) => cell.map fun a => (⟨index⟩, a)

theorem size_set (t : HandleTable α) (id : InstrId) (a : α) : (t.set id a).size = t.size :=
  Array.size_setIfInBounds

theorem get?_empty (size : Nat) (id : InstrId) : (empty size : HandleTable α).get? id = none := by
  unfold get? empty
  rw [Array.getElem?_replicate]
  split <;> rfl

theorem get?_set (t : HandleTable α) {id : InstrId} (a : α) (h : id.index < t.size) :
    (t.set id a).get? id = some a := by
  unfold get? set
  rw [Array.getElem?_setIfInBounds_self, if_pos (show id.index < t.cells.size from h)]
  rfl

theorem get?_set_of_ne (t : HandleTable α) {id other : InstrId} (a : α) (h : other ≠ id) :
    (t.set id a).get? other = t.get? other := by
  unfold get? set
  rw [Array.getElem?_setIfInBounds_ne fun e => h (congrArg InstrId.mk e.symm)]

end HandleTable

end CilProbes
