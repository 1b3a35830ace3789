import CilProbes.Text.Hexadecimal

/-!
# Metadata tokens

A token names a row of a module table: the high byte is the table, the low 24 bits are the row, counted from 1
(`Token.table_ofParts`, `Token.row_ofParts`).
-/

namespace CilProbes

structure Token where
  value : UInt32
  deriving DecidableEq, Repr, Inhabited

/-- A module table that tokens refer to. -/
inductive Table where
  | typeDef
  | methodDef
  | memberRef
  | userString
  deriving DecidableEq, Repr

/-- The high byte of the tokens of a table. -/
def Table.code : Table → UInt8
  | .typeDef => 0x02
  | .methodDef => 0x06
  | .memberRef => 0x0A
  | .userString => 0x70

namespace Token

/-- The token with a given high byte and the low 24 bits of `row`. -/
def ofParts (table : UInt8) (row : UInt32) : Token :=
  ⟨UInt32.ofNat (table.toNat * 0x1000000 + row.toNat % 0x1000000)⟩

def table (t : Token) : UInt8 :=
  UInt8.ofNat (t.value.toNat / 0x1000000)

def row (t : Token) : UInt32 :=
  UInt32.ofNat (t.value.toNat % 0x1000000)

def isNull (t : Token) : Bool :=
  t.value == 0

/-- The token of the element at `index`, counted from 0, of a table. -/
def atIndex (table : Table) (index : Nat) : Token :=
  ofParts table.code (UInt32.ofNat (index + 1))

/-- The index, counted from 0, that a token stands for in `table`; row 0 stands for none. -/
def index? (t : Token) (table : Table) : Option Nat :=
  if t.table = table.code ∧ t.row ≠ 0 then some (t.row.toNat - 1) else none

theorem table_ofParts (table : UInt8) (row : UInt32) : (ofParts table row).table = table := by
  apply UInt8.toNat_inj.mp
  have := table.toNat_lt
  simp only [ofParts, Token.table, UInt8.toNat_ofNat', UInt32.toNat_ofNat']
  omega

/-- Of a row only the low 24 bits are kept. -/
theorem row_ofParts (table : UInt8) (row : UInt32) : (ofParts table row).row.toNat = row.toNat % 0x1000000 := by
  have := table.toNat_lt
  simp only [ofParts, Token.row, UInt32.toNat_ofNat']
  omega

/-- The numeral by which tokens appear in listings. -/
def text (t : Token) : String :=
  "0x" ++ hex 8 t.value.toNat

/-- The token with its parts spelled out. -/
def description (t : Token) : String :=
  s!"Token({t.text}, table: 0x{hex 2 t.table.toNat}, row: {t.row})"

end Token

end CilProbes
