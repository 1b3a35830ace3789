/-!
# Flag words

Bits with a meaning in the flag words of methods and of method bodies. A bit without one is dropped where a word is
read.
-/

namespace CilProbes.Flags

/-- Accessibility of a method, out of its flags. -/
def access (method : UInt32) : UInt32 :=
  method &&& 0x7

/-- Modifiers of a method, out of its flags. -/
def modifiers (method : UInt32) : UInt32 :=
  method &&& 0x3CF0

def isStatic (method : UInt32) : Bool :=
  modifiers method &&& 0x10 != 0

/-- The name of the method has a meaning to the runtime. -/
def isRuntimeSpecial (method : UInt32) : Bool :=
  modifiers method &&& 0x1000 != 0

/-- Known bits of a body header. -/
def body (header : UInt16) : UInt16 :=
  header &&& 0x1B

/-- Known bits of the kind of a data section. -/
def dataSection (kind : UInt8) : UInt8 :=
  kind &&& 0xC3

/-- The body header for a sequence of instructions alone. -/
def tinyFormat : UInt16 := 0x2

def fatFormat : UInt16 := 0x3

/-- Data sections follow the code. -/
def moreSections : UInt16 := 0x8

def initLocals : UInt16 := 0x10

/-- The section holds exception clauses. -/
def clauseSection : UInt8 := 0x1

/-- The clauses of the section are in the wide form. -/
def fatSection : UInt8 := 0x40

/-- Another section follows. -/
def nextSection : UInt8 := 0x80

end CilProbes.Flags
