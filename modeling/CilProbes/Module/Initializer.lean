import CilProbes.Module.Basic

/-!
# The module initializer

The type initializer of the global type runs before any other code of the module. `Module.ensureInitializer` adds one to
a module that lacks it. It becomes the last method of the first type, so the methods of all other types move on by one
row; method tokens in code are adjusted to keep naming the same methods.
-/

namespace CilProbes

namespace Token

/-- The token after a method row is inserted at `row`. -/
def shiftMethod (row : Nat) (t : Token) : Token :=
  if t.table = Table.methodDef.code ∧ row ≤ t.row.toNat then ofParts Table.methodDef.code (t.row + 1) else t

end Token

namespace Method

/-- Changes every token operand of the body. -/
def mapTokens (f : Token → Token) (m : Method) : Method :=
  let instruction (i : Instruction) : Instruction :=
    match i.operand with
    | .token t => { i with operand := .token (f t) }
    | _ => i
  { m with body := m.body.map fun b => b.withCode (b.code.map instruction) }

end Method

namespace Module

/-- The first type, if it is the global one. -/
def globalType? (m : Module) : Option TypeDef :=
  m.types.head?.filter fun t => t.name = globalTypeName ∧ t.space = ""

/-- The first type has a type initializer. -/
def hasInitializer (m : Module) : Bool :=
  match m.types with
  | t :: _ => t.methods.any Method.isTypeInitializer
  | [] => false

/-- Adjusts the method tokens in all code for a method row that is inserted at `row`. -/
def shiftMethodRows (m : Module) (row : Nat) : Module :=
  m.withMethods (m.methods.map (Method.mapTokens (Token.shiftMethod row)))

/-- Adds a method after those of the first type. -/
def addToFirstType (m : Module) (method : Method) : Module :=
  match m.types with
  | t :: ts => { m with types := { t with methods := t.methods ++ [method] } :: ts }
  | [] => m

/-- The place of the module initializer among the methods, and the module with the initializer added if it lacked it. -/
def ensureInitializer (m : Module) : Except Fault (Nat × Module) :=
  match m.globalType? with
  | none => .error (.malformed (.noModuleType m.name))
  | some t =>
    match t.methods.findIdx? Method.isTypeInitializer with
    | some index =>
      if (t.methods[index]?.bind Method.body).isSome then .ok (index, m)
      else .error (.malformed (.initializerBody m.name))
    | none =>
      .ok (t.methods.length, (m.shiftMethodRows (t.methods.length + 1)).addToFirstType .emptyInitializer)

end Module

end CilProbes
