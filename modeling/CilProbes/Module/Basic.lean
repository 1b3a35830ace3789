import CilProbes.Log
import CilProbes.Probe.Splice
import CilProbes.Symbols.SymbolFile

/-!
# Modules

A module in memory: its tables of attributes, member references and user strings, its tree of types with their methods,
and, if it came with debug information, the paths of its source documents.

Methods are counted in pre-order over the types, a type's own methods before those of its nested types
(`Module.methods`); `Module.withMethods` puts a list of methods back in that order. Member references and user strings
are counted in the order of their tables. These counts are the rows that tokens refer to.
-/

namespace CilProbes

/-- A source span that is tied to an instruction. -/
structure SequencePoint where
  instruction : InstrId
  span : SourceSpan
  deriving DecidableEq, Repr

structure Method where
  name : String
  flags : UInt16
  implFlags : UInt16
  signature : List UInt8
  body : Option MethodBody
  points : List SequencePoint := []
  deriving DecidableEq

namespace Method

def initializerName : String := ".cctor"

/-- A type initializer that does nothing. -/
def emptyInitializer : Method where
  name := initializerName
  flags := 0x1891
  implFlags := 0
  signature := [0x00, 0x00, 0x01]
  body := some { maxStack := 0, code := InstructionStream.push {} .ret }

def isStatic (m : Method) : Bool :=
  Flags.isStatic m.flags.toUInt32

/-- The method runs before its type is used. -/
def isTypeInitializer (m : Method) : Bool :=
  m.name == initializerName && m.isStatic && Flags.isRuntimeSpecial m.flags.toUInt32

end Method

structure TypeDef where
  flags : UInt32 := 0
  space : String
  name : String
  methods : List Method := []
  nested : List TypeDef := []

namespace TypeDef

/-- The name with its namespace in front. -/
def fullName (t : TypeDef) : String :=
  if t.space.isEmpty then t.name else t.space ++ "." ++ t.name

mutual

/-- The methods of a type and of the types nested in it. -/
def allMethods : TypeDef → List Method
  | ⟨_, _, _, methods, nested⟩ => methods ++ methodsOf nested

/-- The methods of some types and of the types nested in them. -/
def methodsOf : List TypeDef → List Method
  | [] => []
  | t :: ts => allMethods t ++ methodsOf ts

end

mutual

/-- Puts the first of the given methods in place of those of a type; the others are left over. -/
def fill : TypeDef → List Method → TypeDef × List Method
  | ⟨flags, space, name, methods, nested⟩, given =>
    let (nested, left) := fillAll nested (given.drop methods.length)
    (⟨flags, space, name, given.take methods.length, nested⟩, left)

/-- Puts the first of the given methods in place of those of some types. -/
def fillAll : List TypeDef → List Method → List TypeDef × List Method
  | [], given => ([], given)
  | t :: ts, given =>
    let (t, left) := fill t given
    let (ts, left) := fillAll ts left
    (t :: ts, left)

end

/-- Changes the type at the end of a path of places; the first place counts in the given types. -/
def modifyAt (f : TypeDef → TypeDef) : (path : List Nat) → List TypeDef → List TypeDef
  | [], ts => ts
  | [place], ts => ts.modify place f
  | place :: path, ts => ts.modify place fun t => { t with nested := modifyAt f path t.nested }

end TypeDef

/-- A member of another module. -/
structure MemberRef where
  scope : String
  typeName : String
  name : String
  signature : List UInt8
  deriving DecidableEq, Repr

def MemberRef.text (m : MemberRef) : String :=
  "[" ++ m.scope ++ "]" ++ m.typeName ++ "::" ++ m.name

structure Module where
  name : String
  /-- Type names of the custom attributes of the module. -/
  attributes : List String := []
  memberRefs : List MemberRef := []
  userStrings : List String := []
  types : List TypeDef
  /-- Paths of the source documents, if the module came with debug information. -/
  documents : Option (List String) := none

namespace Module

/-- Name of the type that holds what is declared outside of types. -/
def globalTypeName : String := "<Module>"

def empty (name : String) : Module where
  name
  types := [{ space := "", name := globalTypeName }]

def hasAttribute (m : Module) (typeName : String) : Bool :=
  m.attributes.contains typeName

def addAttribute (m : Module) (typeName : String) : Module :=
  { m with attributes := m.attributes ++ [typeName] }

/-- Adds a type: to the outermost types if `path` is empty, else to those nested in the type at `path`. -/
def addType (m : Module) (path : List Nat) (t : TypeDef) : Module :=
  if path.isEmpty then { m with types := m.types ++ [t] }
  else { m with types := TypeDef.modifyAt (fun outer => { outer with nested := outer.nested ++ [t] }) path m.types }

/-- Adds a method to the type at `path`. -/
def addMethod (m : Module) (path : List Nat) (method : Method) : Module :=
  { m with types := TypeDef.modifyAt (fun t => { t with methods := t.methods ++ [method] }) path m.types }

/-! ## Tables -/

/-- The token of a member reference, which is added if the module lacks it. -/
def importMember (m : Module) (member : MemberRef) : Token × Module :=
  match m.memberRefs.idxOf? member with
  | some index => (.atIndex .memberRef index, m)
  | none => (.atIndex .memberRef m.memberRefs.length, { m with memberRefs := m.memberRefs ++ [member] })

def member? (m : Module) (token : Token) : Option MemberRef :=
  (token.index? .memberRef).bind fun index => m.memberRefs[index]?

/-- The token of a user string, which is added if the module lacks it. -/
def internString (m : Module) (value : String) : Token × Module :=
  match m.userStrings.idxOf? value with
  | some index => (.atIndex .userString index, m)
  | none => (.atIndex .userString m.userStrings.length, { m with userStrings := m.userStrings ++ [value] })

def string? (m : Module) (token : Token) : Option String :=
  (token.index? .userString).bind fun index => m.userStrings[index]?

def document? (m : Module) (index : Nat) : Option String :=
  m.documents.bind fun documents => documents[index]?

/-! ## Methods -/

/-- All methods in the order of their rows. -/
def methods (m : Module) : List Method :=
  TypeDef.methodsOf m.types

/-- Puts the given methods in place of those of the module, one for one. -/
def withMethods (m : Module) (methods : List Method) : Module :=
  { m with types := (TypeDef.fillAll m.types methods).1 }

/-- The methods with their tokens. -/
def tokens (m : Module) : List (Token × Method) :=
  m.methods.mapIdx fun index method => (.atIndex .methodDef index, method)

def method? (m : Module) (token : Token) : Option Method :=
  (token.index? .methodDef).bind fun index => m.methods[index]?

/-- Changes the method of a token, if there is one. -/
def modifyMethod (m : Module) (token : Token) (f : Method → Method) : Module :=
  match token.index? .methodDef with
  | some index => m.withMethods (m.methods.modify index f)
  | none => m

end Module

end CilProbes
