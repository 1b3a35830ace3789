import CilProbes.Code.Operand

/-!
# The opcode tables

Opcodes of the common intermediate language. An opcode is one byte of the base page, or one byte of the extended page
after the byte `0xFE`. Some places of either page are reserved (`none`).

Main statement: every short branch has a long form with the same flow, whose operand is a wide target
(`Opcode.exists_longForm`).
-/

namespace CilProbes

/-- What an opcode does to control flow. -/
inductive Flow where
  | sequential
  | conditionalBranch
  | unconditionalBranch
  | call
  | return
  | switch
  | throw
  | endFinally
  | leave
  deriving DecidableEq, Repr

/-- What an opcode is for. -/
inductive Category where
  | arithmetic
  | bitwise
  | comparison
  | controlFlow
  | conversion
  | loadStore
  | objectModel
  /-- Modifies the instruction after it. -/
  | modifier
  | miscellaneous
  deriving DecidableEq, Repr

structure OpcodeInfo where
  mnemonic : String
  operand : OperandKind
  category : Category
  flow : Flow
  deriving DecidableEq, Repr

namespace OpcodeTable

def op (mnemonic : String) (operand : OperandKind) (category : Category) (flow : Flow) : Option OpcodeInfo :=
  some { mnemonic, operand, category, flow }

/-- Opcodes of one byte. -/
def base : Array (Option OpcodeInfo) := #[
  -- 0x00
  op "nop" .none .miscellaneous .sequential,
  op "break" .none .miscellaneous .sequential,
  op "ldarg.0" .none .loadStore .sequential,
  op "ldarg.1" .none .loadStore .sequential,
  op "ldarg.2" .none .loadStore .sequential,
  op "ldarg.3" .none .loadStore .sequential,
  op "ldloc.0" .none .loadStore .sequential,
  op "ldloc.1" .none .loadStore .sequential,
  op "ldloc.2" .none .loadStore .sequential,
  op "ldloc.3" .none .loadStore .sequential,
  op "stloc.0" .none .loadStore .sequential,
  op "stloc.1" .none .loadStore .sequential,
  op "stloc.2" .none .loadStore .sequential,
  op "stloc.3" .none .loadStore .sequential,
  op "ldarg.s" .uint8 .loadStore .sequential,
  op "ldarga.s" .uint8 .loadStore .sequential,
  -- 0x10
  op "starg.s" .uint8 .loadStore .sequential,
  op "ldloc.s" .uint8 .loadStore .sequential,
  op "ldloca.s" .uint8 .loadStore .sequential,
  op "stloc.s" .uint8 .loadStore .sequential,
  op "ldnull" .none .loadStore .sequential,
  op "ldc.i4.m1" .none .loadStore .sequential,
  op "ldc.i4.0" .none .loadStore .sequential,
  op "ldc.i4.1" .none .loadStore .sequential,
  op "ldc.i4.2" .none .loadStore .sequential,
  op "ldc.i4.3" .none .loadStore .sequential,
  op "ldc.i4.4" .none .loadStore .sequential,
  op "ldc.i4.5" .none .loadStore .sequential,
  op "ldc.i4.6" .none .loadStore .sequential,
  op "ldc.i4.7" .none .loadStore .sequential,
  op "ldc.i4.8" .none .loadStore .sequential,
  op "ldc.i4.s" .int8 .loadStore .sequential,
  -- 0x20
  op "ldc.i4" .int32 .loadStore .sequential,
  op "ldc.i8" .int64 .loadStore .sequential,
  op "ldc.r4" .float32 .loadStore .sequential,
  op "ldc.r8" .float64 .loadStore .sequential,
  none,
  op "dup" .none .miscellaneous .sequential,
  op "pop" .none .miscellaneous .sequential,
  op "jmp" .token .controlFlow .call,
  op "call" .token .controlFlow .call,
  op "calli" .token .controlFlow .call,
  op "ret" .none .controlFlow .return,
  op "br.s" .shortTarget .controlFlow .unconditionalBranch,
  op "brfalse.s" .shortTarget .controlFlow .conditionalBranch,
  op "brtrue.s" .shortTarget .controlFlow .conditionalBranch,
  op "beq.s" .shortTarget .controlFlow .conditionalBranch,
  op "bge.s" .shortTarget .controlFlow .conditionalBranch,
  -- 0x30
  op "bgt.s" .shortTarget .controlFlow .conditionalBranch,
  op "ble.s" .shortTarget .controlFlow .conditionalBranch,
  op "blt.s" .shortTarget .controlFlow .conditionalBranch,
  op "bne.un.s" .shortTarget .controlFlow .conditionalBranch,
  op "bge.un.s" .shortTarget .controlFlow .conditionalBranch,
  op "bgt.un.s" .shortTarget .controlFlow .conditionalBranch,
  op "ble.un.s" .shortTarget .controlFlow .conditionalBranch,
  op "blt.un.s" .shortTarget .controlFlow .conditionalBranch,
  op "br" .target .controlFlow .unconditionalBranch,
  op "brfalse" .target .controlFlow .conditionalBranch,
  op "brtrue" .target .controlFlow .conditionalBranch,
  op "beq" .target .controlFlow .conditionalBranch,
  op "bge" .target .controlFlow .conditionalBranch,
  op "bgt" .target .controlFlow .conditionalBranch,
  op "ble" .target .controlFlow .conditionalBranch,
  op "blt" .target .controlFlow .conditionalBranch,
  -- 0x40
  op "bne.un" .target .controlFlow .conditionalBranch,
  op "bge.un" .target .controlFlow .conditionalBranch,
  op "bgt.un" .target .controlFlow .conditionalBranch,
  op "ble.un" .target .controlFlow .conditionalBranch,
  op "blt.un" .target .controlFlow .conditionalBranch,
  op "switch" .switch .controlFlow .switch,
  op "ldind.i1" .none .loadStore .sequential,
  op "ldind.u1" .none .loadStore .sequential,
  op "ldind.i2" .none .loadStore .sequential,
  op "ldind.u2" .none .loadStore .sequential,
  op "ldind.i4" .none .loadStore .sequential,
  op "ldind.u4" .none .loadStore .sequential,
  op "ldind.i8" .none .loadStore .sequential,
  op "ldind.i" .none .loadStore .sequential,
  op "ldind.r4" .none .loadStore .sequential,
  op "ldind.r8" .none .loadStore .sequential,
  -- 0x50
  op "ldind.ref" .none .loadStore .sequential,
  op "stind.ref" .none .loadStore .sequential,
  op "stind.i1" .none .loadStore .sequential,
  op "stind.i2" .none .loadStore .sequential,
  op "stind.i4" .none .loadStore .sequential,
  op "stind.i8" .none .loadStore .sequential,
  op "stind.r4" .none .loadStore .sequential,
  op "stind.r8" .none .loadStore .sequential,
  op "add" .none .arithmetic .sequential,
  op "sub" .none .arithmetic .sequential,
  op "mul" .none .arithmetic .sequential,
  op "div" .none .arithmetic .sequential,
  op "div.un" .none .arithmetic .sequential,
  op "rem" .none .arithmetic .sequential,
  op "rem.un" .none .arithmetic .sequential,
  op "and" .none .bitwise .sequential,
  -- 0x60
  op "or" .none .bitwise .sequential,
  op "xor" .none .bitwise .sequential,
  op "shl" .none .bitwise .sequential,
  op "shr" .none .bitwise .sequential,
  op "shr.un" .none .bitwise .sequential,
  op "neg" .none .arithmetic .sequential,
  op "not" .none .bitwise .sequential,
  op "conv.i1" .none .conversion .sequential,
  op "conv.i2" .none .conversion .sequential,
  op "conv.i4" .none .conversion .sequential,
  op "conv.i8" .none .conversion .sequential,
  op "conv.r4" .none .conversion .sequential,
  op "conv.r8" .none .conversion .sequential,
  op "conv.u4" .none .conversion .sequential,
  op "conv.u8" .none .conversion .sequential,
  op "callvirt" .token .controlFlow .call,
  -- 0x70
  op "cpobj" .token .objectModel .sequential,
  op "ldobj" .token .objectModel .sequential,
  op "ldstr" .token .objectModel .sequential,
  op "newobj" .token .objectModel .call,
  op "castclass" .token .objectModel .sequential,
  op "isinst" .token .objectModel .sequential,
  op "conv.r.un" .none .conversion .sequential,
  none,
  none,
  op "unbox" .token .objectModel .sequential,
  op "throw" .none .controlFlow .throw,
  op "ldfld" .token .objectModel .sequential,
  op "ldflda" .token .objectModel .sequential,
  op "stfld" .token .objectModel .sequential,
  op "ldsfld" .token .objectModel .sequential,
  op "ldsflda" .token .objectModel .sequential,
  -- 0x80
  op "stsfld" .token .objectModel .sequential,
  op "stobj" .token .objectModel .sequential,
  op "conv.ovf.i1.un" .none .conversion .sequential,
  op "conv.ovf.i2.un" .none .conversion .sequential,
  op "conv.ovf.i4.un" .none .conversion .sequential,
  op "conv.ovf.i8.un" .none .conversion .sequential,
  op "conv.ovf.u1.un" .none .conversion .sequential,
  op "conv.ovf.u2.un" .none .conversion .sequential,
  op "conv.ovf.u4.un" .none .conversion .sequential,
  op "conv.ovf.u8.un" .none .conversion .sequential,
  op "conv.ovf.i.un" .none .conversion .sequential,
  op "conv.ovf.u.un" .none .conversion .sequential,
  op "box" .token .conversion .sequential,
  op "newarr" .token .objectModel .sequential,
  op "ldlen" .none .objectModel .sequential,
  op "ldelema" .token .objectModel .sequential,
  -- 0x90
  op "ldelem.i1" .none .loadStore .sequential,
  op "ldelem.u1" .none .loadStore .sequential,
  op "ldelem.i2" .none .loadStore .sequential,
  op "ldelem.u2" .none .loadStore .sequential,
  op "ldelem.i4" .none .loadStore .sequential,
  op "ldelem.u4" .none .loadStore .sequential,
  op "ldelem.i8" .none .loadStore .sequential,
  op "ldelem.i" .none .loadStore .sequential,
  op "ldelem.r4" .none .loadStore .sequential,
  op "ldelem.r8" .none .loadStore .sequential,
  op "ldelem.ref" .none .loadStore .sequential,
  op "stelem.i" .none .loadStore .sequential,
  op "stelem.i1" .none .loadStore .sequential,
  op "stelem.i2" .none .loadStore .sequential,
  op "stelem.i4" .none .loadStore .sequential,
  op "stelem.i8" .none .loadStore .sequential,
  -- 0xA0
  op "stelem.r4" .none .loadStore .sequential,
  op "stelem.r8" .none .loadStore .sequential,
  op "stelem.ref" .none .loadStore .sequential,
  op "ldelem" .token .loadStore .sequential,
  op "stelem" .token .loadStore .sequential,
  op "unbox.any" .token .objectModel .sequential,
  none,
  none,
  none,
  none,
  none,
  none,
  none,
  none,
  none,
  none,
  -- 0xB0
  none,
  none,
  none,
  op "conv.ovf.i1" .none .conversion .sequential,
  op "conv.ovf.u1" .none .conversion .sequential,
  op "conv.ovf.i2" .none .conversion .sequential,
  op "conv.ovf.u2" .none .conversion .sequential,
  op "conv.ovf.i4" .none .conversion .sequential,
  op "conv.ovf.u4" .none .conversion .sequential,
  op "conv.ovf.i8" .none .conversion .sequential,
  op "conv.ovf.u8" .none .conversion .sequential,
  none,
  none,
  none,
  none,
  none,
  -- 0xC0
  none,
  none,
  op "refanyval" .token .objectModel .sequential,
  op "ckfinite" .none .arithmetic .sequential,
  none,
  none,
  op "mkrefany" .token .objectModel .sequential,
  none,
  none,
  none,
  none,
  none,
  none,
  none,
  none,
  none,
  -- 0xD0
  op "ldtoken" .token .loadStore .sequential,
  op "conv.u2" .none .conversion .sequential,
  op "conv.u1" .none .conversion .sequential,
  op "conv.i" .none .conversion .sequential,
  op "conv.ovf.i" .none .conversion .sequential,
  op "conv.ovf.u" .none .conversion .sequential,
  op "add.ovf" .none .arithmetic .sequential,
  op "add.ovf.un" .none .arithmetic .sequential,
  op "mul.ovf" .none .arithmetic .sequential,
  op "mul.ovf.un" .none .arithmetic .sequential,
  op "sub.ovf" .none .arithmetic .sequential,
  op "sub.ovf.un" .none .arithmetic .sequential,
  op "endfinally" .none .controlFlow .endFinally,
  op "leave" .target .controlFlow .leave,
  op "leave.s" .shortTarget .controlFlow .leave,
  op "stind.i" .none .loadStore .sequential,
  -- 0xE0
  op "conv.u" .none .conversion .sequential]

/-- Opcodes of two bytes, by their second byte. -/
def extended : Array (Option OpcodeInfo) := #[
  -- 0x00
  op "arglist" .none .miscellaneous .sequential,
  op "ceq" .none .comparison .sequential,
  op "cgt" .none .comparison .sequential,
  op "cgt.un" .none .comparison .sequential,
  op "clt" .none .comparison .sequential,
  op "clt.un" .none .comparison .sequential,
  op "ldftn" .token .objectModel .sequential,
  op "ldvirtftn" .token .objectModel .sequential,
  none,
  op "ldarg" .uint16 .loadStore .sequential,
  op "ldarga" .uint16 .loadStore .sequential,
  op "starg" .uint16 .loadStore .sequential,
  op "ldloc" .uint16 .loadStore .sequential,
  op "ldloca" .uint16 .loadStore .sequential,
  op "stloc" .uint16 .loadStore .sequential,
  op "localloc" .none .miscellaneous .sequential,
  -- 0x10
  none,
  op "endfilter" .none .controlFlow .endFinally,
  op "unaligned." .uint8 .modifier .sequential,
  op "volatile." .none .modifier .sequential,
  op "tail." .none .modifier .sequential,
  op "initobj" .token .objectModel .sequential,
  op "constrained." .token .modifier .sequential,
  op "cpblk" .none .miscellaneous .sequential,
  op "initblk" .none .miscellaneous .sequential,
  op "no." .uint8 .modifier .sequential,
  op "rethrow" .none .controlFlow .throw,
  none,
  op "sizeof" .token .objectModel .sequential,
  op "refanytype" .none .objectModel .sequential,
  op "readonly." .none .modifier .sequential]

/-- The byte in front of the opcodes of the extended page. -/
def extendedPage : UInt8 := 0xFE

/-- The entry of an opcode; `page` is `0` for the base page. -/
def lookup (page code : UInt8) : Option OpcodeInfo :=
  if page = 0 then (base[code.toNat]?).join
  else if page = extendedPage then (extended[code.toNat]?).join
  else none

end OpcodeTable

/-- An opcode with its entry in the tables. -/
structure Opcode where
  page : UInt8
  code : UInt8
  info : OpcodeInfo
  listed : OpcodeTable.lookup page code = some info
  deriving DecidableEq

namespace Opcode

def find? (page code : UInt8) : Option Opcode :=
  match h : OpcodeTable.lookup page code with
  | some info => some ⟨page, code, info, h⟩
  | none => none

/-- Encoded size in bytes. -/
def size (o : Opcode) : Nat :=
  if o.page = OpcodeTable.extendedPage then 2 else 1

/-- The code of the long form of a short branch: the short forms lie 13 places before the long ones, but for `leave`. -/
def longCode? (code : UInt8) : Option UInt8 :=
  if 0x2B ≤ code ∧ code ≤ 0x37 then some (code + 13)
  else if code = 0xDE then some 0xDD
  else none

/-- The long form of a short branch. -/
def longForm? (o : Opcode) : Option Opcode :=
  (longCode? o.code).bind (find? o.page)

theorem find?_eq_some {page code : UInt8} {info : OpcodeInfo} (h : OpcodeTable.lookup page code = some info) :
    find? page code = some ⟨page, code, info, h⟩ := by
  unfold find?
  split
  · next found hf =>
    cases hf.symm.trans h
    rfl
  · next hf => cases hf.symm.trans h

/-- Every entry for a short target has a long form for a wide one, with the same flow. -/
theorem longCode_listed : ∀ page ∈ [0, OpcodeTable.extendedPage], ∀ n : Fin 256,
    ∀ info ∈ OpcodeTable.lookup page (UInt8.ofNat n), info.operand = .shortTarget →
    ∃ long ∈ (longCode? (UInt8.ofNat n)).bind (OpcodeTable.lookup page),
      long.operand = .target ∧ long.flow = info.flow := by
  decide +kernel

theorem page_of_listed (o : Opcode) : o.page ∈ [0, OpcodeTable.extendedPage] := by
  have h := o.listed
  unfold OpcodeTable.lookup at h
  by_cases h0 : o.page = 0
  · simp [h0]
  · by_cases h1 : o.page = OpcodeTable.extendedPage
    · simp [h1]
    · simp [h0, h1] at h

/-- A short branch has a long form. -/
theorem exists_longForm (o : Opcode) (h : o.info.operand = .shortTarget) :
    ∃ long, o.longForm? = some long ∧ long.info.operand = .target ∧ long.info.flow = o.info.flow := by
  have hl : OpcodeTable.lookup o.page (UInt8.ofNat o.code.toNat) = some o.info := by
    rw [UInt8.ofNat_toNat]; exact o.listed
  obtain ⟨long, hlong, hop, hflow⟩ :=
    longCode_listed o.page o.page_of_listed ⟨o.code.toNat, o.code.toNat_lt⟩ o.info hl h
  simp only [UInt8.ofNat_toNat, Option.mem_def, Option.bind_eq_some_iff] at hlong
  obtain ⟨code, hcode, hpage⟩ := hlong
  refine ⟨⟨o.page, code, long, hpage⟩, ?_, hop, hflow⟩
  simp [longForm?, hcode, find?_eq_some hpage]

end Opcode

end CilProbes
