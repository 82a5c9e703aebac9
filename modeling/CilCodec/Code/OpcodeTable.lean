import CilCodec.Code.OperandKind

/-!
# CilCodec.Code.OpcodeTable

The opcodes of the instruction set (III.1.2.1, III.3, III.4), one row each.

An opcode is one byte, or the byte `0xfe` and a second one. The rows stand in ascending order, those
of one byte first (`opcodeRows_ascending`), so no two of them are spelled alike.
-/

namespace CilCodec

/-- The byte in front of the code of a two-byte opcode. -/
def longOpcodeMark : UInt8 := 0xfe

/-- What the standard says about one opcode. -/
structure OpcodeRow where
  /-- Whether `longOpcodeMark` stands in front of the code. -/
  isLong : Bool
  code : UInt8
  mnemonic : String
  operandKind : OperandKind
  flow : Flow
deriving DecidableEq, Repr, Inhabited

namespace OpcodeRow

/-- A one-byte opcode. -/
def short (code : UInt8) (mnemonic : String) (operandKind : OperandKind) (flow : Flow) :
    OpcodeRow :=
  ⟨false, code, mnemonic, operandKind, flow⟩

/-- A two-byte opcode. -/
def long (code : UInt8) (mnemonic : String) (operandKind : OperandKind) (flow : Flow) : OpcodeRow :=
  ⟨true, code, mnemonic, operandKind, flow⟩

/-- The order of the table: shorter opcodes first, then by code. -/
def before (a b : OpcodeRow) : Bool :=
  (!a.isLong && b.isLong) || (a.isLong == b.isLong && a.code < b.code)

theorem before_trans {a b c : OpcodeRow} (hab : a.before b = true) (hbc : b.before c = true) :
    a.before c = true := by
  simp only [before, Bool.or_eq_true, Bool.and_eq_true, Bool.not_eq_true', beq_iff_eq,
    decide_eq_true_eq, UInt8.lt_iff_toNat_lt] at *
  rcases hab with ⟨ha, hb⟩ | ⟨hab, hlt⟩ <;> rcases hbc with ⟨hb', hc⟩ | ⟨hbc, hlt'⟩
  · simp_all
  · exact Or.inl ⟨ha, hbc ▸ hb⟩
  · exact Or.inl ⟨hab ▸ hb', hc⟩
  · exact Or.inr ⟨hab.trans hbc, Nat.lt_trans hlt hlt'⟩

/-- Rows whose neighbours are in order are in order throughout. -/
theorem pairwise_of_neighbours :
    ∀ {rows : List OpcodeRow}, ((rows.zip rows.tail).all fun p => p.1.before p.2) = true →
      rows.Pairwise fun a b => a.before b = true
  | [], _ => List.Pairwise.nil
  | [_], _ => List.pairwise_singleton _ _
  | a :: b :: rows, h => by
    simp only [List.tail_cons, List.zip_cons_cons, List.all_cons, Bool.and_eq_true] at h
    have rest := @pairwise_of_neighbours (b :: rows) h.2
    refine List.Pairwise.cons (fun x hx => ?_) rest
    rcases List.mem_cons.mp hx with rfl | hx
    · exact h.1
    · exact before_trans h.1 (List.rel_of_pairwise_cons rest hx)

end OpcodeRow

open OpcodeRow in
/-- All opcodes. -/
def opcodeRows : Vector OpcodeRow 219 := #v[
  short 0x00 "nop" .none .sequential,
  short 0x01 "break" .none .sequential,
  short 0x02 "ldarg.0" .none .sequential,
  short 0x03 "ldarg.1" .none .sequential,
  short 0x04 "ldarg.2" .none .sequential,
  short 0x05 "ldarg.3" .none .sequential,
  short 0x06 "ldloc.0" .none .sequential,
  short 0x07 "ldloc.1" .none .sequential,
  short 0x08 "ldloc.2" .none .sequential,
  short 0x09 "ldloc.3" .none .sequential,
  short 0x0a "stloc.0" .none .sequential,
  short 0x0b "stloc.1" .none .sequential,
  short 0x0c "stloc.2" .none .sequential,
  short 0x0d "stloc.3" .none .sequential,
  short 0x0e "ldarg.s" .shortArgument .sequential,
  short 0x0f "ldarga.s" .shortArgument .sequential,
  short 0x10 "starg.s" .shortArgument .sequential,
  short 0x11 "ldloc.s" .shortLocal .sequential,
  short 0x12 "ldloca.s" .shortLocal .sequential,
  short 0x13 "stloc.s" .shortLocal .sequential,
  short 0x14 "ldnull" .none .sequential,
  short 0x15 "ldc.i4.m1" .none .sequential,
  short 0x16 "ldc.i4.0" .none .sequential,
  short 0x17 "ldc.i4.1" .none .sequential,
  short 0x18 "ldc.i4.2" .none .sequential,
  short 0x19 "ldc.i4.3" .none .sequential,
  short 0x1a "ldc.i4.4" .none .sequential,
  short 0x1b "ldc.i4.5" .none .sequential,
  short 0x1c "ldc.i4.6" .none .sequential,
  short 0x1d "ldc.i4.7" .none .sequential,
  short 0x1e "ldc.i4.8" .none .sequential,
  short 0x1f "ldc.i4.s" .int8 .sequential,
  short 0x20 "ldc.i4" .int32 .sequential,
  short 0x21 "ldc.i8" .int64 .sequential,
  short 0x22 "ldc.r4" .float32 .sequential,
  short 0x23 "ldc.r8" .float64 .sequential,
  short 0x25 "dup" .none .sequential,
  short 0x26 "pop" .none .sequential,
  short 0x27 "jmp" (.member .method) .call,
  short 0x28 "call" (.member .method) .call,
  short 0x29 "calli" (.member .signature) .call,
  short 0x2a "ret" .none .returns,
  short 0x2b "br.s" .shortBranch .unconditionalBranch,
  short 0x2c "brfalse.s" .shortBranch .conditionalBranch,
  short 0x2d "brtrue.s" .shortBranch .conditionalBranch,
  short 0x2e "beq.s" .shortBranch .conditionalBranch,
  short 0x2f "bge.s" .shortBranch .conditionalBranch,
  short 0x30 "bgt.s" .shortBranch .conditionalBranch,
  short 0x31 "ble.s" .shortBranch .conditionalBranch,
  short 0x32 "blt.s" .shortBranch .conditionalBranch,
  short 0x33 "bne.un.s" .shortBranch .conditionalBranch,
  short 0x34 "bge.un.s" .shortBranch .conditionalBranch,
  short 0x35 "bgt.un.s" .shortBranch .conditionalBranch,
  short 0x36 "ble.un.s" .shortBranch .conditionalBranch,
  short 0x37 "blt.un.s" .shortBranch .conditionalBranch,
  short 0x38 "br" .longBranch .unconditionalBranch,
  short 0x39 "brfalse" .longBranch .conditionalBranch,
  short 0x3a "brtrue" .longBranch .conditionalBranch,
  short 0x3b "beq" .longBranch .conditionalBranch,
  short 0x3c "bge" .longBranch .conditionalBranch,
  short 0x3d "bgt" .longBranch .conditionalBranch,
  short 0x3e "ble" .longBranch .conditionalBranch,
  short 0x3f "blt" .longBranch .conditionalBranch,
  short 0x40 "bne.un" .longBranch .conditionalBranch,
  short 0x41 "bge.un" .longBranch .conditionalBranch,
  short 0x42 "bgt.un" .longBranch .conditionalBranch,
  short 0x43 "ble.un" .longBranch .conditionalBranch,
  short 0x44 "blt.un" .longBranch .conditionalBranch,
  short 0x45 "switch" .switchTable .switch,
  short 0x46 "ldind.i1" .none .sequential,
  short 0x47 "ldind.u1" .none .sequential,
  short 0x48 "ldind.i2" .none .sequential,
  short 0x49 "ldind.u2" .none .sequential,
  short 0x4a "ldind.i4" .none .sequential,
  short 0x4b "ldind.u4" .none .sequential,
  short 0x4c "ldind.i8" .none .sequential,
  short 0x4d "ldind.i" .none .sequential,
  short 0x4e "ldind.r4" .none .sequential,
  short 0x4f "ldind.r8" .none .sequential,
  short 0x50 "ldind.ref" .none .sequential,
  short 0x51 "stind.ref" .none .sequential,
  short 0x52 "stind.i1" .none .sequential,
  short 0x53 "stind.i2" .none .sequential,
  short 0x54 "stind.i4" .none .sequential,
  short 0x55 "stind.i8" .none .sequential,
  short 0x56 "stind.r4" .none .sequential,
  short 0x57 "stind.r8" .none .sequential,
  short 0x58 "add" .none .sequential,
  short 0x59 "sub" .none .sequential,
  short 0x5a "mul" .none .sequential,
  short 0x5b "div" .none .sequential,
  short 0x5c "div.un" .none .sequential,
  short 0x5d "rem" .none .sequential,
  short 0x5e "rem.un" .none .sequential,
  short 0x5f "and" .none .sequential,
  short 0x60 "or" .none .sequential,
  short 0x61 "xor" .none .sequential,
  short 0x62 "shl" .none .sequential,
  short 0x63 "shr" .none .sequential,
  short 0x64 "shr.un" .none .sequential,
  short 0x65 "neg" .none .sequential,
  short 0x66 "not" .none .sequential,
  short 0x67 "conv.i1" .none .sequential,
  short 0x68 "conv.i2" .none .sequential,
  short 0x69 "conv.i4" .none .sequential,
  short 0x6a "conv.i8" .none .sequential,
  short 0x6b "conv.r4" .none .sequential,
  short 0x6c "conv.r8" .none .sequential,
  short 0x6d "conv.u4" .none .sequential,
  short 0x6e "conv.u8" .none .sequential,
  short 0x6f "callvirt" (.member .method) .call,
  short 0x70 "cpobj" (.member .type) .sequential,
  short 0x71 "ldobj" (.member .type) .sequential,
  short 0x72 "ldstr" .userString .sequential,
  short 0x73 "newobj" (.member .method) .call,
  short 0x74 "castclass" (.member .type) .sequential,
  short 0x75 "isinst" (.member .type) .sequential,
  short 0x76 "conv.r.un" .none .sequential,
  short 0x79 "unbox" (.member .type) .sequential,
  short 0x7a "throw" .none .throws,
  short 0x7b "ldfld" (.member .field) .sequential,
  short 0x7c "ldflda" (.member .field) .sequential,
  short 0x7d "stfld" (.member .field) .sequential,
  short 0x7e "ldsfld" (.member .field) .sequential,
  short 0x7f "ldsflda" (.member .field) .sequential,
  short 0x80 "stsfld" (.member .field) .sequential,
  short 0x81 "stobj" (.member .type) .sequential,
  short 0x82 "conv.ovf.i1.un" .none .sequential,
  short 0x83 "conv.ovf.i2.un" .none .sequential,
  short 0x84 "conv.ovf.i4.un" .none .sequential,
  short 0x85 "conv.ovf.i8.un" .none .sequential,
  short 0x86 "conv.ovf.u1.un" .none .sequential,
  short 0x87 "conv.ovf.u2.un" .none .sequential,
  short 0x88 "conv.ovf.u4.un" .none .sequential,
  short 0x89 "conv.ovf.u8.un" .none .sequential,
  short 0x8a "conv.ovf.i.un" .none .sequential,
  short 0x8b "conv.ovf.u.un" .none .sequential,
  short 0x8c "box" (.member .type) .sequential,
  short 0x8d "newarr" (.member .type) .sequential,
  short 0x8e "ldlen" .none .sequential,
  short 0x8f "ldelema" (.member .type) .sequential,
  short 0x90 "ldelem.i1" .none .sequential,
  short 0x91 "ldelem.u1" .none .sequential,
  short 0x92 "ldelem.i2" .none .sequential,
  short 0x93 "ldelem.u2" .none .sequential,
  short 0x94 "ldelem.i4" .none .sequential,
  short 0x95 "ldelem.u4" .none .sequential,
  short 0x96 "ldelem.i8" .none .sequential,
  short 0x97 "ldelem.i" .none .sequential,
  short 0x98 "ldelem.r4" .none .sequential,
  short 0x99 "ldelem.r8" .none .sequential,
  short 0x9a "ldelem.ref" .none .sequential,
  short 0x9b "stelem.i" .none .sequential,
  short 0x9c "stelem.i1" .none .sequential,
  short 0x9d "stelem.i2" .none .sequential,
  short 0x9e "stelem.i4" .none .sequential,
  short 0x9f "stelem.i8" .none .sequential,
  short 0xa0 "stelem.r4" .none .sequential,
  short 0xa1 "stelem.r8" .none .sequential,
  short 0xa2 "stelem.ref" .none .sequential,
  short 0xa3 "ldelem" (.member .type) .sequential,
  short 0xa4 "stelem" (.member .type) .sequential,
  short 0xa5 "unbox.any" (.member .type) .sequential,
  short 0xb3 "conv.ovf.i1" .none .sequential,
  short 0xb4 "conv.ovf.u1" .none .sequential,
  short 0xb5 "conv.ovf.i2" .none .sequential,
  short 0xb6 "conv.ovf.u2" .none .sequential,
  short 0xb7 "conv.ovf.i4" .none .sequential,
  short 0xb8 "conv.ovf.u4" .none .sequential,
  short 0xb9 "conv.ovf.i8" .none .sequential,
  short 0xba "conv.ovf.u8" .none .sequential,
  short 0xc2 "refanyval" (.member .type) .sequential,
  short 0xc3 "ckfinite" .none .sequential,
  short 0xc6 "mkrefany" (.member .type) .sequential,
  short 0xd0 "ldtoken" (.member .token) .sequential,
  short 0xd1 "conv.u2" .none .sequential,
  short 0xd2 "conv.u1" .none .sequential,
  short 0xd3 "conv.i" .none .sequential,
  short 0xd4 "conv.ovf.i" .none .sequential,
  short 0xd5 "conv.ovf.u" .none .sequential,
  short 0xd6 "add.ovf" .none .sequential,
  short 0xd7 "add.ovf.un" .none .sequential,
  short 0xd8 "mul.ovf" .none .sequential,
  short 0xd9 "mul.ovf.un" .none .sequential,
  short 0xda "sub.ovf" .none .sequential,
  short 0xdb "sub.ovf.un" .none .sequential,
  short 0xdc "endfinally" .none .endFinally,
  short 0xdd "leave" .longBranch .leave,
  short 0xde "leave.s" .shortBranch .leave,
  short 0xdf "stind.i" .none .sequential,
  short 0xe0 "conv.u" .none .sequential,
  long 0x00 "arglist" .none .sequential,
  long 0x01 "ceq" .none .sequential,
  long 0x02 "cgt" .none .sequential,
  long 0x03 "cgt.un" .none .sequential,
  long 0x04 "clt" .none .sequential,
  long 0x05 "clt.un" .none .sequential,
  long 0x06 "ldftn" (.member .method) .sequential,
  long 0x07 "ldvirtftn" (.member .method) .sequential,
  long 0x09 "ldarg" .longArgument .sequential,
  long 0x0a "ldarga" .longArgument .sequential,
  long 0x0b "starg" .longArgument .sequential,
  long 0x0c "ldloc" .longLocal .sequential,
  long 0x0d "ldloca" .longLocal .sequential,
  long 0x0e "stloc" .longLocal .sequential,
  long 0x0f "localloc" .none .sequential,
  long 0x11 "endfilter" .none .returns,
  long 0x12 "unaligned." .int8 .modifier,
  long 0x13 "volatile." .none .modifier,
  long 0x14 "tail." .none .modifier,
  long 0x15 "initobj" (.member .type) .sequential,
  long 0x16 "constrained." (.member .type) .modifier,
  long 0x17 "cpblk" .none .sequential,
  long 0x18 "initblk" .none .sequential,
  long 0x19 "no." .int8 .modifier,
  long 0x1a "rethrow" .none .throws,
  long 0x1c "sizeof" (.member .type) .sequential,
  long 0x1d "refanytype" .none .sequential,
  long 0x1e "readonly." .none .modifier]

theorem opcodeRows_ascending : opcodeRows.toList.Pairwise fun a b => a.before b = true :=
  OpcodeRow.pairwise_of_neighbours (by decide +kernel)

end CilCodec
