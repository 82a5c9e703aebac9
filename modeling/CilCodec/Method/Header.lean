import CilCodec.Bytes.Buffer
import CilCodec.Bytes.Cursor

/-!
# CilCodec.Method.Header

Headers of method bodies (II.25.4.2, II.25.4.3).

A tiny header is one byte, with the code size above the format bits. A fat header says itself how
large it is, in units of four bytes; what it has beyond its twelve bytes of fields is skipped.
-/

namespace CilCodec

/-- The header of a method body. -/
inductive MethodHeader where
  | tiny (codeSize : UInt32)
  | fat (flags maxStack : UInt16) (codeSize : UInt32) (localSignature : Token)
deriving DecidableEq, Repr

namespace MethodHeader

/-- The most code a tiny header can announce. -/
def tinyMaxCode : Nat := 63

/-- The stack depth a tiny header stands for. -/
def tinyMaxStack : UInt16 := 8

/-- Bytes of the fields of a fat header. -/
def fatSize : Nat := 12

/-- The low two bits of a body with a tiny header. -/
def tinyFormat : Nat := 2

/-- The low two bits of a body with a fat header. -/
def fatFormat : Nat := 3

/-- The bit of the fat flags that announces sections behind the code. -/
def sectionsBit : Nat := 3

/-- The bit of the fat flags that asks for zeroed local variables. -/
def initLocalsBit : Nat := 4

def isFat : MethodHeader → Bool
  | tiny _ => false
  | fat .. => true

def codeSize : MethodHeader → UInt32
  | tiny codeSize => codeSize
  | fat _ _ codeSize _ => codeSize

def maxStack : MethodHeader → UInt16
  | tiny _ => tinyMaxStack
  | fat _ maxStack _ _ => maxStack

def localSignature : MethodHeader → Token
  | tiny _ => ⟨0⟩
  | fat _ _ _ localSignature => localSignature

/-- The flags of a fat header. -/
def flags? : MethodHeader → Option UInt16
  | tiny _ => none
  | fat flags _ _ _ => some flags

def initLocals : MethodHeader → Bool
  | tiny _ => false
  | fat flags _ _ _ => flags.toNat.testBit initLocalsBit

/-- Whether sections follow the code. -/
def hasSections : MethodHeader → Bool
  | tiny _ => false
  | fat flags _ _ _ => flags.toNat.testBit sectionsBit

open Reader in
/-- Reads a fat header. -/
def fatReader : Reader MethodHeader := do
  let start ← position
  ensure fatSize
  let flagsAndSize ← word UInt16
  let maxStack ← word UInt16
  let codeSize ← word UInt32
  let localSignature ← word UInt32
  let size := flagsAndSize.toNat / 0x1000 * 4
  if size < fatSize then
    throw (.malformed (.headerSize size) start)
  if fatSize < size then
    note (.headerExtra (size - fatSize))
    advance (size - fatSize)
  return .fat (UInt16.ofNat (flagsAndSize.toNat % 0x1000)) maxStack codeSize ⟨localSignature⟩

open Reader in
/-- Reads a header. -/
def reader : Reader MethodHeader := do
  let start ← position
  let first ← peekByte
  if first.toNat % 4 = tinyFormat then
    advance 1
    return .tiny (UInt32.ofNat (first.toNat / 4))
  else if first.toNat % 4 = fatFormat then
    fatReader
  else
    throw (.malformed (.headerFormat first) start)

open Writer in
/-- Writes a header. The size of a fat header is always that of its fields. -/
def writer : MethodHeader → Writer Unit
  | tiny codeSize => do
    if tinyMaxCode < codeSize.toNat then
      throw (.refused (.malformed (.tinyCodeSize codeSize.toNat) (← position)))
    word (UInt8.ofNat (codeSize.toNat * 4 + tinyFormat))
  | fat flags maxStack codeSize localSignature => do
    word (UInt16.ofNat (fatSize / 4 * 0x1000 + flags.toNat % 0x1000))
    word maxStack
    word codeSize
    word localSignature.value

end MethodHeader

end CilCodec
