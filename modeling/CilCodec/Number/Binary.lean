import CilCodec.Bytes.LittleEndian

/-!
# CilCodec.Number.Binary

IEC 60559 binary32 and binary64 values, kept as their bits.

Two values are equal exactly when their bits are, so a NaN keeps its payload and the two zeros stay
apart. `sameNumber` is the comparison of numbers: no NaN equals anything, and the zeros are one.
`Binary.finite?` splits a finite value into an integer significand and a power of two.
-/

namespace CilCodec

/-- A binary32 value, as its 32 bits. -/
structure Binary32 where
  bits : UInt32
deriving DecidableEq, Repr, Inhabited

/-- A binary64 value, as its 64 bits. -/
structure Binary64 where
  bits : UInt64
deriving DecidableEq, Repr, Inhabited

instance : LittleEndian Binary32 where
  size := 4
  toBits a := a.bits.toNat
  ofBits n := ⟨UInt32.ofNat n⟩
  toBits_lt a := a.bits.toNat_lt
  ofBits_toBits a := by simp
  toBits_ofBits n h := LittleEndian.toBits_ofBits (α := UInt32) n h

instance : LittleEndian Binary64 where
  size := 8
  toBits a := a.bits.toNat
  ofBits n := ⟨UInt64.ofNat n⟩
  toBits_lt a := a.bits.toNat_lt
  ofBits_toBits a := by simp
  toBits_ofBits n h := LittleEndian.toBits_ofBits (α := UInt64) n h

/-- A binary interchange format: how its bits divide into exponent and fraction. -/
structure BinaryFormat where
  exponentBits : Nat
  fractionBits : Nat
deriving DecidableEq, Repr

namespace BinaryFormat

def binary32 : BinaryFormat := ⟨8, 23⟩

def binary64 : BinaryFormat := ⟨11, 52⟩

/-- Decimal digits that are always enough to tell two values of the format apart. -/
def maxDigits (f : BinaryFormat) : Nat := (f.fractionBits + 1) * 30103 / 100000 + 2

end BinaryFormat

/-- What a bit pattern stands for. -/
inductive Binary where
  | nan
  | infinity (negative : Bool)
  /-- The value `significand * 2 ^ exponent`. `lowest` marks a significand that is the least of its
  binade, below which values lie twice as close. -/
  | finite (negative : Bool) (significand : Nat) (exponent : Int) (lowest : Bool)
deriving DecidableEq, Repr

namespace Binary

/-- Reads the bit pattern `bits` in format `f`. -/
def ofBits (f : BinaryFormat) (bits : Nat) : Binary :=
  let fraction := bits % (1 <<< f.fractionBits)
  let biased := (bits >>> f.fractionBits) % (1 <<< f.exponentBits)
  let negative := bits.testBit (f.fractionBits + f.exponentBits)
  /- the exponent of the last place of a subnormal value -/
  let least : Int := 2 - (1 <<< (f.exponentBits - 1) : Nat) - f.fractionBits
  if biased = (1 <<< f.exponentBits) - 1 then
    if fraction = 0 then .infinity negative else .nan
  else if biased = 0 then
    .finite negative fraction least false
  else
    .finite negative ((1 <<< f.fractionBits) + fraction) (least + (biased - 1 : Nat))
      (fraction == 0 && biased != 1)

def isNaN : Binary → Bool
  | nan => true
  | _ => false

def isZero : Binary → Bool
  | finite _ significand _ _ => significand == 0
  | _ => false

/-- Equality of the numbers: a NaN equals nothing, and the two zeros are equal. -/
def sameNumber (a b : Binary) : Bool :=
  !a.isNaN && !b.isNaN && (a == b || (a.isZero && b.isZero))

end Binary

def Binary32.value (a : Binary32) : Binary := .ofBits .binary32 a.bits.toNat

def Binary64.value (a : Binary64) : Binary := .ofBits .binary64 a.bits.toNat

end CilCodec
