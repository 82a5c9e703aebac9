/-!
# CilCodec.Text.Hex

Hexadecimal texts of numbers, padded with zeros to a least width.
-/

namespace CilCodec

/-- Lower case hexadecimal digits of `n`, at least `width` of them. -/
def lowerHex (width n : Nat) : String :=
  String.ofList ((Nat.toDigits 16 n).leftpad width '0')

/-- Upper case hexadecimal digits of `n`, at least `width` of them. -/
def upperHex (width n : Nat) : String :=
  String.ofList (((Nat.toDigits 16 n).map Char.toUpper).leftpad width '0')

example : lowerHex 4 0x1ab = "01ab" ∧ upperHex 2 0x1ab = "1AB" ∧ lowerHex 4 0 = "0000" := by
  decide +kernel

end CilCodec
