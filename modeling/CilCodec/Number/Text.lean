import CilCodec.Number.Shortest

/-!
# CilCodec.Number.Text

How binary values are written: as their shortest decimals, positionally or with an exponent.

`NumberStyle` holds every choice that the two texts of a value differ in. `NumberStyle.plain` is the
text of an operand in a listing, `NumberStyle.detailed` the one in a full dump.
-/

namespace CilCodec

/-- The choices made when a number is written. -/
structure NumberStyle where
  /-- Whether an integral value written positionally ends in `.0`. -/
  pointZero : Bool
  /-- Least and greatest exponent of the leading digit that are written positionally; without them
  every value is. -/
  positional : Option (Int × Int)
deriving DecidableEq, Repr

namespace NumberStyle

/-- No exponents, and integral values without a point. -/
def plain : NumberStyle := ⟨false, none⟩

/-- A point in every positional text; an exponent below `1e-4` and from `1e16` on. -/
def detailed : NumberStyle := ⟨true, some (-4, 15)⟩

def writesPositionally (s : NumberStyle) (magnitude : Int) : Bool :=
  match s.positional with
  | none => true
  | some (least, greatest) => least ≤ magnitude && magnitude ≤ greatest

/-- The digits with the point where the exponent puts it. -/
def positionalText (s : NumberStyle) (d : Decimal) : List Char :=
  let figures := d.figures
  if 0 ≤ d.exponent then
    figures ++ List.replicate d.exponent.toNat '0' ++ (if s.pointZero then ['.', '0'] else [])
  else
    let places := (-d.exponent).toNat
    if places < figures.length then
      figures.take (figures.length - places) ++ '.' :: figures.drop (figures.length - places)
    else
      '0' :: '.' :: (List.replicate (places - figures.length) '0' ++ figures)

/-- One digit, the point if more follow, and the exponent of the first. -/
def exponentText (d : Decimal) : List Char :=
  let exponent := 'e' :: (toString d.magnitude).toList
  match d.figures with
  | lead :: rest@(_ :: _) => lead :: '.' :: rest ++ exponent
  | figures => figures ++ exponent

def decimalText (s : NumberStyle) (d : Decimal) : List Char :=
  if s.writesPositionally d.magnitude then s.positionalText d else exponentText d

/-- The text of a value of format `f`. -/
def text (s : NumberStyle) (f : BinaryFormat) : Binary → String
  | .nan => "NaN"
  | .infinity negative => if negative then "-inf" else "inf"
  | .finite negative significand exponent lowest =>
    let figures :=
      if significand = 0 then s.positionalText ⟨0, 0⟩
      else s.decimalText (shortestDecimal f significand exponent lowest)
    String.ofList (if negative then '-' :: figures else figures)

end NumberStyle

def Binary32.text (a : Binary32) (s : NumberStyle) : String := s.text .binary32 a.value

def Binary64.text (a : Binary64) (s : NumberStyle) : String := s.text .binary64 a.value

end CilCodec
