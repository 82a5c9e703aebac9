import CilCodec.Proofs.Bytes.Advancing
import CilCodec.Proofs.Bytes.Writing

/-!
# CilCodec.Proofs.Checked.Arithmetic

Steps that can fault.

Readers compute with numbers of any size, and look at bytes through functions that have an answer
everywhere. A machine has words of 64 and of 32 bits, and slices with bounds. A `Checked` step names
the word of each sum, difference and product, and the bounds of each slice. Leaving them is a
`Fault`.

`ofReader r` runs `r` as a checked step, without a fault. That a checked step is `ofReader r` at a
cursor is what the other modules of this directory show of each decoder.
-/

namespace CilCodec

/-- A step over a cursor that answers, fails or faults. -/
abbrev Checked := EStateM Stop Cursor

namespace Checked

variable {α β : Type}

def fault (f : Fault) : Checked α := throw (.fault f)

def refuse (e : Error) : Checked α := throw (.refused e)

/-- A reader, which does not fault, as a checked step. -/
def ofReader (r : Reader α) : Checked α := fun c =>
  match r c with
  | .ok a c => .ok a c
  | .error e c => .error (.refused e) c

/-- What a checked step over all of `data` answers, or why it stopped. -/
def answer (m : Checked α) (data : Array UInt8) : Except Stop α :=
  match m (Cursor.start data) with
  | .ok a _ => .ok a
  | .error stop _ => .error stop

/-! ## Words -/

/-- Numbers that a 64-bit word holds. -/
def usizeBound : Nat := 0x10000000000000000

/-- Numbers that a 32-bit word holds. -/
def u32Bound : Nat := 0x100000000

/-- The number, which has to be below the bound of its word. -/
def below (bound n : Nat) : Checked Nat := if n < bound then pure n else fault .overflow

def addUsize (a b : Nat) : Checked Nat := below usizeBound (a + b)

def mulUsize (a b : Nat) : Checked Nat := below usizeBound (a * b)

def addU32 (a b : Nat) : Checked Nat := below u32Bound (a + b)

/-- A difference of unsigned words. -/
def sub (a b : Nat) : Checked Nat := if b ≤ a then pure (a - b) else fault .overflow

/-- A remainder. -/
def rem (a b : Nat) : Checked Nat := if b = 0 then fault .overflow else pure (a % b)

/-- A quotient. -/
def div (a b : Nat) : Checked Nat := if b = 0 then fault .overflow else pure (a / b)

/-- A sum of signed 64-bit words. -/
def addInt64 (a b : Int64) : Checked Int64 :=
  if inInt64 (a.toInt + b.toInt) then pure (a + b) else fault .overflow

/-- The sum, if a word holds it. -/
def add? (a b : Nat) : Option Nat := if a + b < usizeBound then some (a + b) else none

/-- The product, or the greatest number that a word holds. -/
def mulOrMax (a b : Nat) : Nat := if a * b < usizeBound then a * b else usizeBound - 1

section Words

variable {a b : Nat}

theorem addUsize_eq (h : a + b < usizeBound) : addUsize a b = pure (a + b) := if_pos h

theorem mulUsize_eq (h : a * b < usizeBound) : mulUsize a b = pure (a * b) := if_pos h

theorem addU32_eq (h : a + b < u32Bound) : addU32 a b = pure (a + b) := if_pos h

theorem sub_eq (h : b ≤ a) : sub a b = pure (a - b) := if_pos h

theorem rem_eq (h : b ≠ 0) : rem a b = pure (a % b) := if_neg h

theorem div_eq (h : b ≠ 0) : div a b = pure (a / b) := if_neg h

theorem addInt64_eq {a b : Int64} (hlow : -0x8000000000000000 ≤ a.toInt + b.toInt)
    (hhigh : a.toInt + b.toInt < 0x8000000000000000) : addInt64 a b = pure (a + b) :=
  if_pos (inInt64_iff.mpr ⟨hlow, hhigh⟩)

theorem mulOrMax_eq (h : a * b < usizeBound) : mulOrMax a b = a * b := if_pos h

end Words

/-! ## Slices -/

/-- The bytes from `start` up to `stop`. -/
def slice (data : Array UInt8) (start stop : Nat) : Checked (Array UInt8) :=
  if start ≤ stop ∧ stop ≤ data.size then pure (data.extract start stop) else fault .outOfBounds

/-- The element at a place. -/
def element {n : Nat} (xs : Vector α n) (place : Nat) : Checked α :=
  match xs[place]? with
  | some a => pure a
  | none => fault .outOfBounds

/-- The elements with the one at a place changed. -/
def setElement {n : Nat} (xs : Vector α n) (place : Nat) (a : α) : Checked (Vector α n) :=
  if h : place < n then pure (xs.set place a) else fault .outOfBounds

theorem slice_eq {data : Array UInt8} {start stop : Nat} (h : start ≤ stop)
    (h' : stop ≤ data.size) : slice data start stop = pure (data.extract start stop) :=
  if_pos ⟨h, h'⟩

theorem element_eq {n : Nat} {xs : Vector α n} {place : Nat} (h : place < n) :
    element xs place = pure xs[place] := by
  rw [element, Vector.getElem?_eq_getElem h]

theorem setElement_eq {n : Nat} {xs : Vector α n} {place : Nat} (h : place < n) (a : α) :
    setElement xs place a = pure (xs.set place a) :=
  dif_pos h

/-! ## Readers as checked steps -/

theorem ofReader_of_ok {r : Reader α} {c c' : Cursor} {a : α} (h : r c = .ok a c') :
    ofReader r c = .ok a c' := by
  rw [ofReader, h]

theorem ofReader_of_error {r : Reader α} {c c' : Cursor} {e : Error} (h : r c = .error e c') :
    ofReader r c = .error (.refused e) c' := by
  rw [ofReader, h]

/-- A step that does not fault over the whole of the data answers what its reader does. -/
theorem answer_eq {m : Checked α} {r : Reader α} {data : Array UInt8}
    (h : m (Cursor.start data) = ofReader r (Cursor.start data)) :
    m.answer data = (r.answer data).mapError .refused := by
  unfold answer Reader.answer Reader.report
  rw [h]
  unfold ofReader
  cases r (Cursor.start data) <;> rfl

end Checked

end CilCodec
