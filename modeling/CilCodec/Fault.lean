import CilCodec.Error

/-!
# CilCodec.Fault

Outcomes that are no errors.

An error is an answer: it says what is wrong with what was handed in. A fault is none. Arithmetic
has left the word it is done in, and the run ends there, with nothing said and nothing caught. A
step that can do both stops for one of them (`Stop`).
-/

namespace CilCodec

/-- What a machine can trip over. -/
inductive Fault where
  /-- A number that its word cannot hold, or a division by zero. -/
  | overflow
  /-- A slice or an element that is not there. -/
  | outOfBounds
  /-- A loop that goes on when all bytes that were left must have been taken. -/
  | endless
deriving DecidableEq, Repr

/-- Why a step stopped. -/
inductive Stop where
  | fault (f : Fault)
  | refused (e : Error)
deriving DecidableEq, Repr

/-- Whether a signed 64-bit word can hold a number. -/
def inInt64 (n : Int) : Bool := -0x8000000000000000 ≤ n && n < 0x8000000000000000

/-- The difference of signed 64-bit words, which has to be one. -/
def subInt64 (a b : Int64) : Except Stop Int64 :=
  if inInt64 (a.toInt - b.toInt) then .ok (a - b) else .error (.fault .overflow)

theorem inInt64_iff {n : Int} :
    inInt64 n = true ↔ -0x8000000000000000 ≤ n ∧ n < 0x8000000000000000 := by
  rw [inInt64, Bool.and_eq_true, decide_eq_true_iff, decide_eq_true_iff]

/-- Within its word, a difference is exact. -/
theorem toInt_sub_of_inInt64 {a b : Int64} (h : inInt64 (a.toInt - b.toInt) = true) :
    (a - b).toInt = a.toInt - b.toInt := by
  obtain ⟨hlow, hhigh⟩ := inInt64_iff.mp h
  rw [Int64.toInt_sub]
  exact Int.bmod_eq_of_le hlow hhigh

theorem subInt64_eq_ok {a b c : Int64} : subInt64 a b = .ok c ↔ c.toInt = a.toInt - b.toInt := by
  unfold subInt64
  split
  next h =>
    rw [Except.ok.injEq, ← Int64.toInt_inj, toInt_sub_of_inInt64 h]
    exact eq_comm
  next h =>
    refine ⟨fun hok => (nomatch hok), fun hexact => absurd ?_ h⟩
    rw [← hexact, inInt64_iff]
    exact ⟨c.le_toInt, c.toInt_lt⟩

theorem subInt64_eq_error {a b : Int64} {stop : Stop} :
    subInt64 a b = .error stop ↔
      stop = .fault .overflow ∧ inInt64 (a.toInt - b.toInt) = false := by
  unfold subInt64
  cases inInt64 (a.toInt - b.toInt) <;> simp [eq_comm]

end CilCodec
