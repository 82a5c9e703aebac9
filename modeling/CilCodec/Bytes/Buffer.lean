import CilCodec.Bytes.Access
import CilCodec.Fault
import CilCodec.Notice

/-!
# CilCodec.Bytes.Buffer

Writing to the end of a run of bytes.

A `Buffer` is the bytes written so far and the notices made. A `Writer` takes a buffer to an answer
or stops, with an error or on a fault, and in each case gives the buffer after it: what a writer
wrote before it stopped stays.
-/

namespace CilCodec

/-- Bytes written so far, with the notices made on the way. -/
structure Buffer where
  bytes : Array UInt8
  notices : Array Notice
deriving DecidableEq, Repr, Inhabited

namespace Buffer

/-- The most bytes that a buffer can hold. -/
def limit : Nat := 0x7fffffffffffffff

/-- Nothing written. -/
def empty : Buffer := ⟨#[], #[]⟩

/-- A buffer that holds `bytes` already. -/
def ofBytes (bytes : Array UInt8) : Buffer := ⟨bytes, #[]⟩

/-- Number of bytes written. -/
def pos (b : Buffer) : Nat := b.bytes.size

/-- Bytes written since the buffer held `start`. -/
def since (b start : Buffer) : List UInt8 := b.bytes.toList.drop start.pos

/-- The buffer with more bytes at its end. -/
def append (b : Buffer) (bytes : List UInt8) : Buffer := { b with bytes := b.bytes ++ bytes }

@[simp] theorem toList_append (b : Buffer) (bytes : List UInt8) :
    (b.append bytes).bytes.toList = b.bytes.toList ++ bytes := by
  simp [append]

@[simp] theorem notices_append (b : Buffer) (bytes : List UInt8) :
    (b.append bytes).notices = b.notices := rfl

@[simp] theorem pos_append (b : Buffer) (bytes : List UInt8) :
    (b.append bytes).pos = b.pos + bytes.length := by
  simp only [pos, ← Array.length_toList, toList_append, List.length_append]

@[simp] theorem append_nil (b : Buffer) : b.append [] = b := by
  simp [append]

theorem append_append (b : Buffer) (first second : List UInt8) :
    (b.append first).append second = b.append (first ++ second) := by
  have h : b.bytes ++ first ++ second = b.bytes ++ (first ++ second) :=
    Array.toList_inj.mp (by simp)
  simp only [append, h]

end Buffer

/-- A step that writes to a buffer and answers or stops. -/
abbrev Writer := EStateM Stop Buffer

namespace Writer

/-- What a writer leaves in an empty buffer, or why it stopped, and the notices made. -/
def report (w : Writer Unit) : Except Stop (Array UInt8) × List Notice :=
  match w Buffer.empty with
  | .ok _ b => (.ok b.bytes, b.notices.toList)
  | .error stop b => (.error stop, b.notices.toList)

/-- What a writer leaves in an empty buffer, or why it stopped. -/
def answer (w : Writer Unit) : Except Stop (Array UInt8) := w.report.1

/-- Number of bytes written so far. -/
def position : Writer Nat := fun b => .ok b.pos b

/-- Makes a notice. -/
def note (n : Notice) : Writer Unit := fun b => .ok () { b with notices := b.notices.push n }

/-- Answers or stops as `answer` says. -/
def ofAnswer {α : Type} (answer : Except Stop α) : Writer α := fun b =>
  match answer with
  | .ok a => .ok a b
  | .error stop => .error stop b

/-- Answers or fails as `result` says. -/
def ofResult {α : Type} (result : Except Error α) : Writer α :=
  ofAnswer (result.mapError .refused)

/-- Writes bytes. -/
def put (bytes : List UInt8) : Writer Unit := fun b => .ok () (b.append bytes)

/-- Writes a word. -/
def word {α : Type} [LittleEndian α] (value : α) : Writer Unit := put (LittleEndian.encode value)

/-- Writes an index; a narrow column keeps its low 16 bits. -/
def index (width : IndexWidth) (value : UInt32) : Writer Unit :=
  match width with
  | .narrow => word value.toUInt16
  | .wide => word value

/-- Zero bytes that take `pos` to the next place a multiple of `unit` away from `origin`, on either
side of it. -/
def gap (origin pos unit : Nat) : Nat := (origin + (unit - pos % unit)) % unit

/-- Writes zeros up to the next multiple of `unit`, counted from `origin`. -/
def alignFrom (origin unit : Nat) : Writer Unit := fun b =>
  put (List.replicate (gap origin b.pos unit) 0) b

/-- Writes zeros up to the next multiple of `unit`. -/
def align (unit : Nat) : Writer Unit := alignFrom 0 unit

/-- Writes zeros from `pos` up to the next multiple of `unit`. Zero has no next multiple, and one
beyond what a buffer can hold is out of reach. -/
def align? (pos unit : Nat) : Option (Writer Unit) :=
  if unit = 0 ∨ Buffer.limit < pos + gap 0 pos unit then none else some (align unit)

theorem align?_eq_some {pos unit : Nat} (h : 0 < unit) (fits : pos + unit ≤ Buffer.limit) :
    align? pos unit = some (align unit) := by
  have : gap 0 pos unit < unit := Nat.mod_lt _ h
  exact if_neg (by omega)

example : gap 0 5 4 = 3 ∧ gap 5 9 4 = 0 ∧ gap 7 5 4 = 2 := by decide

/-- Runs a writer for each element in turn. -/
def each {α : Type} (write : α → Writer Unit) : List α → Writer Unit
  | [], b => .ok () b
  | a :: rest, b =>
    match write a b with
    | .ok _ b => each write rest b
    | .error stop b => .error stop b

@[simp] theorem put_apply (bytes : List UInt8) (b : Buffer) :
    put bytes b = .ok () (b.append bytes) := rfl

@[simp] theorem word_apply {α : Type} [LittleEndian α] (value : α) (b : Buffer) :
    word value b = .ok () (b.append (LittleEndian.encode value)) := rfl

end Writer

end CilCodec
