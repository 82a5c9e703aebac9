import CilCodec.Bytes.Access
import CilCodec.Notice

/-!
# CilCodec.Bytes.Cursor

Reading from a run of bytes.

A `Cursor` is the bytes, the position of the next one and the notices made so far. A `Reader` takes
a cursor to an answer or an error, and in both cases to the cursor after it: where a failed reader
stopped can be observed. The readers of this module leave the position alone when they fail.
-/

namespace CilCodec

/-- A place in a run of bytes, with the notices made on the way there. -/
structure Cursor where
  data : Array UInt8
  pos : Nat
  notices : Array Notice
deriving DecidableEq, Repr, Inhabited

namespace Cursor

/-- The start of `data`. -/
def start (data : Array UInt8) : Cursor := ⟨data, 0, #[]⟩

/-- Number of bytes from the position on. -/
def remaining (c : Cursor) : Nat := c.data.size - c.pos

/-- Whether bytes follow. -/
def hasMore (c : Cursor) : Bool := c.pos < c.data.size

/-- The bytes from the position on. -/
def rest (c : Cursor) : List UInt8 := c.data.toList.drop c.pos

/-- The bytes up to the position. -/
def passed (c : Cursor) : Array UInt8 := c.data.extract 0 c.pos

end Cursor

/-- A step over a cursor that answers or fails. -/
abbrev Reader := EStateM Error Cursor

namespace Reader

/-- The answer or the error of a reader over all of `data`, and the notices made. -/
def report {α : Type} (r : Reader α) (data : Array UInt8) : Except Error α × List Notice :=
  match r (Cursor.start data) with
  | .ok a c => (.ok a, c.notices.toList)
  | .error e c => (.error e, c.notices.toList)

/-- The answer or the error of a reader over all of `data`. -/
def answer {α : Type} (r : Reader α) (data : Array UInt8) : Except Error α := (r.report data).1

/-! ## Position -/

/-- The position. -/
def position : Reader Nat := fun c => .ok c.pos c

/-- Makes a notice. -/
def note (n : Notice) : Reader Unit := fun c => .ok () { c with notices := c.notices.push n }

/-- Answers or fails as `result` says. -/
def ofResult {α : Type} (result : Except Error α) : Reader α := fun c =>
  match result with
  | .ok a => .ok a c
  | .error e => .error e c

/-- The position behind the next `count` bytes, which have to be there. -/
def endAfter (count : Nat) : Reader Nat := fun c =>
  if c.pos + count ≤ c.data.size then .ok (c.pos + count) c
  else .error (.truncated c.pos count) c

/-- Fails unless `count` more bytes are there. -/
def ensure (count : Nat) : Reader Unit := fun c =>
  if count ≤ c.remaining then .ok () c else .error (.truncated c.pos count) c

/-- Moves to a position, at most the end. -/
def seek (pos : Nat) : Reader Unit := fun c =>
  if pos ≤ c.data.size then .ok () { c with pos := pos }
  else .error (.truncated c.pos (pos - c.data.size)) c

/-- Moves over `count` bytes. -/
def advance (count : Nat) : Reader Unit := fun c =>
  if c.pos + count ≤ c.data.size then .ok () { c with pos := c.pos + count }
  else .error (.truncated c.pos count) c

/-- Bytes from `pos` up to the next multiple of `unit`. -/
def gap (pos unit : Nat) : Nat := (unit - pos % unit) % unit

/-- Moves to the next multiple of `unit`. -/
def align (unit : Nat) : Reader Unit := fun c => advance (gap c.pos unit) c

/-- Moves to the next multiple of `unit`. Zero has no next multiple. -/
def align? (unit : Nat) : Option (Reader Unit) := if unit = 0 then none else some (align unit)

theorem align?_eq_some {unit : Nat} (h : 0 < unit) : align? unit = some (align unit) :=
  if_neg (Nat.ne_of_gt h)

/-! ## Bytes and words -/

/-- The next `count` bytes. -/
def take (count : Nat) : Reader (List UInt8) := fun c =>
  match sliceAt? c.data c.pos count with
  | some bytes => .ok bytes { c with pos := c.pos + count }
  | none => .error (.truncated c.pos count) c

/-- The next byte, without moving. -/
def peekByte : Reader UInt8 := fun c =>
  match c.data[c.pos]? with
  | some byte => .ok byte c
  | none => .error (.truncated c.pos 1) c

/-- The next word. -/
def word (α : Type) [LittleEndian α] : Reader α := fun c =>
  match readAt α c.data c.pos with
  | .ok (value, next) => .ok value { c with pos := next }
  | .error e => .error e c

/-- The next word, without moving. -/
def peek (α : Type) [LittleEndian α] : Reader α := fun c =>
  match readAt α c.data c.pos with
  | .ok (value, _) => .ok value c
  | .error e => .error e c

/-- The next index, in a column of width `width`. -/
def index (width : IndexWidth) : Reader UInt32 := fun c =>
  match readIndexAt width c.data c.pos with
  | .ok (value, next) => .ok value { c with pos := next }
  | .error e => .error e c

/-! ## Repetition -/

/-- Runs `step` for `count` words in a row. -/
def times {α : Type} (step : Reader α) : Nat → List α → Reader (List α)
  | 0, done, c => .ok done.reverse c
  | count + 1, done, c =>
    match step c with
    | .ok a c => times step count (a :: done) c
    | .error e c => .error e c

/-- Runs `step` until it answers with nothing, at most `limit` times. -/
def collect {α : Type} (step : Reader (Option α)) : Nat → List α → Reader (List α)
  | 0, done, c => .ok done.reverse c
  | limit + 1, done, c =>
    match step c with
    | .ok none c => .ok done.reverse c
    | .ok (some a) c => collect step limit (a :: done) c
    | .error e c => .error e c

/-- What `step` answers `count` times in a row. -/
def repeated {α : Type} (count : Nat) (step : Reader α) : Reader (List α) := times step count []

/-- What `step` answers until it answers with nothing. Each step but the last has to move, so it
runs at most once for each byte and once more. -/
def untilNone {α : Type} (step : Reader (Option α)) : Reader (List α) := fun c =>
  collect step (c.remaining + 1) [] c

/-- What `step` answers until no bytes are left. Each step has to move. -/
def untilEnd {α : Type} (step : Reader α) : Reader (List α) :=
  untilNone fun c => if c.hasMore then (some <$> step) c else .ok none c

end Reader

end CilCodec
