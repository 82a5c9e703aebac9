import CilCodec.Bytes.Buffer
import CilCodec.Bytes.Cursor

/-!
# CilCodec.Method.Handler

Exception handling clauses (II.25.4.6).

A clause is stored in 12 bytes if its offsets and lengths are small enough, and in 24 otherwise.
-/

namespace CilCodec

/-- What a clause does with an exception. -/
inductive HandlerKind where
  | catchClause
  | filterClause
  | finallyClause
  | faultClause
deriving DecidableEq, Repr, Inhabited

namespace HandlerKind

def name : HandlerKind → String
  | catchClause => "Catch"
  | filterClause => "Filter"
  | finallyClause => "Finally"
  | faultClause => "Fault"

/-- The flags that stand for a kind. -/
def flags : HandlerKind → UInt16
  | catchClause => 0
  | filterClause => 1
  | finallyClause => 2
  | faultClause => 4

/-- The kind that flags stand for; no two of them can be combined. -/
def ofFlags? (flags : UInt32) : Option HandlerKind :=
  match flags.toNat with
  | 0 => some catchClause
  | 1 => some filterClause
  | 2 => some finallyClause
  | 4 => some faultClause
  | _ => none

@[simp] theorem ofFlags?_flags (kind : HandlerKind) :
    ofFlags? kind.flags.toUInt32 = some kind := by
  cases kind <;> rfl

end HandlerKind

/-- A clause: the protected region, its handler, and either the class that is caught or the offset
of the filter. Offsets count from the start of the code. -/
structure ExceptionHandler where
  kind : HandlerKind
  tryOffset : UInt32
  tryLength : UInt32
  handlerOffset : UInt32
  handlerLength : UInt32
  classOrFilter : UInt32
deriving DecidableEq, Repr, Inhabited

namespace ExceptionHandler

/-- Bytes of a small clause. -/
def smallSize : Nat := 12

/-- Bytes of a fat clause. -/
def fatSize : Nat := 24

/-- Bytes of a clause. -/
def clauseSize (isFat : Bool) : Nat := if isFat then fatSize else smallSize

/-- The class that a catch clause catches. -/
def classToken? (h : ExceptionHandler) : Option Token :=
  if h.kind = .catchClause then some ⟨h.classOrFilter⟩ else none

/-- The offset of the filter of a filter clause. -/
def filterOffset? (h : ExceptionHandler) : Option UInt32 :=
  if h.kind = .filterClause then some h.classOrFilter else none

/-- Whether a small clause cannot hold the offsets and lengths. -/
def requiresFat (h : ExceptionHandler) : Bool :=
  0xffff < h.tryOffset.toNat || 0xffff < h.handlerOffset.toNat ||
    0xff < h.tryLength.toNat || 0xff < h.handlerLength.toNat

/-- The clause with all its fields. -/
def detail (h : ExceptionHandler) : String :=
  s!"ExceptionHandler \x7b kind: {h.kind.name}, try_offset: {h.tryOffset.toNat}, " ++
    s!"try_length: {h.tryLength.toNat}, handler_offset: {h.handlerOffset.toNat}, " ++
    s!"handler_length: {h.handlerLength.toNat}, " ++
    s!"class_token_or_filter_offset: {h.classOrFilter.toNat} \x7d"

/-- The clause with given flags, read at `start`. -/
def ofFields (start : Nat) (flags tryOffset tryLength handlerOffset handlerLength
    classOrFilter : UInt32) : Except Error ExceptionHandler :=
  match HandlerKind.ofFlags? flags with
  | some kind =>
    .ok { kind, tryOffset, tryLength, handlerOffset, handlerLength, classOrFilter }
  | none => .error (.malformed (.clauseFlags flags) start)

open Reader in
/-- Reads a clause of 24 bytes. -/
def fatReader : Reader ExceptionHandler := do
  let start ← position
  let flags ← word UInt32
  let tryOffset ← word UInt32
  let tryLength ← word UInt32
  let handlerOffset ← word UInt32
  let handlerLength ← word UInt32
  let classOrFilter ← word UInt32
  ofResult (ofFields start flags tryOffset tryLength handlerOffset handlerLength classOrFilter)

open Reader in
/-- Reads a clause of 12 bytes. -/
def smallReader : Reader ExceptionHandler := do
  let start ← position
  let flags ← word UInt16
  let tryOffset ← word UInt16
  let tryLength ← word UInt8
  let handlerOffset ← word UInt16
  let handlerLength ← word UInt8
  let classOrFilter ← word UInt32
  ofResult (ofFields start flags.toUInt32 tryOffset.toUInt32 tryLength.toUInt32
    handlerOffset.toUInt32 handlerLength.toUInt32 classOrFilter)

/-- Reads a clause. -/
def reader (isFat : Bool) : Reader ExceptionHandler := if isFat then fatReader else smallReader

open Writer in
/-- Writes a clause. A small one keeps the low bits of each field. -/
def writer (isFat : Bool) (h : ExceptionHandler) : Writer Unit := do
  if isFat then
    word h.kind.flags.toUInt32
    word h.tryOffset
    word h.tryLength
    word h.handlerOffset
    word h.handlerLength
  else
    word h.kind.flags
    word h.tryOffset.toUInt16
    word h.tryLength.toUInt8
    word h.handlerOffset.toUInt16
    word h.handlerLength.toUInt8
  word h.classOrFilter

end ExceptionHandler

end CilCodec
