import CilCodec.Config
import CilCodec.Method.Handler

/-!
# CilCodec.Method.Section

Method data sections (II.25.4.5): what follows the code of a method.

Sections start at multiples of four bytes. Each says in its flags whether another one follows and
whether it is an exception table, whose clauses are read; sections of other kinds are skipped.
Clauses are written as one section, in fat clauses if any of them or their number needs it.
-/

namespace CilCodec

namespace MethodSection

/-- Bytes of the header, which the size of a section includes. -/
def headerSize : Nat := 4

/-- The bit of the flags that marks an exception table. -/
def tableBit : Nat := 0

/-- The bit of the flags that marks fat clauses and a size of three bytes. -/
def fatBit : Nat := 6

/-- The bit of the flags that announces another section. -/
def moreBit : Nat := 7

/-- The greatest size a section with small clauses can have. -/
def smallLimit : Nat := 0xff

/-- The greatest size a section can have. -/
def fatLimit : Nat := 0xffffff

/-- Whether clauses have to be fat: because of one of them, or because there are too many. -/
def isFatRequired (handlers : List ExceptionHandler) : Bool :=
  smallLimit < headerSize + handlers.length * ExceptionHandler.smallSize ||
    handlers.any ExceptionHandler.requiresFat

/-- Bytes of the section for some clauses. No clauses need no section. -/
def size (handlers : List ExceptionHandler) : Nat :=
  if handlers.isEmpty then 0
  else headerSize + handlers.length * ExceptionHandler.clauseSize (isFatRequired handlers)

/-- The first word of a section, taken apart. -/
structure Header where
  flags : UInt8
  size : Nat
deriving DecidableEq, Repr

namespace Header

def isFat (h : Header) : Bool := h.flags.toNat.testBit fatBit

/-- Whether another section follows. -/
def hasMore (h : Header) : Bool := h.flags.toNat.testBit moreBit

/-- Whether the section is an exception table. -/
def isTable (h : Header) : Bool := h.flags.toNat.testBit tableBit

/-- Bytes behind the header. -/
def payload (h : Header) : Nat := h.size - headerSize

/-- The flags are the low byte. The size is the three bytes above, of which a small section has only
the first. -/
def ofWord (w : UInt32) : Header :=
  let flags := UInt8.ofNat (w.toNat % 0x100)
  let size := w.toNat / 0x100
  ⟨flags, if flags.toNat.testBit fatBit then size else size % 0x100⟩

end Header

open Reader in
/-- Reads a section: its clauses, and whether another section follows. -/
def sectionReader : Reader (List ExceptionHandler × Bool) := do
  align 4
  let start ← position
  let header := Header.ofWord (← word UInt32)
  if header.size < headerSize then
    throw (.malformed (.sectionSize header.size) start)
  if header.isTable then
    let clauseSize := ExceptionHandler.clauseSize header.isFat
    if header.payload % clauseSize ≠ 0 then
      throw (.malformed (.sectionClauses header.size clauseSize) start)
    ensure header.payload
    let clauses ← repeated (header.payload / clauseSize) (ExceptionHandler.reader header.isFat)
    return (clauses, header.hasMore)
  else
    note (.foreignSection header.flags header.size)
    advance header.payload
    return ([], header.hasMore)

/-- Reads sections behind those whose clauses are `done`, at most `limit` of them. -/
def chainReader (config : Config) :
    Nat → List ExceptionHandler → Reader (List ExceptionHandler)
  | 0, done, c => .ok done c
  | limit + 1, done, c =>
    match sectionReader c with
    | .ok (clauses, hasMore) c =>
      if hasMore then chainReader config limit (done ++ clauses) c else .ok (done ++ clauses) c
    | .error e c =>
      if config.lenientSections then
        .ok done { c with notices := c.notices.push (.sectionDropped done.length e) }
      else
        .error e c

/-- Reads sections up to the one that no other follows, and answers with the clauses of all. Each
takes its header at least, so there are no more of them than bytes. -/
def reader (config : Config) : Reader (List ExceptionHandler) := fun c =>
  chainReader config (c.remaining + 1) [] c

/-- Refuses clauses that no section can hold. -/
def check (handlers : List ExceptionHandler) (offset : Nat) : Except Error Unit :=
  if fatLimit < size handlers then .error (.malformed (.sectionLimit handlers.length) offset)
  else .ok ()

/-- The first word of the section for some clauses. -/
def headerWord (handlers : List ExceptionHandler) : UInt32 :=
  let flags := 1 <<< tableBit + if isFatRequired handlers then 1 <<< fatBit else 0
  UInt32.ofNat (size handlers * 0x100 + flags)

open Writer in
/-- Writes the section for some clauses, aligned from `origin`. Nothing is written if there are
none. -/
def writer (origin : Nat) (handlers : List ExceptionHandler) : Writer Unit := do
  unless handlers.isEmpty do
    ofResult (check handlers (← position))
    alignFrom origin 4
    word (headerWord handlers)
    each (ExceptionHandler.writer (isFatRequired handlers)) handlers

end MethodSection

end CilCodec
