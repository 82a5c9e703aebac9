import CilCodec.Code.Decode
import CilCodec.Code.Encode
import CilCodec.Code.Text
import CilCodec.Method.Header
import CilCodec.Method.Section

/-!
# CilCodec.Method.Body

Method bodies: a header, code, and exception handlers (II.25.4).

`RawBody.read` frames a body without looking into its code, `RawBody.resolve` decodes the code, and
`MethodBody.decode` does both. `MethodBody.writer` writes the whole body or nothing, with a tiny
header unless `needsFat` asks for a fat one. A tiny header stands for the stack depth 8 and no local
signature, so a smaller depth, or the table byte of a null signature, is not read back.
-/

namespace CilCodec

/-! ## Framing -/

/-- A body with its code left as it is stored. -/
structure RawBody where
  header : MethodHeader
  /-- Bytes of the header as stored. -/
  headerSize : Nat
  /-- The bytes of the body, and no others. -/
  bytes : Array UInt8
  handlers : List ExceptionHandler
deriving DecidableEq, Repr

/-- A method body. -/
structure MethodBody (M : OperandModel) where
  maxStack : UInt16
  initLocals : Bool
  localSignature : Token
  locals : List M.LocalVariable
  code : Code M
  handlers : List ExceptionHandler

namespace RawBody

/-- Number of bytes of the body. -/
def size (raw : RawBody) : Nat := raw.bytes.size

/-- The bytes of the code. -/
def code (raw : RawBody) : Array UInt8 :=
  raw.bytes.extract raw.headerSize (raw.headerSize + raw.header.codeSize.toNat)

open Reader in
/-- Reads a body that starts the data. -/
def reader (config : Config) : Reader RawBody := do
  let header ← MethodHeader.reader
  let headerSize ← position
  advance header.codeSize.toNat
  let handlers ← if header.hasSections then MethodSection.reader config else pure []
  fun c => .ok { header, headerSize, bytes := c.passed, handlers } c

/-- The body at the start of `data`. -/
def read (data : Array UInt8) (config : Config) : Except Error RawBody :=
  (reader config).answer data

variable {M : OperandModel}

open Reader in
/-- Decodes the code of a framed body, over the bytes of that body. The local signature is resolved
first, unless it is null. -/
def resolver (raw : RawBody) (R : Resolver M) (config : Config) : Reader (MethodBody M) := do
  let signature := raw.header.localSignature
  let locals ← if signature.isNull then pure [] else ofResult (R.localSignature signature)
  seek raw.headerSize
  let code ← Code.reader raw.header.codeSize.toNat R locals config
  return {
    maxStack := raw.header.maxStack
    initLocals := raw.header.initLocals
    localSignature := signature
    locals
    code
    handlers := raw.handlers }

/-- The decoded body. -/
def resolve (raw : RawBody) (R : Resolver M) (config : Config) : Except Error (MethodBody M) :=
  (raw.resolver R config).answer raw.bytes

end RawBody

namespace MethodBody

variable {M : OperandModel}

/-! ## Decoding -/

/-- The body at the start of `data`, and the notices made. -/
def report (data : Array UInt8) (R : Resolver M) (config : Config) :
    Except Error (MethodBody M) × List Notice :=
  match (RawBody.reader config).report data with
  | (.error e, notices) => (.error e, notices)
  | (.ok raw, notices) =>
    let (body, more) := (raw.resolver R config).report raw.bytes
    (body, notices ++ more)

/-- The body at the start of `data`. -/
def decode (data : Array UInt8) (R : Resolver M) (config : Config) : Except Error (MethodBody M) :=
  (report data R config).1

/-- The bodies at the starts of several runs of bytes. -/
def decodeAll (bodies : List (Array UInt8)) (R : Resolver M) (config : Config) :
    List (Except Error (MethodBody M)) :=
  bodies.map fun data => decode data R config

/-! ## Encoding -/

/-- A body of code alone. -/
def ofCode (code : Code M) : MethodBody M where
  maxStack := MethodHeader.tinyMaxStack
  initLocals := false
  localSignature := ⟨0⟩
  locals := []
  code
  handlers := []

/-- Whether a body of `codeSize` bytes of code needs a fat header. -/
def needsFat (b : MethodBody M) (codeSize : Nat) : Bool :=
  MethodHeader.tinyMaxStack < b.maxStack || MethodHeader.tinyMaxCode < codeSize ||
    !b.locals.isEmpty || !b.localSignature.isNull || b.initLocals || !b.handlers.isEmpty

/-- Whether the body is written with a fat header. -/
def isFat (b : MethodBody M) : Bool := b.needsFat b.code.size

/-- The flags of the fat header of a body. -/
def fatFlags (b : MethodBody M) : UInt16 :=
  UInt16.ofNat (MethodHeader.fatFormat +
    (if b.initLocals then 1 <<< MethodHeader.initLocalsBit else 0) +
    (if b.handlers.isEmpty then 0 else 1 <<< MethodHeader.sectionsBit))

/-- The header for `codeSize` bytes of code. -/
def header (b : MethodBody M) (codeSize : Nat) : Except Error MethodHeader :=
  if 0xffffffff < codeSize then
    .error (.malformed (.fatCodeSize codeSize) 0)
  else if b.needsFat codeSize then
    .ok (.fat b.fatFlags b.maxStack (UInt32.ofNat codeSize) b.localSignature)
  else
    .ok (.tiny (UInt32.ofNat codeSize))

/-- Number of bytes of the body as written. -/
def size (b : MethodBody M) : Nat :=
  let framed := (if b.isFat then MethodHeader.fatSize else 1) + b.code.size
  if b.handlers.isEmpty then framed
  else framed + Writer.gap 0 framed 4 + MethodSection.size b.handlers

open Writer in
/-- Writes a body. All that can fail is tried before the first byte is written. -/
def writer (b : MethodBody M) (B : Builder M) : Writer Unit := do
  let start ← position
  let code ← ofAnswer (b.code.encode B)
  let header ← ofResult (b.header code.size)
  note (.framing header.isFat code.size b.handlers.length)
  ofResult (MethodSection.check b.handlers start)
  header.writer
  put code.toList
  MethodSection.writer start b.handlers

/-- The bytes of a body. -/
def encode (b : MethodBody M) (B : Builder M) : Except Stop (Array UInt8) := (b.writer B).answer

/-! ## Comparison and text -/

/-- Equality up to the text of numbers: constants are compared as numbers. -/
def sameValue [BEq M.Member] [BEq M.UserString] [BEq M.LocalVariable] [BEq M.Argument]
    (a b : MethodBody M) : Bool :=
  a.maxStack == b.maxStack && a.initLocals == b.initLocals &&
    a.localSignature == b.localSignature && a.locals == b.locals && a.code.sameValue b.code &&
    a.handlers == b.handlers

/-- The dump of a body. -/
def detail (b : MethodBody M) (names : OperandText M) : String :=
  let locals := ", ".intercalate (b.locals.map names.localVariable)
  let handlers := ", ".intercalate (b.handlers.map ExceptionHandler.detail)
  s!"MethodBody \x7b max_stack: {b.maxStack.toNat}, init_locals: {b.initLocals}, " ++
    s!"local_var_sig_token: {b.localSignature.detail}, local_variables: [{locals}], " ++
    s!"code: {b.code.detail names}, exception_handlers: [{handlers}] \x7d"

end MethodBody

end CilCodec
