import CilCodec.Code.Model
import CilCodec.Text.Quoted

/-!
# CilCodec.Code.Symbols

A model whose operands are names, and the table of names behind it.

Keys stand in ascending order, each once. A name is looked up under the smallest key that has it.
-/

namespace CilCodec

/-- The model whose values are names. -/
abbrev NamedModel : OperandModel where
  Member := String
  UserString := String
  LocalVariable := String
  Argument := String

/-- Pairs in ascending order of their keys, each key once. -/
abbrev KeyedList (α : Type) := List (UInt32 × α)

namespace KeyedList

variable {α : Type}

/-- The list with the value of a key set. -/
def insert (key : UInt32) (value : α) : KeyedList α → KeyedList α
  | [] => [(key, value)]
  | (k, v) :: rest =>
    if key < k then (key, value) :: (k, v) :: rest
    else if key = k then (key, value) :: rest
    else (k, v) :: insert key value rest

/-- The list of given pairs; of two values of one key the last stands. -/
def ofPairs (pairs : List (UInt32 × α)) : KeyedList α :=
  pairs.foldl (fun list (key, value) => insert key value list) []

/-- The value of a key. -/
def find? (list : KeyedList α) (key : UInt32) : Option α :=
  (List.find? (fun pair => pair.1 == key) list).map Prod.snd

/-- The smallest key with a given value. -/
def keyOf? [BEq α] (list : KeyedList α) (value : α) : Option UInt32 :=
  (List.find? (fun pair => pair.2 == value) list).map Prod.fst

end KeyedList

/-- Names of members by token, of user strings by offset, of local variables by signature token and
position, and of arguments by position. -/
structure SymbolTable where
  members : KeyedList String
  userStrings : KeyedList String
  locals : KeyedList (List String)
  arguments : List String
deriving Repr, Inhabited

namespace SymbolTable

/-- Finds names. A local signature that is not listed is an error. -/
def resolver (t : SymbolTable) : Resolver NamedModel where
  member? token := t.members.find? token.value
  userString? offset := t.userStrings.find? offset
  argument? index := t.arguments[index.toNat]?
  localSignature token :=
    match t.locals.find? token.value with
    | some names => .ok names
    | none => .error (.unresolvedMember token 0)

/-- The position of a name in the first list of local variables that has it. -/
def localIndex? (t : SymbolTable) (name : String) : Option Nat :=
  t.locals.findSome? fun (_, names) => names.idxOf? name

/-- The index in errors about names that stand at no position. -/
def noIndex : UInt32 := 0xffffffff

/-- Numbers names. -/
def builder (t : SymbolTable) : Builder NamedModel where
  memberToken name :=
    match t.members.keyOf? name with
    | some value => .ok ⟨value⟩
    | none => .error (.unresolvedMember ⟨0⟩ 0)
  userStringOffset name :=
    match t.userStrings.keyOf? name with
    | some offset => .ok offset
    | none => .error (.unresolvedString 0 0)
  localIndex name :=
    match t.localIndex? name with
    | some index => .ok (UInt16.ofNat index)
    | none => .error (.indexOutOfRange .localVariable noIndex 0)
  argumentIndex name :=
    match t.arguments.idxOf? name with
    | some index => .ok (UInt16.ofNat index)
    | none => .error (.indexOutOfRange .argument noIndex 0)

end SymbolTable

/-- The texts of names in a listing: the names themselves. -/
def namedText : OperandText NamedModel := ⟨id, id, id, id⟩

/-- The texts of names in a dump: in quotes. -/
def namedDetail : OperandText NamedModel := ⟨quoted, quoted, quoted, quoted⟩

end CilCodec
