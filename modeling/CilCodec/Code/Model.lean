import CilCodec.Error

/-!
# CilCodec.Code.Model

What operands refer to, and how such references are found and numbered.

An `OperandModel` chooses types for members, user strings, local variables and arguments. A
`Resolver` maps the numbers stored in code to values of a model, a `Builder` maps values back.
`RawModel` keeps the numbers themselves.
-/

namespace CilCodec

/-- The types that operands refer to. -/
structure OperandModel where
  Member : Type
  UserString : Type
  LocalVariable : Type
  Argument : Type

/-- Maps stored numbers to values. -/
structure Resolver (M : OperandModel) where
  member? : Token → Option M.Member
  userString? : UInt32 → Option M.UserString
  /-- By default a local variable is the one listed at its index. -/
  localVariable? : UInt16 → List M.LocalVariable → Option M.LocalVariable :=
    fun index locals => locals[index.toNat]?
  argument? : UInt16 → Option M.Argument
  /-- The local variables of a signature; by default there are none. -/
  localSignature : Token → Except Error (List M.LocalVariable) := fun _ => .ok []

/-- Maps values to stored numbers. -/
structure Builder (M : OperandModel) where
  memberToken : M.Member → Except Error Token
  userStringOffset : M.UserString → Except Error UInt32
  localIndex : M.LocalVariable → Except Error UInt16
  argumentIndex : M.Argument → Except Error UInt16

/-- How the values of a model are written. -/
structure OperandText (M : OperandModel) where
  member : M.Member → String
  userString : M.UserString → String
  localVariable : M.LocalVariable → String
  argument : M.Argument → String

/-- The model whose values are the stored numbers. -/
abbrev RawModel : OperandModel where
  Member := Token
  UserString := UInt32
  LocalVariable := UInt16
  Argument := UInt16

/-- Every stored number stands for itself. -/
def rawResolver : Resolver RawModel where
  member? := some
  userString? := some
  localVariable? index _ := some index
  argument? := some

/-- Every value is its stored number. -/
def rawBuilder : Builder RawModel where
  memberToken := .ok
  userStringOffset := .ok
  localIndex := .ok
  argumentIndex := .ok

/-- The texts of stored numbers in a listing. -/
def rawText : OperandText RawModel where
  member := Token.text
  userString s := toString s.toNat
  localVariable v := toString v.toNat
  argument a := toString a.toNat

/-- The texts of stored numbers in a dump. -/
def rawDetail : OperandText RawModel where
  member := Token.detail
  userString s := toString s.toNat
  localVariable v := toString v.toNat
  argument a := toString a.toNat

end CilCodec
