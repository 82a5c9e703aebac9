/-!
# CilCodec.Config

What decoding tolerates.
-/

namespace CilCodec

/-- What decoding tolerates. By default branches may go anywhere, and a malformed section fails the
whole body. -/
structure Config where
  /-- Refuse branch targets that are not instructions or the end of the code. -/
  strictBranches : Bool := false
  /-- Stop at the first malformed section and keep the clauses read before it. -/
  lenientSections : Bool := false
  /-- The most targets a switch may have. -/
  maxSwitchTargets : UInt32 := 0x10000
deriving DecidableEq, Repr, Inhabited

namespace Config

def default : Config := {}

/-- Refuses all that can be told apart from regular input. -/
def strict : Config := { strictBranches := true }

/-- For damaged input. -/
def lenient : Config := { lenientSections := true }

end Config

end CilCodec
