import Mathlib.Data.List.Forall2
import CilCodec.Proofs.Bytes.Reading
import CilCodec.Proofs.Code.Labels

/-!
# CilCodec.Proofs.Code.Resolution

What resolving an operand keeps.

A resolver answers for single numbers, so it changes neither the form nor the size of an operand,
and no label. `ResolvesTo` says what operands and instructions resolve to, wherever they are stored:
a place counts only for what is refused. `Resolves` relates instructions one by one.

Results:
1. `Operand.resolve_eq_ok_iff`, `Instruction.resolve_eq_ok_iff`: what resolving answers.
2. `Resolves.totalSize_eq`, `Resolves.placeFrom_eq`: resolved instructions stand where the stored
   ones do.
-/

namespace CilCodec

variable {M : OperandModel} {R : Resolver M} {locals : List M.LocalVariable}

/-! ## Operands -/

namespace Operand

/-- `stored.ResolvesTo R locals operand`: `operand` is the stored one with its number replaced by
the value that `R` has for it. Operands without a number stay. -/
inductive ResolvesTo (R : Resolver M) (locals : List M.LocalVariable) :
    Operand RawModel → Operand M → Prop
  | none : ResolvesTo R locals .none .none
  | immediate (value : Immediate) : ResolvesTo R locals (.immediate value) (.immediate value)
  | localVariable {index : UInt16} {v : M.LocalVariable} :
      R.localVariable? index locals = some v →
      ResolvesTo R locals (.localVariable index) (.localVariable v)
  | argument {index : UInt16} {a : M.Argument} :
      R.argument? index = some a → ResolvesTo R locals (.argument index) (.argument a)
  | target (label : Label) : ResolvesTo R locals (.target label) (.target label)
  | switch (labels : List Label) : ResolvesTo R locals (.switch labels) (.switch labels)
  | userString {index : UInt32} {s : M.UserString} :
      R.userString? index = some s → ResolvesTo R locals (.userString index) (.userString s)
  | member {token : Token} {m : M.Member} :
      R.member? token = some m → ResolvesTo R locals (.member token) (.member m)

variable {stored : Operand RawModel} {operand operand' : Operand M} {pos : Nat}

theorem resolve_eq_ok_iff :
    stored.resolve R locals pos = .ok operand ↔ stored.ResolvesTo R locals operand := by
  constructor
  · intro h
    cases stored with
    | none | immediate | target | switch =>
      cases h
      constructor
    | localVariable | argument | userString | member =>
      simp only [resolve] at h
      split at h
      next hvalue =>
        cases h
        constructor
        exact hvalue
      next => cases h
  · intro h
    cases h with
    | none | immediate | target | switch => rfl
    | localVariable hvalue | argument hvalue | userString hvalue | member hvalue =>
      rw [resolve, hvalue]

theorem ResolvesTo.unique (h : stored.ResolvesTo R locals operand)
    (h' : stored.ResolvesTo R locals operand') : operand = operand' := by
  have hresolve : stored.resolve R locals 0 = .ok operand := resolve_eq_ok_iff.mpr h
  rw [resolve_eq_ok_iff.mpr h'] at hresolve
  exact (Except.ok.inj hresolve).symm

/-- Resolving leaves labels alone. -/
theorem ResolvesTo.mapLabels (h : stored.ResolvesTo R locals operand) (f : Label → Label) :
    (stored.mapLabels f).ResolvesTo R locals (operand.mapLabels f) := by
  cases h with
  | none => exact .none
  | immediate value => exact .immediate value
  | localVariable hvalue => exact .localVariable hvalue
  | argument hvalue => exact .argument hvalue
  | target label => exact .target (f label)
  | switch labels => exact .switch (labels.map f)
  | userString hvalue => exact .userString hvalue
  | member hvalue => exact .member hvalue

theorem ResolvesTo.labels_eq (h : stored.ResolvesTo R locals operand) :
    operand.labels = stored.labels := by
  cases h <;> rfl

theorem ResolvesTo.switchLength_eq (h : stored.ResolvesTo R locals operand) :
    operand.switchLength = stored.switchLength := by
  cases h <;> rfl

end Operand

/-! ## Instructions -/

/-- Two instructions at the same offset and with the same opcode, of which one has the operand that
the other's stored one resolves to. -/
structure Instruction.ResolvesTo (R : Resolver M) (locals : List M.LocalVariable)
    (raw : Instruction RawModel) (i : Instruction M) : Prop where
  offset_eq : i.offset = raw.offset
  opcode_eq : i.opcode = raw.opcode
  operand : raw.operand.ResolvesTo R locals i.operand

namespace Instruction

variable {raw : Instruction RawModel} {i i' : Instruction M} {start : Nat}

theorem resolve_eq_ok_iff :
    raw.resolve R locals start = .ok i ↔ raw.ResolvesTo R locals i := by
  unfold resolve
  rw [map_eq_ok]
  constructor
  · rintro ⟨operand, hoperand, rfl⟩
    exact ⟨rfl, rfl, Operand.resolve_eq_ok_iff.mp hoperand⟩
  · rintro ⟨hoffset, hopcode, hoperand⟩
    exact ⟨i.operand, Operand.resolve_eq_ok_iff.mpr hoperand, by rw [← hoffset, ← hopcode]⟩

theorem ResolvesTo.unique (h : raw.ResolvesTo R locals i) (h' : raw.ResolvesTo R locals i') :
    i = i' := by
  obtain ⟨offset, opcode, operand⟩ := i
  obtain ⟨offset', opcode', operand'⟩ := i'
  obtain ⟨rfl, rfl, hoperand⟩ := h
  obtain ⟨rfl, rfl, hoperand'⟩ := h'
  obtain rfl : operand = operand' := hoperand.unique hoperand'
  rfl

theorem ResolvesTo.mapLabels (h : raw.ResolvesTo R locals i) (f : Label → Label) :
    (raw.mapLabels f).ResolvesTo R locals (i.mapLabels f) :=
  ⟨h.offset_eq, h.opcode_eq, h.operand.mapLabels f⟩

theorem ResolvesTo.size_eq (h : raw.ResolvesTo R locals i) : i.size = raw.size := by
  unfold Instruction.size Instruction.operandSize
  rw [h.opcode_eq, h.operand.switchLength_eq]

theorem ResolvesTo.looseBranches_eq (h : raw.ResolvesTo R locals i) :
    i.looseBranches = raw.looseBranches := by
  unfold looseBranches labels
  rw [h.offset_eq, h.operand.labels_eq]

end Instruction

/-! ## Code -/

/-- Stored instructions, and what they resolve to, one by one. -/
def Resolves (R : Resolver M) (locals : List M.LocalVariable) :
    List (Instruction RawModel) → List (Instruction M) → Prop :=
  List.Forall₂ (Instruction.ResolvesTo R locals)

namespace Resolves

variable {raws : List (Instruction RawModel)} {instructions : List (Instruction M)}

theorem totalSize_eq (h : Resolves R locals raws instructions) :
    totalSize instructions = totalSize raws := by
  induction h with
  | nil => rfl
  | cons hfirst _ ih => rw [totalSize, totalSize, hfirst.size_eq, ih]

theorem placeFrom_eq {offset : Nat} (h : Resolves R locals raws instructions)
    (hplaced : placeFrom offset raws = raws) : placeFrom offset instructions = instructions := by
  induction h generalizing offset with
  | nil => rfl
  | @cons raw i raws instructions hfirst _ ih =>
    rw [placeFrom, List.cons.injEq] at hplaced
    have hoffset : low32 offset = i.offset := by
      rw [hfirst.offset_eq, ← hplaced.1]
    rw [placeFrom, hfirst.size_eq, ih hplaced.2, hoffset]

theorem switchLength_le {limit : Nat} (h : Resolves R locals raws instructions)
    (hlimit : ∀ raw ∈ raws, raw.operand.switchLength ≤ limit) :
    ∀ i ∈ instructions, i.operand.switchLength ≤ limit := by
  induction h with
  | nil =>
    intro i hi
    cases hi
  | cons hfirst _ ih =>
    obtain ⟨hhead, htail⟩ := List.forall_mem_cons.mp hlimit
    rw [← hfirst.operand.switchLength_eq] at hhead
    exact List.forall_mem_cons.mpr ⟨hhead, ih htail⟩

end Resolves

end CilCodec
