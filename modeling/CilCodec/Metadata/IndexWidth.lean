/-!
# CilCodec.Metadata.IndexWidth

Index columns take two or four bytes (II.24.2.6).

`bitLength` is the number of binary digits of a number, by which widths are chosen;
`bitLength_le_iff` ties it to powers of two.
-/

namespace CilCodec

/-- Number of binary digits of `n`; none for zero. -/
def bitLength (n : Nat) : Nat := if n = 0 then 0 else n.log2 + 1

theorem bitLength_le_iff {n bits : Nat} : bitLength n ≤ bits ↔ n < 1 <<< bits := by
  rw [Nat.one_shiftLeft]
  unfold bitLength
  split
  next h => exact ⟨fun _ => h ▸ Nat.two_pow_pos bits, fun _ => Nat.zero_le _⟩
  next h => rw [← Nat.log2_lt h, Nat.succ_le_iff]

/-- The width of an index column. -/
inductive IndexWidth where
  | narrow
  | wide
deriving DecidableEq, Repr, Inhabited

namespace IndexWidth

/-- Number of bytes of a column. -/
def bytes : IndexWidth → Nat
  | narrow => 2
  | wide => 4

/-- The width written as `n` bytes: only four bytes make a wide column. -/
def ofBytes (n : Nat) : IndexWidth := if n = 4 then wide else narrow

/-- The narrowest width for indices below `2 ^ bits`. -/
def ofBits (bits : Nat) : IndexWidth := if bits ≤ 16 then narrow else wide

/-- Whether a column of this width can hold `index`. -/
def holds : IndexWidth → UInt32 → Bool
  | narrow, index => index.toNat ≤ 0xffff
  | wide, _ => true

@[simp] theorem ofBytes_bytes (w : IndexWidth) : ofBytes w.bytes = w := by
  cases w <;> rfl

end IndexWidth

end CilCodec
