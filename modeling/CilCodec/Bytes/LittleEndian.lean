/-!
# CilCodec.Bytes.LittleEndian

Fixed-width words as runs of bytes, least significant byte first.

`leBytes n v` are the low `n` bytes of the number `v`, and `leValue` reads a run of bytes back.
`LittleEndian α` says how many bytes a type takes and which number stands for each value;
`LittleEndian.encode` and `LittleEndian.decode` are the byte forms that follow from it.

Results:
1. `leValue_leBytes`, `leBytes_leValue` — the two directions are inverse at a fixed width;
2. `LittleEndian.decode_encode`, `LittleEndian.encode_decode` — the same for typed words.
-/

namespace CilCodec

/-! ## Numbers and bytes -/

/-- The low `n` bytes of `value`, least significant byte first. -/
def leBytes : Nat → Nat → List UInt8
  | 0, _ => []
  | n + 1, value => UInt8.ofNat value :: leBytes n (value / 256)

/-- Number of values that `n` bytes can denote. -/
def leBound : Nat → Nat
  | 0 => 1
  | n + 1 => 256 * leBound n

/-- The number a run of bytes denotes, least significant byte first. -/
def leValue : List UInt8 → Nat
  | [] => 0
  | byte :: bytes => byte.toNat + 256 * leValue bytes

@[simp] theorem length_leBytes (n value : Nat) : (leBytes n value).length = n := by
  induction n generalizing value with
  | zero => rfl
  | succ n ih => simp [leBytes, ih]

theorem leValue_lt (bytes : List UInt8) : leValue bytes < leBound bytes.length := by
  induction bytes with
  | nil => simp [leValue, leBound]
  | cons byte bytes ih =>
    have := byte.toNat_lt
    simp only [leValue, List.length_cons, leBound]
    omega

/-- Only the low `n` bytes of a number are kept. -/
theorem leValue_leBytes_mod (n value : Nat) :
    leValue (leBytes n value) = value % leBound n := by
  induction n generalizing value with
  | zero => simp [leBytes, leValue, leBound, Nat.mod_one]
  | succ n ih =>
    have split : value % leBound (n + 1) = value % 256 + 256 * (value / 256 % leBound n) := by
      rw [leBound, Nat.mod_mul]
    rw [leBytes, leValue, ih, split, UInt8.toNat_ofNat']

theorem leValue_leBytes {n value : Nat} (h : value < leBound n) :
    leValue (leBytes n value) = value := by
  rw [leValue_leBytes_mod, Nat.mod_eq_of_lt h]

@[simp] theorem leBytes_leValue (bytes : List UInt8) :
    leBytes bytes.length (leValue bytes) = bytes := by
  induction bytes with
  | nil => rfl
  | cons byte bytes ih =>
    have hlt := byte.toNat_lt
    have hhead : UInt8.ofNat (byte.toNat + 256 * leValue bytes) = byte := by
      apply UInt8.toNat_inj.mp
      rw [UInt8.toNat_ofNat']
      omega
    have htail : (byte.toNat + 256 * leValue bytes) / 256 = leValue bytes := by omega
    simp only [List.length_cons, leBytes, leValue, hhead, htail, ih]

/-! ## Typed words -/

/-- A type whose values are the numbers below `leBound size`, stored in `size` bytes. -/
class LittleEndian (α : Type) where
  /-- Number of bytes a value takes. -/
  size : Nat
  /-- The number whose bytes are stored. -/
  toBits : α → Nat
  /-- The value a stored number stands for. -/
  ofBits : Nat → α
  toBits_lt : ∀ a, toBits a < leBound size
  ofBits_toBits : ∀ a, ofBits (toBits a) = a
  toBits_ofBits : ∀ n, n < leBound size → toBits (ofBits n) = n

namespace LittleEndian

/-- The stored bytes of a value. -/
def encode {α : Type} [LittleEndian α] (a : α) : List UInt8 :=
  leBytes (size α) (toBits a)

/-- The value a run of `size α` bytes stands for. -/
def decode {α : Type} [LittleEndian α] (bytes : List UInt8) : α :=
  ofBits (leValue bytes)

variable {α : Type} [LittleEndian α]

@[simp] theorem length_encode (a : α) : (encode a).length = size α :=
  length_leBytes _ _

@[simp] theorem decode_encode (a : α) : decode (encode a) = a := by
  rw [decode, encode, leValue_leBytes (toBits_lt a), ofBits_toBits]

theorem encode_decode {bytes : List UInt8} (h : bytes.length = size α) :
    encode (decode bytes : α) = bytes := by
  have hlt := leValue_lt bytes
  rw [h] at hlt
  rw [encode, decode, toBits_ofBits _ hlt, ← h, leBytes_leValue]

instance : LittleEndian UInt8 where
  size := 1
  toBits a := a.toNat
  ofBits := UInt8.ofNat
  toBits_lt a := a.toNat_lt
  ofBits_toBits _ := UInt8.ofNat_toNat
  toBits_ofBits n h := by rw [UInt8.toNat_ofNat']; exact Nat.mod_eq_of_lt h

instance : LittleEndian UInt16 where
  size := 2
  toBits a := a.toNat
  ofBits := UInt16.ofNat
  toBits_lt a := a.toNat_lt
  ofBits_toBits _ := UInt16.ofNat_toNat
  toBits_ofBits n h := by rw [UInt16.toNat_ofNat']; exact Nat.mod_eq_of_lt h

instance : LittleEndian UInt32 where
  size := 4
  toBits a := a.toNat
  ofBits := UInt32.ofNat
  toBits_lt a := a.toNat_lt
  ofBits_toBits _ := UInt32.ofNat_toNat
  toBits_ofBits n h := by rw [UInt32.toNat_ofNat']; exact Nat.mod_eq_of_lt h

instance : LittleEndian UInt64 where
  size := 8
  toBits a := a.toNat
  ofBits := UInt64.ofNat
  toBits_lt a := a.toNat_lt
  ofBits_toBits _ := UInt64.ofNat_toNat
  toBits_ofBits n h := by rw [UInt64.toNat_ofNat']; exact Nat.mod_eq_of_lt h

/-- A signed byte is stored as its two's complement. -/
instance : LittleEndian Int8 where
  size := 1
  toBits a := a.toUInt8.toNat
  ofBits n := (UInt8.ofNat n).toInt8
  toBits_lt a := a.toUInt8.toNat_lt
  ofBits_toBits _ := by simp
  toBits_ofBits n h := by
    rw [UInt8.toUInt8_toInt8, UInt8.toNat_ofNat']; exact Nat.mod_eq_of_lt h

instance : LittleEndian Int16 where
  size := 2
  toBits a := a.toUInt16.toNat
  ofBits n := (UInt16.ofNat n).toInt16
  toBits_lt a := a.toUInt16.toNat_lt
  ofBits_toBits _ := by simp
  toBits_ofBits n h := by
    rw [UInt16.toUInt16_toInt16, UInt16.toNat_ofNat']; exact Nat.mod_eq_of_lt h

instance : LittleEndian Int32 where
  size := 4
  toBits a := a.toUInt32.toNat
  ofBits n := (UInt32.ofNat n).toInt32
  toBits_lt a := a.toUInt32.toNat_lt
  ofBits_toBits _ := by simp
  toBits_ofBits n h := by
    rw [UInt32.toUInt32_toInt32, UInt32.toNat_ofNat']; exact Nat.mod_eq_of_lt h

instance : LittleEndian Int64 where
  size := 8
  toBits a := a.toUInt64.toNat
  ofBits n := (UInt64.ofNat n).toInt64
  toBits_lt a := a.toUInt64.toNat_lt
  ofBits_toBits _ := by simp
  toBits_ofBits n h := by
    rw [UInt64.toUInt64_toInt64, UInt64.toNat_ofNat']; exact Nat.mod_eq_of_lt h

end LittleEndian

end CilCodec
