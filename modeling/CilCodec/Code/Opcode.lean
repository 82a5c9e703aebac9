import CilCodec.Code.OpcodeTable

/-!
# CilCodec.Code.Opcode

Opcodes as rows of the table, and their two spellings: bytes and mnemonics.

Results:
1. `Opcode.ofCode?_eq_some_iff` — a code names an opcode exactly if the opcode's row holds it, so
   reading an opcode's own bytes gives the opcode back;
2. `Opcode.code_ne_mark` — no one-byte opcode starts like a two-byte one.
-/

namespace CilCodec

/-- An opcode: a place in the table. -/
structure Opcode where
  index : Fin 219
deriving DecidableEq, Repr, Inhabited

namespace Opcode

/-- The row of an opcode. -/
def row (o : Opcode) : OpcodeRow := opcodeRows[o.index]

/-- Whether the opcode takes two bytes. -/
def isLong (o : Opcode) : Bool := o.row.isLong

def code (o : Opcode) : UInt8 := o.row.code

def mnemonic (o : Opcode) : String := o.row.mnemonic

def operandKind (o : Opcode) : OperandKind := o.row.operandKind

def flow (o : Opcode) : Flow := o.row.flow

/-- The bytes an instruction starts with. -/
def bytes (o : Opcode) : List UInt8 :=
  if o.isLong then [longOpcodeMark, o.code] else [o.code]

/-- Number of bytes of the opcode. -/
def size (o : Opcode) : Nat := if o.isLong then 2 else 1

/-- Whether the opcode modifies the instruction after it. -/
def isModifier (o : Opcode) : Bool := o.flow == .modifier

/-- Every opcode, in table order. -/
def all : List Opcode := (List.finRange 219).map Opcode.mk

theorem mem_all (o : Opcode) : o ∈ all :=
  List.mem_map.mpr ⟨o.index, List.mem_finRange _, rfl⟩

@[simp] theorem length_bytes (o : Opcode) : o.bytes.length = o.size := by
  unfold bytes size
  split <;> rfl

theorem size_pos (o : Opcode) : 0 < o.size := by
  unfold size
  split <;> decide

/-! ## By code -/

/-- The first opcode of the table with a given code. -/
def search (isLong : Bool) (code : UInt8) : Option Opcode :=
  all.find? fun o => o.isLong == isLong && o.code == code

/-- The one-byte opcode of every byte. -/
def shortOpcodes : Vector (Option Opcode) 256 :=
  Vector.ofFn fun code => search false (UInt8.ofNat code)

/-- The two-byte opcode of every second byte. -/
def longOpcodes : Vector (Option Opcode) 256 :=
  Vector.ofFn fun code => search true (UInt8.ofNat code)

/-- The opcode with a given code. -/
def ofCode? (isLong : Bool) (code : UInt8) : Option Opcode :=
  have := code.toNat_lt
  if isLong then longOpcodes[code.toNat] else shortOpcodes[code.toNat]

/-- The opcode spelled by one byte, or by the mark and a second byte. No opcode has another first
byte and a second one. -/
def ofBytes? (first : UInt8) (second : Option UInt8) : Option Opcode :=
  match second with
  | some second => if first = longOpcodeMark then ofCode? true second else none
  | none => if first = longOpcodeMark then none else ofCode? false first

theorem ofCode?_eq_search (isLong : Bool) (code : UInt8) :
    ofCode? isLong code = search isLong code := by
  cases isLong <;> simp [ofCode?, shortOpcodes, longOpcodes]

theorem code_of_search {isLong : Bool} {code : UInt8} {o : Opcode}
    (h : search isLong code = some o) : o.isLong = isLong ∧ o.code = code := by
  have found : (o.isLong == isLong && o.code == code) = true :=
    List.find?_some (p := fun o : Opcode => o.isLong == isLong && o.code == code) h
  simpa using found

theorem row_mem (o : Opcode) : o.row ∈ opcodeRows.toList :=
  Vector.mem_toList_iff.mpr (Vector.getElem_mem _)

/-- No two rows of the table have the same code. -/
theorem code_injective {a b : Opcode} (hlong : a.isLong = b.isLong) (hcode : a.code = b.code) :
    a = b := by
  have apart : ∀ x y : Opcode, x.index < y.index → x.isLong = y.isLong → x.code = y.code →
      False := by
    intro x y hlt hlong hcode
    have hbefore := List.pairwise_iff_getElem.mp opcodeRows_ascending x.index y.index
      (by simp) (by simp) hlt
    have hrow : x.row.before y.row = true := hbefore
    simp only [isLong, code] at hlong hcode
    simp [OpcodeRow.before, hlong, hcode, UInt8.lt_irrefl] at hrow
  rcases Nat.lt_trichotomy a.index b.index with h | h | h
  · exact (apart a b h hlong hcode).elim
  · cases a; cases b; exact congrArg Opcode.mk (Fin.ext h)
  · exact (apart b a h hlong.symm hcode.symm).elim

theorem ofCode?_eq_some_iff {isLong : Bool} {code : UInt8} {o : Opcode} :
    ofCode? isLong code = some o ↔ o.isLong = isLong ∧ o.code = code := by
  rw [ofCode?_eq_search]
  constructor
  · exact code_of_search
  · intro ⟨hlong, hcode⟩
    cases hfind : search isLong code with
    | none =>
      have hne := List.find?_eq_none.mp hfind o (mem_all o)
      simp [hlong, hcode] at hne
    | some other =>
      obtain ⟨hlong', hcode'⟩ := code_of_search hfind
      rw [code_injective (hlong'.trans hlong.symm) (hcode'.trans hcode.symm)]

theorem code_ne_mark {o : Opcode} (h : o.isLong = false) : o.code ≠ longOpcodeMark := by
  have marked : ∀ r ∈ opcodeRows.toList, r.isLong = false → r.code ≠ longOpcodeMark := by
    decide +kernel
  exact marked o.row o.row_mem h

/-! ## By mnemonic -/

/-- The opcode with a given mnemonic. -/
def ofMnemonic? (mnemonic : String) : Option Opcode :=
  all.find? fun o => o.mnemonic == mnemonic

/-- The opcode of `ldstr`, the only one with a user string operand. -/
theorem operandKind_eq_userString_iff {o : Opcode} :
    o.operandKind = .userString ↔ o.mnemonic = "ldstr" := by
  have strings : ∀ r ∈ opcodeRows.toList, r.operandKind = .userString ↔ r.mnemonic = "ldstr" := by
    decide +kernel
  exact strings o.row o.row_mem

/-- The opcode with all that is known about it. -/
def detail (o : Opcode) : String :=
  let (byte1, byte2) := if o.isLong then (longOpcodeMark, o.code) else (o.code, 0)
  s!"CilOpCode \x7b byte1: {byte1.toNat}, byte2: {byte2.toNat}, is_two_byte: {o.isLong}, " ++
    s!"operand_kind: {o.operandKind.name}, mnemonic: \"{o.mnemonic}\", flow: {o.flow.name} \x7d"

end Opcode

end CilCodec
