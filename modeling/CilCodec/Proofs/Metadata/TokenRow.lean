import CilCodec.Proofs.Metadata.Rewriting

/-!
# CilCodec.Proofs.Metadata.TokenRow

The rows that tokens keep of coded references (II.22, II.24.2.6).

A coded index leaves 27 to 31 bits to the row, a token 24. A reference that was read from a number
may so have a row that no token can name. Its token keeps the table and the low bits of the row: it
is the token of another row, or of none.

Results:
1. `Token.parts_ofRow`: what is left of a row in its token;
2. `CodedIndex.token_names_row_iff`: which references have a token that names their row;
3. `CodedIndex.exists_token_isNull`: each table of each kind has references that have not.
-/

namespace CilCodec

/-! ## Tokens of rows -/

/-- The row that the token of `row` names. -/
def Token.keptRow (row : UInt32) : UInt32 := UInt32.ofNat (row.toNat % 0x1000000)

theorem Token.toNat_keptRow (row : UInt32) : (keptRow row).toNat = row.toNat % 0x1000000 := by
  rw [keptRow, UInt32.toNat_ofNat']
  omega

theorem Token.row_ofRow_eq (table : TableId) (row : UInt32) :
    (ofRow table row).row = keptRow row := by
  apply UInt32.toNat_inj.mp
  rw [toNat_row, ofRow, toNat_ofParts, toNat_keptRow]
  omega

theorem Token.parts_eq_ok {t : Token} {table : TableId} (h : t.tableId? = some table) :
    t.parts = .ok (table, t.row) := by
  unfold parts
  rw [h]

theorem Token.parts_ofRow (table : TableId) (row : UInt32) :
    (ofRow table row).parts = .ok (table, keptRow row) := by
  rw [parts_eq_ok (tableId?_ofRow table row), row_ofRow_eq]

theorem Token.keptRow_eq_self_iff {row : UInt32} : keptRow row = row ↔ row.toNat ≤ maxRow := by
  rw [← UInt32.toNat_inj, toNat_keptRow, Nat.mod_eq_iff_lt (by decide)]
  exact Nat.lt_succ_iff

namespace CodedIndex

variable {raw : UInt32} {kind : CodedKind} {ci : CodedIndex}

/-! ## Tokens of references -/

theorem parts_token (ci : CodedIndex) : ci.token.parts = .ok (ci.table, Token.keptRow ci.row) :=
  Token.parts_ofRow ci.table ci.row

theorem isNull_token (ci : CodedIndex) : ci.token.isNull = (Token.keptRow ci.row == 0) := by
  rw [token, Token.isNull, Token.row_ofRow_eq]

/-- The row of a reference has a token if the number that was read has no bits above those of a
tag and of such a row. -/
theorem row_le_iff_of_decode (h : decode raw kind = .ok ci) :
    ci.row.toNat ≤ Token.maxRow ↔ raw.toNat < 0x1000000 * kind.tagBound := by
  rw [(parts_of_decode h).1, ← Nat.div_lt_iff_lt_mul kind.tagBound_pos]
  exact Nat.lt_succ_iff.symm

/-- The token of a reference that was read names its table, and of its row the low 24 bits. It names
the row itself, and then is null exactly if the reference is, if and only if the number that was
read leaves the bits above clear. Any other reference is not null; its token names another row, and
is null if the low 24 bits are zero. -/
theorem token_names_row_iff (h : decode raw kind = .ok ci) :
    ci.token.parts = .ok (ci.table, Token.keptRow ci.row) ∧
      (ci.token.parts = .ok (ci.table, ci.row) ∧ ci.token.isNull = ci.isNull ↔
        raw.toNat < 0x1000000 * kind.tagBound) ∧
      (0x1000000 * kind.tagBound ≤ raw.toNat →
        ci.isNull = false ∧ Token.keptRow ci.row ≠ ci.row ∧
          (ci.token.isNull = true ↔ ci.row.toNat % 0x1000000 = 0)) := by
  have hrow : Token.keptRow ci.row = ci.row ↔ raw.toNat < 0x1000000 * kind.tagBound :=
    Token.keptRow_eq_self_iff.trans (row_le_iff_of_decode h)
  refine ⟨ci.parts_token, ?_, ?_⟩
  · rw [ci.parts_token, ci.isNull_token, ← hrow]
    constructor
    · rintro ⟨hparts, _⟩
      exact congrArg Prod.snd (Except.ok.inj hparts)
    · intro hkept
      rw [hkept]
      exact ⟨rfl, rfl⟩
  · intro hbeyond
    have hlost : Token.keptRow ci.row ≠ ci.row := mt hrow.mp (Nat.not_lt.mpr hbeyond)
    refine ⟨?_, hlost, ?_⟩
    · -- the null row is kept
      rw [isNull, beq_eq_false_iff_ne]
      rintro hnull
      exact hlost (hnull ▸ rfl)
    · rw [ci.isNull_token, beq_iff_eq, ← UInt32.toNat_inj, Token.toNat_keptRow]
      exact Iff.rfl

/-- A reference to the first row that tokens cannot name: its own token is null. -/
theorem token_names_row_iff_lost :
    decode 0x4000000 .typeDefOrRef = .ok ⟨.typeDef, 0x1000000⟩ ∧
      isNull ⟨.typeDef, 0x1000000⟩ = false ∧
      (token ⟨.typeDef, 0x1000000⟩).isNull = true ∧
      (token ⟨.typeDef, 0x1000000⟩).parts ≠ .ok (.typeDef, 0x1000000) := by
  have hread : decode 0x4000000 .typeDefOrRef = .ok ⟨.typeDef, 0x1000000⟩ := rfl
  obtain ⟨hparts, _, hlost⟩ := token_names_row_iff hread
  obtain ⟨hnull, hrow, htoken⟩ := hlost (by decide)
  refine ⟨hread, hnull, htoken.mpr (by decide), ?_⟩
  rw [hparts]
  intro hsame
  exact hrow (congrArg Prod.snd (Except.ok.inj hsame))

/-- Every kind leaves more bits to the row than a token, so each of its tables has references that
are not null and whose tokens are. -/
theorem exists_token_isNull {table : TableId} (hlisted : some table ∈ kind.candidates) :
    ∃ raw ci, decode raw kind = .ok ci ∧ ci.table = table ∧ ci.isNull = false ∧
      ci.token.isNull = true := by
  have hroom : 0x1000000 ≤ maxRow kind := by
    cases kind <;> decide
  have hencodable : Encodable ⟨table, 0x1000000⟩ kind := ⟨hlisted, hroom⟩
  obtain ⟨raw, _, hencode, _⟩ := hencodable.encode_eq
  have hlost : Token.keptRow 0x1000000 = 0 := by decide
  refine ⟨raw, _, decode_of_encodable hencodable hencode, rfl, rfl, ?_⟩
  rw [isNull_token, hlost]
  rfl

end CodedIndex

end CilCodec
