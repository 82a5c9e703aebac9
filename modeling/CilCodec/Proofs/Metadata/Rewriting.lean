import CilCodec.Proofs.Metadata.Columns

/-!
# CilCodec.Proofs.Metadata.Rewriting

Coded indices that are read and written again unchanged (II.24.2.6).

A reference knows its table and its row, not the tag that it was read with: it is written with the
tag of its table. The two tags are the same unless the first one is unassigned. Only
`customAttributeType` has such tags, and only null references are read with them; they are taken to
name the first assigned table, and so are written with a tag that they were not read with.

Results:
1. `CodedKind.unassigned_iff`: the tags that select no table;
2. `CodedIndex.encodable_of_decode`: what is read can be written;
3. `CodedIndex.rewrites_iff_assigned`: which numbers, and which columns, are written as they were
   read.
-/

namespace CilCodec

/-! ## Unassigned tags -/

theorem CodedKind.unassigned_iff {kind : CodedKind} {tag : Nat} :
    kind.candidate? tag = some none ↔ kind = .customAttributeType ∧ tag ∈ [0, 1, 4] := by
  constructor
  · intro h
    have listed : ∀ k ∈ all, ∀ i ∈ List.range k.candidates.length,
        k.candidate? i = some none → k = .customAttributeType ∧ i ∈ [0, 1, 4] := by decide +kernel
    obtain ⟨hlt, _⟩ := List.getElem?_eq_some_iff.mp h
    exact listed kind (mem_all kind) tag (List.mem_range.mpr hlt) h
  · rintro ⟨rfl, htag⟩
    have unassigned : ∀ i ∈ [0, 1, 4], candidate? .customAttributeType i = some none := by decide
    exact unassigned tag htag

namespace CodedIndex

variable {raw : UInt32} {kind : CodedKind} {ci : CodedIndex}

theorem tableOfTag?_eq_some {tag row : Nat} {table : TableId} :
    tableOfTag? kind tag row = some table ↔
      kind.candidate? tag = some (some table) ∨
        (kind.candidate? tag = some none ∧ row = 0 ∧ kind.firstTable? = some table) := by
  unfold tableOfTag?
  cases kind.candidate? tag with
  | none => simp
  | some candidate =>
    cases candidate with
    | none => simp
    | some other => simp

/-! ## What is read of a number -/

/-- The row of a reference that was read is what stands above the tag, and the tag selects its
table. -/
theorem parts_of_decode (h : decode raw kind = .ok ci) :
    ci.row.toNat = raw.toNat / kind.tagBound ∧
      tableOfTag? kind (raw.toNat % kind.tagBound) ci.row.toNat = some ci.table := by
  have hrow : (UInt32.ofNat (raw.toNat / kind.tagBound)).toNat = raw.toNat / kind.tagBound := by
    rw [UInt32.toNat_ofNat']
    exact Nat.mod_eq_of_lt (Nat.lt_of_le_of_lt (Nat.div_le_self _ _) raw.toNat_lt)
  unfold decode at h
  dsimp only at h
  split at h
  next table htable =>
    obtain rfl := Except.ok.inj h
    exact ⟨hrow, by rw [hrow, htable]⟩
  next => cases h

/-- What is read can be written: its table is listed, and its row left room for a tag. -/
theorem encodable_of_decode (h : decode raw kind = .ok ci) : ci.Encodable kind where
  listed := by
    rcases tableOfTag?_eq_some.mp (parts_of_decode h).2 with hcandidate | ⟨_, _, hfirst⟩
    · exact List.mem_of_getElem? hcandidate
    · obtain ⟨candidate, hlisted, rfl⟩ := List.exists_of_findSome?_eq_some hfirst
      exact hlisted
  row_le := by
    rw [(parts_of_decode h).1, maxRow]
    exact Nat.div_le_div_right (Nat.le_of_lt_succ raw.toNat_lt)

/-! ## Tags that are kept -/

/-- A number is written as it was read if its tag is the one of the table that was read. -/
theorem encode_eq_ok_iff_tag (h : decode raw kind = .ok ci) :
    ci.encode kind = .ok raw ↔ kind.tagOf? ci.table = some (raw.toNat % kind.tagBound) := by
  obtain ⟨stored, tag, hencode, htag, hvalue⟩ := (encodable_of_decode h).encode_eq
  rw [(parts_of_decode h).1] at hvalue
  have hsplit : raw.toNat / kind.tagBound * kind.tagBound + raw.toNat % kind.tagBound = raw.toNat :=
    Nat.div_add_mod' _ _
  rw [hencode, htag]
  constructor
  · intro hsame
    obtain rfl := Except.ok.inj hsame
    exact congrArg some (Nat.add_left_cancel (hvalue.symm.trans hsplit.symm))
  · intro hsame
    obtain rfl := Option.some.inj hsame
    exact congrArg Except.ok (UInt32.toNat_inj.mp (hvalue.trans hsplit))

theorem tagOf?_eq_iff_assigned (h : decode raw kind = .ok ci) :
    kind.tagOf? ci.table = some (raw.toNat % kind.tagBound) ↔
      kind.candidate? (raw.toNat % kind.tagBound) ≠ some none := by
  constructor
  · intro htag
    rw [CodedKind.candidate?_tagOf? htag]
    simp
  · intro hassigned
    rcases tableOfTag?_eq_some.mp (parts_of_decode h).2 with hcandidate | ⟨hcandidate, _⟩
    · exact CodedKind.tagOf?_of_candidate? hcandidate
    · exact absurd hcandidate hassigned

/-- An unassigned tag is read below a null row only, so it is all of the number. -/
theorem unassigned_iff_of_decode (h : decode raw kind = .ok ci) :
    kind.candidate? (raw.toNat % kind.tagBound) = some none ↔
      kind = .customAttributeType ∧ raw ∈ [0, 1, 4] := by
  have hwhole : raw ∈ [0, 1, 4] ↔ raw.toNat ∈ [0, 1, 4] := by
    simp only [List.mem_cons, List.not_mem_nil, or_false, ← UInt32.toNat_inj]
    rfl
  constructor
  · intro hunassigned
    obtain ⟨hrow, htable⟩ := parts_of_decode h
    rcases tableOfTag?_eq_some.mp htable with hcandidate | ⟨_, hnull, _⟩
    · rw [hunassigned] at hcandidate
      cases hcandidate
    · have htag : raw.toNat % kind.tagBound = raw.toNat := by
        rw [hnull] at hrow
        rw [Nat.mod_eq_of_lt]
        exact Nat.lt_of_div_eq_zero kind.tagBound_pos hrow.symm
      rw [htag, CodedKind.unassigned_iff] at hunassigned
      exact ⟨hunassigned.1, hwhole.mpr hunassigned.2⟩
  · rintro ⟨rfl, hmem⟩
    have low : ∀ n ∈ [0, 1, 4], n % CodedKind.tagBound .customAttributeType = n := by decide
    rw [low _ (hwhole.mp hmem)]
    exact CodedKind.unassigned_iff.mpr ⟨rfl, hwhole.mp hmem⟩

/-- A null reference with an unassigned tag is read as one to a method, and written as one. -/
theorem encode_of_unassigned (hraw : raw ∈ [0, 1, 4])
    (h : decode raw .customAttributeType = .ok ci) :
    ci = ⟨.methodDef, 0⟩ ∧ ci.encode .customAttributeType = .ok 2 := by
  have first : decode raw .customAttributeType = .ok ⟨.methodDef, 0⟩ := by
    simp only [List.mem_cons, List.not_mem_nil, or_false] at hraw
    rcases hraw with rfl | rfl | rfl <;> rfl
  obtain rfl := Except.ok.inj (first.symm.trans h)
  exact ⟨rfl, rfl⟩

theorem encode_eq_ok_iff_assigned (h : decode raw kind = .ok ci) :
    ci.encode kind = .ok raw ↔ ¬ (kind = .customAttributeType ∧ raw ∈ [0, 1, 4]) :=
  calc
    ci.encode kind = .ok raw ↔ kind.tagOf? ci.table = some (raw.toNat % kind.tagBound) :=
      encode_eq_ok_iff_tag h
    _ ↔ kind.candidate? (raw.toNat % kind.tagBound) ≠ some none := tagOf?_eq_iff_assigned h
    _ ↔ ¬ (kind = .customAttributeType ∧ raw ∈ [0, 1, 4]) :=
      not_congr (unassigned_iff_of_decode h)

/-! ## Columns -/

theorem reader_of_holds {info : TableInfo} {c : Cursor} (h : decode raw kind = .ok ci)
    (hfits : (info.codedWidth kind).holds raw)
    (hbytes : Holds c.data c.pos ((info.codedWidth kind).stored raw)) :
    reader kind info c = .ok ci { c with pos := c.pos + (info.codedWidth kind).bytes } := by
  unfold reader
  rw [bind_of_ok (Reader.index_of_holds hfits hbytes), h]
  rfl

/-- A column is written as it stood exactly if its number is. The number that is written in place of
an unassigned tag fits every column, and is another one. -/
theorem writer_puts_iff {info : TableInfo} (h : decode raw kind = .ok ci)
    (hfits : (info.codedWidth kind).holds raw) :
    Writer.Puts (ci.writer kind info) ((info.codedWidth kind).stored raw) ↔
      ci.encode kind = .ok raw := by
  constructor
  · intro hputs
    by_contra hother
    obtain ⟨rfl, hraw⟩ := Decidable.not_not.mp (mt (encode_eq_ok_iff_assigned h).mpr hother)
    have hwritten := (encode_of_unassigned hraw h).2
    have htwo : (info.codedWidth .customAttributeType).holds 2 := by
      cases info.codedWidth .customAttributeType <;> rfl
    have hsame := IndexWidth.eq_of_stored_eq hfits htwo
      (hputs.unique (writer_puts hwritten htwo))
    rw [hsame] at hraw
    exact absurd hraw (by decide)
  · intro hencode
    exact writer_puts hencode hfits

/-- A number that is read as a reference is written for it again, and so is a column that holds the
number, except for null references of `customAttributeType` with an unassigned tag: they are read as
null references to a method, for which 2 is written. -/
theorem rewrites_iff_assigned (h : decode raw kind = .ok ci) :
    (ci.encode kind = .ok raw ↔ ¬ (kind = .customAttributeType ∧ raw ∈ [0, 1, 4])) ∧
      (kind = .customAttributeType ∧ raw ∈ [0, 1, 4] →
        ci = ⟨.methodDef, 0⟩ ∧ ci.encode kind = .ok 2) ∧
      ∀ info : TableInfo, (info.codedWidth kind).holds raw →
        (∀ c : Cursor, Holds c.data c.pos ((info.codedWidth kind).stored raw) →
          reader kind info c = .ok ci { c with pos := c.pos + (info.codedWidth kind).bytes }) ∧
        (Writer.Puts (ci.writer kind info) ((info.codedWidth kind).stored raw) ↔
          ¬ (kind = .customAttributeType ∧ raw ∈ [0, 1, 4])) := by
  refine ⟨encode_eq_ok_iff_assigned h, ?_, ?_⟩
  · rintro ⟨rfl, hraw⟩
    exact encode_of_unassigned hraw h
  · intro info hfits
    exact ⟨fun c hbytes => reader_of_holds h hfits hbytes,
      (writer_puts_iff h hfits).trans (encode_eq_ok_iff_assigned h)⟩

/-- A null constructor, as a column of zeros has it, is not written as it was read. -/
theorem rewrites_iff_assigned_null :
    decode 0 .customAttributeType = .ok ⟨.methodDef, 0⟩ ∧
      encode ⟨.methodDef, 0⟩ .customAttributeType = .ok 2 ∧
      encode ⟨.methodDef, 0⟩ .customAttributeType ≠ .ok 0 := by
  have hread : decode 0 .customAttributeType = .ok ⟨.methodDef, 0⟩ := rfl
  have hnull : (0 : UInt32) ∈ [0, 1, 4] := by decide
  obtain ⟨hsame, hother, _⟩ := rewrites_iff_assigned hread
  exact ⟨hread, (hother ⟨rfl, hnull⟩).2, fun h => hsame.mp h ⟨rfl, hnull⟩⟩

end CodedIndex

end CilCodec
