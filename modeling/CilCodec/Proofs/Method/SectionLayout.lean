import CilCodec.Proofs.Method.SectionChain

/-!
# CilCodec.Proofs.Method.SectionLayout

The layout of the section that is written for clauses.

All clauses of a section have one form. The fat one is taken exactly if it has to be: one clause
does not fit the small form, or the size of them all does not fit its byte. Written bytes are
described by the grammar of `Proofs/Method/SectionChain`, which says nothing of how they are
written.

Results:
1. `isFatRequired_iff`: when clauses have to be fat.
2. `writer_layout`: what is written, that it is read back, and that nothing is written if the
   clauses are too many.
-/

namespace CilCodec

open Reader LittleEndian

/-- Whether a clause has an offset of more than two bytes or a length of more than one. -/
def ExceptionHandler.IsWide (h : ExceptionHandler) : Prop :=
  0xffff < h.tryOffset.toNat ∨ 0xffff < h.handlerOffset.toNat ∨ 0xff < h.tryLength.toNat ∨
    0xff < h.handlerLength.toNat

theorem ExceptionHandler.requiresFat_iff {h : ExceptionHandler} :
    h.requiresFat = true ↔ h.IsWide := by
  simp only [requiresFat, IsWide, Bool.or_eq_true, decide_eq_true_iff, or_assoc]

namespace MethodSection

/-- Clauses have to be fat if one of them is wide, or if there are so many that their size takes
more than a byte. -/
theorem isFatRequired_iff {handlers : List ExceptionHandler} :
    isFatRequired handlers = true ↔ (∃ h ∈ handlers, h.IsWide) ∨ 20 < handlers.length := by
  have hcount : smallLimit < headerSize + handlers.length * ExceptionHandler.smallSize ↔
      20 < handlers.length := by
    show 0xff < 4 + handlers.length * 12 ↔ _
    omega
  unfold isFatRequired
  rw [Bool.or_eq_true, decide_eq_true_iff, hcount, List.any_eq_true, or_comm]
  simp only [ExceptionHandler.requiresFat_iff]

/-- What is written for clauses, as padding and a section. -/
theorem exists_sectionBytes {handlers : List ExceptionHandler}
    (hnonempty : handlers.isEmpty = false) (hsize : size handlers ≤ fatLimit) (framed : Nat) :
    ∃ s : SectionBytes, stored framed handlers = List.replicate (gap framed 4) 0 ++ s.bytes ∧
      s.bytes.length = size handlers ∧ s.HasClauses handlers ∧ s.announcesMore = false ∧
      s.isFat = isFatRequired handlers := by
  obtain ⟨s, hclauses, hbytes, hheader⟩ :=
    storedSection_iff.mp (storedSection_written hnonempty hsize)
  obtain ⟨_, hfat, hmore⟩ := testBit_writtenFlags handlers
  refine ⟨s, ?_, ?_, hclauses, ?_, ?_⟩
  · unfold stored
    rw [hnonempty, if_neg Bool.false_ne_true, hbytes]
  · have hlength := length_stored framed handlers
    unfold stored at hlength
    rw [hnonempty, if_neg Bool.false_ne_true, if_neg Bool.false_ne_true, ← hbytes,
      List.length_append, List.length_replicate] at hlength
    exact Nat.add_left_cancel hlength
  · rw [← s.hasMore_word, hheader]
    exact hmore
  · rw [← s.isFat_word, hheader]
    exact hfat

/-- Clauses that no section can hold are refused before anything is written. -/
theorem writer_of_limit {origin : Nat} {handlers : List ExceptionHandler} {out : Buffer}
    (hsize : fatLimit < size handlers) :
    writer origin handlers out =
      .error (.refused (.malformed (.sectionLimit handlers.length) out.pos)) out := by
  cases handlers with
  | nil => cases hsize
  | cons first rest =>
    have hcheck : check (first :: rest) out.pos = .error _ := check_eq_error.mpr ⟨hsize, rfl⟩
    exact (bind_of_ok (Writer.position_eq_ok.mpr ⟨rfl, rfl⟩)).trans
      (bind_of_error (Writer.ofResult_eq_error.mpr ⟨_, hcheck, rfl, rfl⟩))

/-- Clauses behind a body that starts at `start` are written as one section. In front of it there
are zeros up to a multiple of four bytes from the start. Its clauses are fat exactly if they have to
be, and they are read back from the bytes of the body, whatever follows. Clauses that are too many
for a section are refused, and nothing is written. -/
theorem writer_layout {start : Nat} {handlers : List ExceptionHandler} {out : Buffer}
    (hnonempty : handlers ≠ []) (hstart : start ≤ out.pos) :
    (size handlers ≤ 0xffffff → ∃ (padding : List UInt8) (s : SectionBytes),
      writer start handlers out = .ok () (out.append (padding ++ s.bytes)) ∧
        (∀ byte ∈ padding, byte = 0) ∧ IsPadding (out.pos - start) padding ∧
        s.bytes.length = size handlers ∧ s.HasClauses handlers ∧ s.announcesMore = false ∧
        (s.isFat = true ↔ (∃ h ∈ handlers, h.IsWide) ∨ 20 < handlers.length) ∧
        ∀ (config : Config) (behind : List UInt8) (notices : Array Notice),
          let data :=
            ((out.append (padding ++ s.bytes)).bytes.toList.drop start ++ behind).toArray
          ∃ notices', reader config ⟨data, out.pos - start, notices⟩ =
            .ok handlers ⟨data, out.pos - start + (padding ++ s.bytes).length, notices'⟩) ∧
    (0xffffff < size handlers →
      writer start handlers out =
        .error (.refused (.malformed (.sectionLimit handlers.length) out.pos)) out) := by
  have hsome : handlers.isEmpty = false := List.isEmpty_eq_false_iff.mpr hnonempty
  obtain ⟨framed, hframed⟩ := Nat.exists_eq_add_of_le hstart
  have hdistance : out.pos - start = framed := by omega
  rw [hdistance]
  refine ⟨fun hsize => ?_, writer_of_limit⟩
  · obtain ⟨s, hstored, hlength, hclauses, hmore, hfat⟩ := exists_sectionBytes hsome hsize framed
    have hpadding : IsPadding framed (List.replicate (gap framed 4) 0) :=
      isPadding_iff.mpr List.length_replicate
    refine ⟨_, s, hstored ▸ writer_eq hsize hframed, fun _ => List.eq_of_mem_replicate, hpadding,
      hlength, hclauses, hmore, hfat ▸ isFatRequired_iff, ?_⟩
    intro config behind notices data
    have hholds : Holds data framed (List.replicate (gap framed 4) 0 ++ s.bytes) := by
      refine ⟨out.bytes.toList.drop start, behind, ?_, ?_⟩
      · show List.drop start _ ++ behind = _
        rw [Buffer.toList_append, List.drop_append_of_le_length hstart]
      · rw [List.length_drop]
        exact hdistance
    obtain ⟨sections, hsections, hflatten⟩ :=
      storedSections_iff.mpr (.last hpadding hclauses hmore)
    obtain ⟨⟨_, _, notices'⟩, hread, _, rfl, rfl⟩ :=
      sectionsReader_complete config (c := ⟨data, framed, notices⟩) hsections hholds
    rw [hflatten] at hread
    exact ⟨notices', hread⟩

/-- A wide clause behind a body that starts after one byte and takes five. -/
theorem writer_layout_wide :
    [(⟨.finallyClause, 0x10000, 2, 3, 4, 0⟩ : ExceptionHandler)] ≠ [] ∧
    1 ≤ (Buffer.ofBytes #[9, 8, 7, 6, 5, 4]).pos ∧
    size [⟨.finallyClause, 0x10000, 2, 3, 4, 0⟩] ≤ 0xffffff ∧
    ∃ (padding : List UInt8) (s : SectionBytes),
      writer 1 [⟨.finallyClause, 0x10000, 2, 3, 4, 0⟩] (Buffer.ofBytes #[9, 8, 7, 6, 5, 4]) =
        .ok () ((Buffer.ofBytes #[9, 8, 7, 6, 5, 4]).append (padding ++ s.bytes)) ∧
      padding.length = 3 ∧ s.bytes.length = 28 ∧ s.isFat = true := by
  have hnonempty : [(⟨.finallyClause, 0x10000, 2, 3, 4, 0⟩ : ExceptionHandler)] ≠ [] :=
    List.cons_ne_nil _ _
  have hstart : 1 ≤ (Buffer.ofBytes #[9, 8, 7, 6, 5, 4]).pos := by decide
  have hsize : size [⟨.finallyClause, 0x10000, 2, 3, 4, 0⟩] ≤ 0xffffff := by decide
  obtain ⟨padding, s, hwrite, _, ⟨hshort, haligned⟩, hlength, _, _, hfat, _⟩ :=
    (writer_layout hnonempty hstart).1 hsize
  have hpos : (Buffer.ofBytes #[9, 8, 7, 6, 5, 4]).pos - 1 = 5 := rfl
  rw [hpos] at haligned
  have hwide : (⟨.finallyClause, 0x10000, 2, 3, 4, 0⟩ : ExceptionHandler).IsWide := .inl (by decide)
  exact ⟨hnonempty, hstart, hsize, padding, s, hwrite, by omega, hlength,
    hfat.mpr (.inl ⟨_, List.mem_singleton_self _, hwide⟩)⟩

end MethodSection

end CilCodec
