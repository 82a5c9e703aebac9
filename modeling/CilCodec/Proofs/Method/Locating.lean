import CilCodec.Proofs.Bytes.Locating
import CilCodec.Proofs.Code.Targets
import CilCodec.Proofs.Method.Leniency

/-!
# CilCodec.Proofs.Method.Locating

Where the errors of decoding a body point to.

A body is read in two parts. Header, code and sections are framed over all the data that are handed
in; the instructions are then read over the region that the header gives to the code. Each part has
an end of its own, and the errors of each are located in front of it.

Results:
1. `headerReader_locates`, `sectionsReader_locates`, `readInstruction_locates`: the parts of a body.
2. `Code.located_of_reader_error`: reading code, where only branches are refused later than they are
   read.
3. `MethodBody.decode_error_located`: decoding a body with its operands as they are stored.
-/

namespace CilCodec

open Reader LittleEndian

/-! ## Instructions -/

section Instructions

variable {origin start low : Nat} {opcode : Opcode} {config : Config}

theorem readSwitch_locates : LocatesFrom low (readSwitch origin config) := by
  unfold readSwitch
  refine .bindPosition fun start _ => .bindFirst (by decide) fun count => ?_
  refine .bind (ensure_advances _) (.ensure _) fun _ => ?_
  refine .refuse (fun limit hlow => .malformed hlow) ?_
  refine .bindPosition fun next _ => ?_
  exact .map (.repeated (word_advances Int32) (.word Int32) _) _

theorem readOperand_locates : LocatesFrom low (readOperand origin start opcode config) := by
  unfold readOperand
  cases opcode.operandKind
  case none => exact .pure _
  case switchTable => exact readSwitch_locates
  case userString =>
    refine .bindWord fun value => ?_
    exact .ite (.bind (note_advances _) (.note _) fun _ => .pure _) (.pure _)
  case member kind =>
    refine .bindWord fun value => ?_
    exact .ite (.pure _) (.bind (note_advances _) (.note _) fun _ => .pure _)
  case shortBranch => exact .bindWord fun delta => .bindPosition fun next _ => .pure _
  case longBranch => exact .bindWord fun delta => .bindPosition fun next _ => .pure _
  all_goals exact .bindWord fun value => .pure _

theorem readInstruction_locates : LocatesFrom low (readInstruction origin config) := by
  unfold readInstruction
  refine .bindPosition fun start _ => .bindFirst (by decide) fun first => ?_
  -- whether its opcode has one byte or two, an instruction goes on alike
  refine .ite (.bindWord fun code => ?_) (.bind (pure_advances _) (.pure _) fun code => ?_) <;>
  · dsimp only
    cases Opcode.ofCode? (first == longOpcodeMark) code with
    | none => exact .throw fun limit hlow => .unknownOpcode hlow
    | some opcode => exact .map readOperand_locates _

end Instructions

/-! ## Headers -/

theorem fatHeaderReader_advances : Advances MethodHeader.fatReader := by
  unfold MethodHeader.fatReader
  refine position_advances.bind fun start => (ensure_advances _).bind fun _ => ?_
  refine (word_advances UInt16).bind fun flagsAndSize => (word_advances UInt16).bind fun _ => ?_
  refine (word_advances UInt32).bind fun _ => (word_advances UInt32).bind fun _ => ?_
  refine .ite ((throw_advances _).bind fun _ => ?_) ?_ <;>
  · refine .ite ((note_advances _).bind fun _ => ?_) (pure_advances _)
    exact (advance_advances _).bind fun _ => pure_advances _

theorem peekByte_advances : Advances peekByte := by
  intro c hc
  unfold peekByte
  split
  next => exact .refl hc
  next => exact .refl hc

theorem headerReader_advances : Advances MethodHeader.reader := by
  unfold MethodHeader.reader
  refine position_advances.bind fun start => peekByte_advances.bind fun first => ?_
  refine .ite ((advance_advances 1).bind fun _ => pure_advances _) ?_
  exact .ite fatHeaderReader_advances (throw_advances _)

theorem fatHeaderReader_locates {low : Nat} : LocatesFrom low MethodHeader.fatReader := by
  unfold MethodHeader.fatReader
  refine .bindPosition fun start _ => .bind (ensure_advances _) (.ensure _) fun _ => ?_
  refine .bindFirst (by decide) fun flagsAndSize => .bindWord fun _ => ?_
  refine .bindWord fun _ => .bindWord fun _ => ?_
  refine .refuse (fun limit hlow => .malformed hlow) ?_
  refine .ite (.bind (note_advances _) (.note _) fun _ => ?_) (.pure _)
  exact .map (.advance _) _

theorem headerReader_locates {low : Nat} : LocatesFrom low MethodHeader.reader := by
  intro c c' e hlow hpos h
  unfold MethodHeader.reader at h
  rw [bind_of_ok (position_eq_ok.mpr ⟨rfl, rfl⟩)] at h
  rcases bind_eq_error.mp h with hpeek | ⟨first, _, hpeek, hrest⟩
  · exact LocatesFrom.peekByte c c' e hlow hpos hpeek
  · obtain ⟨hholds, rfl⟩ := peekByte_eq_ok.mp hpeek
    split at hrest
    next => exact LocatesFrom.map (.advance 1) _ c c' e hlow hpos hrest
    next =>
      split at hrest
      next => exact fatHeaderReader_locates c c' e hlow hpos hrest
      next =>
        -- the byte that is refused is there, since it was looked at
        obtain ⟨rfl, _⟩ := throw_eq_error.mp hrest
        exact .malformed hholds.le

/-! ## Sections -/

theorem ofFields_located {start : Nat}
    {flags tryOffset tryLength handlerOffset handlerLength classOrFilter : UInt32} {e : Error}
    (h : ExceptionHandler.ofFields start flags tryOffset tryLength handlerOffset handlerLength
      classOrFilter = .error e) {limit : Nat} (hstart : start < limit) : e.LocatedIn limit := by
  unfold ExceptionHandler.ofFields at h
  split at h
  next => cases h
  next =>
    cases h
    exact .malformed hstart

theorem handlerReader_locates {low : Nat} (isFat : Bool) :
    LocatesFrom low (ExceptionHandler.reader isFat) := by
  unfold ExceptionHandler.reader
  refine .ite ?_ ?_
  · unfold ExceptionHandler.fatReader
    refine .bindPosition fun start _ => .bindFirst (by decide) fun flags => ?_
    iterate 5 refine .bindWord fun _ => ?_
    exact .ofResult fun e he limit hlow => ofFields_located he hlow
  · unfold ExceptionHandler.smallReader
    refine .bindPosition fun start _ => .bindFirst (by decide) fun flags => ?_
    iterate 5 refine .bindWord fun _ => ?_
    exact .ofResult fun e he limit hlow => ofFields_located he hlow

namespace MethodSection

theorem sectionReader_locates {low : Nat} : LocatesFrom low sectionReader := by
  unfold sectionReader
  refine .bind (align_advances 4) (.align 4) fun _ => ?_
  refine .bindPosition fun start _ => .bindFirst (by decide) fun word => ?_
  refine .refuse (fun limit hlow => .malformed hlow) ?_
  refine .ite (.refuse (fun limit hlow => .malformed hlow) ?_) ?_
  · refine .bind (ensure_advances _) (.ensure _) fun _ => ?_
    exact .map (.repeated (handlerReader_advances _) (handlerReader_locates _) _) _
  · exact .bind (note_advances _) (.note _) fun _ => .map (.advance _) _

/-- Wherever reading sections ends, it is inside the data. -/
theorem sectionsReader_advances (config : Config) : Advances (reader config) := by
  intro c hc
  obtain ⟨sections, last, hchain, ⟨clauses, c', hread⟩ | ⟨e, stop, hread⟩⟩ := exists_announced c
  · have hlast := hchain.leadsTo hc
    rw [reader_of_last hchain hread]
    exact hlast.trans (sectionReader_advances.of_ok hlast.inside hread)
  · have hlast := hchain.leadsTo hc
    have hstop := hlast.trans (sectionReader_advances.of_error hlast.inside hread)
    cases hlenient : config.lenientSections with
    | true =>
      rw [lenientReader_of_malformed hlenient hchain hread]
      exact ⟨hstop.data_eq, hstop.pos_le, hstop.inside⟩
    | false =>
      rw [strictReader_of_malformed hlenient hchain hread]
      exact hstop

/-- Reading sections fails as the last of them does. -/
theorem sectionsReader_locates {low : Nat} (config : Config) : LocatesFrom low (reader config) := by
  intro c c' e _ hpos h
  obtain ⟨sections, last, hchain, ⟨clauses, stop, hread⟩ | ⟨e', stop, hread⟩⟩ := exists_announced c
  · rw [reader_of_last hchain hread] at h
    cases h
  · cases hlenient : config.lenientSections with
    | true =>
      rw [lenientReader_of_malformed hlenient hchain hread] at h
      cases h
    | false =>
      rw [strictReader_of_malformed hlenient hchain hread] at h
      cases h
      have hlast := hchain.leadsTo hpos
      rw [← hlast.data_eq]
      exact sectionReader_locates last _ _ (Nat.le_refl _) hlast.inside hread

end MethodSection

/-! ## Code -/

namespace Code

/-- A loose branch stands inside the code it was read with. -/
theorem offset_lt_of_mem_looseBranches {code : Code RawModel} (hplaced : code.IsPlaced)
    {branch : Nat × Int64}
    (hbranch : branch ∈ code.instructions.flatMap Instruction.looseBranches) :
    branch.1 < code.size := by
  obtain ⟨i, hi, hloose⟩ := List.mem_flatMap.mp hbranch
  obtain ⟨index, hindex⟩ := List.getElem?_of_mem hi
  rw [offset_of_mem_looseBranches hloose]
  exact Nat.lt_of_lt_of_le (Nat.lt_add_of_pos_right i.size_pos) (end_le_size hplaced hindex)

/-- Code that is there and stands for itself fails in front of its end. -/
theorem located_of_reader_error {size : Nat} {locals : List UInt16} {config : Config}
    {c c' : Cursor} {e : Error} (hroom : c.pos + size ≤ c.data.size)
    (h : reader size rawResolver locals config c = .error e c') :
    e.LocatedIn (c.pos + size) := by
  rcases reader_eq_error.mp h with ⟨hshort, _, _⟩ | ⟨_, is, middle, inner, hsteps, _, hfail⟩
  · exact absurd hroom (Nat.not_le.mpr hshort)
  have hinside := Cursor.InRegion.of_steps readResolved_moves hroom hsteps
  rcases hfail with ⟨_, hinstruction⟩ | ⟨hend, hloose⟩
  · rcases readResolved_eq_error.mp hinstruction with hraw | ⟨raw, _, hresolve⟩
    · rw [← hinside.size_eq]
      exact readInstruction_locates middle _ _ (Nat.le_refl _)
        (hinside.size_eq.symm ▸ hinside.pos_le) hraw
    · -- a number always stands for itself
      have hrefused := Instruction.resolve_eq_error_iff.mp hresolve
      generalize raw.operand = stored at hrefused
      cases hrefused with
      | localVariable hnone | argument hnone | userString hnone | member hnone => cases hnone
  · obtain ⟨_, _, offset, target, hhead, rfl⟩ := reportLoose_eq_error.mp hloose
    have hpos : (c.region size).pos ≤ (c.region size).data.size := by
      rw [Cursor.size_region hroom]
      exact Nat.le_add_right _ _
    obtain ⟨hplaced, hsize⟩ := placed_of_steps hpos hsteps size
    have hoffset : offset < Code.size ⟨bindLabels size is⟩ :=
      offset_lt_of_mem_looseBranches hplaced (List.mem_of_mem_head? hhead)
    have htotal : Code.size ⟨bindLabels size is⟩ = size :=
      hsize.trans (Cursor.InRegion.width_eq hend)
    rw [htotal] at hoffset
    exact .invalidBranchTarget (Nat.add_lt_add_left hoffset c.pos)

end Code

/-! ## Bodies -/

namespace RawBody

variable {data : Array UInt8} {config : Config}

theorem reader_locates {low : Nat} : LocatesFrom low (reader config) := by
  have hrest : ∀ {low headerSize : Nat} {header : MethodHeader} {handlers : List ExceptionHandler},
      LocatesFrom low fun c => .ok (⟨header, headerSize, c.passed, handlers⟩ : RawBody) c :=
    fun _ _ _ _ _ h => nomatch h
  unfold reader
  refine .bind headerReader_advances headerReader_locates fun header => ?_
  refine .bindPosition fun headerSize _ => .bind (advance_advances _) (.advance _) fun _ => ?_
  refine .ite (.bind (MethodSection.sectionsReader_advances config) ?_ fun _ => hrest)
    (.bind (pure_advances _) (.pure _) fun _ => hrest)
  exact MethodSection.sectionsReader_locates config

theorem located_of_read_error {e : Error} (h : read data config = .error e) :
    e.LocatedIn data.size := by
  obtain ⟨c', hread⟩ := answer_eq_error.mp h
  exact reader_locates (Cursor.start data) c' e (Nat.le_refl _) (Nat.zero_le _) hread

/-- The code of a framed body lies in it, and the body in the data. -/
theorem region_of_read {raw : RawBody} (h : read data config = .ok raw) :
    raw.headerSize + raw.header.codeSize.toNat ≤ raw.bytes.size ∧ raw.bytes.size ≤ data.size := by
  obtain ⟨c', hread⟩ := answer_eq_ok.mp h
  obtain ⟨header, inCode, behind, handlers, hheader, hadvance, hhandlers, rfl⟩ :=
    reader_eq_ok.mp hread
  have hfront := headerReader_advances.of_ok (Nat.zero_le _) hheader
  obtain ⟨hroom, rfl⟩ := advance_eq_ok.mp hadvance
  have hback : Cursor.LeadsTo { inCode with pos := inCode.pos + header.codeSize.toNat } c' := by
    cases hsections : header.hasSections with
    | true =>
      rw [hsections, if_pos rfl] at hhandlers
      exact (MethodSection.sectionsReader_advances config).of_ok hroom hhandlers
    | false =>
      rw [hsections, if_neg Bool.false_ne_true] at hhandlers
      obtain ⟨_, rfl⟩ := pure_eq_ok.mp hhandlers
      exact .refl hroom
  have hsize : c'.passed.size = c'.pos := by
    unfold Cursor.passed
    rw [Array.size_extract, Nat.sub_zero, Nat.min_eq_left hback.inside]
  have hdata : c'.data = data := hback.data_eq.trans hfront.data_eq
  show _ ≤ c'.passed.size ∧ c'.passed.size ≤ _
  rw [hsize, ← hdata]
  exact ⟨hback.pos_le, hback.inside⟩

/-- Where operands stand for themselves, only the code can fail to be resolved. -/
theorem resolve_raw_error {raw : RawBody} {e : Error} (hroom : raw.headerSize ≤ raw.bytes.size)
    (h : raw.resolve rawResolver config = .error e) :
    ∃ c', Code.reader raw.header.codeSize.toNat rawResolver [] config
      ⟨raw.bytes, raw.headerSize, #[]⟩ = .error e c' := by
  obtain ⟨c', hresolve⟩ := answer_eq_error.mp h
  have hlocals : raw.resolver rawResolver config (Cursor.start raw.bytes) =
      (do
        seek raw.headerSize
        let code ← Code.reader raw.header.codeSize.toNat rawResolver [] config
        return raw.holding code) (Cursor.start raw.bytes) := by
    unfold resolver
    dsimp only
    split
    next => rfl
    next => rfl
  rw [hlocals, bind_of_ok (seek_eq_ok (u := ()).mpr ⟨hroom, rfl⟩)] at hresolve
  rcases bind_eq_error.mp hresolve with hcode | ⟨_, _, _, hpure⟩
  · exact ⟨c', hcode⟩
  · cases hpure

end RawBody

namespace MethodBody

/-- Decoding a body with its operands as they are stored fails for what its bytes are, and says
where. Either the body cannot be framed, and the error is located in the data. Or the body is framed
and its instructions cannot be read, and then the error is located in front of where the code ends,
which is in the data. -/
theorem decode_error_located {data : Array UInt8} {config : Config} {e : Error}
    (h : decode data rawResolver config = .error e) :
    (RawBody.read data config = .error e ∧ e.LocatedIn data.size) ∨
      ∃ raw, RawBody.read data config = .ok raw ∧ raw.resolve rawResolver config = .error e ∧
        raw.headerSize + raw.header.codeSize.toNat ≤ data.size ∧
        e.LocatedIn (raw.headerSize + raw.header.codeSize.toNat) := by
  rw [decode_eq_match] at h
  cases hread : RawBody.read data config with
  | error e' =>
    rw [hread] at h
    cases h
    exact .inl ⟨rfl, RawBody.located_of_read_error hread⟩
  | ok raw =>
    rw [hread] at h
    obtain ⟨hcode, hbytes⟩ := RawBody.region_of_read hread
    obtain ⟨c', hfail⟩ := RawBody.resolve_raw_error (Nat.le_of_add_right_le hcode) h
    exact .inr ⟨raw, rfl, h, Nat.le_trans hcode hbytes, Code.located_of_reader_error hcode hfail⟩

set_option maxRecDepth 4000 in
/-- An instruction that is cut off by the end of the code, though more bytes follow. -/
theorem decode_error_located_code :
    decode #[0x0a, 0x20, 1, 0, 0, 0] rawResolver Config.default = .error (.truncated 2 4) ∧
      ∃ raw, RawBody.read #[0x0a, 0x20, 1, 0, 0, 0] Config.default = .ok raw ∧
        raw.headerSize + raw.header.codeSize.toNat ≤ 6 ∧
        (Error.truncated 2 4).LocatedIn (raw.headerSize + raw.header.codeSize.toNat) := by
  have hdecode : decode #[0x0a, 0x20, 1, 0, 0, 0] rawResolver Config.default =
      .error (.truncated 2 4) := rfl
  rcases decode_error_located hdecode with ⟨_, hlocated⟩ | ⟨raw, hread, _, hinside, hlocated⟩
  · -- all six bytes would be enough
    cases hlocated with
    | truncated _ _ hshort => exact absurd hshort (by decide)
  · exact ⟨hdecode, raw, hread, hinside, hlocated⟩

end MethodBody

end CilCodec
