import CilCodec.Proofs.Bytes.Extension
import CilCodec.Proofs.Method.Body

/-!
# CilCodec.Proofs.Method.SelfDelimiting

Where a body ends is told by its own bytes.

Header, code and sections each say how long they are before they are taken, so a body is read the
same with anything behind it, and a part of it is never read as a whole body. Lenient reading of
sections is left out: a section that is cut is dropped there, and with more bytes it is not.

Results:
1. `headerReader_selfDelimiting`, `sectionsReader_selfDelimiting`, `RawBody.reader_selfDelimiting`:
   no reader of a part looks behind it.
2. `MethodBody.decode_selfDelimiting`: bodies with more bytes behind them, and cut bodies.
-/

namespace CilCodec

open Reader

/-! ## Headers -/

theorem fatHeaderReader_selfDelimiting : SelfDelimiting MethodHeader.fatReader := by
  unfold MethodHeader.fatReader
  refine position_selfDelimiting.bind fun start => ?_
  refine (ensure_selfDelimiting _).bind fun _ => ?_
  refine (word_selfDelimiting UInt16).bind fun flagsAndSize => ?_
  refine (word_selfDelimiting UInt16).bind fun maxStack => ?_
  refine (word_selfDelimiting UInt32).bind fun codeSize => ?_
  refine (word_selfDelimiting UInt32).bind fun localSignature => ?_
  refine .refuse (.ite ?_ (pure_selfDelimiting _))
  refine (note_selfDelimiting _).bind fun _ => ?_
  exact (advance_selfDelimiting _).bind fun _ => pure_selfDelimiting _

theorem headerReader_selfDelimiting : SelfDelimiting MethodHeader.reader := by
  unfold MethodHeader.reader
  refine position_selfDelimiting.bind fun start => ?_
  refine peekByte_selfDelimiting.bind fun first => ?_
  refine .ite ?_ (.ite fatHeaderReader_selfDelimiting (throw_selfDelimiting _))
  exact (advance_selfDelimiting 1).bind fun _ => pure_selfDelimiting _

/-! ## Clauses -/

theorem handlerReader_selfDelimiting (isFat : Bool) :
    SelfDelimiting (ExceptionHandler.reader isFat) := by
  unfold ExceptionHandler.reader
  refine .ite ?_ ?_
  · unfold ExceptionHandler.fatReader
    refine position_selfDelimiting.bind fun start => ?_
    iterate 6 refine (word_selfDelimiting UInt32).bind fun _ => ?_
    exact ofResult_selfDelimiting _
  · unfold ExceptionHandler.smallReader
    refine position_selfDelimiting.bind fun start => ?_
    refine (word_selfDelimiting UInt16).bind fun flags => ?_
    refine (word_selfDelimiting UInt16).bind fun tryOffset => ?_
    refine (word_selfDelimiting UInt8).bind fun tryLength => ?_
    refine (word_selfDelimiting UInt16).bind fun handlerOffset => ?_
    refine (word_selfDelimiting UInt8).bind fun handlerLength => ?_
    refine (word_selfDelimiting UInt32).bind fun classOrFilter => ?_
    exact ofResult_selfDelimiting _

/-! ## Sections -/

namespace MethodSection

theorem sectionReader_selfDelimiting : SelfDelimiting sectionReader := by
  unfold sectionReader
  refine (align_selfDelimiting 4).bind fun _ => ?_
  refine position_selfDelimiting.bind fun start => ?_
  refine (word_selfDelimiting UInt32).bind fun word => ?_
  refine .refuse (.ite (.refuse ?_) ?_)
  · refine (ensure_selfDelimiting _).bind fun _ => ?_
    refine ((handlerReader_selfDelimiting _).repeated _).bind fun clauses => ?_
    exact pure_selfDelimiting _
  · refine (note_selfDelimiting _).bind fun _ => ?_
    exact (advance_selfDelimiting _).bind fun _ => pure_selfDelimiting _

/-- Unless malformed sections are tolerated, a chain is a section and, if that announces more, the
chain behind it. -/
theorem chainReader_succ {config : Config} (hstrict : config.lenientSections = false) (limit : Nat)
    (done : List ExceptionHandler) :
    chainReader config (limit + 1) done = sectionReader >>= fun (clauses, hasMore) =>
      if hasMore then chainReader config limit (done ++ clauses) else pure (done ++ clauses) := by
  funext c
  rw [chainReader]
  cases hread : sectionReader c with
  | ok answer middle =>
    obtain ⟨clauses, hasMore⟩ := answer
    rw [bind_of_ok hread]
    cases hasMore
    · rfl
    · rfl
  | error e middle =>
    rw [bind_of_error hread, hstrict]
    rfl

theorem chainReader_selfDelimiting {config : Config} (hstrict : config.lenientSections = false)
    (limit : Nat) (done : List ExceptionHandler) :
    SelfDelimiting (chainReader config limit done) := by
  induction limit generalizing done with
  | zero => exact fun c behind hc => .ok rfl hc rfl
  | succ limit ih =>
    rw [chainReader_succ hstrict]
    exact sectionReader_selfDelimiting.bind fun _ => .ite (ih _) (pure_selfDelimiting _)

/-- The bound on the number of sections is never what ends a chain, since each section takes
bytes. -/
theorem chainReader_limit {config : Config} {limit limit' : Nat} {done : List ExceptionHandler}
    {c : Cursor} (hlimit : c.remaining < limit) (hlimit' : c.remaining < limit') :
    chainReader config limit done c = chainReader config limit' done c := by
  induction limit generalizing limit' done c with
  | zero => exact absurd hlimit (Nat.not_lt_zero _)
  | succ limit ih =>
    cases limit' with
    | zero => exact absurd hlimit' (Nat.not_lt_zero _)
    | succ limit' =>
      rw [chainReader, chainReader]
      cases hread : sectionReader c with
      | error e middle => rfl
      | ok answer middle =>
        obtain ⟨clauses, hasMore⟩ := answer
        obtain ⟨_, padding, _, _, hstored, _, hpassed⟩ := sectionReader_sound hread
        have hless := hpassed.remaining_lt (hstored.length_padded_pos padding)
        have hsame := @ih limit' (done ++ clauses) middle
          (Nat.lt_of_lt_of_le hless (Nat.le_of_lt_succ hlimit))
          (Nat.lt_of_lt_of_le hless (Nat.le_of_lt_succ hlimit'))
        dsimp only
        rw [hsame]

theorem sectionsReader_selfDelimiting {config : Config}
    (hstrict : config.lenientSections = false) : SelfDelimiting (reader config) := by
  intro c behind hc
  -- with more bytes the loop starts with a larger bound, which makes no difference
  have hmore := c.remaining_le_extend behind
  have hsame : reader config c =
      chainReader config ((c.extend behind).remaining + 1) [] c :=
    chainReader_limit (Nat.lt_succ_self _) (Nat.lt_succ_of_le hmore)
  cases chainReader_selfDelimiting hstrict _ [] c behind hc with
  | ok hread hinside hread' => exact .ok (hsame.trans hread) hinside hread'
  | failed hread hread' => exact .failed (hsame.trans hread) hread'
  | short hread htruncated => exact .short (hsame.trans hread) htruncated

end MethodSection

/-! ## Bodies -/

namespace RawBody

variable {config : Config}

theorem reader_selfDelimiting (hstrict : config.lenientSections = false) :
    SelfDelimiting (reader config) := by
  unfold reader
  refine headerReader_selfDelimiting.bind fun header => ?_
  refine position_selfDelimiting.bind fun headerSize => ?_
  refine (advance_selfDelimiting _).bind fun _ => ?_
  have hframe : ∀ handlers, SelfDelimiting fun c : Cursor =>
      .ok (⟨header, headerSize, c.passed, handlers⟩ : RawBody) c := by
    intro handlers c behind hc
    refine .ok rfl hc ?_
    rw [Cursor.passed_extend hc]
  refine .ite ?_ ((pure_selfDelimiting _).bind hframe)
  exact (MethodSection.sectionsReader_selfDelimiting hstrict).bind hframe

/-- A framed body is read from its own bytes, whatever is behind them. -/
theorem read_bytes_append (hstrict : config.lenientSections = false) {data : Array UInt8}
    {raw : RawBody} (h : read data config = .ok raw) (behind : Array UInt8) :
    data.extract 0 raw.size = raw.bytes ∧ read (raw.bytes ++ behind) config = .ok raw := by
  obtain ⟨header, code, sections, hstored, hholds⟩ := read_sound hstrict h
  have hbytes := hstored.bytes_eq
  constructor
  · have hextract := hholds.extract_eq
    unfold size
    rw [hbytes, List.size_toArray, ← Array.toList_inj, ← Nat.zero_add (header ++ _).length, hextract]
  · refine read_complete config hstored ?_
    have hbehind : behind.toList.toArray = behind := Array.toArray_toList
    rw [hbytes, ← hbehind, List.append_toArray]
    exact holds_toArray_append _ _

/-- The front of a framed body is too short to be one. -/
theorem read_front_short (hstrict : config.lenientSections = false) {data : Array UInt8}
    {raw : RawBody} (h : read data config = .ok raw) {count : Nat} (hcount : count < raw.size) :
    ∃ e, read (data.extract 0 count) config = .error e ∧ e.IsTruncated := by
  have hsplit : data.extract 0 count ++ data.extract count data.size = data := by
    rw [Array.extract_append_extract, Nat.zero_min,
      Array.extract_eq_self_of_le (Nat.le_max_right _ _)]
  rw [← hsplit] at h
  rcases (reader_selfDelimiting hstrict).answer_front h with hfront | hshort
  · -- a body that is read lies inside the data it was read from
    obtain ⟨header, code, sections, hstored, hholds⟩ := read_sound hstrict hfront
    have hle := hholds.le
    have hsize : raw.size = (header ++ (code ++ sections)).length := by
      unfold size
      rw [hstored.bytes_eq, List.size_toArray]
    rw [Array.size_extract] at hle
    omega
  · exact hshort

end RawBody

namespace MethodBody

variable {M : OperandModel}

/-- A body that is not framed is not decoded. -/
theorem decode_of_read_error {config : Config} {data : Array UInt8} {e : Error}
    (h : RawBody.read data config = .error e) (R : Resolver M) :
    decode data R config = .error e := by
  rw [decode_eq_match, h]

/-- A body is decoded as it would be with more bytes behind, and with the same notices, unless bytes
are missing. -/
theorem report_append {config : Config} (hstrict : config.lenientSections = false)
    {data : Array UInt8} {R : Resolver M}
    (hnot : ∀ e, decode data R config = .error e → ¬ e.IsTruncated) (behind : Array UInt8) :
    report (data ++ behind) R config = report data R config := by
  have hframe : ∀ e, (RawBody.reader config).answer data = .error e → ¬ e.IsTruncated :=
    fun e herror => hnot e (decode_of_read_error herror R)
  unfold report
  rw [(RawBody.reader_selfDelimiting hstrict).report_append hframe]

/-- Bodies are self-delimiting. Whatever decoding a body ends with, unless it is that bytes are
missing, it ends with if more bytes are behind. A body that is framed is framed the same from its own
bytes with anything behind them, and no shorter part of them is framed: bytes are missing there. -/
theorem decode_selfDelimiting {config : Config} (hstrict : config.lenientSections = false)
    (data behind : Array UInt8) :
    (∀ {M : OperandModel} (R : Resolver M),
      (∀ offset needed, decode data R config ≠ .error (.truncated offset needed)) →
        decode (data ++ behind) R config = decode data R config) ∧
    ∀ raw, RawBody.read data config = .ok raw →
      RawBody.read (data.extract 0 raw.size ++ behind) config = .ok raw ∧
      ∀ count < raw.size, ∃ offset needed,
        RawBody.read (data.extract 0 count) config = .error (.truncated offset needed) := by
  refine ⟨fun R hnot => ?_, fun raw hread => ⟨?_, fun count hcount => ?_⟩⟩
  · have hsame : report (data ++ behind) R config = report data R config := by
      refine report_append hstrict ?_ behind
      rintro e herror ⟨offset, needed, rfl⟩
      exact hnot offset needed herror
    exact congrArg Prod.fst hsame
  · obtain ⟨hbytes, hagain⟩ := RawBody.read_bytes_append hstrict hread behind
    rw [hbytes]
    exact hagain
  · obtain ⟨e, herror, offset, needed, rfl⟩ := RawBody.read_front_short hstrict hread hcount
    exact ⟨offset, needed, herror⟩

set_option maxRecDepth 8000 in
/-- A return with a finally clause, in 32 bytes: with a byte behind them, and without the last. -/
theorem decode_selfDelimiting_section :
    ∃ data b raw, data.size = 32 ∧ decode data rawResolver Config.default = .ok b ∧
      decode (data ++ #[0xff]) rawResolver Config.default = .ok b ∧
      b.handlers = [⟨.finallyClause, 0, 1, 1, 0, 0⟩] ∧
      RawBody.read data Config.default = .ok raw ∧
      ∃ offset needed, RawBody.read (data.extract 0 31) Config.default =
        .error (.truncated offset needed) := by
  have hread : RawBody.read #[0x0b, 0x30, 8, 0, 1, 0, 0, 0, 0, 0, 0, 0, 0x2a, 0, 0, 0, 1, 16, 0, 0,
      2, 0, 0, 0, 1, 1, 0, 0, 0, 0, 0, 0] Config.default =
        .ok ⟨.fat 0xb 8 1 ⟨0⟩, 12, #[0x0b, 0x30, 8, 0, 1, 0, 0, 0, 0, 0, 0, 0, 0x2a, 0, 0, 0, 1, 16,
          0, 0, 2, 0, 0, 0, 1, 1, 0, 0, 0, 0, 0, 0], [⟨.finallyClause, 0, 1, 1, 0, 0⟩]⟩ := by
    cbv
  have hdecode := decode_eq_ok.mpr ⟨_, hread, (rfl : RawBody.resolve _ rawResolver _ =
    .ok ⟨8, false, ⟨0⟩, [], ⟨[⟨0, ⟨41⟩, .none⟩]⟩, [⟨.finallyClause, 0, 1, 1, 0, 0⟩]⟩)⟩
  obtain ⟨hmore, hframe⟩ := decode_selfDelimiting (rfl : Config.default.lenientSections = false)
    #[0x0b, 0x30, 8, 0, 1, 0, 0, 0, 0, 0, 0, 0, 0x2a, 0, 0, 0, 1, 16, 0, 0,
      2, 0, 0, 0, 1, 1, 0, 0, 0, 0, 0, 0] #[0xff]
  obtain ⟨_, hcut⟩ := hframe _ hread
  refine ⟨_, _, _, rfl, hdecode, (hmore rawResolver ?_).trans hdecode, rfl, hread,
    hcut 31 (Nat.lt_succ_self 31)⟩
  intro offset needed herror
  rw [hdecode] at herror
  cases herror

end MethodBody

end CilCodec
