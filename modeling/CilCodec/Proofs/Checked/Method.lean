import CilCodec.Proofs.Checked.Code
import CilCodec.Proofs.Method.Locating

/-!
# CilCodec.Proofs.Checked.Method

Reading method bodies, with every sum and every slice checked.

What a header or a section says about its own size is compared with the size of its fields before
the fields are taken off, so neither difference is negative. The code of a body is at most a 32-bit
word long, which is far below `branchLimit`.

Results: `sections_matches` and `decode_eq`.
-/

namespace CilCodec.Checked

variable {M : OperandModel}

/-! ## The readers with their arithmetic -/

/-- Reads a fat header. -/
def fatHeader : Checked MethodHeader := do
  let start ← position
  ensure MethodHeader.fatSize
  let flagsAndSize ← word UInt16
  let maxStack ← word UInt16
  let codeSize ← word UInt32
  let localSignature ← word UInt32
  let size ← mulUsize (flagsAndSize.toNat / 0x1000) 4
  if size < MethodHeader.fatSize then
    refuse (.malformed (.headerSize size) start)
  if MethodHeader.fatSize < size then
    let extra ← sub size MethodHeader.fatSize
    note (.headerExtra extra)
    advance extra
  return .fat (UInt16.ofNat (flagsAndSize.toNat % 0x1000)) maxStack codeSize ⟨localSignature⟩

/-- Reads a header. -/
def methodHeader : Checked MethodHeader := do
  let start ← position
  let first ← peekByte
  if first.toNat % 4 = MethodHeader.tinyFormat then
    advance 1
    return .tiny (UInt32.ofNat (first.toNat / 4))
  else if first.toNat % 4 = MethodHeader.fatFormat then
    fatHeader
  else
    refuse (.malformed (.headerFormat first) start)

/-- Reads a clause of 24 bytes. -/
def fatClause : Checked ExceptionHandler := do
  let start ← position
  let flags ← word UInt32
  let tryOffset ← word UInt32
  let tryLength ← word UInt32
  let handlerOffset ← word UInt32
  let handlerLength ← word UInt32
  let classOrFilter ← word UInt32
  ofResult (ExceptionHandler.ofFields start flags tryOffset tryLength handlerOffset handlerLength
    classOrFilter)

/-- Reads a clause of 12 bytes. -/
def smallClause : Checked ExceptionHandler := do
  let start ← position
  let flags ← word UInt16
  let tryOffset ← word UInt16
  let tryLength ← word UInt8
  let handlerOffset ← word UInt16
  let handlerLength ← word UInt8
  let classOrFilter ← word UInt32
  ofResult (ExceptionHandler.ofFields start flags.toUInt32 tryOffset.toUInt32 tryLength.toUInt32
    handlerOffset.toUInt32 handlerLength.toUInt32 classOrFilter)

/-- Reads a clause. -/
def clause (isFat : Bool) : Checked ExceptionHandler := if isFat then fatClause else smallClause

/-- Reads a section: its clauses, and whether another section follows. -/
def dataSection : Checked (List ExceptionHandler × Bool) := do
  align 4
  let start ← position
  let header := MethodSection.Header.ofWord (← word UInt32)
  if header.size < MethodSection.headerSize then
    refuse (.malformed (.sectionSize header.size) start)
  let payload ← sub header.size MethodSection.headerSize
  if header.isTable then
    let clauseSize := ExceptionHandler.clauseSize header.isFat
    let odd ← rem payload clauseSize
    if odd ≠ 0 then
      refuse (.malformed (.sectionClauses header.size clauseSize) start)
    ensure payload
    let count ← div payload clauseSize
    let clauses ← repeated count (clause header.isFat)
    return (clauses, header.hasMore)
  else
    note (.foreignSection header.flags header.size)
    advance payload
    return ([], header.hasMore)

/-- Reads sections behind those whose clauses are `done`. Leniency drops what was refused; a fault
it does not see. Going on after `limit` sections is a fault. -/
def chain (config : Config) : Nat → List ExceptionHandler → Checked (List ExceptionHandler)
  | 0, _, c => fault .endless c
  | limit + 1, done, c =>
    match dataSection c with
    | .ok (clauses, hasMore) c =>
      if hasMore then chain config limit (done ++ clauses) c else .ok (done ++ clauses) c
    | .error (.refused e) c =>
      if config.lenientSections then
        .ok done { c with notices := c.notices.push (.sectionDropped done.length e) }
      else
        .error (.refused e) c
    | .error (.fault f) c => .error (.fault f) c

/-- Reads sections up to the one that no other follows. -/
def sections (config : Config) : Checked (List ExceptionHandler) := fun c =>
  chain config (c.remaining + 1) [] c

/-- The bytes up to the position. -/
def passed : Checked (Array UInt8) := do
  let c ← get
  slice c.data 0 c.pos

/-- Reads a body that starts the data. -/
def rawBody (config : Config) : Checked RawBody := do
  let header ← methodHeader
  let headerSize ← position
  let _ ← take header.codeSize.toNat
  let handlers ← if header.hasSections then sections config else pure []
  let bytes ← passed
  return { header, headerSize, bytes, handlers }

/-- Decodes the code of a framed body, over the bytes of that body. -/
def resolved (raw : RawBody) (R : Resolver M) (config : Config) : Checked (MethodBody M) := do
  let signature := raw.header.localSignature
  let locals ← if signature.isNull then pure [] else ofResult (R.localSignature signature)
  seek raw.headerSize
  let code ← codeReader raw.header.codeSize.toNat R locals config
  return {
    maxStack := raw.header.maxStack
    initLocals := raw.header.initLocals
    localSignature := signature
    locals
    code
    handlers := raw.handlers }

/-- The body at the start of `data`. -/
def decode (data : Array UInt8) (R : Resolver M) (config : Config) : Except Stop (MethodBody M) :=
  match (rawBody config).answer data with
  | .ok raw => (resolved raw R config).answer raw.bytes
  | .error stop => .error stop

/-! ## Headers and clauses -/

variable {data : Array UInt8} {low : Nat} {config : Config}

theorem fatHeader_matches : Matches data low fatHeader MethodHeader.fatReader := by
  unfold fatHeader MethodHeader.fatReader
  refine Matches.position fun start _ _ => ?_
  refine (ensure_matches _).bind fun _ => ?_
  refine (word_matches UInt16).bind fun flagsAndSize => ?_
  refine (word_matches UInt16).bind fun maxStack => ?_
  refine (word_matches UInt32).bind fun codeSize => ?_
  refine (word_matches UInt32).bind fun localSignature => ?_
  have hword := flagsAndSize.toNat_lt
  rw [mulUsize_eq (by unfold usizeBound; omega), pure_bind]
  refine Matches.guarded fun hlarge => Matches.ite (fun hextra => ?_) fun _ => pure_matches _
  rw [sub_eq (Nat.le_of_lt hextra), pure_bind]
  exact (note_matches _).bind fun _ => (advance_matches _).bind fun _ => pure_matches _

theorem methodHeader_matches : Matches data low methodHeader MethodHeader.reader := by
  unfold methodHeader MethodHeader.reader
  refine Matches.position fun start _ _ => peekByte_matches.bind fun first => ?_
  refine Matches.ite (fun _ => (advance_matches 1).bind fun _ => pure_matches _) fun _ => ?_
  exact Matches.ite (fun _ => fatHeader_matches) fun _ => refuse_matches _

theorem clause_matches (isFat : Bool) :
    Matches data low (clause isFat) (ExceptionHandler.reader isFat) := by
  unfold clause ExceptionHandler.reader
  refine Matches.ite (fun _ => ?_) fun _ => ?_
  · refine Matches.position fun start _ _ => ?_
    refine (word_matches UInt32).bind fun flags => (word_matches UInt32).bind fun tryOffset => ?_
    refine (word_matches UInt32).bind fun tryLength => ?_
    refine (word_matches UInt32).bind fun handlerOffset => ?_
    refine (word_matches UInt32).bind fun handlerLength => ?_
    exact (word_matches UInt32).bind fun classOrFilter => ofResult_matches _
  · refine Matches.position fun start _ _ => ?_
    refine (word_matches UInt16).bind fun flags => (word_matches UInt16).bind fun tryOffset => ?_
    refine (word_matches UInt8).bind fun tryLength => ?_
    refine (word_matches UInt16).bind fun handlerOffset => ?_
    refine (word_matches UInt8).bind fun handlerLength => ?_
    exact (word_matches UInt32).bind fun classOrFilter => ofResult_matches _

/-! ## Sections -/

theorem dataSection_matches : Matches data low dataSection MethodSection.sectionReader := by
  unfold dataSection MethodSection.sectionReader
  refine (align_matches (by decide)).bind fun _ => Matches.position fun start _ _ => ?_
  refine (word_matches UInt32).bind fun value => ?_
  dsimp only
  refine Matches.guarded fun hsize => ?_
  have hclause := Nat.ne_of_gt
    (MethodSection.clauseSize_pos (MethodSection.Header.ofWord value).isFat)
  rw [sub_eq (Nat.not_lt.mp hsize), pure_bind]
  refine Matches.ite (fun _ => ?_) fun _ => ?_
  · rw [rem_eq hclause, pure_bind]
    refine Matches.guarded fun _ => (ensure_matches _).bind fun _ => ?_
    rw [div_eq hclause, pure_bind]
    exact (repeated_matches (clause_matches _) _).bind fun clauses => pure_matches _
  · exact (note_matches _).bind fun _ => (advance_matches _).bind fun _ => pure_matches _

/-- Each section takes its header at least, so a chain is over before its bound is. -/
theorem chain_matchesAt {c : Cursor} {limit : Nat} (done : List ExceptionHandler)
    (hc : c.Within data low) (hlimit : c.remaining < limit) :
    MatchesAt data low (chain config limit done) (MethodSection.chainReader config limit done)
      c := by
  induction limit generalizing c done with
  | zero => exact absurd hlimit (Nat.not_lt_zero _)
  | succ limit ih =>
    have hsection := dataSection_matches c hc
    cases hread : MethodSection.sectionReader c with
    | ok answer c' =>
      obtain ⟨clauses, hasMore⟩ := answer
      have hrun := hsection.runs.trans (ofReader_of_ok hread)
      have hless := MethodSection.remaining_of_sectionReader hread
      cases hasMore with
      | true =>
        refine (ih (done ++ clauses) (hsection.of_ok hread)
          (Nat.lt_of_lt_of_le hless (Nat.le_of_lt_succ hlimit))).congr ?_ ?_
        · rw [chain, hrun]
          rfl
        · rw [MethodSection.chainReader, hread]
          rfl
      | false =>
        refine .answers (a := done ++ clauses) ?_ ?_ (hsection.of_ok hread)
        · rw [chain, hrun]
          rfl
        · rw [MethodSection.chainReader, hread]
          rfl
    | error e c' =>
      have hrun := hsection.runs.trans (ofReader_of_error hread)
      by_cases hlenient : config.lenientSections = true
      · have hdropped := (hsection.of_error hread).noted
          (c'.notices.push (.sectionDropped done.length e))
        refine .answers (a := done) ?_ ?_ hdropped
        · rw [chain, hrun]
          exact if_pos hlenient
        · rw [MethodSection.chainReader, hread]
          exact if_pos hlenient
      · refine .refuses (e := e) ?_ ?_ (hsection.of_error hread)
        · rw [chain, hrun]
          exact if_neg hlenient
        · rw [MethodSection.chainReader, hread]
          exact if_neg hlenient

theorem sections_matches : Matches data low (sections config) (MethodSection.reader config) := by
  intro c hc
  have hrun : MatchesAt _ _ (chain config _ _) _ _ :=
    chain_matchesAt [] hc (Nat.lt_succ_self c.remaining)
  exact ⟨hrun.runs, hrun.stays⟩

/-! ## Bodies -/

theorem advance_eq_take (count : Nat) :
    Reader.advance count = Reader.take count >>= fun _ => pure () := by
  funext c
  by_cases hroom : c.pos + count ≤ c.data.size
  · have htake : Reader.take count c = .ok (c.data.extract c.pos (c.pos + count)).toList
        { c with pos := c.pos + count } := by
      rw [Reader.take, sliceAt?, if_pos hroom]
    rw [bind_of_ok htake]
    exact if_pos hroom
  · have htake : Reader.take count c = .error (.truncated c.pos count) c := by
      rw [Reader.take, sliceAt?, if_neg hroom]
    rw [bind_of_error htake]
    exact if_neg hroom

theorem passed_apply {c : Cursor} (hc : c.Within data low) : passed c = .ok c.passed c := by
  refine (bind_of_ok (get_apply c)).trans ?_
  rw [slice_eq (Nat.zero_le _) hc.pos_le]
  rfl

theorem rawBody_matches : Matches data low (rawBody config) (RawBody.reader config) := by
  unfold rawBody RawBody.reader
  refine methodHeader_matches.bind fun header => Matches.position fun headerSize _ _ => ?_
  rw [advance_eq_take, bind_assoc]
  refine (take_matches _).bind fun _ => ?_
  rw [pure_bind]
  refine Matches.ite (fun _ => sections_matches.bind fun handlers => ?_)
    fun _ => (pure_matches []).bind fun handlers => ?_
  all_goals
    intro c hc
    exact .answers (bind_of_ok (passed_apply hc)) rfl hc

section Decoding

variable {R : Resolver M}

/-- A word counts the bytes of the code, so all targets in it are numbers. -/
theorem resolved_matches (raw : RawBody) :
    Matches data 0 (resolved raw R config) (raw.resolver R config) := by
  have hsize : raw.header.codeSize.toNat ≤ branchLimit :=
    Nat.le_trans (Nat.le_of_lt raw.header.codeSize.toNat_lt) (by decide)
  have hrest : ∀ locals, Matches data 0
      (seek raw.headerSize >>= fun _ =>
        codeReader raw.header.codeSize.toNat R locals config >>= fun code =>
          pure (MethodBody.mk raw.header.maxStack raw.header.initLocals
            raw.header.localSignature locals code raw.handlers))
      (Reader.seek raw.headerSize >>= fun _ =>
        Code.reader raw.header.codeSize.toNat R locals config >>= fun code =>
          pure (MethodBody.mk raw.header.maxStack raw.header.initLocals
            raw.header.localSignature locals code raw.handlers)) := by
    intro locals
    refine (seek_matches (Nat.zero_le _)).bind fun _ c hc => ?_
    exact (codeReader_matchesAt hc fun _ => hsize).bind fun code c _ hc => pure_matches _ c hc
  exact Matches.ite (fun _ => (pure_matches []).bind hrest)
    fun _ => (ofResult_matches _).bind hrest

/-- Decoding does the same with its arithmetic checked. -/
theorem decode_eq (hsmall : data.size ≤ Buffer.limit) :
    decode data R config = (MethodBody.decode data R config).mapError .refused := by
  have hframe : (rawBody config).answer data = (RawBody.read data config).mapError .refused :=
    answer_eq (rawBody_matches _ (.start hsmall)).runs
  unfold decode
  rw [hframe, MethodBody.decode_eq_match]
  cases hread : RawBody.read data config with
  | ok raw =>
    -- a framed body is a part of the data
    have hbytes := Nat.le_trans (RawBody.region_of_read hread).2 hsmall
    have hbody : (resolved raw R config).answer raw.bytes =
        (raw.resolve R config).mapError .refused :=
      answer_eq (resolved_matches raw _ (.start hbytes)).runs
    exact hbody
  | error e => rfl

end Decoding

end CilCodec.Checked
