import CilCodec.Proofs.Bytes.Advancing
import CilCodec.Proofs.Bytes.Failing
import CilCodec.Proofs.Method.SelfDelimiting

/-!
# CilCodec.Proofs.Method.Leniency

Reading sections with and without tolerance for malformed ones.

`Announced c sections last` says that the sections from `c` to `last` can be read, and that each
announces another. A chain of sections goes on in this way up to a section that either announces no
other or cannot be read. Strict and lenient reading differ in the second case only: the one fails as
the section does, the other answers with the clauses of those in front of it.

Results:
1. `exists_announced`: every chain has a last section, well-formed or not.
2. `reader_of_last`, `strictReader_of_malformed`, `lenientReader_of_malformed`: how reading a chain
   ends, by its last section.
3. `RawBody.read_lenient`: framing a body, strictly and leniently.
-/

namespace CilCodec

open Reader

/-! ## Places -/

theorem handlerReader_advances (isFat : Bool) : Advances (ExceptionHandler.reader isFat) := by
  unfold ExceptionHandler.reader
  refine .ite ?_ ?_
  · unfold ExceptionHandler.fatReader
    refine position_advances.bind fun start => ?_
    iterate 6 refine (word_advances UInt32).bind fun _ => ?_
    exact ofResult_advances _
  · unfold ExceptionHandler.smallReader
    refine position_advances.bind fun start => ?_
    refine (word_advances UInt16).bind fun flags => ?_
    refine (word_advances UInt16).bind fun tryOffset => ?_
    refine (word_advances UInt8).bind fun tryLength => ?_
    refine (word_advances UInt16).bind fun handlerOffset => ?_
    refine (word_advances UInt8).bind fun handlerLength => ?_
    refine (word_advances UInt32).bind fun classOrFilter => ?_
    exact ofResult_advances _

namespace MethodSection

theorem sectionReader_advances : Advances sectionReader := by
  unfold sectionReader
  refine (align_advances 4).bind fun _ => ?_
  refine position_advances.bind fun start => ?_
  refine (word_advances UInt32).bind fun word => ?_
  refine .ite ((throw_advances _).bind fun _ => ?_) ?_ <;>
  · refine .ite (.ite ((throw_advances _).bind fun _ => ?_) ?_) ?_
    iterate 2
      refine (ensure_advances _).bind fun _ => ?_
      exact ((handlerReader_advances _).repeated _).bind fun clauses => pure_advances _
    refine (note_advances _).bind fun _ => ?_
    exact (advance_advances _).bind fun _ => pure_advances _

/-- A section that is read leaves fewer bytes, since it has a header. -/
theorem remaining_of_sectionReader {c c' : Cursor} {answer : List ExceptionHandler × Bool}
    (h : sectionReader c = .ok answer c') : c'.remaining < c.remaining := by
  obtain ⟨_, padding, _, _, hstored, _, hpassed⟩ := sectionReader_sound h
  exact hpassed.remaining_lt (hstored.length_padded_pos padding)

/-! ## Chains -/

/-- `Announced c sections last`: the sections from `c` to `last` can be read, their clauses are
`sections`, and each of them announces another. -/
inductive Announced : Cursor → List (List ExceptionHandler) → Cursor → Prop
  | nil (c : Cursor) : Announced c [] c
  | cons {c middle last : Cursor} {clauses : List ExceptionHandler}
      {sections : List (List ExceptionHandler)} :
      sectionReader c = .ok (clauses, true) middle → Announced middle sections last →
      Announced c (clauses :: sections) last

/-- The section behind `sections`, which announce it, cannot be read: reading it, from the alignment
in front of it on, fails with `e`. -/
def MalformedBehind (c : Cursor) (sections : List (List ExceptionHandler)) (e : Error) : Prop :=
  ∃ last stop, Announced c sections last ∧ sectionReader last = .error e stop

variable {config : Config} {c last : Cursor} {sections : List (List ExceptionHandler)}

theorem Announced.leadsTo (h : Announced c sections last) (hc : c.pos ≤ c.data.size) :
    c.LeadsTo last := by
  induction h with
  | nil c => exact .refl hc
  | cons hread _ ih =>
    have hfirst := sectionReader_advances.of_ok hc hread
    exact hfirst.trans (ih hfirst.inside)

/-- Every chain has a last section, at which reading it cannot go on. -/
theorem exists_announced (c : Cursor) :
    ∃ sections last, Announced c sections last ∧
      ((∃ clauses c', sectionReader last = .ok (clauses, false) c') ∨
        ∃ e stop, sectionReader last = .error e stop) := by
  generalize hleft : c.remaining = left
  induction left using Nat.strongRecOn generalizing c with
  | ind left ih =>
    cases hread : sectionReader c with
    | error e stop => exact ⟨[], c, .nil c, .inr ⟨e, stop, hread⟩⟩
    | ok answer middle =>
      obtain ⟨clauses, hasMore⟩ := answer
      cases hasMore with
      | false => exact ⟨[], c, .nil c, .inl ⟨clauses, middle, hread⟩⟩
      | true =>
        have hless := remaining_of_sectionReader hread
        obtain ⟨sections, last, hchain, hend⟩ := ih _ (hleft ▸ hless) middle rfl
        exact ⟨clauses :: sections, last, .cons hread hchain, hend⟩

/-- Reading a chain comes to its last section with the clauses of those in front of it. -/
theorem chainReader_of_announced (h : Announced c sections last) {limit : Nat}
    {done : List ExceptionHandler} (hlimit : c.remaining < limit) :
    chainReader config limit done c =
      chainReader config (last.remaining + 1) (done ++ sections.flatten) last := by
  induction h generalizing limit done with
  | nil c =>
    rw [List.flatten_nil, List.append_nil]
    exact chainReader_limit hlimit (Nat.lt_succ_self _)
  | @cons c middle last clauses sections hread _ ih =>
    have hless := remaining_of_sectionReader hread
    obtain ⟨limit, rfl⟩ := Nat.exists_eq_add_one_of_ne_zero (Nat.ne_zero_of_lt hlimit)
    rw [chainReader, hread, List.flatten_cons, ← List.append_assoc]
    exact ih (Nat.lt_of_lt_of_le hless (Nat.le_of_lt_succ hlimit))

theorem reader_of_announced (h : Announced c sections last) :
    reader config c = chainReader config (last.remaining + 1) sections.flatten last :=
  chainReader_of_announced h (Nat.lt_succ_self _)

/-- A chain that is well-formed is read the same, strictly or not. -/
theorem reader_of_last (h : Announced c sections last) {clauses : List ExceptionHandler}
    {c' : Cursor} (hread : sectionReader last = .ok (clauses, false) c') :
    reader config c = .ok (sections.flatten ++ clauses) c' := by
  rw [reader_of_announced h, chainReader, hread]
  rfl

theorem strictReader_of_malformed (hstrict : config.lenientSections = false)
    (h : Announced c sections last) {e : Error} {stop : Cursor}
    (hread : sectionReader last = .error e stop) : reader config c = .error e stop := by
  rw [reader_of_announced h, chainReader, hread, hstrict]
  rfl

/-- Whatever had been read of a malformed section is dropped, and so is all behind it. -/
theorem lenientReader_of_malformed (hlenient : config.lenientSections = true)
    (h : Announced c sections last) {e : Error} {stop : Cursor}
    (hread : sectionReader last = .error e stop) :
    reader config c = .ok sections.flatten
      { stop with notices := stop.notices.push (.sectionDropped sections.flatten.length e) } := by
  rw [reader_of_announced h, chainReader, hread, hlenient]
  rfl

end MethodSection

/-! ## Bodies -/

namespace RawBody

/-- Reads what is in front of the sections: the header, which is given back with its size, and the
code, which is passed over. -/
def frontReader : Reader (MethodHeader × Nat) := do
  let header ← MethodHeader.reader
  let headerSize ← position
  advance header.codeSize.toNat
  return (header, headerSize)

/-- Reads the sections behind a front, if the header announces any, and puts the body together. -/
def backReader (config : Config) (header : MethodHeader) (headerSize : Nat) : Reader RawBody := do
  let handlers ← if header.hasSections then MethodSection.reader config else pure []
  fun c => .ok { header, headerSize, bytes := c.passed, handlers } c

variable {config : Config} {data : Array UInt8}

theorem reader_eq_front :
    reader config = frontReader >>= fun front => backReader config front.1 front.2 := by
  unfold reader frontReader backReader
  simp only [bind_assoc, pure_bind]

theorem read_of_front_error {e : Error} {stop : Cursor}
    (h : frontReader (Cursor.start data) = .error e stop) : read data config = .error e := by
  unfold read answer report
  rw [reader_eq_front, bind_of_error h]

theorem read_of_front {header : MethodHeader} {headerSize : Nat} {c : Cursor}
    (h : frontReader (Cursor.start data) = .ok (header, headerSize) c) :
    read data config = match backReader config header headerSize c with
      | .ok raw _ => .ok raw
      | .error e _ => .error e := by
  unfold read answer report
  rw [reader_eq_front, bind_of_ok h]
  dsimp only
  cases backReader config header headerSize c with
  | ok raw c' => rfl
  | error e stop => rfl

/-- Without sections, the body is its front. -/
theorem backReader_of_no_sections {header : MethodHeader} {headerSize : Nat} {c : Cursor}
    (hsections : header.hasSections = false) :
    backReader config header headerSize c = .ok ⟨header, headerSize, c.passed, []⟩ c := by
  unfold backReader
  rw [hsections]
  rfl

/-- With sections, the body goes on to where reading them ends. -/
theorem backReader_of_sections {header : MethodHeader} {headerSize : Nat} {c : Cursor}
    (hsections : header.hasSections = true) :
    backReader config header headerSize c = match MethodSection.reader config c with
      | .ok handlers c' => .ok ⟨header, headerSize, c'.passed, handlers⟩ c'
      | .error e stop => .error e stop := by
  unfold backReader
  rw [hsections, if_pos rfl]
  cases hread : MethodSection.reader config c with
  | ok handlers c' => exact bind_of_ok hread
  | error e stop => exact bind_of_error hread

/-- The front of a body ends behind the code. -/
theorem front_leadsTo {header : MethodHeader} {headerSize : Nat} {c : Cursor}
    (h : frontReader (Cursor.start data) = .ok (header, headerSize) c) :
    c.data = data ∧ c.pos = headerSize + header.codeSize.toNat ∧ c.pos ≤ data.size := by
  unfold frontReader at h
  simp only [bind_eq_ok, position_eq_ok, advance_eq_ok, pure_eq_ok] at h
  obtain ⟨_, inCode, hheader, _, _, ⟨rfl, rfl⟩, _, _, ⟨hroom, rfl⟩, hfront, rfl⟩ := h
  cases hfront
  obtain ⟨_, hpassed, _⟩ := headerReader_sound hheader
  rw [hpassed.data_eq] at hroom
  exact ⟨hpassed.data_eq, rfl, hroom⟩

/-- The code of a body is what its header says, however far the body goes on behind it. -/
theorem code_of_leadsTo {c c' : Cursor} {header : MethodHeader} {headerSize : Nat}
    {handlers : List ExceptionHandler} (h : c.LeadsTo c')
    (hpos : c.pos = headerSize + header.codeSize.toNat) :
    (⟨header, headerSize, c'.passed, handlers⟩ : RawBody).code =
      c.data.extract headerSize (headerSize + header.codeSize.toNat) := by
  have hle := h.pos_le
  unfold code Cursor.passed
  dsimp only
  rw [Array.extract_extract, h.data_eq, Nat.zero_add, Nat.zero_add, Nat.min_eq_left (hpos ▸ hle)]

/-! ## Where framing fails -/

/-- Reading the header or the code of `data` fails with `e`. -/
def FailsInFront (data : Array UInt8) (e : Error) : Prop :=
  ∃ stop, frontReader (Cursor.start data) = .error e stop

/-- Header and code of `data` can be read, and so can some sections, whose clauses are `sections`.
The last of these announces another one, or the header announces the first, and reading that one
fails with `e`. -/
def FailsBehind (data : Array UInt8) (header : MethodHeader) (headerSize : Nat)
    (sections : List (List ExceptionHandler)) (e : Error) : Prop :=
  header.hasSections = true ∧ ∃ behind,
    frontReader (Cursor.start data) = .ok (header, headerSize) behind ∧
      MethodSection.MalformedBehind behind sections e

/-- A body can be framed, strictly or not, unless its front fails or a section does. -/
theorem framing_cases (data : Array UInt8) :
    (∃ e, FailsInFront data e) ∨
    (∃ header headerSize sections e, FailsBehind data header headerSize sections e) ∨
    ∃ raw, ∀ config, read data config = .ok raw := by
  cases hfront : frontReader (Cursor.start data) with
  | error e stop => exact .inl ⟨e, stop, hfront⟩
  | ok front behind =>
    obtain ⟨header, headerSize⟩ := front
    cases hsections : header.hasSections with
    | false =>
      refine .inr (.inr ⟨⟨header, headerSize, behind.passed, []⟩, fun config => ?_⟩)
      rw [read_of_front hfront, backReader_of_no_sections hsections]
    | true =>
      obtain ⟨sections, last, hchain, ⟨clauses, c', hread⟩ | ⟨e, stop, hread⟩⟩ :=
        MethodSection.exists_announced behind
      · refine .inr (.inr ⟨⟨header, headerSize, c'.passed, sections.flatten ++ clauses⟩,
          fun config => ?_⟩)
        rw [read_of_front hfront, backReader_of_sections hsections,
          MethodSection.reader_of_last hchain hread]
      · exact .inr (.inl ⟨header, headerSize, sections, e, hsections, behind, hfront, last, stop,
          hchain, hread⟩)

section Malformed

variable {header : MethodHeader} {headerSize : Nat} {sections : List (List ExceptionHandler)}
  {e : Error}

theorem strict_of_failsBehind (hstrict : config.lenientSections = false)
    (h : FailsBehind data header headerSize sections e) : read data config = .error e := by
  obtain ⟨hsections, behind, hfront, last, stop, hchain, hread⟩ := h
  rw [read_of_front hfront, backReader_of_sections hsections,
    MethodSection.strictReader_of_malformed hstrict hchain hread]

/-- A malformed section costs its own clauses and all that is behind it, and nothing else. -/
theorem lenient_of_failsBehind (hlenient : config.lenientSections = true)
    (h : FailsBehind data header headerSize sections e) :
    ∃ raw, read data config = .ok raw ∧ raw.header = header ∧ raw.headerSize = headerSize ∧
      raw.code = data.extract headerSize (headerSize + header.codeSize.toNat) ∧
      raw.handlers = sections.flatten := by
  obtain ⟨hsections, behind, hfront, last, stop, hchain, hread⟩ := h
  obtain ⟨rfl, hpos, hinside⟩ := front_leadsTo hfront
  have hlast := hchain.leadsTo hinside
  have hstop := hlast.trans (MethodSection.sectionReader_advances.of_error hlast.inside hread)
  refine ⟨⟨header, headerSize, stop.passed, sections.flatten⟩, ?_, rfl, rfl,
    code_of_leadsTo hstop hpos, rfl⟩
  rw [read_of_front hfront, backReader_of_sections hsections,
    MethodSection.lenientReader_of_malformed hlenient hchain hread]
  rfl

end Malformed

/-- Lenient reading of sections keeps the clauses in front of the first malformed section. A body
that is framed strictly is framed the same. One whose header or code cannot be read fails with the
same error. If a section cannot be read, from its alignment on, lenient framing answers with the same
header and code, and with the clauses of the sections in front of that one. Strict framing fails for
no other reasons, and lenient framing never fails in the sections. -/
theorem read_lenient (data : Array UInt8) (config : Config) :
    let strict := read data { config with lenientSections := false }
    let lenient := read data { config with lenientSections := true }
    (∀ raw, strict = .ok raw → lenient = .ok raw) ∧
    (∀ e, FailsInFront data e → strict = .error e ∧ lenient = .error e) ∧
    (∀ header headerSize sections e, FailsBehind data header headerSize sections e →
      strict = .error e ∧
      ∃ raw, lenient = .ok raw ∧ raw.header = header ∧ raw.headerSize = headerSize ∧
        raw.code = data.extract headerSize (headerSize + header.codeSize.toNat) ∧
        raw.handlers = sections.flatten) ∧
    (∀ e, strict = .error e → FailsInFront data e ∨
      ∃ header headerSize sections, FailsBehind data header headerSize sections e) ∧
    ∀ e, lenient = .error e → FailsInFront data e := by
  intro strict lenient
  refine ⟨?_, ?_, ?_, ?_, ?_⟩
  · intro raw hstrict
    obtain ⟨e, _, hfront⟩ | ⟨_, _, _, e, hbehind⟩ | ⟨raw', hframed⟩ := framing_cases data
    · have herror : strict = .error e := read_of_front_error hfront
      rw [hstrict] at herror
      cases herror
    · have herror : strict = .error e := strict_of_failsBehind rfl hbehind
      rw [hstrict] at herror
      cases herror
    · have hsame : strict = .ok raw' := hframed _
      rw [← hstrict, hsame]
      exact hframed _
  · rintro e ⟨stop, hfront⟩
    exact ⟨read_of_front_error hfront, read_of_front_error hfront⟩
  · intro header headerSize sections e hbehind
    exact ⟨strict_of_failsBehind rfl hbehind, lenient_of_failsBehind rfl hbehind⟩
  · intro e hstrict
    obtain ⟨e', stop, hfront⟩ | ⟨header, headerSize, sections, e', hbehind⟩ | ⟨raw, hframed⟩ :=
      framing_cases data
    · have herror : strict = .error e' := read_of_front_error hfront
      cases hstrict.symm.trans herror
      exact .inl ⟨stop, hfront⟩
    · have herror : strict = .error e' := strict_of_failsBehind rfl hbehind
      cases hstrict.symm.trans herror
      exact .inr ⟨header, headerSize, sections, hbehind⟩
    · cases hstrict.symm.trans (hframed _)
  · intro e hlenient
    obtain ⟨e', stop, hfront⟩ | ⟨_, _, _, _, hbehind⟩ | ⟨raw, hframed⟩ := framing_cases data
    · have herror : lenient = .error e' := read_of_front_error hfront
      cases hlenient.symm.trans herror
      exact ⟨stop, hfront⟩
    · have hkept : ∃ raw, lenient = .ok raw :=
        (lenient_of_failsBehind rfl hbehind).imp fun _ h => h.1
      obtain ⟨raw, hread⟩ := hkept
      cases hlenient.symm.trans hread
    · cases hlenient.symm.trans (hframed _)

/-- A return with a finally clause, and a second section behind it of two clauses, the first of which
is well-formed and the other has undefined flags. -/
def secondMalformed : Array UInt8 :=
  #[0x0b, 0x30, 8, 0, 1, 0, 0, 0, 0, 0, 0, 0, 0x2a, 0, 0, 0,
    0x81, 16, 0, 0, 2, 0, 0, 0, 1, 1, 0, 0, 0, 0, 0, 0,
    0x01, 28, 0, 0, 4, 0, 0, 0, 1, 1, 0, 0, 0, 0, 0, 0, 3, 0, 0, 0, 1, 1, 0, 0, 0, 0, 0, 0]

set_option maxRecDepth 8000 in
/-- The clause in front is kept, and that of the second section is dropped with the section. -/
theorem read_lenient_second :
    FailsBehind secondMalformed (.fat 0xb 8 1 ⟨0⟩) 12 [[⟨.finallyClause, 0, 1, 1, 0, 0⟩]]
      (.malformed (.clauseFlags 3) 48) ∧
    read secondMalformed { Config.default with lenientSections := false } =
      .error (.malformed (.clauseFlags 3) 48) ∧
    ∃ raw, read secondMalformed { Config.default with lenientSections := true } = .ok raw ∧
      raw.code = #[0x2a] ∧ raw.handlers = [⟨.finallyClause, 0, 1, 1, 0, 0⟩] := by
  have hfront : frontReader (Cursor.start secondMalformed) =
      .ok (.fat 0xb 8 1 ⟨0⟩, 12) ⟨secondMalformed, 13, #[]⟩ := by cbv
  have hfirst : MethodSection.sectionReader ⟨secondMalformed, 13, #[]⟩ =
      .ok ([⟨.finallyClause, 0, 1, 1, 0, 0⟩], true) ⟨secondMalformed, 32, #[]⟩ := by cbv
  have hsecond : MethodSection.sectionReader ⟨secondMalformed, 32, #[]⟩ =
      .error (.malformed (.clauseFlags 3) 48) ⟨secondMalformed, 60, #[]⟩ := by cbv
  have hbehind : FailsBehind secondMalformed (.fat 0xb 8 1 ⟨0⟩) 12
      [[⟨.finallyClause, 0, 1, 1, 0, 0⟩]] (.malformed (.clauseFlags 3) 48) :=
    ⟨rfl, _, hfront, _, _, .cons hfirst (.nil _), hsecond⟩
  obtain ⟨_, _, hsections, _⟩ := read_lenient secondMalformed Config.default
  obtain ⟨hstrict, raw, hread, _, _, hcode, hhandlers⟩ := hsections _ _ _ _ hbehind
  exact ⟨hbehind, hstrict, raw, hread, hcode, hhandlers⟩

end RawBody

end CilCodec
