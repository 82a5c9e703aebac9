import CilCodec.Proofs.Bytes.Failing
import CilCodec.Proofs.Code.Reading

/-!
# CilCodec.Proofs.Code.Failing

How reading code fails.

Each statement is the other half of one in `Proofs/Code/Reading`: together they say when a reader
answers and when it fails, and with what.

Results:
1. `readInstruction_failsOnly`: an instruction is malformed, unknown or cut off.
2. `reportLoose_eq_error`: strict reading fails at the first loose branch.
3. `Code.reader_eq_error`: reading code fails because the region is not there, at the first
   instruction that cannot be read or resolved, or, behind them all, at a loose branch.
-/

namespace CilCodec

open Reader

/-! ## Instructions -/

/-- Errors that the bytes of an instruction can lead to: it is malformed, unknown or cut off. -/
inductive Error.IsStructural : Error → Prop
  | malformed (cause : Malformation) (offset : Nat) : IsStructural (.malformed cause offset)
  | truncated (offset needed : Nat) : IsStructural (.truncated offset needed)
  | unknownOpcode (isLong : Bool) (code : UInt8) (offset : Nat) :
      IsStructural (.unknownOpcode isLong code offset)

section Instructions

variable {origin start : Nat} {config : Config}

theorem word_failsOnly (α : Type) [LittleEndian α] : FailsOnly Error.IsStructural (word α) :=
  .word .truncated α

theorem readSwitch_failsOnly : FailsOnly Error.IsStructural (readSwitch origin config) := by
  unfold readSwitch
  refine FailsOnly.position.bind fun start => ?_
  refine (word_failsOnly UInt32).bind fun count => ?_
  refine (FailsOnly.ensure .truncated _).bind fun _ => ?_
  refine .ite ((FailsOnly.throw (.malformed _ _)).bind fun _ => ?_) ?_ <;>
  · refine FailsOnly.position.bind fun next => ?_
    exact ((word_failsOnly Int32).repeated _).bind fun deltas => .pure _

theorem readOperand_failsOnly {opcode : Opcode} :
    FailsOnly Error.IsStructural (readOperand origin start opcode config) := by
  unfold readOperand
  cases opcode.operandKind
  case none => exact .pure _
  case switchTable => exact readSwitch_failsOnly
  case userString =>
    refine (word_failsOnly UInt32).bind fun value => ?_
    exact .ite ((FailsOnly.note _).bind fun _ => .pure _) (.pure _)
  case member kind =>
    refine (word_failsOnly UInt32).bind fun value => ?_
    exact .ite (.pure _) ((FailsOnly.note _).bind fun _ => .pure _)
  case shortBranch =>
    exact (word_failsOnly Int8).bind fun delta => FailsOnly.position.bind fun next => .pure _
  case longBranch =>
    exact (word_failsOnly Int32).bind fun delta => FailsOnly.position.bind fun next => .pure _
  all_goals exact (word_failsOnly _).bind fun value => .pure _

theorem readInstruction_failsOnly :
    FailsOnly Error.IsStructural (readInstruction origin config) := by
  unfold readInstruction
  refine FailsOnly.position.bind fun start => ?_
  refine (word_failsOnly UInt8).bind fun first => ?_
  refine .ite ((word_failsOnly UInt8).bind fun code => ?_)
    ((FailsOnly.pure first).bind fun code => ?_) <;>
  · dsimp only
    cases Opcode.ofCode? (first == longOpcodeMark) code with
    | none => exact .throw (.unknownOpcode _ _ _)
    | some opcode => exact readOperand_failsOnly.bind fun operand => .pure _

end Instructions

variable {M : OperandModel} {R : Resolver M} {locals : List M.LocalVariable} {config : Config}

theorem readResolved_eq_error {origin : Nat} {c c' : Cursor} {e : Error} :
    readResolved R locals config origin c = .error e c' ↔
      readInstruction origin config c = .error e c' ∨
        ∃ raw, readInstruction origin config c = .ok raw c' ∧
          raw.resolve R locals c.pos = .error e := by
  unfold readResolved
  simp only [bind_eq_error, position_eq_ok, ofResult_eq_error]
  constructor
  · rintro (h | ⟨_, _, ⟨rfl, rfl⟩, h | ⟨raw, _, hraw, hresolve, rfl⟩⟩)
    · cases h
    · exact .inl h
    · exact .inr ⟨raw, hraw, hresolve⟩
  · rintro (h | ⟨raw, hraw, hresolve⟩)
    · exact .inr ⟨_, _, ⟨rfl, rfl⟩, .inl h⟩
    · exact .inr ⟨_, _, ⟨rfl, rfl⟩, .inr ⟨raw, c', hraw, hresolve, rfl⟩⟩

/-! ## Loose branches -/

/-- Loose branches are refused by strict reading only, and then the first of them is. -/
theorem reportLoose_eq_error {origin : Nat} {branches : List (Nat × Int64)} {c c' : Cursor}
    {e : Error} :
    reportLoose config origin branches c = .error e c' ↔
      config.strictBranches = true ∧ c = c' ∧ ∃ offset target,
        branches.head? = some (offset, target) ∧
        .invalidBranchTarget (origin + offset) target.toInt = e := by
  cases hstrict : config.strictBranches with
  | false =>
    have hnone : config.strictBranches = true → branches = [] :=
      fun h => Bool.noConfusion (hstrict.symm.trans h)
    obtain ⟨notices, hok⟩ := reportLoose_eq_ok_of origin (c := c) hnone
    rw [hok]
    constructor
    · intro h
      cases h
    · rintro ⟨h, _⟩
      cases h
  | true =>
    cases branches with
    | nil =>
      constructor
      · intro h
        cases h
      · rintro ⟨_, _, _, _, hhead, _⟩
        cases hhead
    | cons branch rest =>
      obtain ⟨offset, target⟩ := branch
      rw [reportLoose, refuse_eq_error, hstrict]
      constructor
      · rintro (⟨_, rfl, rfl⟩ | ⟨h, _⟩)
        · exact ⟨rfl, rfl, offset, target, rfl, rfl⟩
        · exact absurd rfl h
      · rintro ⟨_, rfl, _, _, hhead, rfl⟩
        cases hhead
        exact .inl ⟨rfl, rfl, rfl⟩

/-- A loose branch carries the offset of its instruction. -/
theorem offset_of_mem_looseBranches {i : Instruction M} {branch : Nat × Int64}
    (h : branch ∈ i.looseBranches) : branch.1 = i.offset := by
  obtain ⟨label, _, hlabel⟩ := List.mem_filterMap.mp h
  cases label with
  | instruction index => cases hlabel
  | detached target => exact Option.some.inj hlabel ▸ rfl

/-! ## Regions -/

/-- `middle` is where a run over the `size` bytes at `c` has come to. -/
structure Cursor.InRegion (c : Cursor) (size : Nat) (middle : Cursor) : Prop where
  size_eq : middle.data.size = c.pos + size
  pos_ge : c.pos ≤ middle.pos
  pos_le : middle.pos ≤ c.pos + size

namespace Cursor.InRegion

variable {c middle : Cursor} {size : Nat}

theorem of_steps {α : Type} {step : Reader α} {as : List α} (hmoves : Moves step)
    (hroom : c.pos + size ≤ c.data.size) (h : Steps step (c.region size) as middle) :
    c.InRegion size middle := by
  have hsize := Cursor.size_region hroom
  obtain ⟨hdata, hlow⟩ := h.moves hmoves
  have hhigh := h.inside hmoves (hsize ▸ Nat.le_add_right _ _)
  rw [hdata, hsize] at hhigh
  exact ⟨hdata ▸ hsize, hlow, hhigh⟩

/-- A run is at the end of the region if no bytes are left to it. -/
theorem at_end_iff (h : c.InRegion size middle) :
    middle.data.size ≤ middle.pos ↔ middle.pos = c.pos + size := by
  rw [h.size_eq]
  exact ⟨Nat.le_antisymm h.pos_le, fun hpos => Nat.le_of_eq hpos.symm⟩

theorem width_eq (hpos : middle.pos = c.pos + size) :
    middle.pos - (c.region size).pos = size := by
  rw [hpos]
  exact Nat.add_sub_cancel_left _ _

end Cursor.InRegion

/-! ## Code -/

namespace Code

theorem readToEnd_eq_error {c c' : Cursor} {e : Error} :
    readToEnd R locals config c = .error e c' ↔
      (∃ is middle, Steps (readResolved R locals config c.pos) c is middle ∧
        middle.pos < middle.data.size ∧ readResolved R locals config c.pos middle = .error e c') ∨
      ∃ is middle, Steps (readResolved R locals config c.pos) c is middle ∧
        middle.data.size ≤ middle.pos ∧
        reportLoose config c.pos
          ((bindLabels (middle.pos - c.pos) is).flatMap Instruction.looseBranches) middle =
            .error e c' := by
  unfold readToEnd
  simp only [bind_eq_error, position_eq_ok, untilEnd_eq_ok readResolved_moves,
    untilEnd_eq_error readResolved_moves]
  constructor
  · rintro (h | ⟨_, _, ⟨rfl, rfl⟩, h | ⟨is, middle, ⟨hsteps, hend⟩, h | ⟨_, _, ⟨rfl, rfl⟩,
      h | ⟨_, _, _, h⟩⟩⟩⟩)
    · cases h
    · exact .inl h
    · cases h
    · exact .inr ⟨is, middle, hsteps, hend, h⟩
    · exact absurd h pure_ne_error
  · rintro (h | ⟨is, middle, hsteps, hend, h⟩)
    · exact .inr ⟨_, _, ⟨rfl, rfl⟩, .inl h⟩
    · exact .inr ⟨_, _, ⟨rfl, rfl⟩, .inr ⟨is, middle, ⟨hsteps, hend⟩,
        .inr ⟨_, _, ⟨rfl, rfl⟩, .inl h⟩⟩⟩

theorem reader_eq_error_iff_readToEnd {size : Nat} {c c' : Cursor} {e : Error} :
    reader size R locals config c = .error e c' ↔
      (c.data.size < c.pos + size ∧ .truncated c.pos size = e ∧ c = c') ∨
      (c.pos + size ≤ c.data.size ∧
        ∃ inner, readToEnd R locals config (c.region size) = .error e inner ∧
          { c with notices := inner.notices } = c') := by
  unfold reader
  split
  next h =>
    have hregion : readToEnd R locals config { c with data := c.data.extract 0 (c.pos + size) } =
        readToEnd R locals config (c.region size) := rfl
    rw [hregion]
    cases readToEnd R locals config (c.region size) with
    | ok code inner => simp [Nat.not_lt.mpr h]
    | error e inner => simp [h, Nat.not_lt.mpr h]
  next h => simp [h, Nat.not_le.mp h]

/-- Code is read exactly if its instructions can be read and resolved up to the end of the region,
and no branch is refused. -/
theorem reader_eq_ok_iff_run {size : Nat} {c c' : Cursor} {code : Code M} :
    reader size R locals config c = .ok code c' ↔
      c.pos + size ≤ c.data.size ∧ ∃ is middle inner,
        Steps (readResolved R locals config c.pos) (c.region size) is middle ∧
        middle.pos = c.pos + size ∧
        reportLoose config c.pos ((bindLabels size is).flatMap Instruction.looseBranches) middle =
          .ok () inner ∧
        ⟨bindLabels size is⟩ = code ∧
        { c with pos := c.pos + size, notices := inner.notices } = c' := by
  rw [reader_eq_ok]
  simp only [readToEnd_eq_ok]
  constructor
  · rintro ⟨hroom, inner, ⟨is, middle, hsteps, hend, hloose, rfl⟩, rfl⟩
    have hpos := (Cursor.InRegion.of_steps readResolved_moves hroom hsteps).at_end_iff.mp hend
    rw [Cursor.InRegion.width_eq hpos] at hloose ⊢
    exact ⟨hroom, is, middle, inner, hsteps, hpos, hloose,
      (ofList_bindLabels_of_steps hroom hsteps size).symm, rfl⟩
  · rintro ⟨hroom, is, middle, inner, hsteps, hpos, hloose, rfl, rfl⟩
    have hend := (Cursor.InRegion.of_steps readResolved_moves hroom hsteps).at_end_iff.mpr hpos
    refine ⟨hroom, inner, ⟨is, middle, hsteps, hend, ?_, ?_⟩, rfl⟩
    · rw [Cursor.InRegion.width_eq hpos]
      exact hloose
    · rw [Cursor.InRegion.width_eq hpos]
      exact ofList_bindLabels_of_steps hroom hsteps size

/-- Reading code fails because the region is not there, or at an instruction behind others that can
be read and resolved, or, behind them all, at the first loose branch. -/
theorem reader_eq_error {size : Nat} {c c' : Cursor} {e : Error} :
    reader size R locals config c = .error e c' ↔
      (c.data.size < c.pos + size ∧ .truncated c.pos size = e ∧ c = c') ∨
      (c.pos + size ≤ c.data.size ∧ ∃ is middle inner,
        Steps (readResolved R locals config c.pos) (c.region size) is middle ∧
        { c with notices := inner.notices } = c' ∧
        (middle.pos < c.pos + size ∧ readResolved R locals config c.pos middle = .error e inner ∨
          middle.pos = c.pos + size ∧
            reportLoose config c.pos
              ((bindLabels size is).flatMap Instruction.looseBranches) middle =
                .error e inner)) := by
  rw [reader_eq_error_iff_readToEnd]
  simp only [readToEnd_eq_error]
  refine or_congr_right (and_congr_right fun hroom => ?_)
  constructor
  · rintro ⟨inner, ⟨is, middle, hsteps, hmore, hfail⟩ | ⟨is, middle, hsteps, hend, hloose⟩, rfl⟩
    · have hinside := Cursor.InRegion.of_steps readResolved_moves hroom hsteps
      exact ⟨is, middle, inner, hsteps, rfl, .inl ⟨hinside.size_eq ▸ hmore, hfail⟩⟩
    · have hpos := (Cursor.InRegion.of_steps readResolved_moves hroom hsteps).at_end_iff.mp hend
      rw [Cursor.InRegion.width_eq hpos] at hloose
      exact ⟨is, middle, inner, hsteps, rfl, .inr ⟨hpos, hloose⟩⟩
  · rintro ⟨is, middle, inner, hsteps, rfl, ⟨hmore, hfail⟩ | ⟨hpos, hloose⟩⟩
    · have hinside := Cursor.InRegion.of_steps readResolved_moves hroom hsteps
      exact ⟨inner, .inl ⟨is, middle, hsteps, hinside.size_eq ▸ hmore, hfail⟩, rfl⟩
    · have hend := (Cursor.InRegion.of_steps readResolved_moves hroom hsteps).at_end_iff.mpr hpos
      rw [← Cursor.InRegion.width_eq hpos] at hloose
      exact ⟨inner, .inr ⟨is, middle, hsteps, hend, hloose⟩, rfl⟩

end Code

end CilCodec
