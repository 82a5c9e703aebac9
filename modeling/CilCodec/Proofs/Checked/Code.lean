import CilCodec.Proofs.Checked.Bytes
import CilCodec.Proofs.Code.Failing
import CilCodec.Proofs.Code.RoundTrip

/-!
# CilCodec.Proofs.Checked.Code

Reading code, with every sum and every slice checked.

Distances are taken from the origin of the code, which no place in it lies before. A switch has its
table in front of it when the end of the table is computed, since the bytes of the table have been
asked for. A branch target is a sum of signed words; it is in range as long as the code leaves room
for a delta below the greatest signed word (`branchTarget_eq_pure`).

Result: `codeReader_matchesAt`.
-/

namespace CilCodec.Checked

variable {M : OperandModel}

/-! ## The reader with its arithmetic -/

/-- The target of a branch with a given delta, in an instruction that ends at `next`. -/
def branchTarget (next : Nat) (delta : Int64) : Checked Label := do
  return .detached (← addInt64 (Int64.ofNat next) delta)

/-- Reads the targets of a switch. -/
def readSwitch (origin : Nat) (config : Config) : Checked (Operand RawModel) := do
  let start ← position
  let count ← word UInt32
  let tableSize := mulOrMax count.toNat 4
  ensure tableSize
  if config.maxSwitchTargets < count then
    refuse (.malformed (.switchLimit count config.maxSwitchTargets) start)
  let behind ← addUsize (← position) tableSize
  let next ← sub behind origin
  let labels ← repeated count.toNat do
    let delta ← word Int32
    branchTarget next delta.toInt64
  return .switch labels

/-- Reads the operand of an opcode. Code starts at `origin`, the instruction at `start`. -/
def readOperand (origin start : Nat) (opcode : Opcode) (config : Config) :
    Checked (Operand RawModel) := do
  match opcode.operandKind with
  | .none => return .none
  | .int8 => return .immediate (.int8 (← word Int8))
  | .int32 => return .immediate (.int32 (← word Int32))
  | .int64 => return .immediate (.int64 (← word Int64))
  | .float32 => return .immediate (.float32 (← word Binary32))
  | .float64 => return .immediate (.float64 (← word Binary64))
  | .shortLocal => return .localVariable (← word UInt8).toUInt16
  | .longLocal => return .localVariable (← word UInt16)
  | .shortArgument => return .argument (← word UInt8).toUInt16
  | .longArgument => return .argument (← word UInt16)
  | .shortBranch =>
    let delta ← word Int8
    let next ← sub (← position) origin
    return .target (← branchTarget next delta.toInt64)
  | .longBranch =>
    let delta ← word Int32
    let next ← sub (← position) origin
    return .target (← branchTarget next delta.toInt64)
  | .switchTable => readSwitch origin config
  | .userString =>
    let token := Token.mk (← word UInt32)
    if token.table ≠ Token.userStringTable then
      note (.untaggedString start token)
    return .userString token.row
  | .member kind =>
    let token := Token.mk (← word UInt32)
    unless kind.accepts token do
      note (.unusualTable opcode start token kind)
    return .member token

/-- Reads an instruction of code that starts at `origin`. -/
def readInstruction (origin : Nat) (config : Config) : Checked (Instruction RawModel) := do
  let start ← position
  let first ← word UInt8
  let isLong := first == longOpcodeMark
  let code ← if isLong then word UInt8 else pure first
  match Opcode.ofCode? isLong code with
  | none => refuse (.unknownOpcode isLong code start)
  | some opcode =>
    let operand ← readOperand origin start opcode config
    let offset ← sub start origin
    return ⟨low32 offset, opcode, operand⟩

/-- Reads an instruction and resolves its operand. -/
def readResolved (R : Resolver M) (locals : List M.LocalVariable) (config : Config)
    (origin : Nat) : Checked (Instruction M) := do
  let start ← position
  let stored ← readInstruction origin config
  ofResult (stored.resolve R locals start)

/-- Notices loose branches, or refuses the first. -/
def reportLoose (config : Config) (origin : Nat) : List (Nat × Int64) → Checked Unit
  | [] => pure ()
  | (offset, target) :: rest => do
    if config.strictBranches then
      let place ← addUsize origin offset
      refuse (.invalidBranchTarget place target.toInt)
    note (.looseBranch offset target.toInt)
    reportLoose config origin rest

/-- Number of bytes of an instruction. -/
def instructionSize (i : Instruction M) : Checked Nat := do
  let operand ← match i.opcode.operandKind.size? with
    | some size => pure size
    | none =>
      let table ← mulUsize 4 i.operand.switchLength
      addUsize 4 table
  addUsize i.opcode.size operand

/-- The instructions with the offsets they have if the first stands at `offset`. Offsets are added
modulo their word, which cannot fault: only what a word keeps of a sum is put into instructions. -/
def placeFrom (offset : Nat) : List (Instruction M) → Checked (List (Instruction M))
  | [] => pure []
  | i :: rest => do
    let size ← instructionSize i
    return { i with offset := low32 offset } :: (← placeFrom (offset + size) rest)

/-- Reads code that goes on to the end of the data. -/
def readToEnd (R : Resolver M) (locals : List M.LocalVariable) (config : Config) :
    Checked (Code M) := do
  let origin ← position
  let instructions ← untilEnd (readResolved R locals config origin)
  let size ← sub (← position) origin
  let bound := bindLabels size instructions
  reportLoose config origin (bound.flatMap Instruction.looseBranches)
  return ⟨← placeFrom 0 bound⟩

/-- Runs a step at `pos` of other data, keeps the notices it makes, and moves to `stop` if it
answers. -/
def inData {α : Type} (data : Array UInt8) (pos stop : Nat) (m : Checked α) : Checked α := fun c =>
  match (seek pos >>= fun _ => m) ⟨data, 0, c.notices⟩ with
  | .ok a inner => (seek stop >>= fun _ => pure a) { c with notices := inner.notices }
  | .error e inner => .error e { c with notices := inner.notices }

/-- Reads code of `size` bytes, over the data up to its end. -/
def codeReader (size : Nat) (R : Resolver M) (locals : List M.LocalVariable) (config : Config) :
    Checked (Code M) := do
  let start ← get
  let stop ← endAfter size
  let front ← slice start.data 0 stop
  inData front start.pos stop (readToEnd R locals config)

/-! ## Operands -/

variable {data : Array UInt8} {low origin : Nat} {config : Config}

/-- The greatest offset from which a delta of 32 bits does not lead out of a signed word. -/
def branchLimit : Nat := 0x8000000000000000 - 0x80000000

theorem branchTarget_eq_pure {next : Nat} (hnext : next ≤ branchLimit) (delta : Int32) :
    branchTarget next delta.toInt64 = pure (CilCodec.branchTarget next delta) := by
  have hofNat : (Int64.ofNat next).toInt = next :=
    Int64.toInt_ofNat_of_lt (Nat.lt_of_le_of_lt hnext (by decide))
  have hlow := delta.le_toInt
  have hhigh := delta.toInt_lt
  have hlimit : (next : Int) ≤ 0x8000000000000000 - 0x80000000 := by
    have := hnext
    unfold branchLimit at this
    omega
  rw [branchTarget, addInt64_eq, pure_bind, branchTarget_eq, Int64.add_comm]
  · rw [hofNat, Int32.toInt_toInt64]
    omega
  · rw [hofNat, Int32.toInt_toInt64]
    omega

/-- Within the limit, a target is a number for every delta. -/
theorem branchTarget_matches {next : Nat} (hnext : next ≤ branchLimit) (delta : Int32) :
    Matches data low (branchTarget next delta.toInt64)
      (pure (CilCodec.branchTarget next delta)) := by
  rw [branchTarget_eq_pure hnext]
  exact pure_matches _

/-- The targets of a switch are computed one by one as their deltas are read. -/
theorem targets_matches {next : Nat} (hnext : next ≤ branchLimit) (count : Nat) :
    Matches data low
      (repeated count do
        let delta ← word Int32
        branchTarget next delta.toInt64)
      (List.map (CilCodec.branchTarget next) <$> Reader.repeated count (Reader.word Int32)) := by
  rw [← repeated_map, map_eq_pure_bind]
  exact repeated_matches
    ((word_matches Int32).bind fun delta => branchTarget_matches hnext delta) count

section Operands

/-- A table has been asked for before its end is computed, so its end is in the data. -/
theorem readSwitch_matches (horigin : origin ≤ low) (hspan : data.size - origin ≤ branchLimit) :
    Matches data low (readSwitch origin config) (CilCodec.readSwitch origin config) := by
  unfold readSwitch CilCodec.readSwitch
  refine Matches.position fun start hstart _ => ?_
  refine (word_matches UInt32).bind fun count c hc => ?_
  have hproduct : mulOrMax count.toNat 4 = 4 * count.toNat := by
    have hcount := count.toNat_lt
    rw [mulOrMax_eq (by unfold usizeBound; omega), Nat.mul_comm]
  rw [hproduct]
  refine (ensure_matches _ c hc).bind fun _ c hensure hc => ?_
  obtain ⟨hroom, rfl⟩ := Reader.ensure_eq_ok.mp hensure
  refine MatchesAt.guarded hc fun _ => MatchesAt.position ?_
  have hend : c.pos + 4 * count.toNat ≤ data.size := by
    have hinside := hc.inside
    unfold Cursor.remaining at hroom
    rw [hc.data_eq] at hroom
    omega
  have hlow := hc.low_le
  have hword : c.pos + 4 * count.toNat < usizeBound :=
    Nat.lt_of_le_of_lt (Nat.le_trans hend hc.small) (by decide)
  rw [addUsize_eq hword, pure_bind, sub_eq (by omega), pure_bind]
  have hnext : c.pos + 4 * count.toNat - origin ≤ branchLimit := by omega
  have htargets : Matches data start _ _ := targets_matches hnext count.toNat
  have hanswer := htargets.bind fun labels => pure_matches (Operand.switch (M := RawModel) labels)
  rw [bind_map_left] at hanswer
  exact hanswer c hc

theorem readOperand_matches (horigin : origin ≤ low) (hspan : data.size - origin ≤ branchLimit)
    (start : Nat) (opcode : Opcode) :
    Matches data low (readOperand origin start opcode config)
      (CilCodec.readOperand origin start opcode config) := by
  unfold readOperand CilCodec.readOperand
  cases opcode.operandKind
  case none => exact pure_matches _
  case switchTable => exact readSwitch_matches horigin hspan
  case shortBranch =>
    refine (word_matches Int8).bind fun delta => Matches.position fun next hnext hinside => ?_
    rw [sub_eq (Nat.le_trans horigin hnext), pure_bind, ← Int8.toInt64_toInt32]
    exact (branchTarget_matches (Nat.le_trans (Nat.sub_le_sub_right hinside _) hspan) _).bind
      fun label => pure_matches _
  case longBranch =>
    refine (word_matches Int32).bind fun delta => Matches.position fun next hnext hinside => ?_
    rw [sub_eq (Nat.le_trans horigin hnext), pure_bind]
    exact (branchTarget_matches (Nat.le_trans (Nat.sub_le_sub_right hinside _) hspan) _).bind
      fun label => pure_matches _
  case userString =>
    refine (word_matches UInt32).bind fun value => ?_
    exact Matches.ite (fun _ => (note_matches _).bind fun _ => pure_matches _)
      fun _ => pure_matches _
  case member kind =>
    refine (word_matches UInt32).bind fun value => ?_
    exact Matches.ite (fun _ => pure_matches _)
      fun _ => (note_matches _).bind fun _ => pure_matches _
  all_goals exact (word_matches _).bind fun value => pure_matches _

/-- Nothing is read in front of the origin, so distances from it are not negative. -/
theorem readInstruction_matches (horigin : origin ≤ low)
    (hspan : data.size - origin ≤ branchLimit) :
    Matches data low (readInstruction origin config) (CilCodec.readInstruction origin config) := by
  unfold readInstruction CilCodec.readInstruction
  refine Matches.position fun start hstart _ => ?_
  refine (word_matches UInt8).bind fun first => ?_
  have hrest : ∀ code, Matches data start
      (match Opcode.ofCode? (first == longOpcodeMark) code with
        | none => refuse (.unknownOpcode (first == longOpcodeMark) code start)
        | some opcode => do
          let operand ← readOperand origin start opcode config
          let offset ← sub start origin
          return (⟨low32 offset, opcode, operand⟩ : Instruction RawModel))
      (match Opcode.ofCode? (first == longOpcodeMark) code with
        | none => throw (.unknownOpcode (first == longOpcodeMark) code start)
        | some opcode => do
          let operand ← CilCodec.readOperand origin start opcode config
          return (⟨low32 (start - origin), opcode, operand⟩ : Instruction RawModel)) := by
    intro code
    cases Opcode.ofCode? (first == longOpcodeMark) code with
    | none => exact refuse_matches _
    | some opcode =>
      refine (readOperand_matches (Nat.le_trans horigin hstart) hspan start opcode).bind
        fun operand => ?_
      rw [sub_eq (Nat.le_trans horigin hstart), pure_bind]
      exact pure_matches _
  exact Matches.ite (fun _ => (word_matches UInt8).bind hrest)
    fun _ => (pure_matches first).bind hrest

end Operands

theorem readResolved_matches {R : Resolver M} {locals : List M.LocalVariable}
    (horigin : origin ≤ low) (hspan : data.size - origin ≤ branchLimit) :
    Matches data low (readResolved R locals config origin)
      (CilCodec.readResolved R locals config origin) := by
  refine Matches.position fun start hstart _ => ?_
  have hread : Matches data start (readInstruction origin config)
      (CilCodec.readInstruction origin config) :=
    readInstruction_matches (Nat.le_trans horigin hstart) hspan
  exact hread.bind fun _ => ofResult_matches _

/-! ## Offsets -/

theorem reportLoose_matches {branches : List (Nat × Int64)}
    (h : ∀ branch ∈ branches, origin + branch.1 < usizeBound) :
    Matches data low (reportLoose config origin branches)
      (CilCodec.reportLoose config origin branches) := by
  induction branches with
  | nil => exact pure_matches ()
  | cons branch rest ih =>
    obtain ⟨offset, target⟩ := branch
    obtain ⟨hfirst, hrest⟩ := List.forall_mem_cons.mp h
    unfold reportLoose CilCodec.reportLoose
    dsimp only
    rw [addUsize_eq hfirst, pure_bind]
    exact Matches.guarded fun _ => (note_matches _).bind fun _ => ih hrest

/-- The parts of an instruction are no larger than the whole. -/
theorem instructionSize_eq {i : Instruction M} (h : i.size < usizeBound) :
    instructionSize i = pure i.size := by
  unfold Instruction.size Instruction.operandSize at h
  unfold instructionSize Instruction.size Instruction.operandSize
  cases hsize : i.opcode.operandKind.size? with
  | some size =>
    rw [hsize] at h
    exact (pure_bind _ _).trans (addUsize_eq h)
  | none =>
    rw [hsize] at h
    dsimp only at h ⊢
    rw [mulUsize_eq (by omega), pure_bind, addUsize_eq (by omega), pure_bind, addUsize_eq h]

theorem placeFrom_eq {offset : Nat} {is : List (Instruction M)}
    (h : totalSize is < usizeBound) :
    placeFrom offset is = pure (CilCodec.placeFrom offset is) := by
  induction is generalizing offset with
  | nil => rfl
  | cons i rest ih =>
    rw [totalSize] at h
    have hfirst : i.size < usizeBound := Nat.lt_of_le_of_lt (Nat.le_add_right _ _) h
    have hrest : totalSize rest < usizeBound := Nat.lt_of_le_of_lt (Nat.le_add_left _ _) h
    rw [placeFrom, CilCodec.placeFrom, instructionSize_eq hfirst, pure_bind, ih hrest, pure_bind]

/-- The instructions of placed code start inside it. -/
theorem offset_le_of_placed {is : List (Instruction M)} (hplaced : CilCodec.placeFrom 0 is = is)
    {i : Instruction M} (hi : i ∈ is) : i.offset ≤ totalSize is := by
  have hle := end_le_of_mem_placeFrom (hplaced.symm ▸ hi)
  omega

/-! ## Code -/

section Code

variable {R : Resolver M} {locals : List M.LocalVariable}

theorem readToEnd_matchesAt {c : Cursor} (hc : c.Within data low)
    (hspan : data.size - c.pos ≤ branchLimit) :
    MatchesAt data low (readToEnd R locals config) (Code.readToEnd R locals config) c := by
  unfold readToEnd Code.readToEnd
  refine MatchesAt.position (MatchesAt.weaken ?_ hc.low_le)
  refine (untilEnd_matches (readResolved_matches (Nat.le_refl _) hspan) readResolved_moves c
    hc.from_here).bind fun is middle hread hmiddle => MatchesAt.position ?_
  obtain ⟨hsteps, _⟩ := (Reader.untilEnd_eq_ok readResolved_moves).mp hread
  rw [sub_eq hmiddle.low_le, pure_bind]
  obtain ⟨hplaced, htotal⟩ := placed_of_steps hc.pos_le hsteps (middle.pos - c.pos)
  have hdata : data.size < usizeBound := Nat.lt_of_le_of_lt hc.small (by decide)
  have hinside := hmiddle.inside
  have hlow := hmiddle.low_le
  dsimp only
  rw [placeFrom_eq (by omega)]
  refine Matches.bind (reportLoose_matches fun branch hbranch => ?_)
    (fun _ => pure_matches _) middle hmiddle
  obtain ⟨i, hi, hloose⟩ := List.mem_flatMap.mp hbranch
  rw [offset_of_mem_looseBranches hloose]
  have hoffset := offset_le_of_placed hplaced hi
  omega

section Region

variable {α : Type} {m : Checked α} {c inner : Cursor} {size : Nat}

/-- A region is looked at from its first byte on, in the bytes up to its end. -/
theorem seek_region (hroom : c.pos + size ≤ c.data.size) :
    (seek c.pos >>= fun _ => m) ⟨c.data.extract 0 (c.pos + size), 0, c.notices⟩ =
      m (c.region size) := by
  refine bind_of_ok (seek_of_inside ?_)
  show c.pos ≤ (c.region size).data.size
  rw [Cursor.size_region hroom]
  exact Nat.le_add_right _ _

theorem inData_of_ok {a : α} (hroom : c.pos + size ≤ c.data.size)
    (h : m (c.region size) = .ok a inner) :
    inData (c.data.extract 0 (c.pos + size)) c.pos (c.pos + size) m c =
      .ok a { c with pos := c.pos + size, notices := inner.notices } := by
  unfold inData
  rw [seek_region hroom, h]
  exact bind_of_ok (seek_of_inside (c := { c with notices := inner.notices }) hroom)

theorem inData_of_error {stop : Stop} (hroom : c.pos + size ≤ c.data.size)
    (h : m (c.region size) = .error stop inner) :
    inData (c.data.extract 0 (c.pos + size)) c.pos (c.pos + size) m c =
      .error stop { c with notices := inner.notices } := by
  unfold inData
  rw [seek_region hroom, h]

end Region

/-- Code whose offsets leave room for a delta is read without a fault. -/
theorem codeReader_matchesAt {c : Cursor} {size : Nat} (hc : c.Within data low)
    (hsize : c.pos + size ≤ data.size → size ≤ branchLimit) :
    MatchesAt data low (codeReader size R locals config) (Code.reader size R locals config) c := by
  rcases Nat.lt_or_ge data.size (c.pos + size) with hshort | hroom
  · have hread : Code.reader size R locals config c = .error (.truncated c.pos size) c :=
      if_neg (Nat.not_le.mpr (hc.data_eq ▸ hshort))
    exact .refuses ((bind_of_ok (get_apply c)).trans
      (bind_of_error (endAfter_of_short hc hshort))) hread hc
  · have hfits : c.pos + size ≤ c.data.size := hc.data_eq ▸ hroom
    have hregion := Cursor.size_region hfits
    have hinside : (c.region size).Within (c.region size).data 0 :=
      { data_eq := rfl
        low_le := Nat.zero_le _
        inside := hregion ▸ Nat.le_add_right _ _
        small := hregion ▸ Nat.le_trans hroom hc.small }
    have hspan : (c.region size).data.size - c.pos ≤ branchLimit := by
      rw [hregion, Nat.add_sub_cancel_left]
      exact hsize hroom
    have hrun : MatchesAt _ 0 (readToEnd R locals config) _ _ := readToEnd_matchesAt hinside hspan
    have hopen : codeReader size R locals config c =
        inData (c.data.extract 0 (c.pos + size)) c.pos (c.pos + size)
          (readToEnd R locals config) c := by
      refine (bind_of_ok (get_apply c)).trans ((bind_of_ok (endAfter_of_room hc hroom)).trans ?_)
      rw [slice_eq (Nat.zero_le _) hfits, pure_bind]
    cases hinner : Code.readToEnd R locals config (c.region size) with
    | ok code inner =>
      have hanswer := inData_of_ok hfits (hrun.runs.trans (ofReader_of_ok hinner))
      exact .answers (hopen.trans hanswer) (Code.reader_eq_ok.mpr ⟨hfits, inner, hinner, rfl⟩)
        ((within_move hc hroom).noted _)
    | error e inner =>
      have hfail := inData_of_error hfits (hrun.runs.trans (ofReader_of_error hinner))
      exact .refuses (hopen.trans hfail)
        (Code.reader_eq_error_iff_readToEnd.mpr (.inr ⟨hfits, inner, hinner, rfl⟩)) (hc.noted _)

end Code

end CilCodec.Checked
