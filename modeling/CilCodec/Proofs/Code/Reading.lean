import CilCodec.Proofs.Code.Format
import CilCodec.Proofs.Code.Resolution

/-!
# CilCodec.Proofs.Code.Reading

Reading code, against the stored form.

Each reader comes with two statements: what it answers is stored in the bytes it moved over
(`…_sound`), and it answers with whatever is stored at its position (`…_complete`).
-/

namespace CilCodec

open Reader LittleEndian

/-! ## Operands -/

/-- A switch is read exactly if its count and its deltas are there, and the count is within the
limit. -/
theorem readSwitch_eq_ok {origin : Nat} {config : Config} {c c' : Cursor}
    {operand : Operand RawModel} :
    readSwitch origin config c = .ok operand c' ↔
      ∃ count deltas, Holds c.data c.pos (encode count) ∧
        4 * count.toNat ≤ Cursor.remaining { c with pos := c.pos + size UInt32 } ∧
        ¬ config.maxSwitchTargets < count ∧ deltas.length = count.toNat ∧
        Steps (word Int32) { c with pos := c.pos + size UInt32 } deltas c' ∧
        .switch (deltas.map (branchTarget (c.pos + size UInt32 + 4 * count.toNat - origin))) =
          operand := by
  unfold readSwitch
  simp only [bind_eq_ok, position_eq_ok, word_eq_ok, ensure_eq_ok, refuse_eq_ok, pure_eq_ok,
    repeated_eq_ok]
  constructor
  · rintro ⟨_, _, ⟨rfl, rfl⟩, count, _, ⟨hcount, rfl⟩, _, _, ⟨hroom, rfl⟩, hlimit, _, _, ⟨rfl, rfl⟩,
      deltas, _, ⟨hlength, hsteps⟩, rfl, rfl⟩
    exact ⟨count, deltas, hcount, hroom, hlimit, hlength, hsteps, rfl⟩
  · rintro ⟨count, deltas, hcount, hroom, hlimit, hlength, hsteps, rfl⟩
    exact ⟨_, _, ⟨rfl, rfl⟩, count, _, ⟨hcount, rfl⟩, (), _, ⟨hroom, rfl⟩, hlimit, _, _, ⟨rfl, rfl⟩,
      deltas, _, ⟨hlength, hsteps⟩, rfl, rfl⟩

theorem readSwitch_sound {origin : Nat} {config : Config} {c c' : Cursor}
    {operand : Operand RawModel} (h : readSwitch origin config c = .ok operand c') :
    ∃ bytes, c.Passes bytes c' ∧
      StoredOperand (c.pos + bytes.length - origin) .switchTable operand bytes ∧
      operand.switchLength ≤ config.maxSwitchTargets.toNat := by
  obtain ⟨count, deltas, hcount, _, hlimit, hlength, hsteps, rfl⟩ := readSwitch_eq_ok.mp h
  have hpassed := Cursor.Passes.of_word hcount
  obtain ⟨hdeltas, rfl⟩ := (steps_word hpassed.pos_le).mp hsteps
  refine ⟨encode count ++ deltas.flatMap encode, hpassed.trans (.of_holds hdeltas), ?_, ?_⟩
  · have hend : c.pos + (encode count ++ deltas.flatMap encode).length - origin =
        c.pos + size UInt32 + 4 * count.toNat - origin := by
      rw [List.length_append, length_encode, length_flatMap_encode, hlength, Nat.add_assoc]
      rfl
    rw [hend]
    exact .switchTable count deltas hlength
  · rw [UInt32.not_lt, UInt32.le_iff_toNat_le] at hlimit
    simpa [Operand.switchLength, hlength] using hlimit

theorem readSwitch_complete {origin : Nat} {config : Config} {c : Cursor}
    {operand : Operand RawModel} {bytes : List UInt8}
    (h : StoredOperand (c.pos + bytes.length - origin) .switchTable operand bytes)
    (hlimit : operand.switchLength ≤ config.maxSwitchTargets.toNat)
    (hholds : Holds c.data c.pos bytes) :
    ∃ c', readSwitch origin config c = .ok operand c' ∧ c.Passes bytes c' := by
  generalize hnext : c.pos + bytes.length - origin = next at h
  cases h with
  | switchTable count deltas hcount =>
    obtain ⟨hword, hdeltas⟩ := holds_append.mp hholds
    rw [length_encode] at hdeltas
    have hpassed := Cursor.Passes.of_word hword
    have hroom := hdeltas.le
    rw [length_flatMap_encode, hcount] at hroom
    have hend : c.pos + size UInt32 + 4 * count.toNat - origin = next := by
      rw [← hnext, List.length_append, length_encode, length_flatMap_encode, hcount, Nat.add_assoc]
      rfl
    refine ⟨_, readSwitch_eq_ok.mpr ⟨count, deltas, hword, Nat.le_sub_of_add_le' hroom, ?_, hcount,
      (steps_word hpassed.pos_le).mpr ⟨hdeltas, rfl⟩, by rw [hend]⟩,
      hpassed.trans (.of_holds hdeltas)⟩
    rw [UInt32.not_lt, UInt32.le_iff_toNat_le]
    simpa [Operand.switchLength, hcount] using hlimit

theorem readOperand_sound {origin start : Nat} {opcode : Opcode} {config : Config}
    {c c' : Cursor} {operand : Operand RawModel} (hpos : c.pos ≤ c.data.size)
    (h : readOperand origin start opcode config c = .ok operand c') :
    ∃ bytes, c.Passes bytes c' ∧
      StoredOperand (c.pos + bytes.length - origin) opcode.operandKind operand bytes ∧
      operand.switchLength ≤ config.maxSwitchTargets.toNat := by
  unfold readOperand at h
  cases hkind : opcode.operandKind <;> simp only [hkind] at h
  case none =>
    obtain ⟨rfl, rfl⟩ := pure_eq_ok.mp h
    exact ⟨[], ⟨holds_nil_iff.mpr hpos, rfl, rfl⟩, .none, Nat.zero_le _⟩
  case switchTable => exact readSwitch_sound h
  -- tokens of an unusual table are read as well, but noticed
  case userString =>
    obtain ⟨value, _, hword, h⟩ := bind_eq_ok.mp h
    obtain ⟨hvalue, rfl⟩ := word_eq_ok.mp hword
    obtain ⟨notices, hnoted⟩ := noted_eq (p := (Token.mk value).table ≠ Token.userStringTable)
      (.untaggedString start ⟨value⟩) (Operand.userString (M := RawModel) (Token.mk value).row)
      { c with pos := c.pos + size UInt32 }
    obtain ⟨rfl, rfl⟩ := hnoted.symm.trans h
    exact ⟨_, (Cursor.Passes.of_word hvalue).with_notices _, .userString ⟨value⟩, Nat.zero_le _⟩
  case member kind =>
    obtain ⟨value, _, hword, h⟩ := bind_eq_ok.mp h
    obtain ⟨hvalue, rfl⟩ := word_eq_ok.mp hword
    rw [← ite_not] at h
    obtain ⟨notices, hnoted⟩ := noted_eq (p := ¬ kind.accepts ⟨value⟩ = true)
      (.unusualTable opcode start ⟨value⟩ kind) (Operand.member (M := RawModel) ⟨value⟩)
      { c with pos := c.pos + size UInt32 }
    obtain ⟨rfl, rfl⟩ := hnoted.symm.trans h
    exact ⟨_, (Cursor.Passes.of_word hvalue).with_notices _, .member kind ⟨value⟩, Nat.zero_le _⟩
  case shortBranch =>
    simp only [bind_eq_ok, word_eq_ok, position_eq_ok, pure_eq_ok] at h
    obtain ⟨delta, _, ⟨hdelta, rfl⟩, _, _, ⟨rfl, rfl⟩, rfl, rfl⟩ := h
    refine ⟨_, .of_word hdelta, ?_, Nat.zero_le _⟩
    rw [length_encode]
    exact .shortBranch delta
  case longBranch =>
    simp only [bind_eq_ok, word_eq_ok, position_eq_ok, pure_eq_ok] at h
    obtain ⟨delta, _, ⟨hdelta, rfl⟩, _, _, ⟨rfl, rfl⟩, rfl, rfl⟩ := h
    refine ⟨_, .of_word hdelta, ?_, Nat.zero_le _⟩
    rw [length_encode]
    exact .longBranch delta
  all_goals
    simp only [bind_eq_ok, word_eq_ok, pure_eq_ok] at h
    obtain ⟨value, _, ⟨hvalue, rfl⟩, rfl, rfl⟩ := h
    exact ⟨_, .of_word hvalue, by constructor, Nat.zero_le _⟩

theorem readOperand_complete {origin start : Nat} {opcode : Opcode} {config : Config}
    {c : Cursor} {operand : Operand RawModel} {bytes : List UInt8}
    (h : StoredOperand (c.pos + bytes.length - origin) opcode.operandKind operand bytes)
    (hlimit : operand.switchLength ≤ config.maxSwitchTargets.toNat)
    (hholds : Holds c.data c.pos bytes) :
    ∃ c', readOperand origin start opcode config c = .ok operand c' ∧ c.Passes bytes c' := by
  unfold readOperand
  cases hkind : opcode.operandKind <;> rw [hkind] at h <;> dsimp only
  case none =>
    cases h
    exact ⟨c, rfl, hholds, rfl, rfl⟩
  case switchTable => exact readSwitch_complete h hlimit hholds
  case userString =>
    cases h with
    | userString token =>
      obtain ⟨notices, hnoted⟩ := noted_eq (p := token.table ≠ Token.userStringTable)
        (.untaggedString start token) (Operand.userString (M := RawModel) token.row)
        { c with pos := c.pos + size UInt32 }
      refine ⟨_, ?_, (Cursor.Passes.of_word hholds).with_notices notices⟩
      exact bind_eq_ok.mpr ⟨token.value, _, word_eq_ok.mpr ⟨hholds, rfl⟩, hnoted⟩
  case member kind =>
    cases h with
    | member kind token =>
      obtain ⟨notices, hnoted⟩ := noted_eq (p := ¬ kind.accepts token = true)
        (.unusualTable opcode start token kind) (Operand.member (M := RawModel) token)
        { c with pos := c.pos + size UInt32 }
      refine ⟨_, ?_, (Cursor.Passes.of_word hholds).with_notices notices⟩
      rw [ite_not] at hnoted
      exact bind_eq_ok.mpr ⟨token.value, _, word_eq_ok.mpr ⟨hholds, rfl⟩, hnoted⟩
  case shortBranch =>
    cases h with
    | shortBranch delta =>
      refine ⟨_, ?_, .of_word hholds⟩
      simp only [bind_eq_ok, word_eq_ok, position_eq_ok, pure_eq_ok]
      rw [length_encode]
      exact ⟨delta, _, ⟨hholds, rfl⟩, _, _, ⟨rfl, rfl⟩, rfl, rfl⟩
  case longBranch =>
    cases h with
    | longBranch delta =>
      refine ⟨_, ?_, .of_word hholds⟩
      simp only [bind_eq_ok, word_eq_ok, position_eq_ok, pure_eq_ok]
      rw [length_encode]
      exact ⟨delta, _, ⟨hholds, rfl⟩, _, _, ⟨rfl, rfl⟩, rfl, rfl⟩
  all_goals
    cases h
    refine ⟨_, ?_, .of_word hholds⟩
    simp only [bind_eq_ok, word_eq_ok, pure_eq_ok]
    exact ⟨_, _, ⟨hholds, rfl⟩, rfl, rfl⟩

/-! ## Instructions -/

theorem opcode_end_le {data : Array UInt8} {pos : Nat} {opcode : Opcode}
    (h : Holds data pos opcode.bytes) : pos + opcode.size ≤ data.size := by
  rw [← Opcode.length_bytes]
  exact h.le

/-- Behind an opcode, reading an instruction is reading its operand. -/
theorem readInstruction_of_holds {origin : Nat} {config : Config} {c : Cursor} {opcode : Opcode}
    (hbytes : Holds c.data c.pos opcode.bytes) :
    readInstruction origin config c =
      (do return (⟨low32 (c.pos - origin), opcode, ← readOperand origin c.pos opcode config⟩ :
          Instruction RawModel) : Reader (Instruction RawModel))
        { c with pos := c.pos + opcode.size } := by
  have hknown : Opcode.ofCode? opcode.isLong opcode.code = some opcode :=
    Opcode.ofCode?_eq_some_iff.mpr ⟨rfl, rfl⟩
  unfold Opcode.bytes at hbytes
  unfold readInstruction Opcode.size
  rw [bind_of_ok (position_eq_ok.mpr ⟨rfl, rfl⟩)]
  cases hlong : opcode.isLong with
  | true =>
    rw [hlong] at hknown
    rw [hlong, if_pos rfl, ← List.singleton_append, holds_append] at hbytes
    rw [bind_of_ok (word_of_byte hbytes.1), beq_self_eq_true, if_pos rfl, if_pos rfl,
      bind_of_ok (word_of_byte hbytes.2)]
    dsimp only
    rw [hknown]
  | false =>
    -- a byte that is an opcode by itself is not the mark that longer ones begin with
    have hmark := beq_false_of_ne (Opcode.code_ne_mark hlong)
    rw [hlong] at hknown
    rw [hlong, if_neg Bool.false_ne_true] at hbytes
    rw [bind_of_ok (word_of_byte hbytes), hmark, if_neg Bool.false_ne_true,
      if_neg Bool.false_ne_true, bind_of_ok (pure_eq_ok.mpr ⟨rfl, rfl⟩)]
    dsimp only
    rw [hknown]

/-- An instruction is read exactly if the bytes of an opcode are there and its operand is read
behind them. -/
theorem readInstruction_eq_ok {origin : Nat} {config : Config} {c c' : Cursor}
    {i : Instruction RawModel} :
    readInstruction origin config c = .ok i c' ↔
      ∃ opcode operand, Holds c.data c.pos opcode.bytes ∧
        readOperand origin c.pos opcode config { c with pos := c.pos + opcode.size } =
          .ok operand c' ∧
        ⟨low32 (c.pos - origin), opcode, operand⟩ = i := by
  constructor
  · unfold readInstruction Opcode.bytes Opcode.size
    simp only [bind_eq_ok, position_eq_ok, word_eq_ok, encode_byte, ite_bind_eq_ok]
    rintro ⟨_, _, ⟨rfl, rfl⟩, first, _, ⟨hfirst, rfl⟩, code, middle, hcode, h⟩
    cases hopcode : Opcode.ofCode? (first == longOpcodeMark) code with
    | none =>
      rw [hopcode] at h
      exact absurd h throw_ne_ok
    | some opcode =>
      rw [hopcode] at h
      obtain ⟨hlong, rfl⟩ := Opcode.ofCode?_eq_some_iff.mp hopcode
      obtain ⟨operand, _, hoperand, rfl, rfl⟩ := bind_eq_ok.mp h
      refine ⟨opcode, operand, ?_⟩
      rw [hlong]
      cases hmark : first == longOpcodeMark with
      | true =>
        rw [hmark, if_pos rfl, word_eq_ok, encode_byte] at hcode
        obtain ⟨hcode, rfl⟩ := hcode
        refine ⟨?_, hoperand, rfl⟩
        rw [if_pos rfl, ← List.singleton_append, holds_append]
        exact ⟨beq_iff_eq.mp hmark ▸ hfirst, hcode⟩
      | false =>
        rw [hmark, if_neg Bool.false_ne_true, pure_eq_ok] at hcode
        obtain ⟨rfl, rfl⟩ := hcode
        exact ⟨hfirst, hoperand, rfl⟩
  · rintro ⟨opcode, operand, hbytes, hoperand, rfl⟩
    rw [readInstruction_of_holds hbytes]
    exact bind_eq_ok.mpr ⟨operand, c', hoperand, rfl⟩

theorem readInstruction_moves {origin : Nat} {config : Config} :
    Moves (readInstruction origin config) := by
  intro c c' i h
  obtain ⟨opcode, operand, hbytes, hoperand, rfl⟩ := readInstruction_eq_ok.mp h
  obtain ⟨bytes, hpassed, _, _⟩ := readOperand_sound (opcode_end_le hbytes) hoperand
  refine ⟨hpassed.data_eq, ?_, hpassed.pos_le⟩
  rw [hpassed.pos_eq]
  exact Nat.lt_of_lt_of_le (Nat.lt_add_of_pos_right opcode.size_pos) (Nat.le_add_right _ _)

theorem readInstruction_sound {origin : Nat} {config : Config} {c c' : Cursor}
    {i : Instruction RawModel} (horigin : origin ≤ c.pos)
    (h : readInstruction origin config c = .ok i c') :
    ∃ bytes, c.Passes bytes c' ∧ StoredInstruction (c.pos - origin) i bytes ∧
      i.operand.switchLength ≤ config.maxSwitchTargets.toNat := by
  obtain ⟨opcode, operand, hbytes, hoperand, rfl⟩ := readInstruction_eq_ok.mp h
  obtain ⟨bytes, hpassed, hstored, hlimit⟩ := readOperand_sound (opcode_end_le hbytes) hoperand
  have hopcode := Cursor.Passes.of_holds hbytes
  rw [Opcode.length_bytes] at hopcode
  refine ⟨opcode.bytes ++ bytes, hopcode.trans hpassed, .mk ?_, hlimit⟩
  have hend : c.pos - origin + (opcode.bytes ++ bytes).length =
      c.pos + opcode.size + bytes.length - origin := by
    rw [List.length_append, Opcode.length_bytes]
    omega
  rw [hend]
  exact hstored

theorem readInstruction_complete {origin : Nat} {config : Config} {c : Cursor}
    {i : Instruction RawModel} {bytes : List UInt8} (horigin : origin ≤ c.pos)
    (h : StoredInstruction (c.pos - origin) i bytes)
    (hlimit : i.operand.switchLength ≤ config.maxSwitchTargets.toNat)
    (hholds : Holds c.data c.pos bytes) :
    ∃ c', readInstruction origin config c = .ok i c' ∧ c.Passes bytes c' := by
  obtain @⟨opcode, operand, bytes, hstored⟩ := h
  obtain ⟨hbytes, hbehind⟩ := holds_append.mp hholds
  have hopcode := Cursor.Passes.of_holds hbytes
  rw [Opcode.length_bytes] at hopcode hbehind
  have hend : c.pos - origin + (opcode.bytes ++ bytes).length =
      c.pos + opcode.size + bytes.length - origin := by
    rw [List.length_append, Opcode.length_bytes]
    omega
  rw [hend] at hstored
  obtain ⟨c', hoperand, hpassed⟩ := readOperand_complete
    (c := { c with pos := c.pos + opcode.size }) hstored hlimit hbehind
  exact ⟨c', readInstruction_eq_ok.mpr ⟨opcode, operand, hbytes, hoperand, rfl⟩,
    hopcode.trans hpassed⟩

/-! ## Instructions in a row -/

variable {M : OperandModel} {R : Resolver M} {locals : List M.LocalVariable} {config : Config}

theorem readResolved_eq_ok {origin : Nat} {c c' : Cursor} {i : Instruction M} :
    readResolved R locals config origin c = .ok i c' ↔
      ∃ raw, readInstruction origin config c = .ok raw c' ∧ raw.ResolvesTo R locals i := by
  unfold readResolved
  simp only [bind_eq_ok, position_eq_ok, ofResult_eq_ok, Instruction.resolve_eq_ok_iff]
  constructor
  · rintro ⟨_, _, ⟨rfl, rfl⟩, raw, _, hraw, hresolves, rfl⟩
    exact ⟨raw, hraw, hresolves⟩
  · rintro ⟨raw, hraw, hresolves⟩
    exact ⟨_, _, ⟨rfl, rfl⟩, raw, c', hraw, hresolves, rfl⟩

theorem readResolved_moves {origin : Nat} : Moves (readResolved R locals config origin) := by
  intro c c' i h
  obtain ⟨raw, hraw, _⟩ := readResolved_eq_ok.mp h
  exact readInstruction_moves c c' raw hraw

theorem steps_readResolved_sound {origin : Nat} {c c' : Cursor} {is : List (Instruction M)}
    (horigin : origin ≤ c.pos) (hpos : c.pos ≤ c.data.size)
    (h : Steps (readResolved R locals config origin) c is c') :
    ∃ raws bytes, c.Passes bytes c' ∧ StoredCode (c.pos - origin) raws bytes ∧
      (∀ raw ∈ raws, raw.operand.switchLength ≤ config.maxSwitchTargets.toNat) ∧
      Resolves R locals raws is := by
  induction h with
  | nil c =>
    refine ⟨[], [], ⟨holds_nil_iff.mpr hpos, rfl, rfl⟩, .nil _, ?_, .nil⟩
    intro raw hraw
    cases hraw
  | @cons c middle c' i is hstep _ ih =>
    obtain ⟨raw, hraw, hresolve⟩ := readResolved_eq_ok.mp hstep
    obtain ⟨bytes, hpassed, hstored, hlimit⟩ := readInstruction_sound horigin hraw
    have hbehind : c.pos - origin + bytes.length = middle.pos - origin := by
      rw [hpassed.pos_eq]
      omega
    obtain ⟨raws, behind, hpassed', hstored', hlimit', hresolve'⟩ :=
      ih (by rw [hpassed.pos_eq]; omega) hpassed.pos_le
    rw [← hbehind] at hstored'
    exact ⟨raw :: raws, bytes ++ behind, hpassed.trans hpassed', .cons hstored hstored',
      List.forall_mem_cons.mpr ⟨hlimit, hlimit'⟩, .cons hresolve hresolve'⟩

theorem steps_readResolved_complete {origin : Nat} {c : Cursor} {is : List (Instruction M)}
    {raws : List (Instruction RawModel)} {bytes : List UInt8} (horigin : origin ≤ c.pos)
    (h : StoredCode (c.pos - origin) raws bytes)
    (hlimit : ∀ raw ∈ raws, raw.operand.switchLength ≤ config.maxSwitchTargets.toNat)
    (hresolve : Resolves R locals raws is) (hholds : Holds c.data c.pos bytes) :
    ∃ c', Steps (readResolved R locals config origin) c is c' ∧ c.Passes bytes c' := by
  induction hresolve generalizing c bytes with
  | nil =>
    cases h
    exact ⟨c, .nil c, hholds, rfl, rfl⟩
  | @cons raw i raws is hfirst _ ih =>
    cases h with
    | @cons _ _ _ bytes behind hstored hstored' =>
      obtain ⟨hlimit, hlimit'⟩ := List.forall_mem_cons.mp hlimit
      obtain ⟨middle, hraw, hpassed⟩ :=
        readInstruction_complete horigin hstored hlimit (holds_append.mp hholds).1
      have hbehind : c.pos - origin + bytes.length = middle.pos - origin := by
        rw [hpassed.pos_eq]
        omega
      rw [hbehind] at hstored'
      obtain ⟨c', hsteps, hpassed'⟩ := ih (by rw [hpassed.pos_eq]; omega) hstored' hlimit'
        (hpassed.holds_behind hholds)
      exact ⟨c', .cons (readResolved_eq_ok.mpr ⟨raw, hraw, hfirst⟩) hsteps,
        hpassed.trans hpassed'⟩

/-! ## Loose branches -/

theorem reportLoose_eq_ok_of {branches : List (Nat × Int64)} (origin : Nat) {c : Cursor}
    (h : config.strictBranches = true → branches = []) :
    ∃ notices, reportLoose config origin branches c = .ok () { c with notices := notices } := by
  induction branches generalizing c with
  | nil => exact ⟨c.notices, rfl⟩
  | cons branch rest ih =>
    have hloose : config.strictBranches = false := by
      cases hstrict : config.strictBranches with
      | false => rfl
      | true => cases h hstrict
    obtain ⟨notices, hrest⟩ := ih
      (c := { c with notices := c.notices.push (.looseBranch branch.1 branch.2.toInt) })
      (fun hstrict => Bool.noConfusion (hloose.symm.trans hstrict))
    refine ⟨notices, ?_⟩
    rw [reportLoose, refuse_eq_ok, hloose]
    exact ⟨Bool.false_ne_true, bind_eq_ok.mpr ⟨(), _, rfl, hrest⟩⟩

/-- Strict reading leaves no loose branch. -/
theorem eq_nil_of_reportLoose {origin : Nat} {branches : List (Nat × Int64)} {c c' : Cursor}
    {u : Unit} (h : reportLoose config origin branches c = .ok u c')
    (hstrict : config.strictBranches = true) : branches = [] := by
  cases branches with
  | nil => rfl
  | cons branch rest =>
    rw [reportLoose, refuse_eq_ok] at h
    exact absurd hstrict h.1

/-! ## Code -/

/-- `code.ReadFrom R locals config bytes`: the bytes store instructions that resolve to those of
`code` but for the binding of labels, within what `config` tolerates. -/
inductive Code.ReadFrom (R : Resolver M) (locals : List M.LocalVariable) (config : Config) :
    Code M → List UInt8 → Prop
  | mk {raws : List (Instruction RawModel)} {is : List (Instruction M)} {bytes : List UInt8} :
      StoredCode 0 raws bytes →
      (∀ raw ∈ raws, raw.operand.switchLength ≤ config.maxSwitchTargets.toNat) →
      Resolves R locals raws is →
      (config.strictBranches = true →
        (bindLabels bytes.length is).flatMap Instruction.looseBranches = []) →
      Code.ReadFrom R locals config ⟨bindLabels bytes.length is⟩ bytes

/-- Binding labels leaves stored instructions where they stand. -/
theorem ofList_bindLabels {raws : List (Instruction RawModel)}
    {is : List (Instruction M)} {bytes : List UInt8} (hstored : StoredCode 0 raws bytes)
    (hresolve : Resolves R locals raws is) (size : Nat) :
    Code.ofList (bindLabels size is) = ⟨bindLabels size is⟩ := by
  unfold Code.ofList bindLabels
  dsimp only
  rw [placeFrom_mapLabels, hresolve.placeFrom_eq hstored.placeFrom_eq]

/-- The cursor with nothing behind the `size` bytes that follow. -/
def Cursor.region (c : Cursor) (size : Nat) : Cursor :=
  { c with data := c.data.extract 0 (c.pos + size) }

theorem Cursor.size_region {c : Cursor} {size : Nat} (h : c.pos + size ≤ c.data.size) :
    (c.region size).data.size = c.pos + size := by
  show (c.data.extract 0 (c.pos + size)).size = _
  rw [Array.size_extract, Nat.min_eq_left h, Nat.sub_zero]

theorem Cursor.pos_le_region {c : Cursor} {size : Nat} (h : c.pos + size ≤ c.data.size) :
    (c.region size).pos ≤ (c.region size).data.size := by
  rw [size_region h]
  exact Nat.le_add_right _ _

namespace Code

theorem readToEnd_eq_ok {c c' : Cursor} {code : Code M} :
    readToEnd R locals config c = .ok code c' ↔
      ∃ is middle, Steps (readResolved R locals config c.pos) c is middle ∧
        middle.data.size ≤ middle.pos ∧
        reportLoose config c.pos
          ((bindLabels (middle.pos - c.pos) is).flatMap Instruction.looseBranches) middle =
            .ok () c' ∧
        ofList (bindLabels (middle.pos - c.pos) is) = code := by
  unfold readToEnd
  simp only [bind_eq_ok, position_eq_ok, pure_eq_ok, untilEnd_eq_ok readResolved_moves]
  constructor
  · rintro ⟨_, _, ⟨rfl, rfl⟩, is, middle, ⟨hsteps, hend⟩, _, _, ⟨rfl, rfl⟩, _, _, hloose, rfl, rfl⟩
    exact ⟨is, middle, hsteps, hend, hloose, rfl⟩
  · rintro ⟨is, middle, hsteps, hend, hloose, rfl⟩
    exact ⟨_, _, ⟨rfl, rfl⟩, is, middle, ⟨hsteps, hend⟩, _, _, ⟨rfl, rfl⟩, (), _, hloose, rfl, rfl⟩

theorem reader_eq_ok {size : Nat} {c c' : Cursor} {code : Code M} :
    reader size R locals config c = .ok code c' ↔
      c.pos + size ≤ c.data.size ∧
        ∃ inner, readToEnd R locals config (c.region size) = .ok code inner ∧
          { c with pos := c.pos + size, notices := inner.notices } = c' := by
  unfold reader
  split
  next h =>
    have hregion : readToEnd R locals config { c with data := c.data.extract 0 (c.pos + size) } =
        readToEnd R locals config (c.region size) := rfl
    rw [hregion]
    cases readToEnd R locals config (c.region size) with
    | ok code inner => simp [h]
    | error e inner => simp
  next h => simp [h]

/-- What is read of a region is placed as it was read. -/
theorem ofList_bindLabels_of_steps {size : Nat} {c middle : Cursor} {is : List (Instruction M)}
    (hroom : c.pos + size ≤ c.data.size)
    (hsteps : Steps (readResolved R locals config c.pos) (c.region size) is middle) (width : Nat) :
    ofList (bindLabels width is) = ⟨bindLabels width is⟩ := by
  obtain ⟨raws, bytes, _, hstored, _, hresolves⟩ :=
    steps_readResolved_sound (c := c.region size) (Nat.le_refl c.pos) (Cursor.pos_le_region hroom)
      hsteps
  rw [show (c.region size).pos = c.pos from rfl, Nat.sub_self] at hstored
  exact ofList_bindLabels hstored hresolves width

theorem reader_sound {size : Nat} {c c' : Cursor} {code : Code M}
    (h : reader size R locals config c = .ok code c') :
    ∃ bytes, bytes.length = size ∧ c.Passes bytes c' ∧
      code.ReadFrom R locals config bytes := by
  obtain ⟨hroom, inner, hread, rfl⟩ := reader_eq_ok.mp h
  obtain ⟨is, middle, hsteps, hend, hloose, rfl⟩ := readToEnd_eq_ok.mp hread
  have hsize := Cursor.size_region hroom
  obtain ⟨raws, bytes, hpassed, hstored, hlimit, hresolve⟩ :=
    steps_readResolved_sound (Nat.le_refl _) (hsize ▸ Nat.le_add_right _ _) hsteps
  -- the inner reader sees the data cut off behind the region, and reads on to the cut
  obtain ⟨hholds, hle⟩ := (holds_extract_zero hroom).mp hpassed.holds
  have hlength : bytes.length = size := by
    rw [hpassed.data_eq, hpassed.pos_eq, hsize] at hend
    exact Nat.le_antisymm (Nat.le_of_add_le_add_left hle) (Nat.le_of_add_le_add_left hend)
  have hwidth : middle.pos - (c.region size).pos = bytes.length := by
    rw [hpassed.pos_eq, Nat.add_sub_cancel_left]
  rw [hwidth] at hloose ⊢
  rw [Nat.sub_self] at hstored
  rw [ofList_bindLabels hstored hresolve]
  exact ⟨bytes, hlength, ⟨hholds, rfl, by rw [hlength]⟩,
    .mk hstored hlimit hresolve (eq_nil_of_reportLoose hloose)⟩

theorem reader_complete {c : Cursor} {code : Code M} {bytes : List UInt8}
    (h : code.ReadFrom R locals config bytes) (hholds : Holds c.data c.pos bytes) :
    ∃ c', reader bytes.length R locals config c = .ok code c' ∧ c.Passes bytes c' := by
  obtain @⟨raws, is, bytes, hstored, hlimit, hresolve, hstrict⟩ := h
  have hroom := hholds.le
  rw [← Nat.sub_self c.pos] at hstored
  obtain ⟨middle, hsteps, hpassed⟩ := steps_readResolved_complete (c := c.region bytes.length)
    (Nat.le_refl _) hstored hlimit hresolve ((holds_extract_zero hroom).mpr ⟨hholds, Nat.le_refl _⟩)
  have hend : middle.data.size ≤ middle.pos := by
    rw [hpassed.data_eq, hpassed.pos_eq, Cursor.size_region hroom]
    exact Nat.le_refl _
  have hwidth : middle.pos - (c.region bytes.length).pos = bytes.length := by
    rw [hpassed.pos_eq, Nat.add_sub_cancel_left]
  obtain ⟨notices, hloose⟩ := reportLoose_eq_ok_of c.pos (c := middle) hstrict
  rw [← hwidth] at hloose
  rw [Nat.sub_self] at hstored
  refine ⟨{ c with pos := c.pos + bytes.length, notices := notices }, ?_, hholds, rfl, rfl⟩
  refine reader_eq_ok.mpr
    ⟨hroom, _, readToEnd_eq_ok.mpr ⟨is, middle, hsteps, hend, hloose, ?_⟩, rfl⟩
  rw [hwidth, ofList_bindLabels hstored hresolve]

end Code

end CilCodec
