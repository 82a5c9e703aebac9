import CilCodec.Proofs.Bytes.Looping
import CilCodec.Proofs.Code.RoundTrip
import CilCodec.Proofs.Import.Thunk
import CilCodec.Proofs.Method.Section

/-!
# CilCodec.Proofs.Termination

Reading comes to an end within the input.

Three loops are driven by what they read: code is read instruction by instruction up to the end of
its region, sections are read as long as each announces another, and thunks up to one that is zero.
Whatever the bytes say, a round that is followed by another has taken something off the input: an
instruction its opcode, a section its header and a thunk itself.

Results:
1. `MethodSection.chainLoop_consumes`, `ImportEntry.reader_consumes`: what a round takes;
2. `MethodSection.reader_runs`: the loop over sections, with no bound on their number;
3. `Code.length_add_switchTargets_le`: instructions and their switch targets fit the code;
4. `loops_end_within_input`: how often each of the loops runs.
-/

namespace CilCodec

open Reader

/-! ## Sections -/

namespace MethodSection

/-- The loop over the sections of a chain. -/
def chainLoop (config : Config) :
    Loop (List ExceptionHandler × Cursor)
      (EStateM.Result Error Cursor (List ExceptionHandler)) where
  stops _ := none
  body s :=
    match sectionReader s.2 with
    | .ok (clauses, hasMore) c =>
      if hasMore then .inr (s.1 ++ clauses, c) else .inl (.ok (s.1 ++ clauses) c)
    | .error e c =>
      if config.lenientSections then
        .inl (.ok s.1 { c with notices := c.notices.push (.sectionDropped s.1.length e) })
      else
        .inl (.error e c)

variable {config : Config} {s s' : List ExceptionHandler × Cursor}

theorem chainLoop_body_eq_again :
    (chainLoop config).body s = .inr s' ↔
      ∃ clauses, sectionReader s.2 = .ok (clauses, true) s'.2 ∧ s.1 ++ clauses = s'.1 := by
  simp only [chainLoop]
  rcases sectionReader s.2 with ⟨⟨clauses, _ | _⟩, c⟩ | ⟨e, c⟩
  · simp
  · simp [Prod.ext_iff, and_assoc, and_comm]
  · cases config.lenientSections <;> simp

/-- A bounded chain does what the loop does, a section at a time. -/
theorem chainReader_succ_eq (limit : Nat) (s : List ExceptionHandler × Cursor) :
    chainReader config (limit + 1) s.1 s.2 =
      match (chainLoop config).body s with
      | .inl r => r
      | .inr s' => chainReader config limit s'.1 s'.2 := by
  simp only [chainReader, chainLoop]
  rcases sectionReader s.2 with ⟨⟨clauses, _ | _⟩, c⟩ | ⟨e, c⟩
  · rfl
  · rfl
  · cases config.lenientSections <;> rfl

theorem chainLoop_consumes (config : Config) : (chainLoop config).Consumes headerSize := by
  intro s s' _ hbody
  obtain ⟨clauses, hread, _⟩ := chainLoop_body_eq_again.mp hbody
  obtain ⟨_, padding, bytes, _, hstored, _, hpassed⟩ := sectionReader_sound hread
  refine ⟨hpassed.data_eq, ?_, hpassed.pos_le⟩
  rw [hpassed.pos_eq, List.length_append]
  have hheader := hstored.headerSize_le
  omega

/-- Reading a chain comes to what the loop comes to, which is run for each header that the bytes
have room for at most, and once more. -/
theorem reader_runs (config : Config) (c : Cursor) :
    ∃ count, count ≤ c.remaining / headerSize + 1 ∧
      (chainLoop config).Runs ([], c) count (reader config c) := by
  obtain ⟨count, r, hcount, hruns⟩ :=
    (chainLoop_consumes config).exists_runs (by decide) ([], c)
  have hlimit : count ≤ c.remaining + 1 :=
    Nat.le_trans hcount (Nat.succ_le_succ (Nat.div_le_self _ _))
  have hbounded : reader config c = r := by
    refine hruns.eq_of_le (fun limit s => chainReader config limit s.1 s.2)
      (fun _ _ _ hstop => ?_) (fun limit s r _ hbody => ?_) (fun limit s s' _ hbody => ?_) hlimit
    · cases hstop
    · rw [chainReader_succ_eq, hbody]
    · rw [chainReader_succ_eq, hbody]
  rw [← hbounded] at hruns
  exact ⟨count, hcount, hruns⟩

/-- Empty sections that announce another, up to the end of the data: no loop runs longer. -/
example : ∃ r, (chainLoop Config.default).Runs
    ([], Cursor.start #[0x80, 4, 0, 0, 0x80, 4, 0, 0]) 3 r :=
  ⟨_, .again rfl rfl (.again rfl rfl (.leaves rfl rfl))⟩

end MethodSection

/-! ## Thunks -/

theorem ImportEntry.reader_consumes (width : ThunkWidth) :
    (whileSome (reader width)).Consumes width.bytes := by
  intro s s' _ hbody
  obtain ⟨entry, hread, _⟩ := whileSome_body_eq_again.mp hbody
  obtain ⟨raw, hpassed⟩ := passes_of_reader hread
  refine ⟨hpassed.data_eq, Nat.le_of_eq ?_, hpassed.pos_le⟩
  rw [hpassed.pos_eq, ThunkWidth.length_stored]

/-! ## Code -/

section Code

variable {M : OperandModel}

/-- Number of targets of the switches among instructions. -/
def totalTargets : List (Instruction M) → Nat
  | [] => 0
  | i :: rest => i.operand.switchLength + totalTargets rest

/-- Number of targets of all switches. -/
def Code.switchTargets (code : Code M) : Nat := totalTargets code.instructions

theorem totalTargets_mapLabels (f : Label → Label) (instructions : List (Instruction M)) :
    totalTargets (instructions.map (Instruction.mapLabels f)) = totalTargets instructions := by
  induction instructions with
  | nil => rfl
  | cons i rest ih =>
    rw [List.map_cons, totalTargets, totalTargets, ih, Instruction.mapLabels,
      Operand.switchLength_mapLabels]

/-- The table of a switch is part of its operand. -/
theorem StoredOperand.switchLength_le {next : Nat} {kind : OperandKind} {operand : Operand RawModel}
    {bytes : List UInt8} (h : StoredOperand next kind operand bytes) :
    4 * operand.switchLength ≤ bytes.length := by
  cases h with
  | switchTable count deltas hcount =>
    rw [Operand.switchLength, List.length_map, List.length_append, length_flatMap_encode]
    exact Nat.le_add_left _ _
  | _ => exact Nat.zero_le _

/-- Instructions and the targets of their switches take up the bytes they are stored as. -/
theorem StoredCode.length_add_le {offset : Nat} {instructions : List (Instruction RawModel)}
    {bytes : List UInt8} (h : StoredCode offset instructions bytes) :
    instructions.length + 4 * totalTargets instructions ≤ bytes.length := by
  induction h with
  | nil => exact Nat.le_refl 0
  | cons hfirst _ ih =>
    obtain @⟨opcode, operand, stored, hoperand⟩ := hfirst
    have htable := hoperand.switchLength_le
    have hopcode := opcode.size_pos
    rw [List.length_cons, totalTargets, List.length_append, List.length_append,
      Opcode.length_bytes]
    dsimp only
    omega

theorem Resolves.totalTargets_eq {R : Resolver M} {locals : List M.LocalVariable}
    {raws : List (Instruction RawModel)} {is : List (Instruction M)}
    (h : Resolves R locals raws is) : totalTargets is = totalTargets raws := by
  induction h with
  | nil => rfl
  | cons hfirst _ ih =>
    rw [totalTargets, totalTargets, ih, hfirst.operand.switchLength_eq]

/-- Each instruction that is read takes a byte of the code, and each target of a switch four. -/
theorem Code.length_add_switchTargets_le {R : Resolver M} {locals : List M.LocalVariable}
    {config : Config} {size : Nat} {c c' : Cursor} {code : Code M}
    (h : Code.reader size R locals config c = .ok code c') :
    code.length + 4 * code.switchTargets ≤ size := by
  obtain ⟨bytes, rfl, _, hfrom⟩ := reader_sound h
  obtain @⟨raws, is, bytes, hstored, _, hresolves, _⟩ := hfrom
  have hle := hstored.length_add_le
  rw [← hresolves.totalTargets_eq, hresolves.length_eq] at hle
  rw [length, switchTargets, bindLabels, List.length_map, totalTargets_mapLabels]
  exact hle

end Code

/-! ## All loops -/

theorem Cursor.remaining_region_le (c : Cursor) (size : Nat) :
    (c.region size).remaining ≤ size := by
  have hsize : (c.region size).data.size ≤ c.pos + size := by
    show (c.data.extract 0 (c.pos + size)).size ≤ _
    rw [Array.size_extract, Nat.sub_zero]
    exact Nat.min_le_left _ _
  exact Nat.sub_le_iff_le_add'.mpr hsize

/-- On any input, at any position and under any settings, each loop comes to an end, with what its
reader answers: the one over instructions within as many rounds as the code has bytes, the one over
sections within one more than there is room for headers, and the one over thunks within one more
than there is room for thunks. A round that another follows moves by a byte, a header or a thunk at
least. In code that is read, instructions and four times the targets of switches fit its size. -/
theorem loops_end_within_input :
    (∀ {M : OperandModel} (R : Resolver M) (locals : List M.LocalVariable) (config : Config)
        (size : Nat) (c : Cursor),
      (whileMore (readResolved R locals config c.pos)).Consumes 1 ∧
        ∃ count, count ≤ size ∧ (whileMore (readResolved R locals config c.pos)).Runs
          ([], c.region size) count
          (untilEnd (readResolved R locals config c.pos) (c.region size))) ∧
    (∀ (config : Config) (c : Cursor),
      (MethodSection.chainLoop config).Consumes 4 ∧
        ∃ count, count ≤ c.remaining / 4 + 1 ∧ (MethodSection.chainLoop config).Runs
          ([], c) count (MethodSection.reader config c)) ∧
    (∀ (width : ThunkWidth) (c : Cursor),
      (whileSome (ImportEntry.reader width)).Consumes width.bytes ∧
        ∃ count, count ≤ c.remaining / width.bytes + 1 ∧ (whileSome (ImportEntry.reader width)).Runs
          ([], c) count (ImportEntry.tableReader width c)) ∧
    ∀ {M : OperandModel} (R : Resolver M) (locals : List M.LocalVariable) (config : Config)
        (size : Nat) (c c' : Cursor) (code : Code M),
      Code.reader size R locals config c = .ok code c' →
        code.length + 4 * code.switchTargets ≤ size := by
  refine ⟨fun R locals config size c => ⟨readResolved_moves.whileMore_consumes, ?_⟩,
    fun config c => ⟨MethodSection.chainLoop_consumes config, MethodSection.reader_runs config c⟩,
    fun width c => ⟨ImportEntry.reader_consumes width, ?_⟩,
    fun R locals config size c c' code h => Code.length_add_switchTargets_le h⟩
  · have hmoves : Moves (readResolved R locals config c.pos) := readResolved_moves
    obtain ⟨count, hcount, hruns⟩ := untilEnd_runs hmoves (c.region size)
    exact ⟨count, Nat.le_trans hcount (c.remaining_region_le size), hruns⟩
  · exact untilNone_runs (ImportEntry.reader_consumes width) (by cases width <;> decide) c

set_option maxRecDepth 4000 in
/-- A switch with one target, and a return. -/
theorem loops_end_within_input_switch :
    ∃ c', Code.reader 10 rawResolver [] Config.default
        (Cursor.start #[0x45, 1, 0, 0, 0, 0, 0, 0, 0, 0x2a]) =
          .ok ⟨[⟨0, ⟨68⟩, .switch [.instruction 1]⟩, ⟨9, ⟨41⟩, .none⟩]⟩ c' ∧
      Code.length (M := RawModel) ⟨[⟨0, ⟨68⟩, .switch [.instruction 1]⟩, ⟨9, ⟨41⟩, .none⟩]⟩ +
        4 * Code.switchTargets (M := RawModel)
          ⟨[⟨0, ⟨68⟩, .switch [.instruction 1]⟩, ⟨9, ⟨41⟩, .none⟩]⟩ ≤ 10 := by
  obtain ⟨c', hread⟩ : ∃ c', Code.reader 10 rawResolver [] Config.default
      (Cursor.start #[0x45, 1, 0, 0, 0, 0, 0, 0, 0, 0x2a]) =
        .ok ⟨[⟨0, ⟨68⟩, .switch [.instruction 1]⟩, ⟨9, ⟨41⟩, .none⟩]⟩ c' := ⟨_, rfl⟩
  obtain ⟨_, _, _, hsize⟩ := loops_end_within_input
  exact ⟨c', hread, hsize _ _ _ _ _ _ _ hread⟩

end CilCodec
