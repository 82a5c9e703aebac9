import CilCodec.Proofs.Code.Commutation
import CilCodec.Proofs.Code.RoundTrip

/-!
# CilCodec.Proofs.Code.Tolerance

Reading code under a configuration, against reading it without limits.

A configuration has no part in what code is read as. `Config.unlimited` lets a switch have any
number of targets and a branch go anywhere; every other configuration reads the same code or
refuses it. `Config.Tolerates` and `Config.Refuses` say which, of the code alone: switches come
first, in the order of instructions, and branches are looked at only if all switches are within the
limit.

A switch is refused while it is read, so at its place. A branch is refused when all instructions
are known, and its place is worked out from the offset that the instruction keeps, which has lost
its high bits from 4 GiB on (`Error.reported`).

Results:
1. `readInstruction_eq_ok_iff_unlimited`, `readInstruction_of_long`: one instruction, within the
   limit and beyond it.
2. `reader_eq_ok_iff_unlimited`: code is read exactly if it is read without limits and tolerated.
3. `reader_error_of_refuses`: what is refused fails with the error of the first offender.
4. `reader_filters_unlimited`: both, of every configuration;
5. `reader_farBranch`: a branch behind a switch, which is reported where it is below 4 GiB only.
-/

namespace CilCodec

open Reader LittleEndian

/-- Refuses nothing that can be read. -/
def Config.unlimited : Config := { maxSwitchTargets := 0xffffffff }

/-! ## The first of a list -/

/-- `FirstWith P xs before a`: of the elements of `xs` that have `P`, `a` comes first, and `before`
are those in front of it. -/
def FirstWith {α : Type} (P : α → Prop) (xs before : List α) (a : α) : Prop :=
  ∃ behind, xs = before ++ a :: behind ∧ (∀ b ∈ before, ¬ P b) ∧ P a

theorem exists_firstWith {α : Type} {P : α → Prop} {xs : List α} (h : ∃ a ∈ xs, P a) :
    ∃ before a, FirstWith P xs before a := by
  induction xs with
  | nil =>
    obtain ⟨_, hmem, _⟩ := h
    cases hmem
  | cons x xs ih =>
    by_cases hx : P x
    · exact ⟨[], x, xs, rfl, List.forall_mem_nil _, hx⟩
    · obtain ⟨a, hmem, ha⟩ := h
      rcases List.mem_cons.mp hmem with rfl | hmem
      · exact absurd ha hx
      · obtain ⟨before, first, behind, rfl, hbefore, hfirst⟩ := ih ⟨a, hmem, ha⟩
        exact ⟨x :: before, first, behind, rfl, List.forall_mem_cons.mpr ⟨hx, hbefore⟩, hfirst⟩

theorem FirstWith.of_map {α β : Type} {P : β → Prop} {f : α → β} {xs : List α} {mapped : List β}
    {b : β} (h : FirstWith P (xs.map f) mapped b) :
    ∃ before a, FirstWith (fun a => P (f a)) xs before a ∧ before.map f = mapped ∧ f a = b := by
  obtain ⟨_, hxs, hbefore, hb⟩ := h
  obtain ⟨before, _, rfl, rfl, hbehind⟩ := List.map_eq_append_iff.mp hxs
  obtain ⟨a, behind, rfl, rfl, _⟩ := List.map_eq_cons_iff.mp hbehind
  rw [List.forall_mem_map] at hbefore
  exact ⟨before, a, ⟨behind, rfl, hbefore, hb⟩, rfl, rfl⟩

/-! ## What a configuration refuses -/

/-- What is reported in place of an error in code at `origin`. Of the way to a branch that leads
nowhere, a word is kept. -/
def Error.reported (origin : Nat) : Error → Error
  | .invalidBranchTarget place target =>
    .invalidBranchTarget (origin + low32 (place - origin)) target
  | e => e

theorem Error.reported_eq_iff {origin place : Nat} (target : Int) (h : origin ≤ place) :
    (Error.invalidBranchTarget place target).reported origin = .invalidBranchTarget place target ↔
      place < origin + 0x100000000 := by
  rw [reported, invalidBranchTarget.injEq, and_iff_left rfl]
  constructor
  · intro hkept
    have hlow := low32_le (place - origin)
    omega
  · intro hnear
    rw [low32_eq_iff.mpr (by omega), Nat.add_sub_cancel' h]

namespace Config

variable {M : OperandModel}

/-- Whether the code is within the limits of the configuration. -/
structure Tolerates (config : Config) (code : Code M) : Prop where
  switches : ∀ i ∈ code.instructions, i.operand.switchLength ≤ config.maxSwitchTargets.toNat
  branches : config.strictBranches = true →
    ∀ i ∈ code.instructions, ∀ label ∈ i.labels, label.isDetached = false

/-- `config.Refuses origin code e`: the code, which stands at `origin`, is not within the limits,
and `e` names what is first beyond them: the first switch with too many targets, at its operand, or,
if there is none, the first detached label of the first instruction that has one, at the
instruction. An instruction stands behind those in front of it. -/
inductive Refuses (config : Config) (origin : Nat) (code : Code M) : Error → Prop
  | longSwitch {before : List (Instruction M)} {i : Instruction M} :
      FirstWith (fun i => config.maxSwitchTargets.toNat < i.operand.switchLength)
        code.instructions before i →
      Refuses config origin code
        (.malformed (.switchLimit (UInt32.ofNat i.operand.switchLength) config.maxSwitchTargets)
          (origin + totalSize before + i.opcode.size))
  | looseBranch {before : List (Instruction M)} {near : List Label} {i : Instruction M}
      {target : Int64} :
      (∀ i ∈ code.instructions, i.operand.switchLength ≤ config.maxSwitchTargets.toNat) →
      config.strictBranches = true →
      FirstWith (fun i => ∃ label ∈ i.labels, label.isDetached = true) code.instructions before i →
      FirstWith (fun label => label.isDetached = true) i.labels near (.detached target) →
      Refuses config origin code (.invalidBranchTarget (origin + totalSize before) target.toInt)

theorem exists_refuses {config : Config} {code : Code M} (h : ¬ config.Tolerates code)
    (origin : Nat) : ∃ e, config.Refuses origin code e := by
  by_cases hswitches :
      ∀ i ∈ code.instructions, i.operand.switchLength ≤ config.maxSwitchTargets.toNat
  · have hbranches : ¬ (config.strictBranches = true →
        ∀ i ∈ code.instructions, ∀ label ∈ i.labels, label.isDetached = false) :=
      fun hbranches => h ⟨hswitches, hbranches⟩
    simp only [not_forall, Bool.not_eq_false] at hbranches
    obtain ⟨hstrict, i, hi, label, hlabel, hdetached⟩ := hbranches
    obtain ⟨before, first, hfirst⟩ := exists_firstWith
      (P := fun i : Instruction M => ∃ label ∈ i.labels, label.isDetached = true)
      ⟨i, hi, label, hlabel, hdetached⟩
    obtain ⟨_, _, _, hloose⟩ := id hfirst
    obtain ⟨near, label, hlabel⟩ := exists_firstWith hloose
    cases label with
    | instruction index =>
      obtain ⟨_, _, _, hdetached⟩ := hlabel
      cases hdetached
    | detached target => exact ⟨_, .looseBranch hswitches hstrict hfirst hlabel⟩
  · simp only [not_forall, Nat.not_le] at hswitches
    obtain ⟨i, hi, hlong⟩ := hswitches
    obtain ⟨before, first, hfirst⟩ := exists_firstWith
      (P := fun i : Instruction M => config.maxSwitchTargets.toNat < i.operand.switchLength)
      ⟨i, hi, hlong⟩
    exact ⟨_, .longSwitch hfirst⟩

end Config

/-! ## One instruction -/

section Instructions

variable {origin start : Nat} {opcode : Opcode} {config : Config} {c c' : Cursor}

theorem Config.unlimited_not_lt (count : UInt32) : ¬ Config.unlimited.maxSwitchTargets < count := by
  rw [UInt32.not_lt, UInt32.le_iff_toNat_le]
  exact Nat.le_of_lt_succ count.toNat_lt

theorem readSwitch_eq_ok_iff_unlimited {operand : Operand RawModel} :
    readSwitch origin config c = .ok operand c' ↔
      readSwitch origin .unlimited c = .ok operand c' ∧
        operand.switchLength ≤ config.maxSwitchTargets.toNat := by
  constructor
  · intro h
    obtain ⟨_, _, _, hlimit⟩ := readSwitch_sound h
    obtain ⟨count, deltas, hcount, hroom, _, hlength, hsteps, hoperand⟩ := readSwitch_eq_ok.mp h
    exact ⟨readSwitch_eq_ok.mpr ⟨count, deltas, hcount, hroom, Config.unlimited_not_lt count,
      hlength, hsteps, hoperand⟩, hlimit⟩
  · rintro ⟨h, hlimit⟩
    obtain ⟨count, deltas, hcount, hroom, _, hlength, hsteps, rfl⟩ := readSwitch_eq_ok.mp h
    refine readSwitch_eq_ok.mpr ⟨count, deltas, hcount, hroom, ?_, hlength, hsteps, rfl⟩
    rw [UInt32.not_lt, UInt32.le_iff_toNat_le, ← hlength]
    simpa [Operand.switchLength] using hlimit

/-- A switch beyond the limit is refused as soon as its count is known. -/
theorem readSwitch_of_long {operand : Operand RawModel}
    (h : readSwitch origin .unlimited c = .ok operand c')
    (hlong : config.maxSwitchTargets.toNat < operand.switchLength) :
    readSwitch origin config c =
      .error (.malformed (.switchLimit (UInt32.ofNat operand.switchLength) config.maxSwitchTargets)
        c.pos) { c with pos := c.pos + size UInt32 } := by
  obtain ⟨count, deltas, hcount, hroom, _, hlength, _, rfl⟩ := readSwitch_eq_ok.mp h
  have hlength' : (Operand.switch (M := RawModel) (deltas.map (branchTarget
      (c.pos + size UInt32 + 4 * count.toNat - origin)))).switchLength = count.toNat := by
    rw [← hlength]
    exact List.length_map ..
  rw [hlength'] at hlong ⊢
  unfold readSwitch
  rw [bind_of_ok (position_eq_ok.mpr ⟨rfl, rfl⟩), bind_of_ok (word_eq_ok.mpr ⟨hcount, rfl⟩),
    bind_of_ok (a := ()) (ensure_eq_ok.mpr ⟨hroom, rfl⟩), if_pos (UInt32.lt_iff_toNat_lt.mpr hlong),
    UInt32.ofNat_toNat]
  rfl

theorem readOperand_of_switchTable (hkind : opcode.operandKind = .switchTable) :
    readOperand origin start opcode config = readSwitch origin config := by
  unfold readOperand
  rw [hkind]

/-- Operands other than switches are read alike under all configurations. -/
theorem readOperand_congr (hkind : opcode.operandKind ≠ .switchTable) (config config' : Config) :
    readOperand origin start opcode config = readOperand origin start opcode config' := by
  unfold readOperand
  generalize opcode.operandKind = kind at hkind
  cases kind with
  | switchTable => exact absurd rfl hkind
  | _ => rfl

theorem readOperand_eq_ok_iff_unlimited {operand : Operand RawModel} (hpos : c.pos ≤ c.data.size) :
    readOperand origin start opcode config c = .ok operand c' ↔
      readOperand origin start opcode .unlimited c = .ok operand c' ∧
        operand.switchLength ≤ config.maxSwitchTargets.toNat := by
  by_cases hkind : opcode.operandKind = .switchTable
  · rw [readOperand_of_switchTable hkind, readOperand_of_switchTable hkind]
    exact readSwitch_eq_ok_iff_unlimited
  · rw [readOperand_congr hkind .unlimited config]
    refine (and_iff_left_of_imp fun h => ?_).symm
    obtain ⟨_, _, _, hlimit⟩ := readOperand_sound hpos h
    exact hlimit

theorem readInstruction_eq_ok_iff_unlimited {i : Instruction RawModel} :
    readInstruction origin config c = .ok i c' ↔
      readInstruction origin .unlimited c = .ok i c' ∧
        i.operand.switchLength ≤ config.maxSwitchTargets.toNat := by
  simp only [readInstruction_eq_ok]
  constructor
  · rintro ⟨opcode, operand, hbytes, hoperand, rfl⟩
    have hpos := opcode_end_le hbytes
    obtain ⟨hunlimited, hlimit⟩ := (readOperand_eq_ok_iff_unlimited hpos).mp hoperand
    exact ⟨⟨opcode, operand, hbytes, hunlimited, rfl⟩, hlimit⟩
  · rintro ⟨⟨opcode, operand, hbytes, hunlimited, rfl⟩, hlimit⟩
    have hpos := opcode_end_le hbytes
    exact ⟨opcode, operand, hbytes,
      (readOperand_eq_ok_iff_unlimited hpos).mpr ⟨hunlimited, hlimit⟩, rfl⟩

theorem readInstruction_of_long {i : Instruction RawModel}
    (h : readInstruction origin .unlimited c = .ok i c')
    (hlong : config.maxSwitchTargets.toNat < i.operand.switchLength) :
    ∃ stop, readInstruction origin config c =
      .error (.malformed (.switchLimit (UInt32.ofNat i.operand.switchLength)
        config.maxSwitchTargets) (c.pos + i.opcode.size)) stop := by
  obtain ⟨opcode, operand, hbytes, hoperand, rfl⟩ := readInstruction_eq_ok.mp h
  have hkind : opcode.operandKind = .switchTable := by
    by_contra hne
    rw [readOperand_congr hne .unlimited config] at hoperand
    have hpos := opcode_end_le hbytes
    obtain ⟨_, _, _, hlimit⟩ := readOperand_sound hpos hoperand
    exact Nat.not_lt.mpr hlimit hlong
  rw [readOperand_of_switchTable hkind] at hoperand
  rw [readInstruction_of_holds hbytes, readOperand_of_switchTable hkind]
  exact ⟨_, bind_of_error (readSwitch_of_long hoperand hlong)⟩

end Instructions

/-! ## Instructions in a row -/

variable {M : OperandModel} {R : Resolver M} {locals : List M.LocalVariable} {config : Config}

section Row

variable {origin : Nat} {c c' : Cursor} {i : Instruction M}

theorem readResolved_eq_ok_iff_unlimited :
    readResolved R locals config origin c = .ok i c' ↔
      readResolved R locals .unlimited origin c = .ok i c' ∧
        i.operand.switchLength ≤ config.maxSwitchTargets.toNat := by
  simp only [readResolved_eq_ok]
  constructor
  · rintro ⟨raw, hraw, hresolves⟩
    obtain ⟨hunlimited, hlimit⟩ := readInstruction_eq_ok_iff_unlimited.mp hraw
    rw [← hresolves.operand.switchLength_eq] at hlimit
    exact ⟨⟨raw, hunlimited, hresolves⟩, hlimit⟩
  · rintro ⟨⟨raw, hunlimited, hresolves⟩, hlimit⟩
    rw [hresolves.operand.switchLength_eq] at hlimit
    exact ⟨raw, readInstruction_eq_ok_iff_unlimited.mpr ⟨hunlimited, hlimit⟩, hresolves⟩

variable (config) in
theorem steps_iff_unlimited {is : List (Instruction M)} :
    Steps (readResolved R locals config origin) c is c' ↔
      Steps (readResolved R locals .unlimited origin) c is c' ∧
        ∀ i ∈ is, i.operand.switchLength ≤ config.maxSwitchTargets.toNat :=
  steps_filter fun _ _ _ => readResolved_eq_ok_iff_unlimited

theorem readResolved_of_long (h : readResolved R locals .unlimited origin c = .ok i c')
    (hlong : config.maxSwitchTargets.toNat < i.operand.switchLength) :
    ∃ stop, readResolved R locals config origin c =
      .error (.malformed (.switchLimit (UInt32.ofNat i.operand.switchLength)
        config.maxSwitchTargets) (c.pos + i.opcode.size)) stop := by
  obtain ⟨raw, hraw, hresolves⟩ := readResolved_eq_ok.mp h
  rw [hresolves.operand.switchLength_eq] at hlong
  obtain ⟨stop, hstop⟩ := readInstruction_of_long hraw hlong
  refine ⟨stop, readResolved_eq_error.mpr (.inl ?_)⟩
  rw [hresolves.operand.switchLength_eq, hresolves.opcode_eq]
  exact hstop

end Row

/-! ## Loose branches -/

theorem Instruction.looseBranches_eq_nil_iff {i : Instruction M} :
    i.looseBranches = [] ↔ ∀ label ∈ i.labels, label.isDetached = false := by
  unfold looseBranches
  rw [List.filterMap_eq_nil_iff]
  refine forall₂_congr fun label _ => ?_
  cases label with
  | instruction index => exact ⟨fun _ => rfl, fun _ => rfl⟩
  | detached target => exact ⟨(nomatch ·), (nomatch ·)⟩

theorem flatMap_looseBranches_eq_nil_iff {is : List (Instruction M)} :
    is.flatMap Instruction.looseBranches = [] ↔
      ∀ i ∈ is, ∀ label ∈ i.labels, label.isDetached = false := by
  rw [List.flatMap_eq_nil_iff]
  exact forall₂_congr fun i _ => Instruction.looseBranches_eq_nil_iff

theorem Instruction.head?_looseBranches {i : Instruction M} {near : List Label} {target : Int64}
    (h : FirstWith (fun label => label.isDetached = true) i.labels near (.detached target)) :
    i.looseBranches.head? = some (i.offset, target) := by
  obtain ⟨behind, hlabels, hbefore, _⟩ := h
  unfold looseBranches
  rw [hlabels, List.filterMap_append, (List.filterMap_eq_nil_iff (l := near)).mpr]
  · rfl
  · intro label hlabel
    cases label with
    | instruction index => rfl
    | detached target => exact absurd rfl (hbefore _ hlabel)

theorem head?_flatMap_looseBranches {is before : List (Instruction M)} {i : Instruction M}
    {near : List Label} {target : Int64}
    (h : FirstWith (fun i => ∃ label ∈ i.labels, label.isDetached = true) is before i)
    (htarget : FirstWith (fun label => label.isDetached = true) i.labels near (.detached target)) :
    (is.flatMap Instruction.looseBranches).head? = some (i.offset, target) := by
  obtain ⟨behind, rfl, hbefore, _⟩ := h
  have hbound : before.flatMap Instruction.looseBranches = [] := by
    refine flatMap_looseBranches_eq_nil_iff.mpr fun i hi label hlabel => ?_
    exact Bool.eq_false_iff.mpr fun hdetached => hbefore i hi ⟨label, hlabel, hdetached⟩
  rw [List.flatMap_append, hbound, List.nil_append, List.flatMap_cons, List.head?_append,
    Instruction.head?_looseBranches htarget]
  rfl

variable (config) in
theorem reportLoose_eq_ok_iff_unlimited {origin : Nat} {branches : List (Nat × Int64)}
    {c c' : Cursor} :
    reportLoose config origin branches c = .ok () c' ↔
      reportLoose .unlimited origin branches c = .ok () c' ∧
        (config.strictBranches = true → branches = []) := by
  cases hstrict : config.strictBranches with
  | false =>
    have hsame : reportLoose config origin branches = reportLoose .unlimited origin branches := by
      induction branches with
      | nil => rfl
      | cons branch rest ih =>
        rw [reportLoose, reportLoose, ih, hstrict]
        rfl
    rw [hsame]
    exact (and_iff_left fun h => absurd h Bool.false_ne_true).symm
  | true =>
    constructor
    · intro h
      obtain rfl := eq_nil_of_reportLoose h hstrict
      exact ⟨h, fun _ => rfl⟩
    · rintro ⟨h, hnil⟩
      obtain rfl := hnil rfl
      exact h

/-! ## Code -/

namespace Code

variable {size : Nat} {c c' : Cursor} {code : Code M}

theorem forall_switchLength_bindLabels {is : List (Instruction M)} {limit : Nat} :
    (∀ i ∈ bindLabels size is, i.operand.switchLength ≤ limit) ↔
      ∀ i ∈ is, i.operand.switchLength ≤ limit := by
  unfold bindLabels
  rw [List.forall_mem_map]
  simp only [Instruction.mapLabels, Operand.switchLength_mapLabels]

theorem reader_eq_ok_iff_unlimited :
    reader size R locals config c = .ok code c' ↔
      reader size R locals .unlimited c = .ok code c' ∧ config.Tolerates code := by
  simp only [reader_eq_ok_iff_run, steps_iff_unlimited config,
    reportLoose_eq_ok_iff_unlimited config]
  constructor
  · rintro ⟨hroom, is, middle, inner, ⟨hsteps, hswitches⟩, hpos, ⟨hloose, hbranches⟩, rfl, rfl⟩
    exact ⟨⟨hroom, is, middle, inner, hsteps, hpos, hloose, rfl, rfl⟩,
      forall_switchLength_bindLabels.mpr hswitches,
      fun hstrict => flatMap_looseBranches_eq_nil_iff.mp (hbranches hstrict)⟩
  · rintro ⟨⟨hroom, is, middle, inner, hsteps, hpos, hloose, rfl, rfl⟩, hswitches, hbranches⟩
    exact ⟨hroom, is, middle, inner, ⟨hsteps, forall_switchLength_bindLabels.mp hswitches⟩, hpos,
      ⟨hloose, fun hstrict => flatMap_looseBranches_eq_nil_iff.mpr (hbranches hstrict)⟩, rfl, rfl⟩

theorem reader_error_of_refuses {named : Error}
    (h : reader size R locals .unlimited c = .ok code c')
    (hrefuses : config.Refuses c.pos code named) :
    ∃ stop, reader size R locals config c = .error (named.reported c.pos) stop := by
  obtain ⟨hroom, is, middle, inner, hsteps, hpos, _, rfl, _⟩ := reader_eq_ok_iff_run.mp h
  cases hrefuses with
  | longSwitch hfirst =>
    -- the instructions in front of the switch are read, and the switch is reached
    obtain ⟨before, i, ⟨behind, rfl, hbefore, hlong⟩, rfl, rfl⟩ := hfirst.of_map
    simp only [Instruction.mapLabels, Operand.switchLength_mapLabels, Nat.not_lt] at hbefore hlong ⊢
    obtain ⟨reached, hfront, hrest⟩ := steps_append.mp hsteps
    cases hrest with
    | cons hswitch _ =>
      have hfront' : Steps (readResolved R locals config c.pos) (c.region size) before reached :=
        (steps_iff_unlimited config).mpr ⟨hfront, hbefore⟩
      have hinside := Cursor.InRegion.of_steps readResolved_moves hroom hfront
      obtain ⟨hdata, hlt, hle⟩ := readResolved_moves _ _ _ hswitch
      have hmore := Nat.lt_of_lt_of_le hlt (hinside.size_eq ▸ hdata ▸ hle)
      obtain ⟨stop, hstop⟩ := readResolved_of_long hswitch hlong
      have hreached : reached.pos = c.pos + totalSize before :=
        pos_of_steps (c := c.region size) (Cursor.pos_le_region hroom) hfront
      rw [hreached, ← totalSize_mapLabels] at hstop
      exact ⟨_, reader_eq_error.mpr (.inr ⟨hroom, before, reached, stop, hfront', rfl,
        .inl ⟨hmore, hstop⟩⟩)⟩
  | @looseBranch before near i target hswitches hstrict hfirst htarget =>
    have hsteps' : Steps (readResolved R locals config c.pos) (c.region size) is middle :=
      (steps_iff_unlimited config).mpr
        ⟨hsteps, forall_switchLength_bindLabels.mp hswitches⟩
    have hhead := head?_flatMap_looseBranches hfirst htarget
    obtain ⟨behind, his, _, _⟩ := hfirst
    have hplaced : placeFrom 0 (bindLabels size is) = bindLabels size is :=
      congrArg instructions (ofList_bindLabels_of_steps hroom hsteps size)
    have his : bindLabels size is = before ++ i :: behind := his
    have hat : (bindLabels size is)[before.length]? = some i := by simp [his]
    have hoffset : i.offset = low32 (c.pos + totalSize before - c.pos) := by
      rw [offset_of_placed hplaced hat, his, List.take_left, Nat.zero_add,
        Nat.add_sub_cancel_left]
    rw [Error.reported, ← hoffset]
    exact ⟨_, reader_eq_error.mpr (.inr ⟨hroom, is, middle, middle, hsteps', rfl, .inr ⟨hpos,
      reportLoose_eq_error.mpr ⟨hstrict, rfl, _, _, hhead, rfl⟩⟩⟩)⟩

theorem refuses_of_reader_error {e : Error} {stop : Cursor}
    (h : reader size R locals .unlimited c = .ok code c')
    (herror : reader size R locals config c = .error e stop) :
    ∃ named, config.Refuses c.pos code named ∧ named.reported c.pos = e := by
  have hnot : ¬ config.Tolerates code := by
    intro htolerates
    rw [reader_eq_ok_iff_unlimited.mpr ⟨h, htolerates⟩] at herror
    cases herror
  obtain ⟨named, hrefuses⟩ := Config.exists_refuses hnot c.pos
  obtain ⟨stop', herror'⟩ := reader_error_of_refuses h hrefuses
  rw [herror] at herror'
  cases herror'
  exact ⟨named, hrefuses, rfl⟩

/-- A branch that is refused stands inside the region. -/
theorem place_of_refuses {place : Nat} {target : Int}
    (h : reader size R locals .unlimited c = .ok code c')
    (hrefuses : config.Refuses c.pos code (.invalidBranchTarget place target)) :
    c.pos ≤ place ∧ place < c.pos + size := by
  obtain ⟨bytes, rfl, _, hfrom⟩ := reader_sound h
  have hsize := hfrom.size_eq
  cases hrefuses with
  | @looseBranch before _ i _ _ _ hfirst _ =>
    obtain ⟨behind, hcode, _, _⟩ := hfirst
    have hpos := i.size_pos
    rw [Code.size, hcode, totalSize_append, totalSize] at hsize
    exact ⟨Nat.le_add_right _ _, by omega⟩

/-- A configuration reads what is read without limits, or refuses it. What it refuses is told by the
code: the first switch with too many targets, or, if no switch has, the first label that names no
instruction. It is reported where it is, but for a branch: its offset in the code is reported as a
word keeps it, so the place is right exactly below 4 GiB, and that is all of a smaller region. -/
theorem reader_filters_unlimited (R : Resolver M) (locals : List M.LocalVariable)
    (config : Config) (size : Nat) (c : Cursor) :
    (∀ code c', reader size R locals config c = .ok code c' ↔
      reader size R locals .unlimited c = .ok code c' ∧ config.Tolerates code) ∧
    ∀ code c', reader size R locals .unlimited c = .ok code c' →
      (∀ e, (∃ stop, reader size R locals config c = .error e stop) ↔
        ∃ named, config.Refuses c.pos code named ∧ named.reported c.pos = e) ∧
      ∀ place target, config.Refuses c.pos code (.invalidBranchTarget place target) →
        place < c.pos + size ∧
          ((∃ stop, reader size R locals config c =
              .error (.invalidBranchTarget place target) stop) ↔
            place < c.pos + 0x100000000) := by
  refine ⟨fun code c' => reader_eq_ok_iff_unlimited, fun code c' hread => ⟨fun e => ⟨?_, ?_⟩, ?_⟩⟩
  · rintro ⟨stop, herror⟩
    exact refuses_of_reader_error hread herror
  · rintro ⟨named, hrefuses, rfl⟩
    exact reader_error_of_refuses hread hrefuses
  · intro place target hrefuses
    obtain ⟨hlow, hhigh⟩ := place_of_refuses hread hrefuses
    obtain ⟨stop, herror⟩ := reader_error_of_refuses hread hrefuses
    rw [← Error.reported_eq_iff target hlow, herror]
    refine ⟨hhigh, ?_, fun hkept => ⟨stop, by rw [hkept]⟩⟩
    rintro ⟨_, hsame⟩
    exact (EStateM.Result.error.inj hsame).1

set_option maxRecDepth 8000 in
/-- A branch to nowhere in front of a switch with two targets. If the switch is too long it is what
is refused, though it stands behind; otherwise strict reading refuses the branch. -/
theorem reader_filters_unlimited_first :
    (∃ stop, reader 15 rawResolver [] ⟨true, false, 1⟩
        ⟨#[0xff, 0x2b, 0x7f, 0x45, 2, 0, 0, 0, 0, 0, 0, 0, 0, 0, 0, 0], 1, #[]⟩ =
      .error (.malformed (.switchLimit 2 1) 4) stop) ∧
    ∃ stop, reader 15 rawResolver [] ⟨true, false, 2⟩
        ⟨#[0xff, 0x2b, 0x7f, 0x45, 2, 0, 0, 0, 0, 0, 0, 0, 0, 0, 0, 0], 1, #[]⟩ =
      .error (.invalidBranchTarget 1 129) stop := by
  have hread : reader 15 rawResolver [] Config.unlimited
      ⟨#[0xff, 0x2b, 0x7f, 0x45, 2, 0, 0, 0, 0, 0, 0, 0, 0, 0, 0, 0], 1, #[]⟩ =
        .ok ⟨[⟨0, ⟨42⟩, .target (.detached 129)⟩,
            ⟨2, ⟨68⟩, .switch [.instruction 2, .instruction 2]⟩]⟩
          ⟨#[0xff, 0x2b, 0x7f, 0x45, 2, 0, 0, 0, 0, 0, 0, 0, 0, 0, 0, 0], 16,
            #[.looseBranch 0 129]⟩ := by
    rfl
  constructor
  · have hfirst : FirstWith (fun i : Instruction RawModel => 1 < i.operand.switchLength)
        [⟨0, ⟨42⟩, .target (.detached 129)⟩, ⟨2, ⟨68⟩, .switch [.instruction 2, .instruction 2]⟩]
        [⟨0, ⟨42⟩, .target (.detached 129)⟩]
        ⟨2, ⟨68⟩, .switch [.instruction 2, .instruction 2]⟩ :=
      ⟨[], rfl, List.forall_mem_singleton.mpr (by decide), by decide⟩
    exact (((reader_filters_unlimited _ _ ⟨true, false, 1⟩ _ _).2 _ _ hread).1 _).mpr
      ⟨_, .longSwitch hfirst, rfl⟩
  · have hfirst : FirstWith (fun i : Instruction RawModel => ∃ label ∈ i.labels, label.isDetached)
        [⟨0, ⟨42⟩, .target (.detached 129)⟩, ⟨2, ⟨68⟩, .switch [.instruction 2, .instruction 2]⟩]
        [] ⟨0, ⟨42⟩, .target (.detached 129)⟩ :=
      ⟨_, rfl, List.forall_mem_nil _, _, List.mem_singleton_self _, rfl⟩
    have htarget : FirstWith (fun label => label.isDetached = true)
        (Instruction.labels (M := RawModel) ⟨0, ⟨42⟩, .target (.detached 129)⟩) []
        (.detached 129) :=
      ⟨[], rfl, List.forall_mem_nil _, rfl⟩
    have hswitches : ∀ i ∈ ([⟨0, ⟨42⟩, .target (.detached 129)⟩,
        ⟨2, ⟨68⟩, .switch [.instruction 2, .instruction 2]⟩] : List (Instruction RawModel)),
        i.operand.switchLength ≤ 2 :=
      List.forall_mem_cons.mpr ⟨by decide, List.forall_mem_singleton.mpr (by decide)⟩
    exact (((reader_filters_unlimited _ _ ⟨true, false, 2⟩ _ _).2 _ _ hread).1 _).mpr
      ⟨_, .looseBranch hswitches rfl hfirst htarget, rfl⟩

end Code

/-! ## A branch behind four gigabytes -/

/-- A switch of `count` targets, which are all the end of the code, and a branch to a hundred bytes
behind it. -/
def farBranch (switch branch : Opcode) (count : UInt32) : List (Instruction RawModel) :=
  [⟨0, switch, .switch ((List.replicate count.toNat 2).map (branchTarget (5 + 4 * count.toNat)))⟩,
    ⟨low32 (5 + 4 * count.toNat), branch, .target (branchTarget (5 + 4 * count.toNat + 2) 100)⟩]

/-- The bytes of the switch in front of the branch. -/
def nearSwitch (count : UInt32) : List UInt8 :=
  0x45 :: (encode count ++ (List.replicate count.toNat (2 : Int32)).flatMap encode)

theorem length_nearSwitch (count : UInt32) : (nearSwitch count).length = 5 + 4 * count.toNat := by
  rw [nearSwitch, List.length_cons, List.length_append, length_encode, length_flatMap_encode,
    List.length_replicate, Nat.add_right_comm]
  rfl

theorem storedCode_farBranch (count : UInt32) :
    StoredCode 0 (farBranch ⟨68⟩ ⟨42⟩ count) (nearSwitch count ++ [0x2b, 100]) := by
  have hlength : 0 + (nearSwitch count).length = 5 + 4 * count.toNat :=
    (Nat.zero_add _).trans (length_nearSwitch count)
  refine .cons (@StoredInstruction.mk 0 ⟨68⟩ _ _ ?_) ?_
  · rw [show 0 + ((⟨68⟩ : Opcode).bytes ++ _).length = _ from hlength]
    exact .switchTable count _ List.length_replicate
  · rw [hlength]
    exact .cons (@StoredInstruction.mk _ ⟨42⟩ _ _ (.shortBranch 100)) (.nil _)

/-- The targets of the switch are the end of the code. -/
theorem bind_nearTarget (count : UInt32) :
    Label.bind #[0, low32 (5 + 4 * count.toNat)] (7 + 4 * count.toNat)
      (branchTarget (5 + 4 * count.toNat) 2) = .instruction 2 := by
  have hcount := count.toNat_lt
  refine if_pos ?_
  show (Int64.ofInt ((5 + 4 * count.toNat : Nat) + 2)).toInt = _
  rw [Int64.toInt_ofInt_of_le (by omega) (by omega)]
  omega

/-- The target of the branch is behind both offsets, however they are kept. -/
theorem bind_farTarget (count : UInt32) :
    Label.bind #[0, low32 (5 + 4 * count.toNat)] (7 + 4 * count.toNat)
      (branchTarget (5 + 4 * count.toNat + 2) 100) =
        .detached (Int64.ofInt (107 + 4 * count.toNat)) := by
  have hcount := count.toNat_lt
  have htarget : branchTarget (5 + 4 * count.toNat + 2) 100 =
      .detached (Int64.ofInt (107 + 4 * count.toNat)) := by
    unfold branchTarget
    congr 2
    show ((5 + 4 * count.toNat + 2 : Nat) : Int) + 100 = _
    omega
  have htoInt : (Int64.ofInt (107 + 4 * count.toNat)).toInt = 107 + 4 * count.toNat :=
    Int64.toInt_ofInt_of_le (by omega) (by omega)
  rw [htarget, Label.bind, Code.labelFor, htoInt, if_neg (by omega), if_neg (by omega)]
  split
  next index hindex =>
    obtain ⟨hlt, hget⟩ := Array.getElem?_eq_some_iff.mp (getElem?_of_searchBetween hindex)
    have hmem := Array.getElem_mem hlt
    rw [hget] at hmem
    have hkept : low32 (5 + 4 * count.toNat) ≤ 5 + 4 * count.toNat := Nat.mod_le _ _
    simp at hmem
    omega
  next => rfl

/-- The code that the bytes stand for. -/
theorem bindLabels_farBranch (count : UInt32) :
    bindLabels (7 + 4 * count.toNat) (farBranch ⟨68⟩ ⟨42⟩ count) =
      [⟨0, ⟨68⟩, .switch (List.replicate count.toNat (.instruction 2))⟩,
        ⟨low32 (5 + 4 * count.toNat), ⟨42⟩,
          .target (.detached (Int64.ofInt (107 + 4 * count.toNat)))⟩] := by
  simp [bindLabels, farBranch, Instruction.mapLabels, Operand.mapLabels, bind_nearTarget,
    bind_farTarget]

namespace Code

/-- Without limits, the code is read. -/
theorem reader_farBranch_unlimited (count : UInt32) :
    ∃ c', reader (7 + 4 * count.toNat) rawResolver [] .unlimited
        (Cursor.start (nearSwitch count ++ [0x2b, 100]).toArray) =
      .ok ⟨bindLabels (7 + 4 * count.toNat) (farBranch ⟨68⟩ ⟨42⟩ count)⟩ c' := by
  have hlimit : ∀ raw ∈ farBranch ⟨68⟩ ⟨42⟩ count, raw.operand.switchLength ≤ 0xffffffff := by
    refine List.forall_mem_cons.mpr ⟨?_, List.forall_mem_singleton.mpr (Nat.zero_le _)⟩
    rw [Operand.switchLength, List.length_map, List.length_replicate]
    exact Nat.le_of_lt_succ count.toNat_lt
  have hlength : (nearSwitch count ++ [0x2b, 100]).length = 7 + 4 * count.toNat := by
    rw [List.length_append, length_nearSwitch]
    exact Nat.add_right_comm 5 _ 2
  have hfrom : ReadFrom rawResolver [] .unlimited
      ⟨bindLabels (nearSwitch count ++ [0x2b, 100]).length (farBranch ⟨68⟩ ⟨42⟩ count)⟩
      (nearSwitch count ++ [0x2b, 100]) :=
    .mk (storedCode_farBranch count) hlimit (resolves_raw.mpr rfl)
      fun hstrict => absurd hstrict Bool.false_ne_true
  obtain ⟨c', hread, _⟩ := reader_complete hfrom (c := Cursor.start _)
    ⟨[], [], by rw [List.append_nil]; rfl, rfl⟩
  rw [hlength] at hread
  exact ⟨c', hread⟩

/-- Strict reading refuses the branch, which stands behind the switch. -/
theorem refuses_farBranch (count : UInt32) :
    Config.Refuses ⟨true, false, 0xffffffff⟩ 0
      (⟨bindLabels (7 + 4 * count.toNat) (farBranch ⟨68⟩ ⟨42⟩ count)⟩ : Code RawModel)
      (.invalidBranchTarget (5 + 4 * count.toNat) (107 + 4 * count.toNat)) := by
  have hcount := count.toNat_lt
  rw [bindLabels_farBranch]
  generalize hnear : (⟨0, ⟨68⟩, .switch (List.replicate count.toNat (.instruction 2))⟩ :
    Instruction RawModel) = near
  generalize hfar : (⟨low32 (5 + 4 * count.toNat), ⟨42⟩,
    .target (.detached (Int64.ofInt (107 + 4 * count.toNat)))⟩ : Instruction RawModel) = far
  have hlength : near.operand.switchLength = count.toNat := hnear ▸ List.length_replicate
  have hsize : 0 + totalSize [near] = 5 + 4 * count.toNat := by
    subst hnear
    show 0 + (1 + (4 + 4 * (List.replicate count.toNat (Label.instruction 2)).length) + 0) = _
    rw [List.length_replicate]
    omega
  have hbound : ¬ ∃ label ∈ near.labels, label.isDetached = true := by
    subst hnear
    rintro ⟨label, hlabel, hdetached⟩
    rw [List.eq_of_mem_replicate hlabel] at hdetached
    cases hdetached
  have htarget : FirstWith (fun label => label.isDetached = true) far.labels []
      (.detached (Int64.ofInt (107 + 4 * count.toNat))) :=
    hfar ▸ ⟨[], rfl, List.forall_mem_nil _, rfl⟩
  have hfirst : FirstWith (fun i : Instruction RawModel => ∃ label ∈ i.labels, label.isDetached)
      [near, far] [near] far := by
    subst hfar
    exact ⟨[], rfl, List.forall_mem_singleton.mpr hbound, _, List.mem_singleton_self _, rfl⟩
  have hswitches : ∀ i ∈ [near, far], i.operand.switchLength ≤ 0xffffffff := by
    subst hfar
    exact List.forall_mem_cons.mpr ⟨hlength ▸ Nat.le_of_lt_succ hcount,
      List.forall_mem_singleton.mpr (Nat.zero_le _)⟩
  have hrefuses : Config.Refuses ⟨true, false, 0xffffffff⟩ 0 (⟨[near, far]⟩ : Code RawModel)
      (.invalidBranchTarget (0 + totalSize [near])
        (Int64.ofInt (107 + 4 * count.toNat)).toInt) :=
    .looseBranch hswitches rfl hfirst htarget
  rwa [hsize, Int64.toInt_ofInt_of_le (by omega) (by omega)] at hrefuses

/-- Strict reading refuses the branch for where it stands, and reports it where a word puts it. From
2 ^ 30 targets on, that is at a place in the switch. -/
theorem reader_farBranch (count : UInt32) :
    ∃ stop, reader (7 + 4 * count.toNat) rawResolver [] ⟨true, false, 0xffffffff⟩
        (Cursor.start (nearSwitch count ++ [0x2b, 100]).toArray) =
      .error (.invalidBranchTarget (low32 (5 + 4 * count.toNat)) (107 + 4 * count.toNat)) stop := by
  obtain ⟨c', hread⟩ := reader_farBranch_unlimited count
  obtain ⟨stop, herror⟩ := reader_error_of_refuses hread (refuses_farBranch count)
  have hkept :
      (Error.invalidBranchTarget (5 + 4 * count.toNat) (107 + 4 * count.toNat)).reported 0 =
        .invalidBranchTarget (low32 (5 + 4 * count.toNat)) (107 + 4 * count.toNat) := by
    rw [Error.reported, Nat.sub_zero, Nat.zero_add]
  exact ⟨stop, herror.trans (congrArg (EStateM.Result.error · stop) hkept)⟩

/-- Behind 2 ^ 30 targets, it is reported at 5, though it stands at 4294967301. -/
example : ∃ stop, reader (7 + 4 * 0x40000000) rawResolver [] ⟨true, false, 0xffffffff⟩
      (Cursor.start (nearSwitch 0x40000000 ++ [0x2b, 100]).toArray) =
    .error (.invalidBranchTarget 5 4294967403) stop :=
  reader_farBranch 0x40000000

end Code

end CilCodec
