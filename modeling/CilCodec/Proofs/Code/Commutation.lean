import CilCodec.Proofs.Code.Failing

/-!
# CilCodec.Proofs.Code.Commutation

Reading code with a resolver, against reading it raw.

A resolver has no part in how code is cut into instructions, where they stand or where they branch
to: code that is read with it is the code that is read raw, with the values of operands in place of
their numbers. `ResolvesTo` relates the two, and mentions no reader. If reading fails, it fails at
the first instruction that cannot be read raw or whose operand the resolver does not know;
`FirstFailure` says which error that is. Operands are refused where they stand, at any distance from
the start of the code; a branch is refused at the offset that its instruction keeps.

Results:
1. `resolve_eq_error_iff`: how resolving an operand fails.
2. `reader_eq_ok_iff_raw`: code is read exactly if it is read raw and resolves.
3. `firstFailure_of_reader_error`, `reader_error_of_firstFailure`: it is refused exactly with the
   first failure.
4. `reader_commutes_with_resolution`: both, and that branches are looked at last.
-/

namespace CilCodec

open Reader

variable {M : OperandModel} {R : Resolver M} {locals : List M.LocalVariable}

/-! ## Operands -/

namespace Operand

/-- `stored.RefusedWith R locals pos e`: `R` has no value for the number of the operand, which is
stored at `pos`, and `e` is the error that says so. -/
inductive RefusedWith (R : Resolver M) (locals : List M.LocalVariable) (pos : Nat) :
    Operand RawModel → Error → Prop
  | localVariable {index : UInt16} : R.localVariable? index locals = Option.none →
      RefusedWith R locals pos (.localVariable index)
        (.indexOutOfRange .localVariable index.toUInt32 pos)
  | argument {index : UInt16} : R.argument? index = Option.none →
      RefusedWith R locals pos (.argument index) (.indexOutOfRange .argument index.toUInt32 pos)
  | userString {index : UInt32} : R.userString? index = Option.none →
      RefusedWith R locals pos (.userString index) (.unresolvedString index pos)
  | member {token : Token} : R.member? token = Option.none →
      RefusedWith R locals pos (.member token) (.unresolvedMember token pos)

/-- Whether `R` has a value for the number of the operand, if it has one. -/
def IsKnownTo (R : Resolver M) (locals : List M.LocalVariable) (stored : Operand RawModel) : Prop :=
  ∃ operand, stored.ResolvesTo R locals operand

variable {stored : Operand RawModel} {pos : Nat} {e : Error}

theorem resolve_eq_error_iff :
    stored.resolve R locals pos = .error e ↔ stored.RefusedWith R locals pos e := by
  constructor
  · intro h
    cases stored with
    | none | immediate | target | switch => cases h
    | localVariable | argument | userString | member =>
      simp only [resolve] at h
      split at h
      next => cases h
      next hvalue =>
        cases h
        constructor
        exact hvalue
  · intro h
    cases h with
    | localVariable hvalue | argument hvalue | userString hvalue | member hvalue =>
      rw [resolve, hvalue]

/-- Raw numbers stand for themselves. -/
theorem resolvesTo_raw {rawLocals : List UInt16} {stored' : Operand RawModel} :
    stored.ResolvesTo rawResolver rawLocals stored' ↔ stored = stored' := by
  constructor
  · intro h
    cases h with
    | none | immediate | target | switch => rfl
    | localVariable hvalue | argument hvalue | userString hvalue | member hvalue =>
      cases hvalue
      rfl
  · rintro rfl
    cases stored <;> constructor <;> rfl

theorem isKnownTo_mapLabels (f : Label → Label) :
    (stored.mapLabels f).IsKnownTo R locals ↔ stored.IsKnownTo R locals := by
  constructor
  · rintro ⟨operand, h⟩
    cases stored with
    | none => exact ⟨_, .none⟩
    | immediate value => exact ⟨_, .immediate value⟩
    | target label => exact ⟨_, .target label⟩
    | switch labels => exact ⟨_, .switch labels⟩
    | localVariable | argument | userString | member => exact ⟨operand, h⟩
  · rintro ⟨operand, h⟩
    exact ⟨_, h.mapLabels f⟩

end Operand

/-! ## Instructions -/

theorem Instruction.resolve_eq_error_iff {raw : Instruction RawModel} {start : Nat} {e : Error} :
    raw.resolve R locals start = .error e ↔
      raw.operand.RefusedWith R locals (start + raw.opcode.size) e :=
  map_eq_error.trans Operand.resolve_eq_error_iff

/-! ## Instructions in a row -/

section Row

variable {raws : List (Instruction RawModel)} {is : List (Instruction M)}

/-- Offsets resolve to themselves, so labels are bound alike. -/
theorem Resolves.bound (h : Resolves R locals raws is) (size : Nat) :
    Resolves R locals (bindLabels size raws) (bindLabels size is) := by
  have hoffsets : is.map Instruction.offset = raws.map Instruction.offset := by
    induction h with
    | nil => rfl
    | cons hfirst _ ih => rw [List.map_cons, List.map_cons, hfirst.offset_eq, ih]
  unfold bindLabels
  rw [hoffsets]
  refine List.forall₂_map_left_iff.mpr (List.forall₂_map_right_iff.mpr ?_)
  exact h.imp fun _ _ hresolves => hresolves.mapLabels _

theorem Resolves.flatMap_looseBranches (h : Resolves R locals raws is) :
    is.flatMap Instruction.looseBranches = raws.flatMap Instruction.looseBranches := by
  induction h with
  | nil => rfl
  | cons hfirst _ ih => rw [List.flatMap_cons, List.flatMap_cons, hfirst.looseBranches_eq, ih]

/-- Instructions resolve one by one. -/
theorem exists_resolvesTo_iff :
    (∃ is, Resolves R locals raws is) ↔
      ∀ raw ∈ raws, raw.operand.IsKnownTo R locals := by
  constructor
  · rintro ⟨is, h⟩
    induction h with
    | nil => exact List.forall_mem_nil _
    | cons hfirst _ ih => exact List.forall_mem_cons.mpr ⟨⟨_, hfirst.operand⟩, ih⟩
  · intro h
    induction raws with
    | nil => exact ⟨[], .nil⟩
    | cons raw raws ih =>
      obtain ⟨⟨operand, hoperand⟩, hrest⟩ := List.forall_mem_cons.mp h
      obtain ⟨is, hall⟩ := ih hrest
      exact ⟨⟨raw.offset, raw.opcode, operand⟩ :: is, .cons ⟨rfl, rfl, hoperand⟩ hall⟩

theorem isKnownTo_bindLabels (size : Nat) :
    (∀ raw ∈ bindLabels size raws, raw.operand.IsKnownTo R locals) ↔
      ∀ raw ∈ raws, raw.operand.IsKnownTo R locals := by
  unfold bindLabels
  rw [List.forall_mem_map]
  exact forall₂_congr fun raw _ => Operand.isKnownTo_mapLabels _

end Row

/-! ## Reading -/

variable {config : Config}

theorem steps_readResolved {origin : Nat} {c c' : Cursor} {is : List (Instruction M)} :
    Steps (readResolved R locals config origin) c is c' ↔
      ∃ raws, Steps (readInstruction origin config) c raws c' ∧
        Resolves R locals raws is := by
  exact steps_forall₂ fun c c' i => readResolved_eq_ok

namespace Code

/-- Two codes whose instructions resolve, one by one. -/
def ResolvesTo (R : Resolver M) (locals : List M.LocalVariable) (raw : Code RawModel)
    (code : Code M) : Prop :=
  Resolves R locals raw.instructions code.instructions

theorem ResolvesTo.unique {raw : Code RawModel} {code code' : Code M}
    (h : raw.ResolvesTo R locals code) (h' : raw.ResolvesTo R locals code') : code = code' := by
  have hunique : Relator.RightUnique (Instruction.ResolvesTo R locals) :=
    fun _ _ _ => Instruction.ResolvesTo.unique
  exact congrArg Code.mk (List.right_unique_forall₂' hunique h h')

variable {size : Nat} {c c' : Cursor} {code : Code M}

/-- Code is read exactly if its instructions are read raw up to the end of the region, no branch is
refused, and the instructions resolve. All but the last is about raw instructions only. -/
theorem reader_eq_ok_iff_steps :
    reader size R locals config c = .ok code c' ↔
      ∃ raws middle inner, c.pos + size ≤ c.data.size ∧
        Steps (readInstruction c.pos config) (c.region size) raws middle ∧
        middle.pos = c.pos + size ∧
        reportLoose config c.pos
          ((bindLabels size raws).flatMap Instruction.looseBranches) middle = .ok () inner ∧
        { c with pos := c.pos + size, notices := inner.notices } = c' ∧
        ∃ is, Resolves R locals raws is ∧
          ⟨bindLabels size is⟩ = code := by
  rw [reader_eq_ok_iff_run]
  simp only [steps_readResolved]
  constructor
  · rintro ⟨hroom, is, middle, inner, ⟨raws, hsteps, hresolves⟩, hpos, hloose, rfl, rfl⟩
    rw [(hresolves.bound _).flatMap_looseBranches] at hloose
    exact ⟨raws, middle, inner, hroom, hsteps, hpos, hloose, rfl, is, hresolves, rfl⟩
  · rintro ⟨raws, middle, inner, hroom, hsteps, hpos, hloose, rfl, is, hresolves, rfl⟩
    rw [← (hresolves.bound _).flatMap_looseBranches] at hloose
    exact ⟨hroom, is, middle, inner, ⟨raws, hsteps, hresolves⟩, hpos, hloose, rfl, rfl⟩

/-- Raw instructions resolve to themselves. -/
theorem resolves_raw {rawLocals : List UInt16} {raws raws' : List (Instruction RawModel)} :
    Resolves rawResolver rawLocals raws raws' ↔ raws = raws' := by
  have hsame : Instruction.ResolvesTo rawResolver rawLocals = Eq := by
    funext raw raw'
    refine propext ⟨?_, ?_⟩
    · intro h
      exact h.unique ⟨rfl, rfl, Operand.resolvesTo_raw.mpr rfl⟩ |>.symm
    · rintro rfl
      exact ⟨rfl, rfl, Operand.resolvesTo_raw.mpr rfl⟩
  rw [Resolves, hsame, List.forall₂_eq_eq_eq]

/-- Code is read exactly if it is read raw, and resolves. -/
theorem reader_eq_ok_iff_raw (rawLocals : List UInt16) :
    reader size R locals config c = .ok code c' ↔
      ∃ raw, reader size rawResolver rawLocals config c = .ok raw c' ∧
        raw.ResolvesTo R locals code := by
  simp only [reader_eq_ok_iff_steps, resolves_raw]
  constructor
  · rintro ⟨raws, middle, inner, hroom, hsteps, hend, hloose, rfl, is, hresolves, rfl⟩
    exact ⟨_, ⟨raws, middle, inner, hroom, hsteps, hend, hloose, rfl, raws, rfl, rfl⟩,
      hresolves.bound _⟩
  · rintro ⟨_, ⟨raws, middle, inner, hroom, hsteps, hend, hloose, rfl, _, rfl, rfl⟩, hcode⟩
    have hknown := exists_resolvesTo_iff.mp ⟨_, hcode⟩
    obtain ⟨is, hresolves⟩ := exists_resolvesTo_iff.mpr ((isKnownTo_bindLabels _).mp hknown)
    have hsame : (⟨bindLabels size is⟩ : Code M) = code :=
      ResolvesTo.unique (hresolves.bound _) hcode
    exact ⟨raws, middle, inner, hroom, hsteps, hend, hloose, rfl, is, hresolves, hsame⟩

/-! ## The first failure -/

/-- `ReadUpTo R locals config c size raws middle`: the instructions `raws` stand in a row at the
front of the `size` bytes at `c`, up to `middle`, and `R` knows their operands. -/
structure ReadUpTo (R : Resolver M) (locals : List M.LocalVariable) (config : Config) (c : Cursor)
    (size : Nat) (raws : List (Instruction RawModel)) (middle : Cursor) : Prop where
  inside : c.pos + size ≤ c.data.size
  steps : Steps (readInstruction c.pos config) (c.region size) raws middle
  known : ∀ raw ∈ raws, raw.operand.IsKnownTo R locals

/-- `FirstFailure R locals config c size e`: reading the `size` bytes at `c` comes to nothing, and
`e` says why: the bytes are not there, or some instruction, behind others that can be read and are
known, cannot be read or is not known, or all instructions can be read and are known, but strict
reading refuses the first branch that goes to none of them. -/
inductive FirstFailure (R : Resolver M) (locals : List M.LocalVariable) (config : Config)
    (c : Cursor) (size : Nat) : Error → Prop
  | outside :
      c.data.size < c.pos + size → FirstFailure R locals config c size (.truncated c.pos size)
  | unreadable {raws : List (Instruction RawModel)} {middle stop : Cursor} {e : Error} :
      ReadUpTo R locals config c size raws middle → middle.pos < c.pos + size →
      readInstruction c.pos config middle = .error e stop → FirstFailure R locals config c size e
  | refused {raws : List (Instruction RawModel)} {raw : Instruction RawModel}
      {middle behind : Cursor} {e : Error} :
      ReadUpTo R locals config c size raws middle →
      readInstruction c.pos config middle = .ok raw behind →
      raw.operand.RefusedWith R locals (middle.pos + raw.opcode.size) e →
      FirstFailure R locals config c size e
  | looseBranch {raws : List (Instruction RawModel)} {middle : Cursor} {offset : Nat}
      {target : Int64} :
      ReadUpTo R locals config c size raws middle → middle.pos = c.pos + size →
      config.strictBranches = true →
      ((bindLabels size raws).flatMap Instruction.looseBranches).head? = some (offset, target) →
      FirstFailure R locals config c size (.invalidBranchTarget (c.pos + offset) target.toInt)

theorem ReadUpTo.inRegion {raws : List (Instruction RawModel)} {middle : Cursor}
    (h : ReadUpTo R locals config c size raws middle) : c.InRegion size middle :=
  .of_steps readInstruction_moves h.inside h.steps

theorem firstFailure_of_reader_error {e : Error}
    (h : reader size R locals config c = .error e c') : FirstFailure R locals config c size e := by
  rcases reader_eq_error.mp h with ⟨hshort, rfl, _⟩ | ⟨hroom, is, middle, inner, hsteps, _, hfail⟩
  · exact .outside hshort
  obtain ⟨raws, hraws, hresolves⟩ := steps_readResolved.mp hsteps
  have hupto : ReadUpTo R locals config c size raws middle :=
    ⟨hroom, hraws, exists_resolvesTo_iff.mp ⟨is, hresolves⟩⟩
  rcases hfail with ⟨hmore, hfail⟩ | ⟨hpos, hloose⟩
  · rcases readResolved_eq_error.mp hfail with hfail | ⟨raw, hraw, hrefused⟩
    · exact .unreadable hupto hmore hfail
    · exact .refused hupto hraw (Instruction.resolve_eq_error_iff.mp hrefused)
  · obtain ⟨hstrict, _, offset, target, hhead, rfl⟩ := reportLoose_eq_error.mp hloose
    rw [(hresolves.bound _).flatMap_looseBranches] at hhead
    exact .looseBranch hupto hpos hstrict hhead

theorem reader_error_of_firstFailure {e : Error} (h : FirstFailure R locals config c size e) :
    ∃ c', reader size R locals config c = .error e c' := by
  cases h with
  | outside hshort => exact ⟨c, reader_eq_error.mpr (.inl ⟨hshort, rfl, rfl⟩)⟩
  | unreadable hupto hmore hfail =>
    obtain ⟨is, hresolves⟩ := exists_resolvesTo_iff.mpr hupto.known
    have hsteps := steps_readResolved.mpr ⟨_, hupto.steps, hresolves⟩
    exact ⟨_, reader_eq_error.mpr (.inr ⟨hupto.inside, is, _, _, hsteps, rfl,
      .inl ⟨hmore, readResolved_eq_error.mpr (.inl hfail)⟩⟩)⟩
  | refused hupto hraw hrefused =>
    obtain ⟨is, hresolves⟩ := exists_resolvesTo_iff.mpr hupto.known
    have hsteps := steps_readResolved.mpr ⟨_, hupto.steps, hresolves⟩
    obtain ⟨hdata, hlt, hle⟩ := readInstruction_moves _ _ _ hraw
    have hmore := Nat.lt_of_lt_of_le hlt (hupto.inRegion.size_eq ▸ hdata ▸ hle)
    have hresolve := Instruction.resolve_eq_error_iff.mpr hrefused
    exact ⟨_, reader_eq_error.mpr (.inr ⟨hupto.inside, is, _, _, hsteps, rfl,
      .inl ⟨hmore, readResolved_eq_error.mpr (.inr ⟨_, hraw, hresolve⟩)⟩⟩)⟩
  | looseBranch hupto hpos hstrict hhead =>
    obtain ⟨is, hresolves⟩ := exists_resolvesTo_iff.mpr hupto.known
    have hsteps := steps_readResolved.mpr ⟨_, hupto.steps, hresolves⟩
    rw [← (hresolves.bound _).flatMap_looseBranches] at hhead
    exact ⟨_, reader_eq_error.mpr (.inr ⟨hupto.inside, is, _, _, hsteps, rfl,
      .inr ⟨hpos, reportLoose_eq_error.mpr ⟨hstrict, rfl, _, _, hhead, rfl⟩⟩⟩)⟩

/-- Reading code with a resolver is reading it raw and replacing the numbers of operands by the
values the resolver has for them, if it has them all. If reading fails, it is with the error of the
first instruction that cannot be read raw or is not known; branches are refused only if every
instruction can be read and is known. -/
theorem reader_commutes_with_resolution (R : Resolver M) (locals : List M.LocalVariable)
    (rawLocals : List UInt16) (config : Config) (size : Nat) (c : Cursor) :
    ((∃ code c', reader size R locals config c = .ok code c') ↔
      ∃ raw c', reader size rawResolver rawLocals config c = .ok raw c' ∧
        ∀ i ∈ raw.instructions, i.operand.IsKnownTo R locals) ∧
    (∀ code c', reader size R locals config c = .ok code c' →
      ∃ raw, reader size rawResolver rawLocals config c = .ok raw c' ∧
        raw.ResolvesTo R locals code) ∧
    (∀ e, (∃ c', reader size R locals config c = .error e c') ↔
      FirstFailure R locals config c size e) ∧
    ∀ offset target c',
      reader size R locals config c = .error (.invalidBranchTarget offset target) c' →
      ∃ raws middle, ReadUpTo R locals config c size raws middle ∧ middle.pos = c.pos + size := by
  refine ⟨⟨?_, ?_⟩, ?_, fun e => ⟨?_, reader_error_of_firstFailure⟩, ?_⟩
  · rintro ⟨code, c', h⟩
    obtain ⟨raw, hraw, hcode⟩ := (reader_eq_ok_iff_raw rawLocals).mp h
    exact ⟨raw, c', hraw, exists_resolvesTo_iff.mp ⟨_, hcode⟩⟩
  · rintro ⟨raw, c', hraw, hknown⟩
    obtain ⟨is, hresolves⟩ := exists_resolvesTo_iff.mpr hknown
    exact ⟨⟨is⟩, c', (reader_eq_ok_iff_raw rawLocals).mpr ⟨raw, hraw, hresolves⟩⟩
  · intro code c' h
    exact (reader_eq_ok_iff_raw rawLocals).mp h
  · rintro ⟨c', h⟩
    exact firstFailure_of_reader_error h
  · intro offset target c' h
    -- the errors of a single instruction are of other kinds
    cases firstFailure_of_reader_error h with
    | unreadable _ _ hfail => nomatch readInstruction_failsOnly _ _ _ hfail
    | @refused _ raw _ _ _ _ _ hrefused =>
      generalize raw.operand = stored at hrefused
      cases hrefused
    | looseBranch hupto hpos _ _ => exact ⟨_, _, hupto, hpos⟩

set_option maxRecDepth 4000 in
/-- A branch to nowhere and a call to a member, behind another byte. A resolver that has another
number for the member changes nothing else. Strict reading refuses the branch if it is raw, when all
has been read; the member comes first if it is unknown, though it stands behind. -/
theorem reader_commutes_with_resolution_refused :
    (∃ code c', reader 7
        { rawResolver with member? := fun token => some (Token.mk (token.value + 1)) } []
        Config.default ⟨#[0xff, 0x2b, 0x7f, 0x28, 2, 0, 0, 0x0a], 1, #[]⟩ = .ok code c' ∧
      ∃ raw, reader 7 rawResolver [] Config.default
          ⟨#[0xff, 0x2b, 0x7f, 0x28, 2, 0, 0, 0x0a], 1, #[]⟩ = .ok raw c' ∧
        raw.ResolvesTo
          { rawResolver with member? := fun token => some (Token.mk (token.value + 1)) } [] code) ∧
    (∃ c', reader 7 rawResolver [] Config.strict
          ⟨#[0xff, 0x2b, 0x7f, 0x28, 2, 0, 0, 0x0a], 1, #[]⟩ =
        .error (.invalidBranchTarget 1 129) c' ∧
      ∃ raws middle, ReadUpTo rawResolver [] Config.strict
        ⟨#[0xff, 0x2b, 0x7f, 0x28, 2, 0, 0, 0x0a], 1, #[]⟩ 7 raws middle ∧ middle.pos = 8) ∧
    ∃ c', reader 7 { rawResolver with member? := fun _ => none } [] Config.strict
        ⟨#[0xff, 0x2b, 0x7f, 0x28, 2, 0, 0, 0x0a], 1, #[]⟩ =
      .error (.unresolvedMember ⟨0x0a000002⟩ 4) c' := by
  have hbranch : readInstruction 1 Config.strict
      ⟨#[0xff, 0x2b, 0x7f, 0x28, 2, 0, 0, 0x0a], 1, #[]⟩ =
        .ok ⟨0, ⟨42⟩, .target (.detached 129)⟩
          ⟨#[0xff, 0x2b, 0x7f, 0x28, 2, 0, 0, 0x0a], 3, #[]⟩ := by
    rfl
  have hcall : readInstruction 1 Config.strict
      ⟨#[0xff, 0x2b, 0x7f, 0x28, 2, 0, 0, 0x0a], 3, #[]⟩ =
        .ok ⟨2, ⟨39⟩, .member ⟨0x0a000002⟩⟩
          ⟨#[0xff, 0x2b, 0x7f, 0x28, 2, 0, 0, 0x0a], 8, #[]⟩ := by
    rfl
  have hknown : ∀ R : Resolver RawModel,
      (Operand.target (M := RawModel) (.detached 129)).IsKnownTo R [] := fun R => ⟨_, .target _⟩
  refine ⟨⟨_, _, rfl, (reader_commutes_with_resolution _ [] [] _ 7 _).2.1 _ _ rfl⟩, ?_, ?_⟩
  · have hraw := reader_commutes_with_resolution rawResolver [] [] Config.strict 7
      ⟨#[0xff, 0x2b, 0x7f, 0x28, 2, 0, 0, 0x0a], 1, #[]⟩
    have hupto : ReadUpTo rawResolver [] Config.strict
        ⟨#[0xff, 0x2b, 0x7f, 0x28, 2, 0, 0, 0x0a], 1, #[]⟩ 7
        [⟨0, ⟨42⟩, .target (.detached 129)⟩, ⟨2, ⟨39⟩, .member ⟨0x0a000002⟩⟩] _ :=
      ⟨by decide, .cons hbranch (.cons hcall (.nil _)), by
        rw [List.forall_mem_cons, List.forall_mem_singleton]
        exact ⟨hknown _, _, .member rfl⟩⟩
    obtain ⟨c', herror⟩ := (hraw.2.2.1 _).mpr (.looseBranch hupto rfl rfl rfl)
    exact ⟨c', herror, hraw.2.2.2 _ _ _ herror⟩
  · have hupto : ReadUpTo { rawResolver with member? := fun _ => none } [] Config.strict
        ⟨#[0xff, 0x2b, 0x7f, 0x28, 2, 0, 0, 0x0a], 1, #[]⟩ 7
        [⟨0, ⟨42⟩, .target (.detached 129)⟩] _ :=
      ⟨by decide, .cons hbranch (.nil _), List.forall_mem_singleton.mpr (hknown _)⟩
    exact ((reader_commutes_with_resolution _ [] [] Config.strict 7 _).2.2.1 _).mpr
      (.refused hupto hcall (.member rfl))

end Code

end CilCodec
