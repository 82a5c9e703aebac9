import CilCodec.Proofs.Code.Reading
import CilCodec.Proofs.Code.Writing

/-!
# CilCodec.Proofs.Code.RoundTrip

Reading and writing code, one after the other.

Both directions go through the stored instructions: a reader resolves them and binds their labels, a
writer lowers operands to them and unbinds the labels.

Results:
1. `writer_of_reader`: code that was read is written as the bytes it was read from, with the tags of
   user strings set.
2. `readFrom_of_writer`, `reader_of_writer`: code that was written is read from the bytes written,
   in its place, with labels to offsets bound.
-/

namespace CilCodec

open Writer

variable {M : OperandModel} {R : Resolver M} {B : Builder M} {locals : List M.LocalVariable}
  {config : Config}

/-! ## From bytes to bytes -/

/-- `B` maps each value that `R` answers back to the number `R` answered for, given the local
variables `locals`. -/
structure Builder.Inverts (B : Builder M) (R : Resolver M) (locals : List M.LocalVariable) :
    Prop where
  member : ∀ {token m}, R.member? token = some m → B.memberToken m = .ok token
  userString : ∀ {index s}, R.userString? index = some s → B.userStringOffset s = .ok index
  localVariable : ∀ {index v}, R.localVariable? index locals = some v → B.localIndex v = .ok index
  argument : ∀ {index a}, R.argument? index = some a → B.argumentIndex a = .ok index

theorem rawBuilder_inverts (locals : List UInt16) : rawBuilder.Inverts rawResolver locals where
  member h := congrArg _ (Option.some.inj h).symm
  userString h := congrArg _ (Option.some.inj h).symm
  localVariable h := congrArg _ (Option.some.inj h).symm
  argument h := congrArg _ (Option.some.inj h).symm

/-- What was resolved is lowered to what it was resolved from. -/
theorem lower_of_resolvesTo (hinverts : B.Inverts R locals) {stored : Operand RawModel}
    {operand : Operand M} (h : stored.ResolvesTo R locals operand) (f : Label → Label) :
    (operand.mapLabels f).lower B = .ok (stored.mapLabels f) := by
  cases h with
  | none | immediate | target | switch => rfl
  | localVariable hv => exact map_eq_ok.mpr ⟨_, hinverts.localVariable hv, rfl⟩
  | argument ha => exact map_eq_ok.mpr ⟨_, hinverts.argument ha, rfl⟩
  | userString hs => exact map_eq_ok.mpr ⟨_, hinverts.userString hs, rfl⟩
  | member hm => exact map_eq_ok.mpr ⟨_, hinverts.member hm, rfl⟩

/-- The labels that reading binds are unbound again. -/
theorem lowers_of_resolvesTo (hinverts : B.Inverts R locals) {raw : Instruction RawModel}
    {i : Instruction M} {offset : Nat} {bytes : List UInt8}
    (hstored : StoredInstruction offset raw bytes) (h : raw.ResolvesTo R locals i)
    (offsets : Array Nat) (size : Nat) :
    Lowers B (offsets.push size) (i.mapLabels (Label.bind offsets size)) raw := by
  obtain ⟨next, stored, hoperand⟩ := hstored.operand_eq
  refine ⟨h.opcode_eq.symm, _, lower_of_resolvesTo hinverts h.operand _, ?_⟩
  rw [Operand.mapLabels_mapLabels, Operand.mapLabels_eq_self]
  intro label hlabel
  obtain ⟨target, rfl⟩ := hoperand.isDetached_of_mem_labels hlabel
  exact unbind_bind offsets size target

theorem forall₂_lowers (hinverts : B.Inverts R locals) {raws : List (Instruction RawModel)}
    {is : List (Instruction M)} {offset : Nat} {bytes : List UInt8}
    (hstored : StoredCode offset raws bytes) (h : Resolves R locals raws is)
    (offsets : Array Nat) (size : Nat) :
    List.Forall₂ (Lowers B (offsets.push size))
      (is.map (Instruction.mapLabels (Label.bind offsets size))) raws := by
  induction h generalizing offset bytes with
  | nil => exact .nil
  | cons hfirst _ ih =>
    cases hstored with
    | cons hinstruction hrest =>
      exact .cons (lowers_of_resolvesTo hinverts hinstruction hfirst offsets size) (ih hrest)

/-- Resolving keeps opcodes and offsets, and with them the places of the tags. -/
theorem tagOffsets_of_resolves {raws : List (Instruction RawModel)} {is : List (Instruction M)}
    (h : Resolves R locals raws is) (f : Label → Label) :
    (is.map (Instruction.mapLabels f)).filterMap Instruction.tagOffset? =
      raws.filterMap Instruction.tagOffset? := by
  induction h with
  | nil => rfl
  | @cons raw i raws is hfirst _ ih =>
    have htag : (i.mapLabels f).tagOffset? = raw.tagOffset? := by
      unfold Instruction.tagOffset? Instruction.mapLabels
      rw [hfirst.opcode_eq, hfirst.offset_eq]
    rw [List.map_cons, List.filterMap_cons, List.filterMap_cons, htag, ih]

theorem totalSize_mapLabels (f : Label → Label) (instructions : List (Instruction M)) :
    totalSize (instructions.map (Instruction.mapLabels f)) = totalSize instructions := by
  induction instructions with
  | nil => rfl
  | cons i rest ih => rw [List.map_cons, totalSize, totalSize, Instruction.size_mapLabels, ih]

/-- Binding labels leaves the offsets. -/
theorem offsets_bindLabels (size : Nat) (is : List (Instruction M)) :
    Code.offsets ⟨bindLabels size is⟩ = (is.map Instruction.offset).toArray := by
  unfold Code.offsets bindLabels
  rw [List.map_map]
  rfl

/-- Reading goes forward by as many bytes as what has been read takes up. -/
theorem pos_of_steps {c middle : Cursor} {is : List (Instruction M)} (hpos : c.pos ≤ c.data.size)
    (hsteps : Reader.Steps (readResolved R locals config c.pos) c is middle) :
    middle.pos = c.pos + totalSize is := by
  obtain ⟨raws, bytes, hpassed, hstored, _, hresolves⟩ :=
    steps_readResolved_sound (Nat.le_refl _) hpos hsteps
  rw [hpassed.pos_eq, hresolves.totalSize_eq, ← hstored.length_eq]

/-- What has been read of code is placed, and takes up the bytes that have been passed. -/
theorem placed_of_steps {c middle : Cursor} {is : List (Instruction M)}
    (hpos : c.pos ≤ c.data.size)
    (hsteps : Reader.Steps (readResolved R locals config c.pos) c is middle)
    (size : Nat) :
    placeFrom 0 (bindLabels size is) = bindLabels size is ∧
      totalSize (bindLabels size is) = middle.pos - c.pos := by
  obtain ⟨raws, bytes, _, hstored, _, hresolves⟩ :=
    steps_readResolved_sound (Nat.le_refl _) hpos hsteps
  rw [Nat.sub_self] at hstored
  refine ⟨congrArg Code.instructions (ofList_bindLabels hstored hresolves size), ?_⟩
  rw [bindLabels, totalSize_mapLabels, pos_of_steps hpos hsteps, Nat.add_sub_cancel_left]

/-- Tags lie inside the code. -/
theorem tagOffset_lt_of_placed {offset : Nat} {instructions : List (Instruction M)}
    (hplaced : placeFrom offset instructions = instructions) {tag : Nat}
    (htag : tag ∈ instructions.filterMap Instruction.tagOffset?) :
    tag < offset + totalSize instructions := by
  induction instructions generalizing offset with
  | nil => cases htag
  | cons i rest ih =>
    rw [placeFrom, List.cons.injEq] at hplaced
    obtain ⟨hfirst, hrest⟩ := hplaced
    have hoffset : i.offset ≤ offset := by
      rw [← hfirst]
      exact Nat.mod_le _ _
    rw [totalSize, ← Nat.add_assoc]
    obtain ⟨j, hj, hat⟩ := List.mem_filterMap.mp htag
    rcases List.mem_cons.mp hj with rfl | hj
    · have hlt := Instruction.tagOffset_lt hat
      omega
    · exact ih hrest (List.mem_filterMap.mpr ⟨j, hj, hat⟩)

namespace Code

variable {code : Code M} {bytes : List UInt8}

theorem ReadFrom.isPlaced (h : code.ReadFrom R locals config bytes) : code.IsPlaced := by
  obtain @⟨raws, is, bytes, hstored, _, hresolve, _⟩ := h
  exact congrArg Code.instructions (ofList_bindLabels hstored hresolve bytes.length)

theorem ReadFrom.size_eq (h : code.ReadFrom R locals config bytes) :
    code.size = bytes.length := by
  obtain @⟨raws, is, bytes, hstored, _, hresolve, _⟩ := h
  rw [hstored.length_eq, ← hresolve.totalSize_eq]
  exact totalSize_mapLabels _ is

/-- Code that was read is written as the bytes it was read from, with the tags of user strings
set. -/
theorem ReadFrom.puts (h : code.ReadFrom R locals config bytes)
    (hinverts : B.Inverts R locals) (hsize : bytes.length ≤ 0xffffffff) :
    Puts (code.writer B) (code.tagged bytes) := by
  -- the boundaries that labels were bound to are the layout that they are written against
  have hwidth := h.size_eq
  have hlayout := layout_eq_of_isPlaced h.isPlaced (hwidth.symm ▸ hsize)
  obtain @⟨raws, is, bytes, hstored, _, hresolve, _⟩ := h
  have hlowers := forall₂_lowers hinverts hstored hresolve
    (is.map Instruction.offset).toArray bytes.length
  unfold boundaries at hlayout
  rw [offsets_bindLabels, hwidth] at hlayout
  rw [← hlayout] at hlowers
  have hputs : Puts (Code.writer ⟨bindLabels bytes.length is⟩ B)
      (setTags (raws.filterMap Instruction.tagOffset?) bytes) :=
    writer_complete (by rw [hwidth]; exact hsize) hlowers hstored
  have htags := tagOffsets_of_resolves hresolve
    (Label.bind (is.map Instruction.offset).toArray bytes.length)
  rw [← htags] at hputs
  exact hputs

theorem ReadFrom.tagOffset_lt (h : code.ReadFrom R locals config bytes) {tag : Nat}
    (htag : tag ∈ code.tagOffsets) : tag < bytes.length := by
  have hlt := tagOffset_lt_of_placed h.isPlaced htag
  rw [Nat.zero_add] at hlt
  exact h.size_eq ▸ hlt

/-- The bytes that code was read from are written anew exactly if the tags are set in them. -/
theorem ReadFrom.tagged_eq_iff (h : code.ReadFrom R locals config bytes) :
    code.tagged bytes = bytes ↔ code.IsTagged bytes :=
  CilCodec.tagged_eq_iff fun _ htag => h.tagOffset_lt htag

/-- Reading a region and writing the code read puts back the region with the tags of user strings
set, for every resolver and every builder that inverts it; numbers kept as they are stored are one
such pair. -/
theorem writer_of_reader :
    (∀ locals, rawBuilder.Inverts rawResolver locals) ∧
    ∀ {M : OperandModel} {R : Resolver M} {B : Builder M} {locals : List M.LocalVariable},
      B.Inverts R locals →
      ∀ {size : Nat} {config : Config} {c c' : Cursor} {code : Code M}, size ≤ 0xffffffff →
        reader size R locals config c = .ok code c' →
        let region := (c.data.extract c.pos (c.pos + size)).toList
        ∀ out : Buffer, code.writer B out = .ok () (out.append (code.tagged region)) ∧
          (code.IsTagged region → code.writer B out = .ok () (out.append region)) := by
  refine ⟨rawBuilder_inverts, ?_⟩
  intro M R B locals hinverts size config c c' code hsize hread region out
  obtain ⟨bytes, rfl, hpassed, hfrom⟩ := reader_sound hread
  have hregion : region = bytes := hpassed.holds.extract_eq
  have hputs := hfrom.puts hinverts hsize out
  rw [hregion]
  refine ⟨hputs, ?_⟩
  intro htagged
  rw [hfrom.tagged_eq_iff.mpr htagged] at hputs
  exact hputs

set_option maxRecDepth 4000 in
/-- A user string without its tag, and a return. -/
theorem writer_of_reader_untagged :
    ∃ code c', reader 6 rawResolver [] Config.default
        (Cursor.start #[0x72, 1, 0, 0, 4, 0x2a]) = .ok code c' ∧
      code.writer rawBuilder Buffer.empty =
        .ok () (Buffer.empty.append [0x72, 1, 0, 0, 0x70, 0x2a]) := by
  obtain ⟨code, c', hread, htags⟩ : ∃ code c', reader 6 rawResolver [] Config.default
      (Cursor.start #[0x72, 1, 0, 0, 4, 0x2a]) = .ok code c' ∧ code.tagOffsets = [4] :=
    ⟨_, _, rfl, rfl⟩
  have hwrite :=
    (writer_of_reader.2 (rawBuilder_inverts []) (by decide) hread Buffer.empty).1
  unfold tagged at hwrite
  rw [htags] at hwrite
  exact ⟨code, c', hread, hwrite⟩

end Code

/-! ## From code to code -/

/-- `R` maps each number that `B` answers back to the value `B` answered for, given the local
variables `locals`. User strings count as far as tokens reach. -/
structure Resolver.Inverts (R : Resolver M) (B : Builder M) (locals : List M.LocalVariable) :
    Prop where
  member : ∀ {m token}, B.memberToken m = .ok token → R.member? token = some m
  userString : ∀ {s index}, B.userStringOffset s = .ok index → index.toNat ≤ Token.maxRow →
    R.userString? index = some s
  localVariable : ∀ {v index}, B.localIndex v = .ok index → R.localVariable? index locals = some v
  argument : ∀ {a index}, B.argumentIndex a = .ok index → R.argument? index = some a

theorem rawResolver_inverts (locals : List UInt16) : rawResolver.Inverts rawBuilder locals where
  member h := congrArg _ (Except.ok.inj h).symm
  userString h _ := congrArg _ (Except.ok.inj h).symm
  localVariable h := congrArg _ (Except.ok.inj h).symm
  argument h := congrArg _ (Except.ok.inj h).symm

/-- What was lowered is resolved to what it was lowered from. -/
theorem resolvesTo_of_lower (hinverts : R.Inverts B locals) {operand : Operand M}
    {stored : Operand RawModel} (h : operand.lower B = .ok stored)
    (hrow : ∀ index, stored = .userString index → index.toNat ≤ Token.maxRow)
    (f : Label → Label) : (stored.mapLabels f).ResolvesTo R locals (operand.mapLabels f) := by
  refine Operand.ResolvesTo.mapLabels ?_ f
  cases operand with
  | none | immediate | target | switch =>
    cases h
    constructor
  | localVariable v =>
    obtain ⟨index, hindex, rfl⟩ := map_eq_ok.mp h
    exact .localVariable (hinverts.localVariable hindex)
  | argument a =>
    obtain ⟨index, hindex, rfl⟩ := map_eq_ok.mp h
    exact .argument (hinverts.argument hindex)
  | userString s =>
    obtain ⟨index, hindex, rfl⟩ := map_eq_ok.mp h
    exact .userString (hinverts.userString hindex (hrow index rfl))
  | member m =>
    obtain ⟨token, htoken, rfl⟩ := map_eq_ok.mp h
    exact .member (hinverts.member htoken)

section Written

variable {offsets : Array Nat} {offset : Nat} {raw : Instruction RawModel} {i : Instruction M}
  {bytes : List UInt8}

theorem resolvesTo_of_lowers (hinverts : R.Inverts B locals)
    (hstored : StoredInstruction offset raw bytes) (h : Lowers B offsets i raw) :
    raw.ResolvesTo R locals
      (Instruction.mapLabels (Label.unbind offsets) { i with offset := low32 offset }) := by
  obtain @⟨opcode, operand, bytes, hoperand⟩ := hstored
  obtain ⟨rfl, stored, hlower, rfl⟩ := h
  refine ⟨rfl, rfl, resolvesTo_of_lower hinverts hlower ?_ _⟩
  rintro index rfl
  exact hoperand.userString_le

/-- Every label that was written has an offset. -/
theorem unbind_of_lowers (hstored : StoredInstruction offset raw bytes) (h : Lowers B offsets i raw)
    {label : Label} (hlabel : label ∈ i.operand.labels) :
    ∃ target, label.unbind offsets = .detached target := by
  obtain ⟨next, stored, hoperand⟩ := hstored.operand_eq
  obtain ⟨_, lowered, hlower, hraw⟩ := h
  refine hoperand.isDetached_of_mem_labels ?_
  rw [hraw, Operand.labels_mapLabels, Operand.labels_of_lower hlower]
  exact List.mem_map_of_mem hlabel

/-- Unbinding labels first makes no difference to binding them. -/
theorem bind_unbind_of_lowers {starts : Array Nat} {size : Nat}
    (hasc : Ascending (starts.push size)) (hsize : size < offsetLimit)
    (hstored : StoredInstruction offset raw bytes) (h : Lowers B (starts.push size) i raw) :
    (i.mapLabels (Label.unbind (starts.push size))).mapLabels (Label.bind starts size) =
      i.mapLabels (Label.bind starts size) := by
  unfold Instruction.mapLabels
  rw [Operand.mapLabels_mapLabels]
  congr 1
  refine Operand.mapLabels_congr fun label hlabel => ?_
  obtain ⟨target, htarget⟩ := unbind_of_lowers hstored h hlabel
  rw [htarget]
  exact bind_unbind hasc hsize htarget

end Written

theorem switchLength_le_of_lowers {offsets : Array Nat} {instructions : List (Instruction M)}
    {raws : List (Instruction RawModel)} {limit : Nat}
    (h : List.Forall₂ (Lowers B offsets) instructions raws)
    (hlimit : ∀ i ∈ instructions, i.operand.switchLength ≤ limit) :
    ∀ raw ∈ raws, raw.operand.switchLength ≤ limit := by
  induction h with
  | nil =>
    intro raw hraw
    cases hraw
  | cons hfirst _ ih =>
    obtain ⟨hhead, htail⟩ := List.forall_mem_cons.mp hlimit
    exact List.forall_mem_cons.mpr ⟨hfirst.switchLength_eq ▸ hhead, ih htail⟩

theorem resolves_of_lowers (hinverts : R.Inverts B locals) {offsets : Array Nat}
    {instructions : List (Instruction M)} {raws : List (Instruction RawModel)}
    (h : List.Forall₂ (Lowers B offsets) instructions raws) {offset : Nat} {bytes : List UInt8}
    (hstored : StoredCode offset raws bytes) :
    Resolves R locals raws
      ((placeFrom offset instructions).map (Instruction.mapLabels (Label.unbind offsets))) := by
  induction h generalizing offset bytes with
  | nil => exact .nil
  | cons hfirst _ ih =>
    cases hstored with
    | cons hinstruction hrest =>
      rw [hinstruction.length_eq, hfirst.size_eq] at hrest
      exact .cons (resolvesTo_of_lowers hinverts hinstruction hfirst) (ih hrest)

theorem bindLabels_of_lowers {starts : Array Nat} {size : Nat}
    (hasc : Ascending (starts.push size)) (hsize : size < offsetLimit)
    {instructions : List (Instruction M)} {raws : List (Instruction RawModel)}
    (h : List.Forall₂ (Lowers B (starts.push size)) instructions raws) {offset : Nat}
    {bytes : List UInt8} (hstored : StoredCode offset raws bytes) :
    ((placeFrom offset instructions).map
        (Instruction.mapLabels (Label.unbind (starts.push size)))).map
        (Instruction.mapLabels (Label.bind starts size)) =
      (placeFrom offset instructions).map (Instruction.mapLabels (Label.bind starts size)) := by
  induction h generalizing offset bytes with
  | nil => rfl
  | @cons i raw instructions raws hfirst _ ih =>
    cases hstored with
    | cons hinstruction hrest =>
      rw [hinstruction.length_eq, hfirst.size_eq] at hrest
      have hbind := bind_unbind_of_lowers (i := { i with offset := low32 offset }) hasc hsize
        hinstruction hfirst
      rw [placeFrom, List.map_cons, List.map_cons, List.map_cons, ih hrest, hbind]

namespace Code

/-- The code with every label to an offset at which an instruction starts, or at which the code
ends, turned into a label to that instruction or to the end. -/
def relabelled (code : Code M) : Code M :=
  ⟨code.instructions.map (Instruction.mapLabels fun label =>
    match label with
    | .instruction index => .instruction index
    | .detached target => code.labelAt target)⟩

theorem relabelled_eq (code : Code M) :
    code.relabelled =
      ⟨code.instructions.map (Instruction.mapLabels (Label.bind code.offsets code.size))⟩ := by
  unfold relabelled
  congr 2

@[simp] theorem size_relabelled (code : Code M) : code.relabelled.size = code.size :=
  totalSize_mapLabels _ code.instructions

/-- Labels that were bound on reading are not bound any further. -/
theorem ReadFrom.relabelled_placed {code : Code M} {bytes : List UInt8}
    (h : code.ReadFrom R locals config bytes) : code.placed.relabelled = code := by
  have hplaced : code.placed = code := congrArg Code.mk h.isPlaced
  rw [hplaced, relabelled_eq, h.size_eq]
  obtain @⟨raws, is, bytes, _, _, _, _⟩ := h
  rw [offsets_bindLabels]
  unfold bindLabels
  rw [List.map_map]
  congr 1
  refine List.map_congr_left fun i _ => ?_
  show (i.mapLabels _).mapLabels _ = i.mapLabels _
  unfold Instruction.mapLabels
  rw [Operand.mapLabels_mapLabels]
  congr 1
  exact Operand.mapLabels_congr fun label _ => bind_bind _ _ label

theorem ReadFrom.switchLength_le {code : Code M} {bytes : List UInt8}
    (h : code.ReadFrom R locals config bytes) :
    ∀ i ∈ code.instructions, i.operand.switchLength ≤ config.maxSwitchTargets.toNat := by
  obtain @⟨raws, is, bytes, _, hlimit, hresolve, _⟩ := h
  intro i hi
  obtain ⟨j, hj, rfl⟩ := List.mem_map.mp hi
  show (j.operand.mapLabels _).switchLength ≤ _
  rw [Operand.switchLength_mapLabels]
  exact hresolve.switchLength_le hlimit j hj

theorem ReadFrom.looseBranches_eq_nil {code : Code M} {bytes : List UInt8}
    (h : code.ReadFrom R locals config bytes) (hstrict : config.strictBranches = true) :
    code.instructions.flatMap Instruction.looseBranches = [] := by
  obtain ⟨_, _, _, hnone⟩ := h
  exact hnone hstrict

/-- Code that was written is read from the bytes written. -/
theorem readFrom_of_writer (hinverts : R.Inverts B locals) {code : Code M} {b b' : Buffer}
    {u : Unit} (h : code.writer B b = .ok u b')
    (hlimit : ∀ i ∈ code.instructions, i.operand.switchLength ≤ config.maxSwitchTargets.toNat)
    (hstrict : config.strictBranches = true →
      code.placed.relabelled.instructions.flatMap Instruction.looseBranches = []) :
    ∃ bytes, b.append bytes = b' ∧ code.placed.relabelled.ReadFrom R locals config bytes := by
  obtain ⟨hsize, raws, bytes, hlowers, hstored, rfl⟩ := writer_sound h
  rw [layout_toArray hsize] at hlowers
  have hlength : bytes.length = code.placed.size := by
    rw [length_of_lowers hlowers hstored, size_placed]
    rfl
  have hoffsets : ((code.placed.instructions.map
      (Instruction.mapLabels (Label.unbind code.placed.boundaries))).map
        Instruction.offset).toArray = code.placed.offsets := by
    rw [List.map_map]
    rfl
  have hbound : bindLabels bytes.length (code.placed.instructions.map
      (Instruction.mapLabels (Label.unbind code.placed.boundaries))) =
        code.placed.relabelled.instructions := by
    unfold bindLabels
    rw [hoffsets, hlength, relabelled_eq]
    -- offsets are below 4 GiB, far from the sign of a 64-bit target
    have hplaced : code.placed.size ≤ 0xffffffff := code.size_placed.symm ▸ hsize
    exact bindLabels_of_lowers (ascending_boundaries code.isPlaced_placed hplaced)
      (lt_offsetLimit hplaced) hlowers hstored
  refine ⟨bytes, rfl, ?_⟩
  have hresolves : Resolves R locals raws (code.placed.instructions.map
      (Instruction.mapLabels (Label.unbind code.placed.boundaries))) :=
    resolves_of_lowers hinverts hlowers hstored
  have hread := ReadFrom.mk hstored (switchLength_le_of_lowers hlowers hlimit) hresolves
    (by rw [hbound]; exact hstrict)
  rw [hbound] at hread
  exact hread

/-- Written code is read back from the bytes written, wherever they stand and whatever is around
them. Each instruction comes back in its place and as it was, apart from its labels to offsets,
which become labels to what stands there. -/
theorem reader_of_writer (hinverts : R.Inverts B locals) {code : Code M} {out out' : Buffer}
    (h : code.writer B out = .ok () out') (hloose : config.strictBranches = false)
    (hlimit : ∀ i ∈ code.instructions,
      i.operand.switchLength ≤ config.maxSwitchTargets.toNat) :
    ∃ bytes code', out' = out.append bytes ∧ code' = code.placed.relabelled ∧
      (code.IsPlaced → code' = code.relabelled) ∧
      ∀ (before behind : List UInt8) (notices : Array Notice), ∃ notices',
        reader bytes.length R locals config
            ⟨(before ++ bytes ++ behind).toArray, before.length, notices⟩ =
          .ok code' ⟨(before ++ bytes ++ behind).toArray, before.length + bytes.length,
            notices'⟩ := by
  have hstrict : config.strictBranches = true →
      code.placed.relabelled.instructions.flatMap Instruction.looseBranches = [] :=
    fun hyes => Bool.noConfusion (hyes.symm.trans hloose)
  obtain ⟨bytes, rfl, hfrom⟩ := readFrom_of_writer hinverts h hlimit hstrict
  refine ⟨bytes, code.placed.relabelled, rfl, rfl, ?_, ?_⟩
  · intro hplaced
    have hsame : code.placed = code := congrArg Code.mk hplaced
    rw [hsame]
  · intro before behind notices
    have hholds : Holds (before ++ bytes ++ behind).toArray before.length bytes :=
      ⟨before, behind, rfl, rfl⟩
    obtain ⟨⟨_, _, notices'⟩, hread, hpassed⟩ :=
      reader_complete (c := ⟨_, before.length, notices⟩) hfrom hholds
    obtain ⟨_, rfl, rfl⟩ := hpassed
    exact ⟨notices', hread⟩

set_option maxRecDepth 4000 in
/-- A branch to the offset of the return, one into a branch, and a user string, read back with a
byte in front of them. -/
theorem reader_of_writer_bound :
    writer (M := RawModel) ⟨[⟨0, ⟨42⟩, .target (.detached 9)⟩, ⟨2, ⟨42⟩, .target (.detached 3)⟩,
        ⟨4, ⟨113⟩, .userString 1⟩, ⟨9, ⟨41⟩, .none⟩]⟩ rawBuilder Buffer.empty =
      .ok () (Buffer.empty.append [0x2b, 7, 0x2b, 0xff, 0x72, 1, 0, 0, 0x70, 0x2a]) ∧
    ∃ c', reader 10 rawResolver [] Config.default
        ⟨#[0, 0x2b, 7, 0x2b, 0xff, 0x72, 1, 0, 0, 0x70, 0x2a], 1, #[]⟩ =
      .ok ⟨[⟨0, ⟨42⟩, .target (.instruction 3)⟩, ⟨2, ⟨42⟩, .target (.detached 3)⟩,
        ⟨4, ⟨113⟩, .userString 1⟩, ⟨9, ⟨41⟩, .none⟩]⟩ c' := by
  have hwrite : writer (M := RawModel) ⟨[⟨0, ⟨42⟩, .target (.detached 9)⟩,
      ⟨2, ⟨42⟩, .target (.detached 3)⟩, ⟨4, ⟨113⟩, .userString 1⟩, ⟨9, ⟨41⟩, .none⟩]⟩
        rawBuilder Buffer.empty =
      .ok () (Buffer.empty.append [0x2b, 7, 0x2b, 0xff, 0x72, 1, 0, 0, 0x70, 0x2a]) := rfl
  have hloose : Config.default.strictBranches = false := rfl
  obtain ⟨bytes, code', hout, rfl, _, hread⟩ := reader_of_writer (rawResolver_inverts []) hwrite
    hloose (by simp [Operand.switchLength])
  have hbytes : bytes = [0x2b, 7, 0x2b, 0xff, 0x72, 1, 0, 0, 0x70, 0x2a] := by
    have hlist := congrArg (fun out : Buffer => out.bytes.toList) hout
    simpa using hlist.symm
  obtain ⟨notices', hread⟩ := hread [0] [] #[]
  rw [hbytes] at hread
  exact ⟨hwrite, _, hread⟩

end Code

end CilCodec
