import Mathlib.Data.List.Forall2
import Mathlib.Data.List.InsertIdx
import CilCodec.Proofs.Code.Labels

/-!
# CilCodec.Proofs.Code.Editing

Labels that are indices, and pointers that are identities.

A label holds the index of its instruction, so each edit of code renumbers the labels of all
instructions. Linked code is what the indices stand for: its instructions have identities, a branch
points to an identity or to the end, and no edit changes a pointer but the removal of the
instruction it points to, which sends it on to the next one.

Results:
1. `Label.Denotes.insertIdx`, `Label.Denotes.eraseIdx`: renumbered, a label denotes what its pointer
   does.
2. `LinkedCode.Describes.insert`, `LinkedCode.Describes.remove`: an edit of code is the same edit of
   the linked code that describes it.
3. `LinkedCode.describes_edits`: so is a sequence of edits, none of which fails.
-/

namespace CilCodec

variable {M : OperandModel}

/-! ## Lists side by side -/

section Lists

variable {α β : Type} {R : α → β → Prop} {as : List α} {bs : List β}

theorem forall₂_insertIdx (h : List.Forall₂ R as bs) {a : α} {b : β} (hab : R a b) (index : Nat) :
    List.Forall₂ R (as.insertIdx index a) (bs.insertIdx index b) := by
  induction index generalizing as bs with
  | zero => exact .cons hab h
  | succ index ih =>
    cases h with
    | nil => exact .nil
    | cons hfirst hrest => exact .cons hfirst (ih hrest)

theorem forall₂_eraseIdx (h : List.Forall₂ R as bs) (index : Nat) :
    List.Forall₂ R (as.eraseIdx index) (bs.eraseIdx index) := by
  induction h generalizing index with
  | nil => exact .nil
  | cons hfirst hrest ih =>
    cases index with
    | zero => exact hrest
    | succ index => exact .cons hfirst (ih index)

theorem forall₂_zipIdx {R : α × Nat → α → Prop}
    (h : ∀ a index, as[index]? = some a → R (a, index) a) : List.Forall₂ R as.zipIdx as := by
  have hfst : List.Forall₂ R as.zipIdx (as.zipIdx.map Prod.fst) := by
    refine List.forall₂_map_right_iff.mpr (List.forall₂_same.mpr fun (a, index) hmem => ?_)
    exact h a index (List.mem_zipIdx_iff_getElem?.mp hmem)
  rw [List.zipIdx_map_fst] at hfst
  exact hfst

theorem exists_of_mem_left (h : List.Forall₂ R as bs) {a : α} (ha : a ∈ as) : ∃ b ∈ bs, R a b := by
  induction h with
  | nil => cases ha
  | cons hfirst _ ih =>
    rcases List.mem_cons.mp ha with rfl | hrest
    · exact ⟨_, List.mem_cons_self, hfirst⟩
    · obtain ⟨b, hb, hab⟩ := ih hrest
      exact ⟨b, List.mem_cons_of_mem _ hb, hab⟩

theorem exists_of_mem_right (h : List.Forall₂ R as bs) {b : β} (hb : b ∈ bs) : ∃ a ∈ as, R a b :=
  exists_of_mem_left (List.Forall₂.flip (R := flip R) h) hb

/-- What is said of instructions apart from their offsets holds wherever they are placed. -/
theorem forall₂_placeFrom {R : α → Instruction M → Prop} {instructions : List (Instruction M)}
    (hoffset : ∀ a i offset, R a i → R a { i with offset := offset })
    (h : List.Forall₂ R as instructions) (offset : Nat) :
    List.Forall₂ R as (placeFrom offset instructions) := by
  induction h generalizing offset with
  | nil => exact .nil
  | cons hfirst _ ih => exact .cons (hoffset _ _ _ hfirst) (ih _)

end Lists

/-! ## Pointers -/

/-- Where a branch goes in linked code. -/
inductive Pointer where
  | element (id : Nat)
  | finish
  | detached (offset : Int64)
deriving DecidableEq, Repr

namespace Pointer

/-- The pointer to what stands at an index of instructions with identities `ids`. -/
def ofIndex (ids : List Nat) (index : Nat) : Pointer :=
  match ids[index]? with
  | some id => element id
  | none => finish

/-- A pointer to the instruction `gone` becomes `next`, others stay. -/
def redirect (gone : Nat) (next : Pointer) : Pointer → Pointer
  | element id => if id = gone then next else element id
  | finish => finish
  | detached offset => detached offset

end Pointer

namespace Label

/-- The pointer that a label stands for among instructions with identities `ids`. -/
def link (ids : List Nat) : Label → Pointer
  | instruction index => .ofIndex ids index
  | detached offset => .detached offset

/-- `Denotes ids label pointer`: among instructions with identities `ids`, the label is the index of
the instruction that the pointer points to, or their number if it points to the end. -/
inductive Denotes (ids : List Nat) : Label → Pointer → Prop
  | element {index id : Nat} : ids[index]? = some id → Denotes ids (.instruction index) (.element id)
  | finish : Denotes ids (.instruction ids.length) .finish
  | detached (offset : Int64) : Denotes ids (.detached offset) (.detached offset)

variable {ids : List Nat} {index : Nat} {label : Label} {pointer : Pointer}

theorem Denotes.isAtMost (h : Denotes ids label pointer) : label.isAtMost ids.length := by
  cases h with
  | element hget =>
    obtain ⟨hlt, _⟩ := List.getElem?_eq_some_iff.mp hget
    exact decide_eq_true (Nat.le_of_lt hlt)
  | finish => exact decide_eq_true (Nat.le_refl _)
  | detached offset => rfl

theorem denotes_ofIndex (h : index ≤ ids.length) :
    Denotes ids (.instruction index) (.ofIndex ids index) := by
  unfold Pointer.ofIndex
  rcases Nat.lt_or_eq_of_le h with hlt | rfl
  · rw [List.getElem?_eq_getElem hlt]
    exact .element (List.getElem?_eq_getElem hlt)
  · rw [List.getElem?_eq_none (Nat.le_refl _)]
    exact .finish

theorem denotes_link (h : label.isAtMost ids.length) : Denotes ids label (label.link ids) := by
  cases label with
  | instruction index => exact denotes_ofIndex (of_decide_eq_true h)
  | detached offset => exact .detached offset

/-- A label renumbered for an insertion denotes what it did. -/
theorem Denotes.insertIdx (h : Denotes ids label pointer) (hindex : index ≤ ids.length)
    (fresh : Nat) :
    Denotes (ids.insertIdx index fresh) (label.mapIndex (Code.indexAfterInsert index)) pointer := by
  cases h with
  | @element t id hget =>
    refine .element ?_
    unfold Code.indexAfterInsert
    split
    next hle =>
      rw [List.getElem?_insertIdx_of_gt (Nat.lt_succ_of_le hle)]
      exact hget
    next hlt =>
      rw [List.getElem?_insertIdx_of_lt (Nat.not_le.mp hlt)]
      exact hget
  | finish =>
    show Denotes _ (.instruction (Code.indexAfterInsert index ids.length)) _
    rw [Code.indexAfterInsert, if_pos hindex, ← List.length_insertIdx_of_le_length hindex fresh]
    exact .finish
  | detached offset => exact .detached offset

/-- A label renumbered for a removal denotes what its pointer has become. -/
theorem Denotes.eraseIdx {gone : Nat} (h : Denotes ids label pointer) (hnodup : ids.Nodup)
    (hgone : ids[index]? = some gone) :
    Denotes (ids.eraseIdx index) (label.mapIndex (Code.indexAfterRemove index))
      (Pointer.redirect gone (.ofIndex ids (index + 1)) pointer) := by
  obtain ⟨hlt, _⟩ := List.getElem?_eq_some_iff.mp hgone
  have hlength := List.length_eraseIdx_add_one hlt
  cases h with
  | @element t id hget =>
    -- no identity stands at two indices, so only labels to `index` lose their instruction
    have hother (hne : index ≠ t) : id ≠ gone := by
      rintro rfl
      exact hne ((List.getElem?_inj hlt hnodup).mp (hgone.trans hget.symm))
    simp only [mapIndex, Pointer.redirect, Code.indexAfterRemove]
    rcases Nat.lt_trichotomy t index with hbefore | rfl | hbehind
    · rw [if_neg (hother (Nat.ne_of_gt hbefore)), if_neg (Nat.lt_asymm hbefore)]
      refine .element ?_
      rw [List.getElem?_eraseIdx_of_lt hbefore]
      exact hget
    · -- what points to the removed instruction goes to the one that moves up into its place
      have hid : id = gone := Option.some.inj (hget.symm.trans hgone)
      have hnext : Pointer.ofIndex (ids.eraseIdx t) t = .ofIndex ids (t + 1) := by
        unfold Pointer.ofIndex
        rw [List.getElem?_eraseIdx_of_ge (Nat.le_refl _)]
      rw [if_pos hid, if_neg (Nat.lt_irrefl t), ← hnext]
      exact denotes_ofIndex (by omega)
    · rw [if_neg (hother (Nat.ne_of_lt hbehind)), if_pos hbehind]
      refine .element ?_
      rw [List.getElem?_eraseIdx_of_ge (Nat.le_sub_one_of_lt hbehind),
        Nat.sub_add_cancel (Nat.one_le_of_lt hbehind)]
      exact hget
  | finish =>
    simp only [mapIndex, Pointer.redirect, Code.indexAfterRemove]
    rw [if_pos hlt, ← hlength, Nat.add_sub_cancel]
    exact .finish
  | detached offset => exact .detached offset

end Label

/-! ## Linked code -/

/-- The operand with the indices in its labels erased: all of it that no edit may change. -/
def Operand.unindexed (operand : Operand M) : Operand M :=
  operand.mapLabels (Label.mapIndex fun _ => 0)

theorem Operand.unindexed_mapIndex (f : Nat → Nat) (operand : Operand M) :
    (operand.mapLabels (Label.mapIndex f)).unindexed = operand.unindexed := by
  unfold unindexed
  rw [mapLabels_mapLabels]
  refine mapLabels_congr fun label _ => ?_
  cases label <;> rfl

/-- An instruction in linked code: who it is, and where its branches go. -/
structure Node where
  id : Nat
  pointers : List Pointer
deriving DecidableEq, Repr

namespace Node

/-- The node of an instruction whose labels are indices of `ids`. -/
def ofInstruction (ids : List Nat) (id : Nat) (i : Instruction M) : Node :=
  ⟨id, i.labels.map (Label.link ids)⟩

def redirect (gone : Nat) (next : Pointer) (node : Node) : Node :=
  { node with pointers := node.pointers.map (Pointer.redirect gone next) }

/-- A node describes an instruction: the opcode and, but for indices, the operand are those with
which the instruction of that identity was given, and the labels denote what the node points to. -/
structure Describes (given : List (Instruction M)) (ids : List Nat) (node : Node)
    (i : Instruction M) : Prop where
  origin : ∃ origin, given[node.id]? = some origin ∧ i.opcode = origin.opcode ∧
    i.operand.unindexed = origin.operand.unindexed
  pointers : List.Forall₂ (Label.Denotes ids) i.labels node.pointers

end Node

/-- Code in which branches are pointers: the instructions ever given, each of which is known by its
place in that list, and those that are in the code now. -/
structure LinkedCode (M : OperandModel) where
  given : List (Instruction M)
  nodes : List Node

namespace LinkedCode

/-- Who is in the code, in order. -/
def ids (linked : LinkedCode M) : List Nat := linked.nodes.map Node.id

/-- Code with its labels as pointers. -/
def ofCode (code : Code M) : LinkedCode M :=
  ⟨code.instructions, code.instructions.zipIdx.map fun (i, id) =>
    Node.ofInstruction (List.range code.length) id i⟩

/-- Inserts an instruction before the one at `index`. Its labels count the new instruction. The
other nodes stay as they are. -/
def insert (linked : LinkedCode M) (index : Nat) (i : Instruction M) : LinkedCode M :=
  let fresh := linked.given.length
  let ids := linked.ids.insertIdx index fresh
  ⟨linked.given ++ [i], linked.nodes.insertIdx index (Node.ofInstruction ids fresh i)⟩

/-- Removes the instruction at `index`. What points to it points to the next one from now on, or to
the end if it was the last. -/
def remove (linked : LinkedCode M) (index : Nat) : LinkedCode M :=
  match linked.ids[index]? with
  | none => linked
  | some gone =>
    let next := Pointer.ofIndex linked.ids (index + 1)
    ⟨linked.given, (linked.nodes.eraseIdx index).map (Node.redirect gone next)⟩

/-- Linked code describes code: no identity is used twice, and node by node it describes the
instructions. -/
structure Describes (linked : LinkedCode M) (code : Code M) : Prop where
  nodup : linked.ids.Nodup
  nodes : List.Forall₂ (Node.Describes linked.given linked.ids) linked.nodes code.instructions

end LinkedCode

/-- Whether every label is an offset, or the index of an instruction or of the end. -/
def Code.LabelsInRange (code : Code M) : Prop :=
  ∀ i ∈ code.instructions, ∀ label ∈ i.labels, label.isAtMost code.length

/-! ## One edit -/

namespace Node.Describes

variable {given : List (Instruction M)} {ids : List Nat} {index : Nat} {node : Node}
  {i : Instruction M}

theorem withOffset (h : Describes given ids node i) (offset : Nat) :
    Describes given ids node { i with offset := offset } :=
  ⟨h.origin, h.pointers⟩

theorem id_lt (h : Describes given ids node i) : node.id < given.length := by
  obtain ⟨_, hget, _⟩ := h.origin
  exact (List.getElem?_eq_some_iff.mp hget).1

/-- Renumbering changes nothing that is compared with the instruction as it was given. -/
theorem origin_mapIndex (h : Describes given ids node i) (f : Nat → Nat) :
    ∃ origin, given[node.id]? = some origin ∧
      (i.mapLabels (Label.mapIndex f)).opcode = origin.opcode ∧
      (i.mapLabels (Label.mapIndex f)).operand.unindexed = origin.operand.unindexed := by
  obtain ⟨origin, hget, hopcode, hoperand⟩ := h.origin
  exact ⟨origin, hget, hopcode, (Operand.unindexed_mapIndex f i.operand).trans hoperand⟩

theorem ofInstruction {id : Nat} (hget : given[id]? = some i)
    (hlabels : ∀ label ∈ i.labels, label.isAtMost ids.length) :
    Describes given ids (Node.ofInstruction ids id i) i := by
  refine ⟨⟨i, hget, rfl, rfl⟩, ?_⟩
  refine List.forall₂_map_right_iff.mpr (List.forall₂_same.mpr fun label hlabel => ?_)
  exact Label.denotes_link (hlabels label hlabel)

theorem insertIdx (h : Describes given ids node i) (hindex : index ≤ ids.length)
    (inserted : Instruction M) (fresh : Nat) :
    Describes (given ++ [inserted]) (ids.insertIdx index fresh) node
      (i.mapLabels (Label.mapIndex (Code.indexAfterInsert index))) := by
  constructor
  case origin =>
    rw [List.getElem?_append_left h.id_lt]
    exact h.origin_mapIndex _
  case pointers =>
    show List.Forall₂ _ (i.operand.mapLabels _).labels _
    rw [Operand.labels_mapLabels]
    refine List.forall₂_map_left_iff.mpr (h.pointers.imp fun label pointer hdenotes => ?_)
    exact hdenotes.insertIdx hindex fresh

theorem eraseIdx {gone : Nat} (h : Describes given ids node i) (hnodup : ids.Nodup)
    (hgone : ids[index]? = some gone) :
    Describes given (ids.eraseIdx index)
      (node.redirect gone (Pointer.ofIndex ids (index + 1)))
      (i.mapLabels (Label.mapIndex (Code.indexAfterRemove index))) := by
  constructor
  case origin => exact h.origin_mapIndex _
  case pointers =>
    show List.Forall₂ _ (i.operand.mapLabels _).labels (node.pointers.map _)
    rw [Operand.labels_mapLabels]
    refine List.forall₂_map_left_iff.mpr (List.forall₂_map_right_iff.mpr ?_)
    exact h.pointers.imp fun label pointer hdenotes => hdenotes.eraseIdx hnodup hgone

end Node.Describes

namespace LinkedCode

theorem ids_ofCode (code : Code M) : (ofCode code).ids = List.range code.length := by
  unfold ids ofCode
  rw [List.map_map, List.range_eq_range']
  exact List.zipIdx_map_snd 0 code.instructions

theorem ids_insert (linked : LinkedCode M) (index : Nat) (i : Instruction M) :
    (linked.insert index i).ids = linked.ids.insertIdx index linked.given.length :=
  List.map_insertIdx Node.id linked.nodes index _

theorem remove_of_getElem? {linked : LinkedCode M} {index gone : Nat}
    (h : linked.ids[index]? = some gone) :
    linked.remove index = ⟨linked.given, (linked.nodes.eraseIdx index).map
      (Node.redirect gone (Pointer.ofIndex linked.ids (index + 1)))⟩ := by
  unfold remove
  rw [h]

theorem ids_remove {linked : LinkedCode M} {index gone : Nat}
    (h : linked.ids[index]? = some gone) : (linked.remove index).ids = linked.ids.eraseIdx index := by
  rw [remove_of_getElem? h]
  unfold ids
  rw [List.map_map, List.eraseIdx_map]
  rfl

/-- Code whose labels are in range is described by itself with its labels as pointers. -/
theorem describes_ofCode {code : Code M} (h : code.LabelsInRange) :
    (ofCode code).Describes code := by
  constructor
  case nodup =>
    rw [ids_ofCode]
    exact List.nodup_range
  case nodes =>
    rw [ids_ofCode]
    refine List.forall₂_map_left_iff.mpr (forall₂_zipIdx fun i id hget => ?_)
    refine .ofInstruction hget fun label hlabel => ?_
    rw [List.length_range]
    exact h i (List.mem_of_getElem? hget) label hlabel

namespace Describes

variable {linked : LinkedCode M} {code : Code M} {index : Nat} {i : Instruction M}

theorem length_ids (h : linked.Describes code) : linked.ids.length = code.length := by
  unfold ids
  rw [List.length_map]
  exact h.nodes.length_eq

/-- The next identity to be given away is not in use. -/
theorem length_given_notMem (h : linked.Describes code) : linked.given.length ∉ linked.ids := by
  intro hmem
  obtain ⟨node, hnode, hid⟩ := List.mem_map.mp hmem
  obtain ⟨i, _, hdescribes⟩ := exists_of_mem_left h.nodes hnode
  exact Nat.ne_of_lt hdescribes.id_lt hid

theorem labelsInRange (h : linked.Describes code) : code.LabelsInRange := by
  intro i hi label hlabel
  obtain ⟨node, _, hnode⟩ := exists_of_mem_right h.nodes hi
  obtain ⟨pointer, _, hdenotes⟩ := exists_of_mem_left hnode.pointers hlabel
  rw [← h.length_ids]
  exact hdenotes.isAtMost

/-- An insertion into code that linked code describes, made in both. -/
theorem insert (h : linked.Describes code) (hindex : index ≤ linked.ids.length)
    (hlabels : ∀ label ∈ i.labels, label.isAtMost (linked.ids.length + 1)) :
    ∃ code', code.insertAt? index i = some code' ∧ (linked.insert index i).Describes code' := by
  refine ⟨_, if_pos (h.length_ids ▸ hindex), ?nodup, ?nodes⟩
  case nodup =>
    rw [ids_insert, (List.perm_insertIdx _ _ hindex).nodup_iff, List.nodup_cons]
    exact ⟨h.length_given_notMem, h.nodup⟩
  case nodes =>
    refine forall₂_placeFrom (fun _ _ offset hnode => hnode.withOffset offset) ?_ 0
    rw [ids_insert]
    refine forall₂_insertIdx ?_ ?_ index
    -- the nodes in place are the same, only their labels are renumbered
    · exact List.forall₂_map_right_iff.mpr (h.nodes.imp fun _ _ hnode => hnode.insertIdx hindex i _)
    · refine .ofInstruction List.getElem?_concat_length fun label hlabel => ?_
      rw [List.length_insertIdx_of_le_length hindex]
      exact hlabels label hlabel

/-- A removal from code that linked code describes, made in both. -/
theorem remove (h : linked.Describes code) (hindex : index < linked.ids.length) :
    ∃ removed code', code.removeAt? index = some (removed, code') ∧
      (linked.remove index).Describes code' := by
  have hgone := List.getElem?_eq_getElem hindex
  have hremoved := List.getElem?_eq_getElem (h.length_ids ▸ hindex)
  refine ⟨_, _, by rw [Code.removeAt?, Code.get?, hremoved], ?nodup, ?nodes⟩
  case nodup =>
    rw [ids_remove hgone]
    exact h.nodup.sublist (List.eraseIdx_sublist _ _)
  case nodes =>
    refine forall₂_placeFrom (fun _ _ offset hnode => hnode.withOffset offset) ?_ 0
    rw [ids_remove hgone, remove_of_getElem? hgone]
    refine List.forall₂_map_left_iff.mpr (List.forall₂_map_right_iff.mpr ?_)
    refine forall₂_eraseIdx (h.nodes.imp fun _ _ hnode => ?_) index
    exact hnode.eraseIdx h.nodup hgone

end Describes

end LinkedCode

/-! ## Edits in a row -/

/-- A change to code. -/
inductive Edit (M : OperandModel) where
  | insert (index : Nat) (i : Instruction M)
  | remove (index : Nat)

namespace Edit

/-- The instruction that an edit brings in. -/
def inserted : Edit M → List (Instruction M)
  | insert _ i => [i]
  | remove _ => []

/-- The number of instructions after an edit of `length` of them. -/
def lengthAfter (length : Nat) : Edit M → Nat
  | insert _ _ => length + 1
  | remove _ => length - 1

/-- Whether an edit of `length` instructions names a place among them. The labels of what is
inserted count it. -/
def Allowed (length : Nat) : Edit M → Prop
  | insert index i => index ≤ length ∧ ∀ label ∈ i.labels, label.isAtMost (length + 1)
  | remove index => index < length

/-- Whether each of some edits is allowed where it is made. -/
def AllowedFrom (length : Nat) : List (Edit M) → Prop
  | [] => True
  | edit :: rest => edit.Allowed length ∧ AllowedFrom (edit.lengthAfter length) rest

end Edit

/-- The code after an edit. -/
def Code.edit? (code : Code M) : Edit M → Option (Code M)
  | .insert index i => code.insertAt? index i
  | .remove index => (code.removeAt? index).map Prod.snd

/-- The code after some edits. -/
def Code.edits? (code : Code M) (edits : List (Edit M)) : Option (Code M) :=
  edits.foldlM Code.edit? code

namespace LinkedCode

def edit (linked : LinkedCode M) : Edit M → LinkedCode M
  | .insert index i => linked.insert index i
  | .remove index => linked.remove index

def edits (linked : LinkedCode M) (edits : List (Edit M)) : LinkedCode M :=
  edits.foldl edit linked

theorem given_edit (linked : LinkedCode M) (change : Edit M) :
    (linked.edit change).given = linked.given ++ change.inserted := by
  cases change with
  | insert index i => rfl
  | remove index =>
    rw [edit, remove, Edit.inserted, List.append_nil]
    split <;> rfl

/-- No instruction that was ever given is forgotten, and none is given but by an insertion. -/
theorem given_edits (linked : LinkedCode M) (changes : List (Edit M)) :
    (linked.edits changes).given = linked.given ++ changes.flatMap Edit.inserted := by
  induction changes generalizing linked with
  | nil => exact (List.append_nil _).symm
  | cons change rest ih =>
    show ((linked.edit change).edits rest).given = _
    rw [ih, given_edit, List.append_assoc, List.flatMap_cons]

theorem length_ids_edit {linked : LinkedCode M} {change : Edit M}
    (h : change.Allowed linked.ids.length) :
    (linked.edit change).ids.length = change.lengthAfter linked.ids.length := by
  cases change with
  | insert index i =>
    rw [edit, ids_insert]
    exact List.length_insertIdx_of_le_length h.1 _
  | remove index =>
    rw [edit, ids_remove (List.getElem?_eq_getElem h)]
    exact List.length_eraseIdx_of_lt h

namespace Describes

variable {linked : LinkedCode M} {code : Code M}

theorem edit {change : Edit M} (h : linked.Describes code)
    (hallowed : change.Allowed linked.ids.length) :
    ∃ code', code.edit? change = some code' ∧ (linked.edit change).Describes code' := by
  cases change with
  | insert index i => exact h.insert hallowed.1 hallowed.2
  | remove index =>
    obtain ⟨removed, code', hremove, hdescribes⟩ := h.remove hallowed
    refine ⟨code', ?_, hdescribes⟩
    rw [Code.edit?, hremove]
    rfl

theorem edits {changes : List (Edit M)} (h : linked.Describes code)
    (hallowed : Edit.AllowedFrom linked.ids.length changes) :
    ∃ code', code.edits? changes = some code' ∧ (linked.edits changes).Describes code' := by
  induction changes generalizing linked code with
  | nil => exact ⟨code, rfl, h⟩
  | cons change rest ih =>
    obtain ⟨hchange, hrest⟩ := hallowed
    obtain ⟨middle, hedit, hmiddle⟩ := h.edit hchange
    rw [← length_ids_edit hchange] at hrest
    obtain ⟨code', hedits, hdescribes⟩ := ih hmiddle hrest
    refine ⟨code', ?_, hdescribes⟩
    rw [Code.edits?, List.foldlM_cons, hedit]
    exact hedits

end Describes

/-- Edits of code with its labels in range succeed. What they leave is described by the linked code
that the same edits leave, so every instruction in it is one of those given, with labels that denote
what its pointers point to; and its labels are in range. -/
theorem describes_edits {code : Code M} {changes : List (Edit M)} (hlabels : code.LabelsInRange)
    (hallowed : Edit.AllowedFrom code.length changes) :
    ∃ code', code.edits? changes = some code' ∧ code'.LabelsInRange ∧
      ((ofCode code).edits changes).Describes code' ∧
      ((ofCode code).edits changes).given =
        code.instructions ++ changes.flatMap Edit.inserted := by
  have hstart := describes_ofCode hlabels
  rw [← hstart.length_ids] at hallowed
  obtain ⟨code', hedits, hdescribes⟩ := hstart.edits hallowed
  exact ⟨code', hedits, hdescribes.labelsInRange, hdescribes, given_edits _ _⟩

/-- A branch over two instructions; a switch to itself, to the end and into nowhere comes in
between, and the instruction that the branch goes to is removed. -/
theorem describes_edits_switch :
    Code.LabelsInRange (M := RawModel) ⟨[⟨0, ⟨42⟩, .target (.instruction 2)⟩, ⟨2, ⟨0⟩, .none⟩,
      ⟨3, ⟨41⟩, .none⟩]⟩ ∧
    Edit.AllowedFrom (M := RawModel) 3 [.insert 1 ⟨0, ⟨68⟩,
      .switch [.instruction 1, .instruction 4, .detached 9]⟩, .remove 3] ∧
    LinkedCode.Describes (M := RawModel)
      ⟨[⟨0, ⟨42⟩, .target (.instruction 2)⟩, ⟨2, ⟨0⟩, .none⟩, ⟨3, ⟨41⟩, .none⟩,
        ⟨0, ⟨68⟩, .switch [.instruction 1, .instruction 4, .detached 9]⟩],
      [⟨0, [.finish]⟩, ⟨3, [.element 3, .finish, .detached 9]⟩, ⟨1, []⟩]⟩
      ⟨[⟨0, ⟨42⟩, .target (.instruction 3)⟩,
        ⟨2, ⟨68⟩, .switch [.instruction 1, .instruction 3, .detached 9]⟩, ⟨19, ⟨0⟩, .none⟩]⟩ := by
  have hlabels : Code.LabelsInRange (M := RawModel) ⟨[⟨0, ⟨42⟩, .target (.instruction 2)⟩,
      ⟨2, ⟨0⟩, .none⟩, ⟨3, ⟨41⟩, .none⟩]⟩ := by
    simp [Code.LabelsInRange, Instruction.labels, Operand.labels, Label.isAtMost, Code.length]
  have hallowed : Edit.AllowedFrom (M := RawModel) 3 [.insert 1 ⟨0, ⟨68⟩,
      .switch [.instruction 1, .instruction 4, .detached 9]⟩, .remove 3] := by
    simp [Edit.AllowedFrom, Edit.Allowed, Edit.lengthAfter, Instruction.labels, Operand.labels,
      Label.isAtMost]
  obtain ⟨code', hedits, _, hdescribes, _⟩ := describes_edits hlabels hallowed
  cases hedits
  exact ⟨hlabels, hallowed, hdescribes⟩

end LinkedCode

end CilCodec
