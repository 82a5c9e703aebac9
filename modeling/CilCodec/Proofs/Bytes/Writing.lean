import CilCodec.Bytes.Buffer
import CilCodec.Proofs.Bytes.Reading

/-!
# CilCodec.Proofs.Bytes.Writing

What a successful write leaves in the buffer.

`Writer.Puts w bytes` says that `w` succeeds from every buffer and leaves `bytes` behind what is
there already, and no notice. Composite writers are put together from such facts
(`Puts.andThen`, `each_puts`), or taken apart by the equivalences below.
-/

namespace CilCodec

section Checks

variable {ε σ α β : Type} {p : Prop} [Decidable p] {e : ε} {s t : σ} {b : β}

/-- A step that is taken only after a check. -/
theorem guarded_eq_ok {x : EStateM ε σ β} :
    (if p then x else throw e) s = .ok b t ↔ p ∧ x s = .ok b t := by
  by_cases h : p
  · rw [if_pos h]
    exact ⟨fun hok => ⟨h, hok⟩, fun ⟨_, hok⟩ => hok⟩
  · rw [if_neg h]
    exact ⟨fun hok => absurd hok throw_ne_ok, fun ⟨hp, _⟩ => absurd hp h⟩

/-- A check in front of the steps that need it. -/
theorem require_eq_ok {f : α → EStateM ε σ β} {x : EStateM ε σ β} :
    (if p then x else (throw e >>= f)) s = .ok b t ↔ p ∧ x s = .ok b t := by
  rw [← ite_not, refuse_eq_ok, Decidable.not_not]

end Checks

namespace Writer

theorem position_eq_ok {b b' : Buffer} {pos : Nat} :
    position b = .ok pos b' ↔ b.pos = pos ∧ b = b' := by
  simp [position]

theorem note_eq_ok {n : Notice} {b b' : Buffer} {u : Unit} :
    note n b = .ok u b' ↔ { b with notices := b.notices.push n } = b' := by
  simp [note]

theorem ofAnswer_eq_ok {α : Type} {answer : Except Stop α} {b b' : Buffer} {a : α} :
    ofAnswer answer b = .ok a b' ↔ answer = .ok a ∧ b = b' := by
  cases answer <;> simp [ofAnswer]

theorem ofAnswer_eq_error {α : Type} {answer : Except Stop α} {b b' : Buffer} {stop : Stop} :
    ofAnswer answer b = .error stop b' ↔ answer = .error stop ∧ b = b' := by
  cases answer <;> simp [ofAnswer]

theorem ofResult_ok {α : Type} (a : α) : ofResult (.ok a) = ofAnswer (.ok a) := rfl

theorem ofResult_error {α : Type} (e : Error) :
    ofResult (.error e : Except Error α) = ofAnswer (.error (.refused e)) := rfl

theorem ofResult_eq_ok {α : Type} {result : Except Error α} {b b' : Buffer} {a : α} :
    ofResult result b = .ok a b' ↔ result = .ok a ∧ b = b' := by
  cases result <;> simp [ofResult_ok, ofResult_error, ofAnswer]

theorem ofResult_eq_error {α : Type} {result : Except Error α} {b b' : Buffer} {stop : Stop} :
    ofResult result b = .error stop b' ↔
      ∃ e, result = .error e ∧ .refused e = stop ∧ b = b' := by
  cases result <;> simp [ofResult_ok, ofResult_error, ofAnswer]

theorem put_eq_ok {bytes : List UInt8} {b b' : Buffer} {u : Unit} :
    put bytes b = .ok u b' ↔ b.append bytes = b' := by
  simp

theorem word_eq_ok {α : Type} [LittleEndian α] {value : α} {b b' : Buffer} {u : Unit} :
    word value b = .ok u b' ↔ b.append (LittleEndian.encode value) = b' := by
  simp

theorem answer_eq_ok {w : Writer Unit} {bytes : Array UInt8} :
    w.answer = .ok bytes ↔ ∃ b, w Buffer.empty = .ok () b ∧ b.bytes = bytes := by
  unfold answer report
  cases w Buffer.empty <;> simp

theorem answer_eq_error {w : Writer Unit} {stop : Stop} :
    w.answer = .error stop ↔ ∃ b, w Buffer.empty = .error stop b := by
  unfold answer report
  cases w Buffer.empty <;> simp

/-- From the front on, as many zeros are written as reading skips. -/
theorem gap_zero (pos unit : Nat) : gap 0 pos unit = Reader.gap pos unit := by
  rw [gap, Reader.gap, Nat.zero_add]

/-- The writer succeeds and leaves `bytes` at the end, whatever was written before. -/
def Puts (w : Writer Unit) (bytes : List UInt8) : Prop :=
  ∀ b : Buffer, w b = .ok () (b.append bytes)

theorem word_puts {α : Type} [LittleEndian α] (value : α) :
    Puts (word value) (LittleEndian.encode value) := fun _ => rfl

theorem pure_puts : Puts (pure ()) [] := by
  intro b
  rw [Buffer.append_nil]
  rfl

theorem Puts.andThen {w : Writer Unit} {next : Unit → Writer Unit} {first second : List UInt8}
    (h : Puts w first) (h' : Puts (next ()) second) : Puts (w >>= next) (first ++ second) := by
  intro b
  rw [bind_eq_ok]
  refine ⟨(), b.append first, h b, ?_⟩
  rw [h' (b.append first), Buffer.append_append]

theorem Puts.answer_eq {w : Writer Unit} {bytes : List UInt8} (h : Puts w bytes) :
    w.answer = .ok bytes.toArray := by
  refine answer_eq_ok.mpr ⟨_, h Buffer.empty, ?_⟩
  rw [← Array.toList_inj, Buffer.toList_append]
  rfl

theorem Puts.unique {w : Writer Unit} {first second : List UInt8} (h : Puts w first)
    (h' : Puts w second) : first = second := by
  have hanswer := h.answer_eq.symm.trans h'.answer_eq
  exact List.toArray_inj (Except.ok.inj hanswer)

theorem each_puts {α : Type} {write : α → Writer Unit} {bytes : α → List UInt8} :
    ∀ {as : List α}, (∀ a ∈ as, Puts (write a) (bytes a)) → Puts (each write as) (as.flatMap bytes)
  | [], _ => pure_puts
  | a :: as, h => by
    intro b
    have hfirst := h a List.mem_cons_self b
    have hrest := each_puts (fun a' ha' => h a' (List.mem_cons_of_mem a ha')) (b.append (bytes a))
    rw [each, hfirst]
    simp only
    rw [hrest, Buffer.append_append, List.flatMap_cons]

theorem each_cons_eq_ok {α : Type} {write : α → Writer Unit} {a : α} {as : List α}
    {b b' : Buffer} {u : Unit} :
    each write (a :: as) b = .ok u b' ↔
      ∃ middle, write a b = .ok () middle ∧ each write as middle = .ok u b' := by
  rw [each]
  cases write a b <;> simp

end Writer

end CilCodec
