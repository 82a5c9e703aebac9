import CilCodec.Proofs.Bytes.Writing

/-!
# CilCodec.Proofs.Bytes.Accepting

Writers that accept exactly what has a property.

`w.Accepts P Q count` decides `w`: it succeeds exactly if `P` holds, having written `count` bytes,
and otherwise stops for something that has `Q`, before it has written as many. The lemmas of this
module put such facts together as the writers are put together, so that what a composite writer
accepts is what its checks say, and nothing else.

In a row of elements, the first that is not accepted is what stops the writer (`FirstStops`).
-/

namespace CilCodec.Writer

/-- `w` writes `count` bytes if `P`, and stops short of them for something that has `Q` if not. -/
def Accepts (w : Writer Unit) (P : Prop) (Q : Stop → Prop) (count : Nat) : Prop :=
  ∀ b : Buffer,
    (P ∧ ∃ bytes, bytes.length = count ∧ w b = .ok () (b.append bytes)) ∨
      (¬ P ∧ ∃ stop bytes, bytes.length < count ∧ Q stop ∧ w b = .error stop (b.append bytes))

/-- Some element stops for `stop`, and is the first that does not have `P`. -/
def FirstStops {α : Type} (P : α → Prop) (Q : α → Stop → Prop) (as : List α) (stop : Stop) : Prop :=
  ∃ before a behind, as = before ++ a :: behind ∧ (∀ earlier ∈ before, P earlier) ∧ ¬ P a ∧ Q a stop

theorem Puts.accepts {w : Writer Unit} {bytes : List UInt8} (h : Puts w bytes)
    (Q : Stop → Prop) : w.Accepts True Q bytes.length :=
  fun b => .inl ⟨trivial, bytes, rfl, h b⟩

theorem word_accepts {α : Type} [LittleEndian α] (value : α) (Q : Stop → Prop) :
    Accepts (word value) True Q (LittleEndian.size α) := by
  have h := (word_puts value).accepts Q
  rwa [LittleEndian.length_encode] at h

namespace Accepts

variable {w : Writer Unit} {P P' : Prop} {Q Q' : Stop → Prop} {count : Nat}

theorem congr (h : w.Accepts P Q count) (hiff : P ↔ P') : w.Accepts P' Q count :=
  propext hiff ▸ h

theorem imp (h : w.Accepts P Q count) (himp : ¬ P → ∀ stop, Q stop → Q' stop) :
    w.Accepts P Q' count := by
  intro b
  rcases h b with hok | ⟨hP, stop, bytes, hlength, hQ, herror⟩
  · exact .inl hok
  · exact .inr ⟨hP, stop, bytes, hlength, himp hP stop hQ, herror⟩

/-- A check in front of a writer that writes something. -/
theorem guarded {p : Prop} [Decidable p] {stop : Stop} (h : p → w.Accepts P Q count)
    (hcount : 0 < count) (hstop : ¬ p → Q stop) :
    Accepts (if p then w else throw stop) (p ∧ P) Q count := by
  intro b
  by_cases hp : p
  · rw [if_pos hp]
    rcases h hp b with ⟨hP, hok⟩ | ⟨hP, herror⟩
    · exact .inl ⟨⟨hp, hP⟩, hok⟩
    · exact .inr ⟨fun hboth => hP hboth.2, herror⟩
  · rw [if_neg hp]
    exact .inr ⟨fun hboth => hp hboth.1, stop, [], hcount, hstop hp, by
      rw [Buffer.append_nil]
      rfl⟩

/-- A check in front of the steps that need it. -/
theorem require {p : Prop} [Decidable p] {stop : Stop} {f : PUnit → Writer Unit}
    (h : p → w.Accepts P Q count) (hcount : 0 < count) (hstop : ¬ p → Q stop) :
    Accepts (if p then w else (throw stop >>= f)) (p ∧ P) Q count :=
  guarded h hcount hstop

theorem andThen {next : Unit → Writer Unit} {more : Nat} (h : w.Accepts P Q count)
    (h' : P → (next ()).Accepts P' Q more) :
    Accepts (w >>= next) (P ∧ P') Q (count + more) := by
  intro b
  rcases h b with ⟨hP, bytes, hlength, hok⟩ | ⟨hP, stop, bytes, hlength, hQ, herror⟩
  · rw [bind_of_ok hok]
    rcases h' hP (b.append bytes) with ⟨hP', bytes', hlength', hok'⟩ |
      ⟨hP', stop, bytes', hlength', hQ, herror⟩
    · refine .inl ⟨⟨hP, hP'⟩, bytes ++ bytes', ?_, ?_⟩
      · rw [List.length_append, hlength, hlength']
      · rw [hok', Buffer.append_append]
    · refine .inr ⟨fun hboth => hP' hboth.2, stop, bytes ++ bytes', ?_, hQ, ?_⟩
      · rw [List.length_append, hlength]
        exact Nat.add_lt_add_left hlength' count
      · rw [herror, Buffer.append_append]
  · rw [bind_of_error herror]
    exact .inr ⟨fun hboth => hP hboth.1, stop, bytes, Nat.lt_add_right more hlength, hQ, rfl⟩

/-- What follows an answer is asked about that answer only. -/
theorem bindAnswer {α : Type} {answer : Except Stop α} {f : α → Writer Unit} {P : α → Prop}
    (hok : ∀ a, answer = .ok a → (f a).Accepts (P a) Q count)
    (herror : ∀ stop, answer = .error stop → 0 < count ∧ Q stop) :
    Accepts (ofAnswer answer >>= f) (∃ a, answer = .ok a ∧ P a) Q count := by
  intro b
  cases answer with
  | ok a =>
    rw [bind_of_ok (ofAnswer_eq_ok.mpr ⟨rfl, rfl⟩)]
    exact ((hok a rfl).congr (by simp)) b
  | error stop =>
    obtain ⟨hcount, hQ⟩ := herror stop rfl
    rw [bind_of_error (ofAnswer_eq_error.mpr ⟨rfl, rfl⟩)]
    exact .inr ⟨by simp, stop, [], hcount, hQ, by rw [Buffer.append_nil]⟩

theorem bindResult {α : Type} {result : Except Error α} {f : α → Writer Unit} {P : α → Prop}
    (hok : ∀ a, result = .ok a → (f a).Accepts (P a) Q count)
    (herror : ∀ e, result = .error e → 0 < count ∧ Q (.refused e)) :
    Accepts (ofResult result >>= f) (∃ a, result = .ok a ∧ P a) Q count := by
  have hanswer : (∃ a, result.mapError Stop.refused = .ok a ∧ P a) ↔
      ∃ a, result = .ok a ∧ P a := by
    constructor
    · rintro ⟨a, h, ha⟩
      cases result <;> cases h
      exact ⟨a, rfl, ha⟩
    · rintro ⟨a, rfl, ha⟩
      exact ⟨a, rfl, ha⟩
  refine congr (bindAnswer (fun a h => hok a ?_) fun stop h => ?_) hanswer
  · cases result <;> cases h
    rfl
  · cases result <;> cases h
    exact herror _ rfl

end Accepts

theorem each_cons {α : Type} (write : α → Writer Unit) (a : α) (as : List α) :
    each write (a :: as) = write a >>= fun _ => each write as := by
  funext b
  rw [each]
  show _ = EStateM.bind (write a) (fun _ => each write as) b
  unfold EStateM.bind
  cases write a b <;> rfl

/-! ## Elements in a row -/

section Row

variable {α : Type} {P : α → Prop} {Q : α → Stop → Prop} {a : α} {as : List α} {stop : Stop}

theorem FirstStops.here (ha : ¬ P a) (hstop : Q a stop) : FirstStops P Q (a :: as) stop :=
  ⟨[], a, as, rfl, List.forall_mem_nil _, ha, hstop⟩

theorem FirstStops.later (ha : P a) (h : FirstStops P Q as stop) :
    FirstStops P Q (a :: as) stop := by
  obtain ⟨before, b, behind, rfl, hbefore, hb, hstop⟩ := h
  exact ⟨a :: before, b, behind, rfl, List.forall_mem_cons.mpr ⟨ha, hbefore⟩, hb, hstop⟩

/-- There is only one first. -/
theorem FirstStops.unique {other : Stop} (h : FirstStops P Q as stop)
    (h' : FirstStops P Q as other) : ∃ a ∈ as, Q a stop ∧ Q a other := by
  classical
  obtain ⟨before, a, behind, has, hbefore, ha, hstop⟩ := h
  obtain ⟨before', a', behind', has', hbefore', ha', hother⟩ := h'
  have hfind : as.find? (fun x => ¬ P x) = some a := by
    rw [List.find?_eq_some_iff_append]
    exact ⟨by simpa using ha, before, behind, has, by simpa using hbefore⟩
  have hfind' : as.find? (fun x => ¬ P x) = some a' := by
    rw [List.find?_eq_some_iff_append]
    exact ⟨by simpa using ha', before', behind', has', by simpa using hbefore'⟩
  obtain rfl : a = a' := Option.some.inj (hfind.symm.trans hfind')
  exact ⟨a, List.mem_of_find?_eq_some hfind, hstop, hother⟩

/-- A writer for each element in turn accepts what all of them accept, and stops for the first that
is not accepted. -/
theorem each_accepts {write : α → Writer Unit} {count : Nat}
    (h : ∀ a, (write a).Accepts (P a) (Q a) count) (as : List α) :
    Accepts (each write as) (∀ a ∈ as, P a) (FirstStops P Q as) (count * as.length) := by
  induction as with
  | nil => exact (pure_puts.accepts _).congr (by simp)
  | cons a as ih =>
    have hboth : Accepts (write a >>= fun _ => each write as) (P a ∧ ∀ a ∈ as, P a)
        (FirstStops P Q (a :: as)) (count + count * as.length) :=
      ((h a).imp fun ha _ => .here ha).andThen fun ha => ih.imp fun _ _ => .later ha
    rw [List.length_cons, Nat.mul_succ, Nat.add_comm, each_cons]
    exact hboth.congr List.forall_mem_cons.symm

end Row

end CilCodec.Writer
