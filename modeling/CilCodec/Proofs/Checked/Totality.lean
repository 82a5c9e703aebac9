import CilCodec.Proofs.Checked.Import
import CilCodec.Proofs.Checked.Metadata
import CilCodec.Proofs.Checked.Method

/-!
# CilCodec.Proofs.Checked.Totality

Decoding ends, and its arithmetic stays in range.

Whatever the bytes are, and wherever in them it starts, a decoder with every sum, difference,
product and slice checked comes to an answer or to an error of the format, and it is that of the
decoder itself. Lengths come from the bytes and can be as large as their words. Each of them is
compared with what is left of the data before it is used, and no reader moves behind the end of the
data.

Result: `decoding_total`.
-/

namespace CilCodec

open Checked

/-- At `c`, a checked step ends as the decoder does: with the same answer or the same error, and at
the same place in the data, not in front of `c`. So it does not fault. -/
inductive EndsAlike {α : Type} (m : Checked α) (r : Reader α) (c : Cursor) : Prop
  | answers {a : α} {c' : Cursor} :
      m c = .ok a c' → r c = .ok a c' → c'.Within c.data c.pos → EndsAlike m r c
  | refuses {e : Error} {c' : Cursor} :
      m c = .error (.refused e) c' → r c = .error e c' → c'.Within c.data c.pos → EndsAlike m r c

/-- Over whole data, a checked step and the decoder come to the same answer or the same error. -/
inductive AnswersAlike {α : Type} (x : Except Stop α) (y : Except Error α) : Prop
  | answers {a : α} : x = .ok a → y = .ok a → AnswersAlike x y
  | refuses {e : Error} : x = .error (.refused e) → y = .error e → AnswersAlike x y

variable {α : Type} {c : Cursor}

theorem EndsAlike.of_matchesAt {m : Checked α} {r : Reader α}
    (h : MatchesAt c.data c.pos m r c) : EndsAlike m r c := by
  cases hread : r c with
  | ok a c' => exact .answers (h.runs.trans (ofReader_of_ok hread)) hread (h.of_ok hread)
  | error e c' => exact .refuses (h.runs.trans (ofReader_of_error hread)) hread (h.of_error hread)

theorem EndsAlike.of_matches {m : Checked α} {r : Reader α} (hpos : c.pos ≤ c.data.size)
    (hsmall : c.data.size ≤ Buffer.limit) (h : Matches c.data c.pos m r) : EndsAlike m r c :=
  .of_matchesAt (h c (.here hpos hsmall))

theorem AnswersAlike.of_eq {x : Except Stop α} {y : Except Error α}
    (h : x = y.mapError .refused) : AnswersAlike x y := by
  cases hy : y with
  | ok a => exact .answers (by rw [h, hy]; rfl) rfl
  | error e => exact .refuses (by rw [h, hy]; rfl) rfl

/-- Every decoder ends with an answer or an error, at every position of every byte string, and on
the way there every sum, difference and product fits its word and every slice its bounds. A byte
string has at most `Buffer.limit` bytes, as many as a slice can have. The size of the code is what
the caller says it is, and may be any number; all that is left out is code of more than
`branchLimit` bytes which are there, within two gigabytes of the longest byte string. The target of
a branch at the end of such code can lie beyond the greatest signed word. -/
theorem decoding_total {M : OperandModel} (R : Resolver M) (locals : List M.LocalVariable)
    (config : Config) (c : Cursor) (hpos : c.pos ≤ c.data.size)
    (hsmall : c.data.size ≤ Buffer.limit) :
    AnswersAlike (Checked.decode c.data R config) (MethodBody.decode c.data R config) ∧
    (∀ size, (c.pos + size ≤ c.data.size → size ≤ branchLimit) →
      EndsAlike (codeReader size R locals config) (Code.reader size R locals config) c) ∧
    EndsAlike (sections config) (MethodSection.reader config) c ∧
    EndsAlike hintName HintName.reader c ∧
    (∀ width, EndsAlike (lookupTable width) (ImportEntry.tableReader width) c) ∧
    (∀ kind info, EndsAlike (codedIndex kind info) (CodedIndex.reader kind info) c) ∧
    AnswersAlike (tableInfo.answer c.data) (TableInfo.read c.data) := by
  refine ⟨.of_eq (decode_eq hsmall), ?code, .of_matches hpos hsmall sections_matches,
    .of_matches hpos hsmall hintName_matches, ?thunks, ?coded, .of_eq (tableInfo_eq hsmall)⟩
  case code =>
    intro size hsize
    exact .of_matchesAt (codeReader_matchesAt (.here hpos hsmall) hsize)
  case thunks =>
    intro width
    exact .of_matches hpos hsmall (lookupTable_matches width)
  case coded =>
    intro kind info
    exact .of_matches hpos hsmall (codedIndex_matches kind info)

/-- The header of a section that says it holds sixteen megabytes of clauses. -/
def greedySection : Array UInt8 := #[0x41, 0xf4, 0xff, 0xff]

/-- The clauses it announces are asked for and refused. -/
theorem decoding_total_greedy :
    sections .default (Cursor.start greedySection) =
      .error (.refused (.truncated 4 16777200)) { Cursor.start greedySection with pos := 4 } ∧
    EndsAlike (sections .default) (MethodSection.reader .default) (Cursor.start greedySection) ∧
    EndsAlike (codeReader 4 rawResolver [] .default) (Code.reader 4 rawResolver [] .default)
      (Cursor.start greedySection) := by
  obtain ⟨_, hcode, hsections, _⟩ := decoding_total rawResolver [] .default
    (Cursor.start greedySection) (by decide) (by decide)
  exact ⟨rfl, hsections, hcode 4 fun _ => by decide⟩

end CilCodec
