/-
MathMarkup/Proofs/Peeking.lean

Looking ahead is invisible.  A cursor that has peeked differs from one that has
not: its scanner stands behind the next token, in the mode that this token
sets.  But all that can be asked of a cursor is to take or to peek, and to
neither question does it make a difference whether somebody has peeked before
(`take_peek`, `peek_peek`).

So two cursors are compared, one that answers all calls and one that only hears
of the takes: at any time the first is the second, or the second after a peek
(`Ahead`).  A take brings them together again, after an error and after the end
of input just as after a token.
-/
import MathMarkup.Token.Cursor

namespace MathMarkup

namespace Cursor

/-! ### Calls -/

/-- What can be asked of a cursor. -/
inductive Call
  | take
  | peek
  deriving DecidableEq, Repr

/-- A call that was made, what it found, and the offset it left the cursor at. -/
structure Answer where
  call : Call
  found : Found
  offset : Nat

/-- Makes a call. -/
def ask (c : Cursor) : Call → Found × Cursor
  | .take => c.take
  | .peek => c.peek

/-- The answers to calls that are made one after another. -/
def answers : Cursor → List Call → List Answer
  | _, [] => []
  | c, call :: calls =>
    ⟨call, (c.ask call).1, (c.ask call).2.offset⟩ :: (c.ask call).2.answers calls

/-- The calls that take. -/
def takes (calls : List Call) : List Call :=
  calls.filter (· == .take)

/-- The offset behind some answers of a cursor. -/
def lastOffset (c : Cursor) (before : List Answer) : Nat :=
  (before.getLast?.map (·.offset)).getD c.offset

theorem lastOffset_cons (c c' : Cursor) (call : Call) (found : Found) (before : List Answer) :
    lastOffset c (⟨call, found, c'.offset⟩ :: before) = lastOffset c' before := by
  rw [lastOffset, lastOffset, List.getLast?_cons]
  cases before.getLast? with
  | none => rfl
  | some a => rfl

/-! ### One peek -/

/-- Who peeks is told what would be taken. -/
theorem peek_found (c : Cursor) : c.peek.1 = c.take.1 := by
  rcases h : c.peeked with - | ⟨found, offset⟩
  · simp only [peek, take, h]
  · simp only [peek, take, h]

theorem peek_offset (c : Cursor) : c.peek.2.offset = c.offset := by
  rcases h : c.peeked with - | ⟨found, offset⟩
  · simp only [peek, h]
  · simp only [peek, h]

/-- A take after a peek is the take without it, and leaves the same cursor. -/
theorem take_peek (c : Cursor) : c.peek.2.take = c.take := by
  rcases h : c.peeked with - | ⟨found, offset⟩
  · simp only [peek, take, h]
  · simp only [peek, take, h]

theorem peek_peek (c : Cursor) : c.peek.2.peek = c.peek := by
  rcases h : c.peeked with - | ⟨found, offset⟩
  · simp only [peek, h]
  · simp only [peek, h]

/-! ### Two cursors side by side -/

/-- The second cursor is the first, or the first after a peek. -/
inductive Ahead (d : Cursor) : Cursor → Prop
  | same : Ahead d d
  | peeked : Ahead d d.peek.2

namespace Ahead

variable {c d : Cursor}

theorem offset (h : Ahead d c) : c.offset = d.offset := by
  cases h with
  | same => rfl
  | peeked => exact d.peek_offset

/-- A take brings the two together. -/
theorem take (h : Ahead d c) : c.take = d.take := by
  cases h with
  | same => rfl
  | peeked => exact d.take_peek

theorem peek (h : Ahead d c) : c.peek = d.peek := by
  cases h with
  | same => rfl
  | peeked => exact d.peek_peek

/-- After a peek the second cursor is ahead of the first, as it may have been
before. -/
theorem after_peek (h : Ahead d c) : Ahead d c.peek.2 := by
  rw [h.peek]
  exact .peeked

/-- The takes among the calls are answered as if there were no others; by
induction on the calls. -/
theorem answers_takes (h : Ahead d c) (calls : List Call) :
    (c.answers calls).filter (·.call == .take) = d.answers (takes calls) := by
  induction calls generalizing c d with
  | nil => rfl
  | cons call calls ih =>
    cases call with
    | take =>
      have hsame : (c.ask .take) = d.take := h.take
      have hrest := ih (Ahead.same (d := d.take.2))
      show (⟨.take, _, _⟩ : Answer) :: ((c.ask .take).2.answers calls).filter _ = _
      rw [hsame, hrest]
      rfl
    | peek => exact ih h.after_peek

/-- The answer to a peek: what the next take alone finds, and the offset as it
was.  The answers before it say how many takes the other cursor has heard of. -/
theorem answer_peek (h : Ahead d c) {calls : List Call} {before after : List Answer} {a : Answer}
    (hsplit : c.answers calls = before ++ a :: after) (ha : a.call = .peek) :
    a.offset = lastOffset c before ∧
      ∃ offset, (d.answers (List.replicate (before.countP (·.call == .take) + 1) .take)).getLast? =
        some ⟨.take, a.found, offset⟩ := by
  induction calls generalizing c d before with
  | nil => simp [answers] at hsplit
  | cons call calls ih =>
    rcases before with - | ⟨b, before⟩
    · -- The peek is the first call, and the other cursor takes at once.
      obtain ⟨rfl, -⟩ := List.cons.inj hsplit
      obtain rfl : call = .peek := ha
      have hfound : c.peek.1 = d.take.1 := by
        rw [h.peek]
        exact d.peek_found
      refine ⟨c.peek_offset, d.take.2.offset, ?_⟩
      show some (⟨.take, d.take.1, d.take.2.offset⟩ : Answer) = some ⟨.take, c.peek.1, _⟩
      rw [hfound]
    · obtain ⟨rfl, hrest⟩ := List.cons.inj hsplit
      rw [lastOffset_cons]
      cases call with
      | take =>
        have hsame : c.ask .take = d.take := h.take
        rw [hsame] at hrest ⊢
        obtain ⟨hoffset, offset, hlast⟩ := ih .same hrest
        refine ⟨hoffset, offset, ?_⟩
        rw [List.countP_cons_of_pos rfl, List.replicate_succ, answers, List.getLast?_cons]
        exact congrArg some (congrArg (Option.getD · _) hlast)
      | peek =>
        rw [List.countP_cons_of_neg Bool.false_ne_true]
        exact ih h.after_peek hrest

end Ahead

/-! ### Sources -/

/-- **Peeking is invisible.**  Whatever calls are made on a source, in whatever
order, the takes among them are answered like a run of takes alone.  A peek
leaves the offset where it was, and finds what the next take finds, which is
the last answer of a run of one take more than were made before it. -/
theorem peeking_invisible (source : Bytes) (calls : List Call) :
    ((start source).answers calls).filter (·.call == .take) =
        (start source).answers (takes calls) ∧
      ∀ before a after, (start source).answers calls = before ++ a :: after → a.call = .peek →
        a.offset = lastOffset (start source) before ∧
          ∃ offset, ((start source).answers
            (List.replicate (before.countP (·.call == .take) + 1) .take)).getLast? =
              some ⟨.take, a.found, offset⟩ := by
  have hstart : Ahead (start source) (start source) := .same
  refine ⟨hstart.answers_takes calls, ?_⟩
  intro before a after hsplit ha
  exact hstart.answer_peek hsplit ha

/-- Looking at both digits behind a command, of which each is a token of its own
only because of that command. -/
theorem peeking_invisible_digits :
    let c := start (utf8 "\\frac12")
    let calls : List Call := [.take, .peek, .take, .peek]
    (c.answers calls).filter (·.call == .take) = c.answers [.take, .take] ∧
      ∃ a, (c.answers calls)[3]? = some a ∧ a.call = .peek ∧ a.offset = 5 ∧
        ∃ offset, (c.answers [.take, .take, .take]).getLast? = some ⟨.take, a.found, offset⟩ := by
  intro c calls
  obtain ⟨htakes, hpeeks⟩ := peeking_invisible (utf8 "\\frac12") calls
  obtain ⟨hoffset, hfound⟩ := hpeeks (c.answers [.take, .peek, .take]) _ [] rfl rfl
  have hlast : lastOffset c (c.answers [.take, .peek, .take]) = 5 := by decide +kernel
  exact ⟨htakes, _, rfl, rfl, hoffset.trans hlast, hfound⟩

end Cursor

end MathMarkup
