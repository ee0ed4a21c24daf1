/-
MathMarkup/Proofs/ErrorPlaces.lean

Where errors are reported.  An error that parsing raises is about one token: it
calls the token by its name and tells the offset of it, or the token is the
brace behind a column specification that is not plain text (`Error.IsAbout`).
One step raises no other error (`State.isAbout_of_step`), and a run stops at the
first one (`State.exists_isAbout_of_run`), so the error does not depend on
anything behind that token.

What ends the tokens of a source comes last, whether it is the end of input or a
fault (`Lexemes.parse_of_fault`).
-/
import MathMarkup.Tree.Parser

namespace MathMarkup

/-- An error that a token gives rise to where it stands. -/
inductive Error.IsAbout (l : Lexeme) : Error → Prop
  | unexpected (what : Bytes) : IsAbout l (.unexpected what l.token.describe l.offset)
  | delimiter (side : Bytes) : IsAbout l (.delimiter side l.token.describe l.offset)
  | columns : l.token = .groupEnd → IsAbout l .columnSpecification

namespace State

variable {s : State} {t : Token} {offset : Nat} {e : Error}

/-! ### Steps -/

/-- The end of a row raises an error only behind a column specification. -/
theorem isAbout_of_close {enclosure : Enclosure} {done : List Node} {waiting : List Frame}
    {outer : Rows} (hc : enclosure.closedBy t = true)
    (h : s.close enclosure done waiting outer t offset = .error e) : e.IsAbout ⟨t, offset⟩ := by
  cases enclosure with
  | columns name =>
    have ht : t = .groupEnd := by
      cases t with
      | groupEnd => rfl
      | _ => cases hc
    simp only [State.close] at h
    split at h
    · obtain rfl := Except.error.inj h
      exact .columns ht
    · cases h
  | group | index | environment name columns | fence opening => cases h

/-- Where an element is expected, a token is unexpected if it neither begins one
nor ends the row. -/
theorem isAbout_of_element (h : s.element t offset = .error e) : e.IsAbout ⟨t, offset⟩ := by
  cases hm : t.begin? [.prime, .scripts] with
  | some m =>
    -- Only the end of the row is left.
    cases hr : s.rows with
    | root done =>
      simp only [State.element, hr, hm] at h
      cases h
    | inner enclosure done waiting outer =>
      simp only [State.element, hr, hm] at h
      split at h
      · next hc => exact isAbout_of_close hc h
      · cases h
  | none =>
    cases hr : s.rows with
    | root done =>
      simp only [State.element, hr, hm] at h
      obtain rfl := Except.error.inj h
      exact .unexpected _
    | inner enclosure done waiting outer =>
      simp only [State.element, hr, hm] at h
      split at h
      · next hc => exact isAbout_of_close hc h
      · obtain rfl := Except.error.inj h
        exact .unexpected _

theorem isAbout_of_value {n : Node} (h : s.value n t offset = .error e) :
    e.IsAbout ⟨t, offset⟩ := by
  unfold State.value at h
  split at h
  · cases h
  · exact isAbout_of_element h

theorem isAbout_of_argument {a : Application} (h : s.argument a t offset = .error e) :
    e.IsAbout ⟨t, offset⟩ := by
  unfold State.argument at h
  split at h
  · cases h
  · exact isAbout_of_value h

/-- **An error is about the token that raises it.** -/
theorem isAbout_of_step (h : s.step t offset = .error e) : e.IsAbout ⟨t, offset⟩ := by
  cases hf : s.focus with
  | value n =>
    simp only [State.step, hf] at h
    exact isAbout_of_value h
  | element =>
    simp only [State.step, hf] at h
    exact isAbout_of_element h
  | argument a =>
    simp only [State.step, hf] at h
    exact isAbout_of_argument h
  | radical =>
    simp only [State.step, hf] at h
    split at h
    · cases h
    · exact isAbout_of_argument h
  | limits l =>
    simp only [State.step, hf] at h
    split at h
    · cases h
    · exact isAbout_of_value h
  | operand op | columns name | sized tag =>
    simp only [State.step, hf] at h
    split at h
    · cases h
    · obtain rfl := Except.error.inj h
      exact .unexpected _
  | opening | closing opening content | middle =>
    simp only [State.step, hf] at h
    split at h
    · cases h
    · obtain rfl := Except.error.inj h
      exact .delimiter _

/-! ### Runs -/

/-- The error of a run is about one of its tokens, and it stays the error of the
run whatever follows that token; by induction on the tokens. -/
theorem exists_isAbout_of_run {ls : List Lexeme} (h : (s.run ls).2 = some e) :
    ∃ before l after, ls = before ++ l :: after ∧ e.IsAbout l ∧
      ∀ rest, (s.run (before ++ l :: rest)).2 = some e := by
  induction ls generalizing s with
  | nil => cases h
  | cons l ls ih =>
    cases hstep : s.step l.token l.offset with
    | ok s' =>
      simp only [State.run, hstep] at h
      obtain ⟨before, k, after, rfl, habout, hfinal⟩ := ih h
      refine ⟨l :: before, k, after, rfl, habout, fun rest => ?_⟩
      show (s.run (l :: (before ++ k :: rest))).2 = some e
      simp only [State.run, hstep]
      exact hfinal rest
    | error e' =>
      simp only [State.run, hstep] at h
      obtain rfl := Option.some.inj h
      refine ⟨[], l, ls, rfl, isAbout_of_step hstep, fun rest => ?_⟩
      show (s.run (l :: rest)).2 = some e'
      simp only [State.run, hstep]

end State

/-! ### Sources -/

/-- An error in the middle of the tokens is the error of parsing, however they
end. -/
theorem Lexemes.parse_of_run_error {ls : Lexemes} {e : Error}
    (h : (State.start.run ls.list).2 = some e) : ls.parse.tree = .error e := by
  simp only [Lexemes.parse, h]

/-- A fault behind tokens that raise no error is the error of parsing. -/
theorem Lexemes.parse_of_fault {ls : Lexemes} {e : Error} (hf : ls.fault = some e)
    (h : (State.start.run ls.list).2 = none) : ls.parse.tree = .error e := by
  simp only [Lexemes.parse, h, hf]

end MathMarkup
