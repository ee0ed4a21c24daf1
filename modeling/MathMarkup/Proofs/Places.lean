/-
MathMarkup/Proofs/Places.lean

Places are only reported.  A token comes with its offset, but nothing is decided
by an offset: it goes into errors and warnings and is not looked at again.  So
two runs over the same tokens at other offsets stay side by side.  Their states
differ at most in the places of their warnings (`State.Alike`), one step keeps
this or raises the same error at another place (`State.Alike.step`), and in the
end both have the same tree or the same error (`Lexemes.parse_alike`).
-/
import MathMarkup.Proofs.Embedding

namespace MathMarkup

/-- An error without the place it is about. -/
def Error.unplaced : Error → Error
  | .unexpected expected got _ => .unexpected expected got 0
  | .delimiter side got _ => .delimiter side got 0
  | e => e

/-- A warning without the place it is about. -/
def Warning.names (w : Warning) : Bytes × Bytes :=
  (w.beginName, w.endName)

namespace State

/-- The same state, but for the places in its warnings. -/
structure Alike (s u : State) : Prop where
  focus : u.focus = s.focus
  waiting : u.waiting = s.waiting
  rows : u.rows = s.rows
  warnings : u.warnings.map Warning.names = s.warnings.map Warning.names

/-- The same outcome, but for the places in an error or in warnings. -/
inductive AlikeResult : Except Error State → Except Error State → Prop
  | ok {s u : State} : s.Alike u → AlikeResult (.ok s) (.ok u)
  | error {e e' : Error} : e'.unplaced = e.unplaced → AlikeResult (.error e) (.error e')

namespace Alike

variable {s u : State} {t : Token} {offset offset' : Nat}

theorem refl (s : State) : s.Alike s :=
  ⟨rfl, rfl, rfl, rfl⟩

theorem apply (h : s.Alike u) (m : Move) : (s.apply m).Alike (u.apply m) := by
  cases m with
  | focus f waiting => exact ⟨rfl, rfl, h.rows, h.warnings⟩
  | enclose e waiting => exact ⟨rfl, rfl, congrArg (Rows.inner e [] waiting) h.rows, h.warnings⟩

theorem withValue (h : s.Alike u) (n : Node) : (s.withValue n).Alike (u.withValue n) :=
  ⟨rfl, h.waiting, h.rows, h.warnings⟩

theorem close (h : s.Alike u) (e : Enclosure) (done : List Node) (waiting : List Frame)
    (outer : Rows) : AlikeResult (s.close e done waiting outer t offset)
      (u.close e done waiting outer t offset') := by
  cases e with
  | group | index | fence opening => exact .ok ⟨rfl, rfl, rfl, h.warnings⟩
  | columns name =>
    cases hcolumns : (Node.collapse done).plainText? with
    | none =>
      simp only [State.close, hcolumns]
      exact .error rfl
    | some columns =>
      simp only [State.close, hcolumns]
      exact .ok ⟨rfl, rfl, rfl, h.warnings⟩
  | environment name columns =>
    refine .ok ⟨rfl, rfl, rfl, ?_⟩
    -- The new warning, if there is one, has the two names and another place.
    simp only [List.map_append]
    rw [h.warnings]
    simp only [apply_ite (List.map Warning.names)]
    rfl

theorem element (h : s.Alike u) : AlikeResult (s.element t offset) (u.element t offset') := by
  cases hrows : s.rows with
  | root done =>
    cases hbegin : t.begin? [.prime, .scripts] with
    | some m =>
      simp only [State.element, h.rows, hrows, hbegin]
      exact .ok (h.apply m)
    | none =>
      simp only [State.element, h.rows, hrows, hbegin]
      exact .error rfl
  | inner e done waiting outer =>
    cases hclosed : e.closedBy t with
    | true =>
      rw [element_eq_close hrows hclosed, element_eq_close (h.rows.trans hrows) hclosed]
      exact h.close e done waiting outer
    | false =>
      cases hbegin : t.begin? [.prime, .scripts] with
      | some m =>
        simp only [State.element, h.rows, hrows, hclosed, hbegin]
        exact .ok (h.apply m)
      | none =>
        simp only [State.element, h.rows, hrows, hclosed, hbegin]
        exact .error rfl

theorem value (h : s.Alike u) (n : Node) :
    AlikeResult (s.value n t offset) (u.value n t offset') := by
  unfold State.value
  rw [h.waiting]
  cases feed s.waiting n t with
  | move m => exact .ok (h.apply m)
  | element k =>
    have hpush : Alike { s with rows := s.rows.push k } { u with rows := u.rows.push k } :=
      ⟨h.focus, h.waiting, congrArg (·.push k) h.rows, h.warnings⟩
    exact hpush.element

theorem argument (h : s.Alike u) (a : Application) :
    AlikeResult (s.argument a t offset) (u.argument a t offset') := by
  unfold State.argument
  rw [h.waiting]
  cases t.begin? (.argument a :: s.waiting) with
  | some m => exact .ok (h.apply m)
  | none => exact h.value a.node

/-- **A step does not depend on places**, but for what it reports. -/
theorem step (h : s.Alike u) : AlikeResult (s.step t offset) (u.step t offset') := by
  cases hf : s.focus with
  | value n =>
    simp only [State.step, h.focus, hf]
    exact h.value n
  | element =>
    simp only [State.step, h.focus, hf]
    exact h.element
  | argument a =>
    simp only [State.step, h.focus, hf]
    exact h.argument a
  | operand op =>
    simp only [State.step, h.focus, hf, h.waiting]
    cases t.begin? (.prime :: s.waiting) with
    | some m => exact .ok (h.apply m)
    | none => exact .error rfl
  | radical =>
    simp only [State.step, h.focus, hf, h.waiting]
    split
    · exact .ok (h.apply _)
    · exact h.argument _
  | limits l =>
    simp only [State.step, h.focus, hf, h.waiting]
    cases l.move? t s.waiting with
    | some m => exact .ok (h.apply m)
    | none => exact h.value l.node
  | columns name =>
    simp only [State.step, h.focus, hf, h.waiting]
    split
    · exact .ok (h.apply _)
    · exact .error rfl
  | sized tag =>
    simp only [State.step, h.focus, hf]
    cases t with
    | delimiter glyph => exact .ok (h.withValue _)
    | _ => exact .error rfl
  | opening =>
    simp only [State.step, h.focus, hf, h.waiting]
    cases fenceGlyph? t with
    | some glyph => exact .ok (h.apply _)
    | none => exact .error rfl
  | closing opening content | middle =>
    simp only [State.step, h.focus, hf]
    cases fenceGlyph? t with
    | some glyph => exact .ok (h.withValue _)
    | none => exact .error rfl

/-- A run does not depend on places either; by induction on the tokens. -/
theorem run (h : s.Alike u) {ls ls' : List Lexeme}
    (hls : ls'.map (·.token) = ls.map (·.token)) :
    (s.run ls).1.Alike (u.run ls').1 ∧
      (u.run ls').2.map Error.unplaced = (s.run ls).2.map Error.unplaced := by
  induction ls generalizing s u ls' with
  | nil =>
    obtain rfl := List.map_eq_nil_iff.mp hls
    exact ⟨h, rfl⟩
  | cons l ls ih =>
    rcases ls' with - | ⟨l', ls'⟩
    · cases hls
    obtain ⟨htoken, hrest⟩ := List.cons.inj hls
    have hstep : AlikeResult (s.step l.token l.offset) (u.step l.token l'.offset) := h.step
    simp only [State.run, show l'.token = l.token from htoken]
    generalize s.step l.token l.offset = r at hstep ⊢
    generalize u.step l.token l'.offset = r' at hstep ⊢
    cases hstep with
    | ok hsame => exact ih hsame hrest
    | error he => exact ⟨h, congrArg some he⟩

theorem finish (h : s.Alike u) :
    (u.finish offset').mapError Error.unplaced = (s.finish offset).mapError Error.unplaced := by
  have rows (rows : Rows) : (finishRows offset' rows).mapError Error.unplaced =
      (finishRows offset rows).mapError Error.unplaced := by
    cases rows <;> rfl
  cases hf : s.focus with
  | value n | argument a | radical | limits l =>
    simp only [State.finish, h.focus, hf, h.waiting, h.rows]
    exact rows _
  | element =>
    simp only [State.finish, h.focus, hf, h.rows]
    exact rows _
  | operand _ | columns _ | sized _ | opening | closing _ _ | middle =>
    simp only [State.finish, h.focus, hf]
    rfl

end Alike

end State

/-- Tokens at other places are parsed alike. -/
theorem Lexemes.parse_alike {ls ls' : Lexemes} (htokens : ls'.tokens = ls.tokens)
    (hfault : ls.fault = none) (hfault' : ls'.fault = none) :
    ls'.parse.tree.mapError Error.unplaced = ls.parse.tree.mapError Error.unplaced ∧
      ls'.parse.warnings.map Warning.names = ls.parse.warnings.map Warning.names := by
  obtain ⟨hstate, herror⟩ := (State.Alike.refl State.start).run htokens
  rcases hrun : State.start.run ls.list with ⟨s, e⟩
  rcases hrun' : State.start.run ls'.list with ⟨s', e'⟩
  rw [hrun, hrun'] at hstate herror
  simp only [Lexemes.parse, hrun, hrun', hfault, hfault']
  refine ⟨?_, hstate.warnings⟩
  cases e with
  | none =>
    obtain rfl : e' = none := Option.map_eq_none_iff.mp herror
    exact hstate.finish
  | some e =>
    obtain ⟨e', rfl, he⟩ := Option.map_eq_some_iff.mp herror
    exact congrArg Except.error he

end MathMarkup
