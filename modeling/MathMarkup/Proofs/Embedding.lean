/-
MathMarkup/Proofs/Embedding.lean

Tokens that parse by themselves parse alike inside of something else.

A state knows the rows around it, and a step looks at them in one place only,
where a token may end the innermost row.  So a run from the start of a source
can be repeated inside of any row (`State.Inside`, with `State.Inside.step` for
one token and `State.Inside.run` for many).  The row must not be the index of a
root, because the bracket that ends an index is also an element anywhere else.

What is left is the seam.  By itself a list of tokens ends with the end of
input, which closes everything; inside of something else a token follows, and
the node in focus might take it.  `Settles` says that it does not.  There are
two reasons: the token is a closer, or it is none of the tokens that go on with
a finished node and no command in sight lacks an argument (`Node.Supplied`).

Main results: lists of tokens side by side are read as their nodes side by side
(`Settles.append`), and the content of an environment or a group is read as it is
by itself (`Reads.environment`, `Reads.group`).
-/
import MathMarkup.Proofs.Grammar
import MathMarkup.Proofs.Within

namespace MathMarkup

/-! ### Rows inside of others -/

namespace Rows

/-- Adds elements to the innermost row. -/
def pushAll : Rows → List Node → Rows
  | .root done, ns => .root (done ++ ns)
  | .inner e done waiting outer, ns => .inner e (done ++ ns) waiting outer

@[simp] theorem pushAll_nil (rows : Rows) : rows.pushAll [] = rows := by
  cases rows <;> simp [pushAll]

theorem push_pushAll (rows : Rows) (ns : List Node) (n : Node) :
    (rows.pushAll ns).push n = rows.pushAll (ns ++ [n]) := by
  cases rows <;> simp [pushAll, push]

/-- Rows inside of others: what was the root goes on with the innermost row
around it. -/
def onto : Rows → Rows → Rows
  | .root done, around => around.pushAll done
  | .inner e done waiting outer, around => .inner e done waiting (outer.onto around)

theorem push_onto (rows around : Rows) (n : Node) :
    (rows.onto around).push n = (rows.push n).onto around := by
  cases rows with
  | root done => exact push_pushAll around done n
  | inner e done waiting outer => rfl

/-- Whether a token ends the innermost row. -/
def closedBy : Rows → Token → Bool
  | .root _, _ => false
  | .inner e _ _ _, t => e.closedBy t

@[simp] theorem closedBy_pushAll (rows : Rows) (ns : List Node) :
    (rows.pushAll ns).closedBy = rows.closedBy := by
  cases rows <;> rfl

/-- Rows of which the innermost is not the index of a root. -/
def IsOpen : Rows → Prop
  | .inner .index _ _ _ => False
  | _ => True

/-- Outside of an index, a token that begins something ends nothing. -/
theorem IsOpen.closedBy_eq_false {rows : Rows} (h : rows.IsOpen) {t : Token}
    {waiting : List Frame} {m : Move} (ht : t.begin? waiting = some m) :
    rows.closedBy t = false := by
  cases rows with
  | root done => rfl
  | inner e done waiting outer =>
    cases e with
    | index => exact h.elim
    | _ => cases t <;> first | rfl | cases ht

end Rows

/-! ### Steps inside of a row -/

namespace State

/-- A token that begins an element. -/
theorem element_eq_apply {s : State} {t : Token} {m : Move}
    (hm : t.begin? [.prime, .scripts] = some m) (hr : s.rows.closedBy t = false) (offset : Nat) :
    s.element t offset = .ok (s.apply m) := by
  cases hrows : s.rows with
  | root done => simp only [element, hrows, hm]
  | inner e done waiting outer =>
    rw [hrows] at hr
    have hclosed : e.closedBy t = false := hr
    simp [element, hrows, hm, hclosed]

/-- A token that ends the innermost row. -/
theorem element_eq_close {s : State} {t : Token} {e : Enclosure} {done : List Node}
    {waiting : List Frame} {outer : Rows} (hrows : s.rows = .inner e done waiting outer)
    (hc : e.closedBy t = true) (offset : Nat) :
    s.element t offset = s.close e done waiting outer t offset := by
  simp [element, hrows, hc]

/-- A move replaces what is expected and what waits in the row. -/
theorem apply_congr {s u : State} (hrows : u.rows = s.rows) (hwarnings : u.warnings = s.warnings)
    (m : Move) : u.apply m = s.apply m := by
  cases m with
  | focus f waiting => simp only [apply, hrows, hwarnings]
  | enclose e waiting => simp only [apply, hrows, hwarnings]

/-- Where an element is expected only the rows matter. -/
theorem element_congr {s u : State} (hrows : u.rows = s.rows) (hwarnings : u.warnings = s.warnings)
    (t : Token) (offset : Nat) : u.element t offset = s.element t offset := by
  have happly (m : Move) := apply_congr hrows hwarnings m
  cases h : s.rows with
  | root done => simp only [element, hrows, h, happly]
  | inner e done waiting outer =>
    have hclose : u.close e done waiting outer t offset =
        s.close e done waiting outer t offset := by
      cases e <;> simp only [close, withValue, apply, hwarnings]
    simp only [element, hrows, h, happly, hclose]

/-- `u` is in the same state as `s`, inside of the rows around it. -/
structure Inside (around : Rows) (s u : State) : Prop where
  focus : u.focus = s.focus
  waiting : u.waiting = s.waiting
  rows : u.rows = s.rows.onto around

variable {around : Rows} {s s' u : State} {t : Token} {offset : Nat}

/-- After a move only the rows matter. -/
theorem inside_apply (h : u.rows = s.rows.onto around) (m : Move) :
    Inside around (s.apply m) (u.apply m) := by
  cases m with
  | focus f waiting => exact ⟨rfl, rfl, h⟩
  | enclose e waiting =>
    refine ⟨rfl, rfl, ?_⟩
    show Rows.inner e [] waiting u.rows = Rows.inner e [] waiting (s.rows.onto around)
    rw [h]

theorem Inside.withValue (h : Inside around s u) (n : Node) :
    Inside around (s.withValue n) (u.withValue n) :=
  ⟨rfl, h.waiting, h.rows⟩

/-- The end of a row that lies inside. -/
theorem inside_close {e : Enclosure} {done : List Node} {waiting : List Frame} {outer : Rows}
    (h : s.close e done waiting outer t offset = .ok s') (u : State) (offset' : Nat) :
    ∃ u', u.close e done waiting (outer.onto around) t offset' = .ok u' ∧ Inside around s' u' := by
  cases e with
  | group | index | environment name columns | fence opening =>
    obtain rfl := Except.ok.inj h
    exact ⟨_, rfl, rfl, rfl, rfl⟩
  | columns name =>
    cases hcolumns : (Node.collapse done).plainText? with
    | none => simp [State.close, hcolumns] at h
    | some columns =>
      simp only [State.close, hcolumns] at h ⊢
      obtain rfl := Except.ok.inj h
      exact ⟨_, rfl, inside_apply rfl _⟩

/-- A token where an element is expected. -/
theorem inside_element (ho : around.IsOpen) (hr : u.rows = s.rows.onto around)
    (h : s.element t offset = .ok s') (offset' : Nat) :
    ∃ u', u.element t offset' = .ok u' ∧ Inside around s' u' := by
  cases hrows : s.rows with
  | root done =>
    rw [hrows] at hr
    rcases element_ok h with ⟨m, hm, rfl⟩ | ⟨_, _, _, _, hinner, -⟩
    · -- Nothing that begins an element ends the row around.
      have hclosed : u.rows.closedBy t = false := by
        rw [hr, Rows.onto, Rows.closedBy_pushAll]
        exact ho.closedBy_eq_false hm
      refine ⟨_, element_eq_apply hm hclosed offset', inside_apply ?_ m⟩
      rw [hr, hrows]
    · rw [hrows] at hinner
      cases hinner
  | inner e done waiting outer =>
    rw [hrows] at hr
    cases hclosed : e.closedBy t with
    | true =>
      rw [element_eq_close hrows hclosed] at h
      rw [element_eq_close hr hclosed]
      exact inside_close h u offset'
    | false =>
      rcases element_ok h with ⟨m, hm, rfl⟩ | ⟨_, _, _, _, hinner, htrue, -⟩
      · have hfalse : u.rows.closedBy t = false := by
          rw [hr]
          exact hclosed
        refine ⟨_, element_eq_apply hm hfalse offset', inside_apply ?_ m⟩
        rw [hr, hrows]
      · rw [hrows] at hinner
        cases hinner
        rw [hclosed] at htrue
        cases htrue

/-- A token behind a node. -/
theorem Inside.value (hi : Inside around s u) (ho : around.IsOpen) {n : Node}
    (h : s.value n t offset = .ok s') (offset' : Nat) :
    ∃ u', u.value n t offset' = .ok u' ∧ Inside around s' u' := by
  unfold State.value at h ⊢
  rw [hi.waiting]
  cases hfeed : feed s.waiting n t with
  | move m =>
    rw [hfeed] at h
    obtain rfl := Except.ok.inj h
    exact ⟨_, rfl, inside_apply hi.rows m⟩
  | element k =>
    rw [hfeed] at h
    refine inside_element ho ?_ h offset'
    show u.rows.push k = (s.rows.push k).onto around
    rw [hi.rows, Rows.push_onto]

theorem Inside.argument (hi : Inside around s u) (ho : around.IsOpen) {a : Application}
    (h : s.argument a t offset = .ok s') (offset' : Nat) :
    ∃ u', u.argument a t offset' = .ok u' ∧ Inside around s' u' := by
  unfold State.argument at h ⊢
  rw [hi.waiting]
  cases hbegin : t.begin? (.argument a :: s.waiting) with
  | some m =>
    rw [hbegin] at h
    obtain rfl := Except.ok.inj h
    exact ⟨_, rfl, inside_apply hi.rows m⟩
  | none =>
    rw [hbegin] at h
    exact hi.value ho h offset'

/-- **A step can be made inside of a row.** -/
theorem Inside.step (hi : Inside around s u) (ho : around.IsOpen) (h : s.step t offset = .ok s')
    (offset' : Nat) : ∃ u', u.step t offset' = .ok u' ∧ Inside around s' u' := by
  have moved (m : Move) : Inside around (s.apply m) (u.apply m) := inside_apply hi.rows m
  have hfocus := hi.focus
  cases hf : s.focus with
  | value n =>
    rw [hf] at hfocus
    simp only [State.step, hf, hfocus] at h ⊢
    exact hi.value ho h offset'
  | element =>
    rw [hf] at hfocus
    simp only [State.step, hf, hfocus] at h ⊢
    exact inside_element ho hi.rows h offset'
  | operand op =>
    rw [hf] at hfocus
    simp only [State.step, hf, hfocus, hi.waiting] at h ⊢
    cases hbegin : t.begin? (.prime :: s.waiting) with
    | some m =>
      rw [hbegin] at h
      obtain rfl := Except.ok.inj h
      exact ⟨_, rfl, moved m⟩
    | none =>
      rw [hbegin] at h
      cases h
  | argument a =>
    rw [hf] at hfocus
    simp only [State.step, hf, hfocus] at h ⊢
    exact hi.argument ho h offset'
  | radical =>
    rw [hf] at hfocus
    simp only [State.step, hf, hfocus, hi.waiting] at h ⊢
    split at h
    · next ht =>
      obtain rfl := Except.ok.inj h
      rw [if_pos ht]
      exact ⟨_, rfl, moved _⟩
    · next ht =>
      rw [if_neg ht]
      exact hi.argument ho h offset'
  | limits l =>
    rw [hf] at hfocus
    simp only [State.step, hf, hfocus, hi.waiting] at h ⊢
    cases hmove : l.move? t s.waiting with
    | some m =>
      rw [hmove] at h
      obtain rfl := Except.ok.inj h
      exact ⟨_, rfl, moved m⟩
    | none =>
      rw [hmove] at h
      exact hi.value ho h offset'
  | columns name =>
    rw [hf] at hfocus
    simp only [State.step, hf, hfocus, hi.waiting] at h ⊢
    split at h
    · next ht =>
      obtain rfl := Except.ok.inj h
      rw [if_pos ht]
      exact ⟨_, rfl, moved _⟩
    · cases h
  | sized tag =>
    rw [hf] at hfocus
    simp only [State.step, hf, hfocus] at h ⊢
    cases t with
    | delimiter glyph =>
      obtain rfl := Except.ok.inj h
      exact ⟨_, rfl, hi.withValue _⟩
    | _ => cases h
  | opening =>
    rw [hf] at hfocus
    simp only [State.step, hf, hfocus, hi.waiting] at h ⊢
    cases hglyph : fenceGlyph? t with
    | some glyph =>
      rw [hglyph] at h
      obtain rfl := Except.ok.inj h
      exact ⟨_, rfl, moved _⟩
    | none =>
      rw [hglyph] at h
      cases h
  | closing opening content | middle =>
    rw [hf] at hfocus
    simp only [State.step, hf, hfocus] at h ⊢
    cases hglyph : fenceGlyph? t with
    | some glyph =>
      rw [hglyph] at h
      obtain rfl := Except.ok.inj h
      exact ⟨_, rfl, hi.withValue _⟩
    | none =>
      rw [hglyph] at h
      cases h

/-! ### Runs inside of a row -/

theorem run_cons_of_ok {l : Lexeme} {ls : List Lexeme} (h : s.step l.token l.offset = .ok s') :
    s.run (l :: ls) = s'.run ls := by
  rw [State.run, h]

/-- A run without an error has none in its first step. -/
theorem exists_step_of_run_cons {l : Lexeme} {ls : List Lexeme}
    (h : s.run (l :: ls) = (s', none)) :
    ∃ s₁, s.step l.token l.offset = .ok s₁ ∧ s₁.run ls = (s', none) := by
  unfold State.run at h
  split at h
  · next s₁ hstep => exact ⟨s₁, hstep, h⟩
  · cases (Prod.mk.inj h).2

theorem run_append_of_ok {ls ls' : List Lexeme} (h : s.run ls = (s', none)) :
    s.run (ls ++ ls') = s'.run ls' := by
  induction ls generalizing s with
  | nil =>
    obtain ⟨rfl, -⟩ := Prod.mk.inj h
    rfl
  | cons l ls ih =>
    obtain ⟨s₁, hstep, hrun⟩ := exists_step_of_run_cons h
    rw [List.cons_append, run_cons_of_ok hstep]
    exact ih hrun

/-- A run can be made inside of a row, wherever its tokens stand there; by
induction on them. -/
theorem Inside.run {ls ls' : List Lexeme} (hi : Inside around s u) (ho : around.IsOpen)
    (hls : ls'.map (·.token) = ls.map (·.token)) (h : s.run ls = (s', none)) :
    ∃ u', u.run ls' = (u', none) ∧ Inside around s' u' := by
  induction ls generalizing s u ls' with
  | nil =>
    obtain rfl := List.map_eq_nil_iff.mp hls
    obtain ⟨rfl, -⟩ := Prod.mk.inj h
    exact ⟨u, rfl, hi⟩
  | cons l ls ih =>
    rcases ls' with - | ⟨l', ls'⟩
    · cases hls
    · obtain ⟨htoken, hrest⟩ := List.cons.inj hls
      obtain ⟨s₁, hstep, hrun⟩ := exists_step_of_run_cons h
      obtain ⟨u₁, hstep', hi₁⟩ := hi.step ho hstep l'.offset
      obtain ⟨u', hrun', hi'⟩ := ih hi₁ hrest hrun
      have hsame : u.step l'.token l'.offset = .ok u₁ := by
        rw [← hstep']
        exact congrArg (u.step · l'.offset) htoken
      refine ⟨u', ?_, hi'⟩
      rw [run_cons_of_ok hsame]
      exact hrun'

/-- Every state is inside of an empty root. -/
theorem inside_root (s : State) : Inside (.root []) s s := by
  have honto (rows : Rows) : rows.onto (.root []) = rows := by
    induction rows with
    | root done => rfl
    | inner e done waiting outer ih => rw [Rows.onto, ih]
  exact ⟨rfl, rfl, (honto s.rows).symm⟩

end State

/-! ### The end of input -/

/-- The node in focus, if the input may end there. -/
def Focus.node? : Focus → Option Node
  | .value n => some n
  | .argument a => some a.node
  | .radical => some (Application.start .radical).node
  | .limits l => some l.node
  | _ => none

namespace State

variable {around : Rows} {s s' u : State} {t : Token} {offset : Nat}

/-- A state in which the input may end, with the nodes that there are then:
between two elements, or with the last one in focus. -/
inductive Rests (s : State) : List Node → Prop
  | element {ns : List Node} : s.focus = .element → s.rows = .root ns → Rests s ns
  | node {n : Node} {done : List Node} : s.focus.node? = some n → s.rows = .root done →
      Rests s (done ++ [closeAll s.waiting n])

theorem rests_of_finish {ns : List Node} (h : s.finish offset = .ok (.branch .root ns)) :
    s.Rests ns := by
  have rows {rows : Rows} (h : finishRows offset rows = .ok (.branch .root ns)) :
      rows = .root ns := by
    cases rows with
    | root done =>
      cases h
      rfl
    | inner e done waiting outer => cases h
  have node {n : Node} (hn : s.focus.node? = some n)
      (h : finishRows offset (s.rows.push (closeAll s.waiting n)) = .ok (.branch .root ns)) :
      s.Rests ns := by
    have hpush := rows h
    cases hrows : s.rows with
    | root done =>
      rw [hrows] at hpush
      obtain rfl := Rows.root.inj hpush
      exact .node hn hrows
    | inner e done waiting outer =>
      rw [hrows] at hpush
      cases hpush
  cases hf : s.focus with
  | value n | argument a | radical | limits l =>
    simp only [State.finish, hf] at h
    exact node (by rw [hf]; rfl) h
  | element =>
    simp only [State.finish, hf] at h
    exact .element hf (rows h)
  | operand _ | columns _ | sized _ | opening | closing _ _ | middle =>
    simp [State.finish, hf] at h

theorem Rests.finish {ns : List Node} (h : s.Rests ns) (offset : Nat) :
    s.finish offset = .ok (.branch .root ns) := by
  cases h with
  | element hf hrows =>
    simp only [State.finish, hf, hrows, finishRows]
  | node hn hrows =>
    cases hf : s.focus with
    | value n | argument a | radical | limits l =>
      rw [hf] at hn
      obtain rfl := Option.some.inj hn
      simp only [State.finish, hf, hrows, Rows.push, finishRows]
    | element | operand _ | columns _ | sized _ | opening | closing _ _ | middle =>
      rw [hf] at hn
      cases hn

/-- Elements before do not matter. -/
theorem Inside.rests {ms ns : List Node} (hi : Inside (.root ms) s u) (h : s.Rests ns) :
    u.Rests (ms ++ ns) := by
  cases h with
  | element hf hrows =>
    refine .element (hi.focus.trans hf) ?_
    rw [hi.rows, hrows]
    rfl
  | @node n done hn hrows =>
    rw [← List.append_assoc, ← hi.waiting]
    refine .node ?_ ?_
    · rw [hi.focus, hn]
    · rw [hi.rows, hrows]
      rfl

end State

/-! ### Tokens by themselves -/

/-- Tokens as they stand in no source in particular. -/
def Lexemes.ofTokens (ts : List Token) : Lexemes :=
  ⟨ts.map (⟨·, 0⟩), none, 0⟩

@[simp] theorem Lexemes.tokens_ofTokens (ts : List Token) : (Lexemes.ofTokens ts).tokens = ts := by
  simp [Lexemes.ofTokens, Lexemes.tokens, Function.comp_def]

/-- Tokens that are read by themselves, and the nodes they are read as. -/
def Reads (ts : List Token) (ns : List Node) : Prop :=
  (Lexemes.ofTokens ts).parse.tree = .ok (.branch .root ns)

/-- Where tokens stand does not matter for how they are read. -/
theorem Reads.exists_run {ts : List Token} {ns : List Node} (h : Reads ts ns) :
    ∃ s, State.start.run (Lexemes.ofTokens ts).list = (s, none) ∧ s.Rests ns := by
  obtain ⟨-, herror, hfinish, -⟩ := Lexemes.parse_ok h
  exact ⟨_, Prod.ext rfl herror, State.rests_of_finish hfinish⟩

/-- Tokens by themselves are what their nodes are written with. -/
theorem Reads.spelled {ts : List Token} {ns : List Node} (h : Reads ts ns) :
    Spelled (.nodes ns) ts := by
  obtain ⟨s, hrun, hrests⟩ := h.exists_run
  have hs : s.Spelled (Lexemes.ofTokens ts).tokens := State.start_spelled.run hrun
  obtain ⟨ks, heq, hspelled⟩ := hs.finish (hrests.finish 0)
  rw [Lexemes.tokens_ofTokens] at hspelled
  obtain rfl : ns = ks := by
    cases heq
    rfl
  exact hspelled

/-- Tokens are read by themselves as they are in a source without faults. -/
theorem Reads.parse {ls : Lexemes} {ns : List Node} (h : Reads ls.tokens ns)
    (hfault : ls.fault = none) : ls.parse.tree = .ok (.branch .root ns) := by
  obtain ⟨s, hrun, hrests⟩ := h.exists_run
  have htokens : ls.list.map (·.token) = (Lexemes.ofTokens ls.tokens).list.map (·.token) :=
    (Lexemes.tokens_ofTokens ls.tokens).symm
  obtain ⟨u, hrun', hi⟩ := State.Inside.run (State.inside_root _) trivial htokens hrun
  have hfinish : u.finish ls.offset = .ok (.branch .root ns) := (hi.rests hrests).finish _
  rw [Lexemes.parse, hrun', hfault]
  exact hfinish

/-- Tokens that lead to a state in which the input may end. -/
theorem reads_of_run {ts : List Token} {s : State} {ns : List Node}
    (h : State.start.run (Lexemes.ofTokens ts).list = (s, none)) (hs : s.Rests ns) :
    Reads ts ns := by
  rw [Reads, Lexemes.parse, h]
  exact hs.finish 0

/-- The tokens of a source with a tree are read by themselves as in the source. -/
theorem reads_of_parse {ls : Lexemes} {ns : List Node}
    (h : ls.parse.tree = .ok (.branch .root ns)) : Reads ls.tokens ns := by
  obtain ⟨-, herror, hfinish, -⟩ := Lexemes.parse_ok h
  have hrun : State.start.run ls.list = ((State.start.run ls.list).1, none) := Prod.ext rfl herror
  have htokens : (Lexemes.ofTokens ls.tokens).list.map (·.token) = ls.list.map (·.token) :=
    Lexemes.tokens_ofTokens ls.tokens
  obtain ⟨u, hrun', hi⟩ := State.Inside.run (State.inside_root _) trivial htokens hrun
  exact reads_of_run hrun' (hi.rests (State.rests_of_finish hfinish))

/-! ### The seam -/

/-- A token that follows leaves finished what has been read: it is the first of
another element, or ends the row. -/
def State.Settled (s : State) (ns : List Node) (t : Token) : Prop :=
  ∀ around u, Inside around s u → ∀ offset,
    u.step t offset = { u with rows := around.pushAll ns }.element t offset

/-- Tokens that are read by themselves, and that the token `t` leaves alone. -/
def Settles (ts : List Token) (ns : List Node) (t : Token) : Prop :=
  ∃ s, State.start.run (Lexemes.ofTokens ts).list = (s, none) ∧ s.Rests ns ∧ s.Settled ns t

/-- **Tokens side by side are read as nodes side by side.** -/
theorem Settles.append {ts us : List Token} {t : Token} {ns ks : List Node}
    (h : Settles ts ns t) (hus : Reads (t :: us) ks) : Reads (ts ++ t :: us) (ns ++ ks) := by
  obtain ⟨s, hrun, -, hsettled⟩ := h
  obtain ⟨s₂, hrun₂, hrests⟩ := hus.exists_run
  obtain ⟨s₁, hstep, hrun₁⟩ := State.exists_step_of_run_cons hrun₂
  -- The same step behind the nodes of the first run, and then the rest of the second.
  have hsame := hsettled (.root []) s s.inside_root 0
  have hopen : (Rows.root ns).IsOpen := trivial
  have hrows : (Rows.root ns) = State.start.rows.onto (.root ns) := (Rows.pushAll_nil _).symm
  obtain ⟨u₁, hstep', hi₁⟩ :=
    State.inside_element (u := { s with rows := .root ns }) hopen hrows hstep 0
  obtain ⟨u₂, hrun', hi₂⟩ := hi₁.run hopen rfl hrun₁
  have hall : State.start.run (Lexemes.ofTokens (ts ++ t :: us)).list = (u₂, none) := by
    have hlist : (Lexemes.ofTokens (ts ++ t :: us)).list =
        (Lexemes.ofTokens ts).list ++ ⟨t, 0⟩ :: (Lexemes.ofTokens us).list := List.map_append
    rw [hlist, State.run_append_of_ok hrun, State.run_cons_of_ok (hsame.trans hstep')]
    exact hrun'
  exact reads_of_run hall (hi₂.rests hrests)

/-- A token that is neither an argument of the command in focus nor a limit of
the operator in focus comes behind the node that either is by then. -/
theorem State.step_eq_value {s : State} {n : Node} {t : Token} (hn : s.focus.node? = some n)
    (hargument : (s.focus = .radical ∨ ∃ a, s.focus = .argument a) →
      ∀ waiting, t.begin? waiting = none)
    (hlimit : ∀ l, s.focus = .limits l → ∀ waiting, l.move? t waiting = none) (offset : Nat) :
    s.step t offset = s.value n t offset := by
  cases hf : s.focus with
  | value k =>
    rw [hf] at hn
    obtain rfl := Option.some.inj hn
    simp only [State.step, hf]
  | argument a =>
    rw [hf] at hn
    obtain rfl := Option.some.inj hn
    simp only [State.step, hf, State.argument, hargument (.inr ⟨a, hf⟩)]
  | radical =>
    rw [hf] at hn
    obtain rfl := Option.some.inj hn
    have hbegin := hargument (.inl hf)
    have hbracket : t ≠ .delimiter (utf8 "[") := by
      rintro rfl
      cases hbegin []
    simp only [State.step, hf, if_neg hbracket, State.argument, hbegin]
  | limits l =>
    rw [hf] at hn
    obtain rfl := Option.some.inj hn
    simp only [State.step, hf, hlimit l hf]
  | element | operand _ | columns _ | sized _ | opening | closing _ _ | middle =>
    rw [hf] at hn
    cases hn

/-- A node in focus that neither the focus nor a frame holds back. -/
theorem State.settled_of_node {s : State} {n : Node} {done : List Node} {t : Token}
    (hn : s.focus.node? = some n) (hrows : s.rows = .root done)
    (hargument : (s.focus = .radical ∨ ∃ a, s.focus = .argument a) →
      ∀ waiting, t.begin? waiting = none)
    (hlimit : ∀ l, s.focus = .limits l → ∀ waiting, l.move? t waiting = none)
    (hfeed : feed s.waiting n t = .element (closeAll s.waiting n)) :
    s.Settled (done ++ [closeAll s.waiting n]) t := by
  intro around u hi offset
  rw [← hi.focus] at hn hargument hlimit
  rw [step_eq_value hn hargument hlimit, State.value, hi.waiting, hfeed]
  have hpush : u.rows.push (closeAll s.waiting n) =
      around.pushAll (done ++ [closeAll s.waiting n]) := by
    rw [hi.rows, hrows]
    exact Rows.push_pushAll around done _
  simp only [hpush]

/-- Between two elements every token is the first of another one, or ends the
row. -/
theorem State.settled_of_element {s : State} {ns : List Node} (hf : s.focus = .element)
    (hrows : s.rows = .root ns) (t : Token) : s.Settled ns t := by
  intro around u hi offset
  have hfocus : u.focus = .element := hi.focus.trans hf
  have hpush : u.rows = around.pushAll ns := by
    rw [hi.rows, hrows]
    rfl
  rw [← hpush]
  show u.step t offset = u.element t offset
  rw [State.step, hfocus]

/-- With the arguments that it has for certain, a command goes on with a group or
a script only. -/
theorem Frame.shift_argument_of_enough {a : Application} {n : Node} {t : Token}
    (hlen : ¬(a.push n).args.length < (a.push n).tag.arity) (hgroup : t ≠ .groupBegin)
    (hscript : ∀ op, t ≠ .script op) (waiting : List Frame) :
    (Frame.argument a).shift n t waiting = none := by
  simp only [Frame.shift, if_neg hlen]
  split
  · exact absurd rfl hgroup
  · exact absurd rfl (hscript _)
  · rfl

/-! ### Closers -/

theorem Token.begin?_of_isCloser {t : Token} (ht : t.isCloser = true) (waiting : List Frame) :
    t.begin? waiting = none := by
  cases t with
  | groupEnd | environmentEnd name | right => rfl
  | _ => cases ht

theorem Limits.move?_of_isCloser {t : Token} (ht : t.isCloser = true) (l : Limits)
    (waiting : List Frame) : l.move? t waiting = none := by
  cases t with
  | groupEnd | environmentEnd name | right => rfl
  | _ => cases ht

theorem Frame.shift_of_isCloser {t : Token} (ht : t.isCloser = true) (f : Frame) (n : Node)
    (waiting : List Frame) : f.shift n t waiting = none := by
  cases f with
  | index => exact Token.begin?_of_isCloser ht _
  | argument a =>
    by_cases hlen : (a.push n).args.length < (a.push n).tag.arity
    · simp only [Frame.shift, if_pos hlen, Token.begin?_of_isCloser ht]
    · refine shift_argument_of_enough hlen ?_ ?_ waiting
      · rintro rfl
        cases ht
      · rintro op rfl
        cases ht
  | limit op l =>
    simp only [Frame.shift, Limits.move?_of_isCloser ht, ite_self]
  | _ => cases t <;> first | rfl | cases ht

theorem feed_of_isCloser {t : Token} (ht : t.isCloser = true) (waiting : List Frame) (n : Node) :
    feed waiting n t = .element (State.closeAll waiting n) := by
  induction waiting generalizing n with
  | nil => rfl
  | cons f waiting ih =>
    rw [feed, f.shift_of_isCloser ht]
    exact ih (f.close n)

/-- A closer leaves everything finished. -/
theorem Reads.settles_closer {ts : List Token} {ns : List Node} (h : Reads ts ns) {t : Token}
    (ht : t.isCloser = true) : Settles ts ns t := by
  obtain ⟨s, hrun, hrests⟩ := h.exists_run
  refine ⟨s, hrun, hrests, ?_⟩
  cases hrests with
  | element hf hrows => exact State.settled_of_element hf hrows t
  | @node n done hn hrows =>
    refine State.settled_of_node hn hrows ?_ ?_ (feed_of_isCloser ht _ _)
    · exact fun _ => Token.begin?_of_isCloser ht
    · exact fun l _ => Limits.move?_of_isCloser ht l

/-- As the content of a row tokens are read as they are by themselves, and a closer
then ends the row with their nodes. -/
theorem Reads.run_enclosed {ts : List Token} {ns : List Node} (h : Reads ts ns) {e : Enclosure}
    {waiting : List Frame} {outer : Rows} (hopen : (Rows.inner e [] waiting outer).IsOpen)
    {closer : Token} (hcloser : closer.isCloser = true) (hclosed : e.closedBy closer = true)
    (ws : List Warning) :
    ∃ u, (State.mk .element [] (.inner e [] waiting outer) ws).run (Lexemes.ofTokens ts).list =
      (u, none) ∧ u.step closer 0 = u.close e ns waiting outer closer 0 := by
  obtain ⟨s, hrun, -, hsettled⟩ := h.settles_closer hcloser
  -- The row inside, and the state at its start.
  let around : Rows := .inner e [] waiting outer
  have hi₀ : State.Inside around State.start ⟨.element, [], around, ws⟩ :=
    ⟨rfl, rfl, (Rows.pushAll_nil around).symm⟩
  obtain ⟨u, hrun', hi⟩ := hi₀.run hopen rfl hrun
  refine ⟨u, hrun', ?_⟩
  -- The closer settles what is inside and ends the row.
  rw [hsettled around u hi 0, State.element_eq_close rfl hclosed]
  rfl

/-- Tokens between an opener and a closer are read as they are by themselves;
`hclose` says what the closer makes of their nodes. -/
theorem Reads.enclose {ts : List Token} {ns : List Node} (h : Reads ts ns) {t closer : Token}
    {e : Enclosure} {n : Node}
    (hbegin : t.begin? [.prime, .scripts] = some (.enclose e [.prime, .scripts]))
    (hopen : ∀ outer, (Rows.inner e [] [.prime, .scripts] outer).IsOpen)
    (hcloser : closer.isCloser = true) (hclosed : e.closedBy closer = true)
    (hclose : ∀ s : State, ∃ s', s.close e ns [.prime, .scripts] (.root []) closer 0 = .ok s' ∧
      s'.Rests [n]) : Reads (t :: (ts ++ [closer])) [n] := by
  have hstart : State.start.step t 0 =
      .ok ⟨.element, [], .inner e [] [.prime, .scripts] (.root []), []⟩ :=
    State.element_eq_apply (s := State.start) hbegin rfl 0
  obtain ⟨u, hrun, hend⟩ := h.run_enclosed (hopen (.root [])) hcloser hclosed []
  obtain ⟨u', hu', hrests⟩ := hclose u
  refine reads_of_run (s := u') ?_ hrests
  have hlist : (Lexemes.ofTokens (t :: (ts ++ [closer]))).list =
      ⟨t, 0⟩ :: ((Lexemes.ofTokens ts).list ++ [⟨closer, 0⟩]) :=
    congrArg (Lexeme.mk t 0 :: ·) List.map_append
  rw [hlist, State.run_cons_of_ok hstart, State.run_append_of_ok hrun,
    State.run_cons_of_ok (hend.trans hu')]
  rfl

/-- **The content of an environment is read as it is by itself.** -/
theorem Reads.environment {ts : List Token} {ns : List Node} (h : Reads ts ns) {name : Bytes}
    (hname : name ≠ arrayName) (endName : Bytes) :
    Reads (.environmentBegin name :: (ts ++ [.environmentEnd endName]))
      [.mk .environment name (some (.environmentBegin name)) {} ns] := by
  have hbegin : (Token.environmentBegin name).begin? [.prime, .scripts] =
      some (.enclose (.environment name none) [.prime, .scripts]) :=
    if_neg fun heq => hname (beq_iff_eq.mp heq)
  refine h.enclose hbegin (fun _ => trivial) rfl rfl fun s => ⟨_, rfl, ?_⟩
  show State.Rests _ ([] ++ [_])
  exact .node rfl rfl

/-- **A group is read as its content by itself**, as one node. -/
theorem Reads.group {ts : List Token} {ns : List Node} (h : Reads ts ns) :
    Reads (.groupBegin :: (ts ++ [.groupEnd])) [.collapse ns] := by
  refine h.enclose (e := .group) rfl (fun _ => trivial) rfl rfl fun s => ⟨_, rfl, ?_⟩
  show State.Rests _ ([] ++ [_])
  exact .node rfl rfl

/-! ### Tokens that do not go on with a node -/

/-- Whether a token may go on with a finished node: a prime or script, a group
that is one more argument, or a switch of the limits. -/
def Token.continues : Token → Bool
  | .prime _ | .script _ | .groupBegin => true
  | .command name => name == utf8 "limits" || name == utf8 "nolimits"
  | _ => false

theorem Limits.move?_of_not_continues {t : Token} (ht : t.continues = false) (l : Limits)
    (waiting : List Frame) : l.move? t waiting = none := by
  cases t with
  | command name =>
    have hname := Bool.or_eq_false_iff.mp ht
    simp only [Limits.move?, hname, Bool.false_eq_true, if_false]
  | script op => cases ht
  | _ => rfl

namespace Node

/-- A command with arguments has those that it needs. -/
def HasArguments : Node → Prop
  | .mk .command _ (some tag) _ children =>
    tag.takesArguments = true → tag.arity ≤ children.length
  | _ => True

/-- No command in a tree lacks an argument. -/
def Supplied (n : Node) : Prop :=
  ∀ k, Within Node.children k n → k.HasArguments

theorem supplied_iff {n : Node} :
    n.Supplied ↔ n.HasArguments ∧ ∀ c ∈ n.children, c.Supplied :=
  forall_within_iff

@[simp] theorem supplied_mk {kind : Kind} {data : Bytes} {tag : Option Token} {params : Params}
    {children : List Node} : (Node.mk kind data tag params children).Supplied ↔
      (Node.mk kind data tag params children).HasArguments ∧ ∀ c ∈ children, c.Supplied :=
  supplied_iff

theorem Supplied.child {n c : Node} (h : n.Supplied) (hc : c ∈ n.children) : c.Supplied :=
  (supplied_iff.mp h).2 c hc

/-- A command without arguments lacks one. -/
theorem not_supplied_command {tag : Token} (ht : tag.takesArguments = true) :
    ¬(Node.command tag []).Supplied := by
  intro h
  have hlen : tag.arity ≤ 0 := (supplied_iff.mp h).1 ht
  have hpos := tag.arity_pos
  omega

theorem mem_children_scripted {base n : Node} {sub sup : Option Node}
    (h : n ∈ sub.toList ++ sup.toList) : n ∈ (base.scripted sub sup).children := by
  rcases sub with - | sub <;> rcases sup with - | sup
  · cases h
  · exact List.mem_cons_of_mem base h
  · exact List.mem_cons_of_mem base h
  · exact List.mem_cons_of_mem base h

theorem mem_children_stacked {base n : Node} {below above : Option Node}
    (h : n ∈ below.toList ++ above.toList) : n ∈ (base.stacked below above).children := by
  rcases below with - | below <;> rcases above with - | above
  · cases h
  · exact List.mem_cons_of_mem base h
  · exact List.mem_cons_of_mem base h
  · exact List.mem_cons_of_mem base h

end Node

namespace Frame

/-- The node of a command with one more argument. -/
theorem node_push (a : Application) (n : Node) :
    (a.push n).node = .command a.tag (a.args ++ [n] ++ a.index.toList) :=
  if_neg (by simp [Application.push])

/-- The node that a frame waited for is part of what the frame makes of it,
unless it was an index that gets lost. -/
theorem supplied_of_close {f : Frame} {n : Node} (h : (f.close n).Supplied) : n.Supplied := by
  cases f with
  | prime | scripts | chain _ => exact h
  | first base op | nest base op | second base op script =>
    cases op with
    | sup | sub =>
      exact h.child (by simp [close, Node.attach, Node.scripted, Node.branch, Node.children])
  | index => exact absurd h (Node.not_supplied_command rfl)
  | argument a =>
    have hnode : (Node.command a.tag (a.args ++ [n] ++ a.index.toList)).Supplied := by
      rw [← node_push]
      exact h
    exact hnode.child (by simp [Node.command, Node.children])
  | limit op l =>
    have hmem : n ∈ (l.set op n).sub.toList ++ (l.set op n).sup.toList := by
      cases op <;> simp [Limits.set]
    cases hs : (l.set op n).isStacked with
    | true =>
      simp only [close, Limits.node, hs, if_true] at h
      exact h.child (Node.mem_children_stacked hmem)
    | false =>
      simp only [close, Limits.node, hs, Bool.false_eq_true, if_false] at h
      exact h.child (Node.mem_children_scripted hmem)

/-- A command that still needs an argument needs it with its index counted, which only
a radical has. -/
theorem length_lt_arity {T : Token → Prop} {a : Application} {n : Node} (ha : a.WellFormed T)
    (h : (a.push n).args.length < (a.push n).tag.arity) :
    (a.args ++ [n] ++ a.index.toList).length < a.tag.arity := by
  cases hi : a.index with
  | none =>
    rw [Option.toList_none, List.append_nil]
    exact h
  | some i =>
    have htag : a.tag = .radical := (ha.index i hi).1
    have h : (a.args ++ [n]).length < a.tag.arity := h
    rw [htag] at h
    simp [Token.arity] at h

/-- A command that closes with all arguments that it needs has them before its
index is counted. -/
theorem enough_of_supplied {T : Token → Prop} {a : Application} {n : Node} (ha : a.WellFormed T)
    (h : (a.push n).node.Supplied) : ¬(a.push n).args.length < (a.push n).tag.arity := by
  intro hlen
  rw [node_push] at h
  exact Nat.not_le_of_lt (length_lt_arity ha hlen) ((Node.supplied_iff.mp h).1 ha.takesArguments)

theorem shift_of_supplied {T : Token → Prop} {f : Frame} {n : Node} {t : Token}
    (hf : f.WellFormed T) (h : (f.close n).Supplied) (ht : t.continues = false)
    (waiting : List Frame) : f.shift n t waiting = none := by
  cases f with
  | index => exact absurd h (Node.not_supplied_command rfl)
  | argument a =>
    refine shift_argument_of_enough (enough_of_supplied hf h) ?_ ?_ waiting
    · rintro rfl
      cases ht
    · rintro op rfl
      cases ht
  | limit op l => simp only [shift, Limits.move?_of_not_continues ht, ite_self]
  | _ => cases t <;> first | rfl | cases ht

end Frame

theorem supplied_of_closeAll {waiting : List Frame} {n : Node}
    (h : (State.closeAll waiting n).Supplied) : n.Supplied := by
  induction waiting generalizing n with
  | nil => exact h
  | cons f waiting ih => exact f.supplied_of_close (ih h)

theorem feed_of_supplied {T : Token → Prop} {waiting : List Frame} {n : Node} {t : Token}
    (hw : ∀ f ∈ waiting, f.WellFormed T) (h : (State.closeAll waiting n).Supplied)
    (ht : t.continues = false) : feed waiting n t = .element (State.closeAll waiting n) := by
  induction waiting generalizing n with
  | nil => rfl
  | cons f waiting ih =>
    obtain ⟨hf, hw⟩ := List.forall_mem_cons.mp hw
    have hclose : (f.close n).Supplied := supplied_of_closeAll h
    rw [feed, f.shift_of_supplied hf hclose ht]
    exact ih hw h

/-- A token that does not go on with a node leaves everything finished, if no
command waits for an argument. -/
theorem Reads.settles_supplied {ts : List Token} {ns : List Node} (h : Reads ts ns)
    (hns : ∀ n ∈ ns, n.Supplied) {t : Token} (ht : t.continues = false) : Settles ts ns t := by
  obtain ⟨s, hrun, hrests⟩ := h.exists_run
  have hwell : s.WellFormed fun _ => True := by
    have hwell : (State.start.run (Lexemes.ofTokens ts).list).1.WellFormed fun _ => True :=
      State.start_wellFormed.run fun _ _ => trivial
    rwa [hrun] at hwell
  have hspelled : s.Spelled ([] ++ (Lexemes.ofTokens ts).list.map (·.token)) :=
    State.start_spelled.run hrun
  refine ⟨s, hrun, hrests, ?_⟩
  cases hrests with
  | element hf hrows => exact State.settled_of_element hf hrows t
  | @node n done hn hrows =>
    have hlast : (State.closeAll s.waiting n).Supplied := hns _ (by simp)
    have hsupplied : n.Supplied := supplied_of_closeAll hlast
    refine State.settled_of_node hn hrows ?_ ?_ (feed_of_supplied hwell.waiting hlast ht)
    · -- A command in focus has no arguments yet.
      rintro (hf | ⟨a, hf⟩)
      · rw [hf] at hn
        obtain rfl := Option.some.inj hn
        exact absurd hsupplied (Node.not_supplied_command rfl)
      · have hfocused : a.WellFormed fun _ => True := by
          have hfocused := hwell.focus
          rwa [hf] at hfocused
        have hnode : a.node = .command a.tag [] := if_pos (by rw [hspelled.args_eq_nil hf]; rfl)
        rw [hf] at hn
        obtain rfl := Option.some.inj hn
        rw [hnode] at hsupplied
        exact absurd hsupplied (Node.not_supplied_command hfocused.takesArguments)
    · exact fun l _ => Limits.move?_of_not_continues ht l

end MathMarkup
