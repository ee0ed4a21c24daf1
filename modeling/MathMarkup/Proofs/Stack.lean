/-
MathMarkup/Proofs/Stack.lean

What lies below is not looked at.  The frames and rows of a state are a stack, and
a token works at its top.  So a state can be cut in two: an upper part, and below
it the frames that wait at the root with the finished elements there.  A step is
made in the upper part alone, whatever lies below, or the upper part is used up
and hands one node down (`State.atop_step`).  The same holds of the end of input
(`State.atop_nodes?`).

The reason is that a token, a large operator and a frame decide on a move without
a look at the frames that wait around them (`Blind`).
-/
import MathMarkup.Proofs.Outcome

namespace MathMarkup

/-! ### Moves -/

namespace Move

/-- A move with more frames that wait below. -/
def onto : Move → List Frame → Move
  | .focus f waiting, below => .focus f (waiting ++ below)
  | .enclose e waiting, below => .enclose e (waiting ++ below)

/-- A move to something of its own, not to the next element of the same row. -/
def Proper : Move → Prop
  | .focus .element _ => False
  | _ => True

theorem onto_onto (m : Move) (upper below : List Frame) :
    (m.onto upper).onto below = m.onto (upper ++ below) := by
  cases m <;> simp [onto]

theorem Proper.onto {m : Move} (h : m.Proper) (below : List Frame) : (m.onto below).Proper := by
  rcases m with ⟨f, waiting⟩ | ⟨e, waiting⟩
  · cases f with
    | element => exact h
    | _ => trivial
  · trivial

end Move

/-- A decision that does not look at the frames that wait. -/
inductive Blind (f : List Frame → Option Move) : Prop
  | none : (∀ waiting, f waiting = none) → Blind f
  | some (m : Move) : m.Proper → (∀ waiting, f waiting = some (m.onto waiting)) → Blind f

/-- With one more frame in front. -/
theorem Blind.cons {f : List Frame → Option Move} (h : Blind f) (frame : Frame) :
    Blind fun waiting => f (frame :: waiting) := by
  cases h with
  | none h => exact .none fun waiting => h (frame :: waiting)
  | some m hm h =>
    refine .some (m.onto [frame]) (hm.onto _) fun waiting => ?_
    rw [h, m.onto_onto]
    rfl

theorem Token.begin?_blind (t : Token) : Blind t.begin? := by
  cases t with
  | groupEnd | environmentEnd _ | right => exact .none fun _ => rfl
  | groupBegin => exact .some (.enclose .group []) trivial fun _ => rfl
  | script op =>
    exact .some (.focus (.operand op) [.chain op, .nest (.group []) op]) trivial fun _ => rfl
  | verbatim kind data =>
    by_cases hkind : (kind == utf8 "hspace") = true
    · refine .some (.focus (.value (.mk .command kind (some (.verbatim kind data))
        { width := some data.trim } [])) []) trivial fun waiting => ?_
      simp only [Token.begin?, if_pos hkind]
      rfl
    · refine .some (.focus (.value (.leaf .text data (some (.verbatim kind data)))) []) trivial
        fun waiting => ?_
      simp only [Token.begin?, if_neg hkind]
      rfl
  | environmentBegin name =>
    by_cases hname : (name == utf8 "array") = true
    · refine .some (.focus (.columns name) []) trivial fun waiting => ?_
      simp only [Token.begin?, if_pos hname]
      rfl
    · refine .some (.enclose (.environment name none) []) trivial fun waiting => ?_
      simp only [Token.begin?, if_neg hname]
      rfl
  | letter _ | number _ | operator _ | delimiter _ | prime _ | cellBreak | lineBreak | command _ =>
    exact .some (.focus (.value _) []) trivial fun _ => rfl
  | radical => exact .some (.focus .radical []) trivial fun _ => rfl
  | bigOperator _ | integral _ | limit _ =>
    exact .some (.focus (.limits _) []) trivial fun _ => rfl
  | big _ => exact .some (.focus (.sized _) []) trivial fun _ => rfl
  | left => exact .some (.focus .opening []) trivial fun _ => rfl
  | middle => exact .some (.focus .middle []) trivial fun _ => rfl
  | fraction _ | binomial _ | markOver _ _ | markUnder _ _ | style _ | slashed | overset | underset
  | overbrace _ | underbrace _ | operatorName =>
    exact .some (.focus (.argument _) []) trivial fun _ => rfl

theorem Limits.move?_blind (l : Limits) (t : Token) : Blind (l.move? t) := by
  cases t with
  | command name =>
    by_cases hlimits : (name == utf8 "limits") = true
    · refine .some (.focus (.limits { l with isStacked := true }) []) trivial fun waiting => ?_
      simp only [move?, if_pos hlimits]
      rfl
    by_cases hnolimits : (name == utf8 "nolimits") = true
    · refine .some (.focus (.limits { l with isStacked := false }) []) trivial fun waiting => ?_
      simp only [move?, if_neg hlimits, if_pos hnolimits]
      rfl
    · refine .none fun waiting => ?_
      simp only [move?, if_neg hlimits, if_neg hnolimits]
  | script op =>
    by_cases hhas : l.has op = true
    · exact .none fun waiting => if_pos hhas
    · exact .some (.focus (.operand op) [.limit op l]) trivial fun waiting => if_neg hhas
  | _ => exact .none fun _ => rfl

theorem Frame.shift_argument_blind (a : Application) (n : Node) (t : Token) :
    Blind ((Frame.argument a).shift n t) := by
  by_cases hlen : (a.push n).args.length < (a.push n).tag.arity
  · have hshift : (Frame.argument a).shift n t =
        fun waiting => t.begin? (.argument (a.push n) :: waiting) := by
      funext waiting
      simp only [shift, if_pos hlen]
    rw [hshift]
    exact t.begin?_blind.cons _
  · unfold shift
    simp only [if_neg hlen]
    split
    · exact .some (.enclose .group [.argument (a.push n)]) trivial fun _ => rfl
    · next op op' _ =>
      by_cases hop : op' = op ∧ (a.push n).args.length = (a.push n).tag.arity
      · exact .some (.focus (.operand op) [.argument (a.push n)]) trivial fun _ => if_pos hop
      · exact .none fun _ => if_neg hop
    · exact .none fun _ => rfl

theorem Frame.shift_blind (f : Frame) (n : Node) (t : Token) : Blind (f.shift n t) := by
  cases f with
  | prime =>
    cases t with
    | prime count => exact .some (.focus (.value (n.primed count)) []) trivial fun _ => rfl
    | _ => exact .none fun _ => rfl
  | scripts =>
    cases t with
    | script op => exact .some (.focus (.operand op) [.chain op, .first n op]) trivial fun _ => rfl
    | _ => exact .none fun _ => rfl
  | first base op =>
    cases t with
    | script op' =>
      by_cases hop : op' = op.other
      · exact .some (.focus (.operand op') [.chain op', .second base op n]) trivial
          fun _ => if_pos hop
      · exact .some (.focus (.operand op') [.chain op', .first ((Frame.first base op).close n) op'])
          trivial fun _ => if_neg hop
    | _ => exact .none fun _ => rfl
  | second base op script =>
    cases t with
    | script op' =>
      exact .some (.focus (.operand op')
        [.chain op', .first ((Frame.second base op script).close n) op']) trivial fun _ => rfl
    | _ => exact .none fun _ => rfl
  | chain op =>
    cases t with
    | script op' =>
      by_cases hop : op' = op
      · exact .some (.focus (.operand op) [.chain op, .nest n op]) trivial fun _ => if_pos hop
      · exact .none fun _ => if_neg hop
    | _ => exact .none fun _ => rfl
  | nest base op => exact .none fun _ => rfl
  | index => exact t.begin?_blind.cons _
  | argument a => exact shift_argument_blind a n t
  | limit op l =>
    by_cases hfull : (l.set op n).isFull = true
    · refine .none fun waiting => ?_
      simp only [shift, if_pos hfull]
    · -- With room for a limit the frame decides as the operator would by itself.
      have hshift : (Frame.limit op l).shift n t = (l.set op n).move? t := by
        funext waiting
        simp only [shift, if_neg hfull]
      rw [hshift]
      exact (l.set op n).move?_blind t

/-- Feeding a node to frames uses it up in a move, or comes down to what lies below
them; by induction on the frames. -/
theorem feed_append (waiting : List Frame) (n : Node) (t : Token) :
    (∃ m : Move, m.Proper ∧ ∀ below, feed (waiting ++ below) n t = .move (m.onto below)) ∨
      ∃ k, ∀ below, feed (waiting ++ below) n t = feed below k t := by
  induction waiting generalizing n with
  | nil => exact .inr ⟨n, fun _ => rfl⟩
  | cons f waiting ih =>
    cases f.shift_blind n t with
    | none hshift =>
      have hfeed (below : List Frame) :
          feed (f :: waiting ++ below) n t = feed (waiting ++ below) (f.close n) t := by
        rw [List.cons_append, feed, hshift]
      rcases ih (f.close n) with ⟨m, hm, h⟩ | ⟨k, h⟩
      · exact .inl ⟨m, hm, fun below => (hfeed below).trans (h below)⟩
      · exact .inr ⟨k, fun below => (hfeed below).trans (h below)⟩
    | some m hm hshift =>
      refine .inl ⟨m.onto waiting, hm.onto waiting, fun below => ?_⟩
      rw [List.cons_append, feed, hshift, m.onto_onto]

/-! ### States above a bottom -/

namespace Rows

/-- The frames that lie below the innermost row's own: those at the bottom, if the
row is the root. -/
def lower : Rows → List Frame → List Frame
  | .root _, bottom => bottom
  | .inner _ _ _ _, _ => []

/-- The rows above a bottom with some frames and elements. -/
def atop : Rows → List Frame → List Node → Rows
  | .root _, _, done => .root done
  | .inner e done waiting outer, bottom, ns =>
    .inner e done (waiting ++ outer.lower bottom) (outer.atop bottom ns)

end Rows

namespace State

/-- A state above a bottom with some frames and elements. -/
def atop (s : State) (bottom : List Frame) (ns : List Node) : State :=
  ⟨s.focus, s.waiting ++ s.rows.lower bottom, s.rows.atop bottom ns, s.warnings⟩

/-- At the root something is begun. -/
def Above (s : State) : Prop :=
  s.focus = .element → ∃ e done waiting outer, s.rows = .inner e done waiting outer

variable {s : State} {t : Token}

/-- The bottom is seen at the root only. -/
theorem atop_root {done : List Node} (hrows : s.rows = .root done) (bottom : List Frame)
    (ns : List Node) : s.atop bottom ns = ⟨s.focus, s.waiting ++ bottom, .root ns, s.warnings⟩ := by
  rw [atop, hrows]
  rfl

theorem atop_inner {e : Enclosure} {done : List Node} {waiting : List Frame} {outer : Rows}
    (hrows : s.rows = .inner e done waiting outer) (bottom : List Frame) (ns : List Node) :
    s.atop bottom ns = ⟨s.focus, s.waiting,
      .inner e done (waiting ++ outer.lower bottom) (outer.atop bottom ns), s.warnings⟩ := by
  rw [atop, hrows]
  simp only [Rows.lower, Rows.atop, List.append_nil]

theorem atop_apply (s : State) (m : Move) (bottom : List Frame) (ns : List Node) :
    (s.atop bottom ns).apply (m.onto (s.rows.lower bottom)) = (s.apply m).atop bottom ns := by
  cases m <;> rfl

theorem above_apply {m : Move} (hm : m.Proper) : (s.apply m).Above := by
  rcases m with ⟨f, waiting⟩ | ⟨e, waiting⟩
  · rintro rfl
    exact hm.elim
  · exact fun _ => ⟨_, _, _, _, rfl⟩

theorem above_operand (op : Script) (waiting : List Frame) (rows : Rows) (ws : List Warning) :
    (State.mk (.operand op) waiting rows ws).Above := by
  rintro ⟨⟩

theorem above_close {e : Enclosure} {done : List Node} {waiting : List Frame} {outer : Rows}
    {s' : State} (h : s.close e done waiting outer t 0 = .ok s') : s'.Above := by
  cases e with
  | group | index | environment name columns | fence opening =>
    obtain rfl := Except.ok.inj h
    exact nofun
  | columns name =>
    cases hcolumns : (Node.collapse done).plainText? with
    | none => simp [State.close, hcolumns] at h
    | some columns =>
      simp only [State.close, hcolumns] at h
      obtain rfl := Except.ok.inj h
      exact above_apply (m := .enclose _ _) trivial

theorem above_element {s' : State} (h : s.element t 0 = .ok s') : s'.Above := by
  rcases element_ok h with ⟨m, hm, rfl⟩ | ⟨_, _, _, _, -, -, hclose⟩
  · cases t.begin?_blind with
    | none hnone =>
      rw [hnone] at hm
      cases hm
    | some m' hm' hsome =>
      rw [hsome] at hm
      obtain rfl := Option.some.inj hm
      exact above_apply (hm'.onto _)
  · exact above_close hclose

/-- In an inner row elements are read and the row ends whatever the bottom is. -/
theorem atop_element {e : Enclosure} {done : List Node} {waiting : List Frame} {outer : Rows}
    (hrows : s.rows = .inner e done waiting outer) (t : Token) (bottom : List Frame)
    (ns : List Node) :
    (s.atop bottom ns).element t 0 = (s.element t 0).map (·.atop bottom ns) := by
  have hatop : (s.atop bottom ns).rows =
      .inner e done (waiting ++ outer.lower bottom) (outer.atop bottom ns) := by
    rw [atop_inner hrows]
  cases hclosed : e.closedBy t with
  | true =>
    rw [element_eq_close hatop hclosed, element_eq_close hrows hclosed]
    cases e with
    | columns name =>
      cases hcolumns : (Node.collapse done).plainText? with
      | none =>
        simp only [State.close, hcolumns]
        rfl
      | some columns =>
        simp only [State.close, hcolumns]
        rfl
    | _ => rfl
  | false =>
    have happly (m : Move) : (s.atop bottom ns).apply m = (s.apply m).atop bottom ns := by
      rw [← atop_apply, hrows]
      cases m <;> simp [Move.onto, Rows.lower]
    cases hbegin : t.begin? [.prime, .scripts] with
    | none =>
      simp only [element, hatop, hrows, hclosed, hbegin]
      rfl
    | some m =>
      simp only [element, hatop, hrows, hclosed, hbegin, happly]
      rfl

/-! ### Steps above a bottom -/

/-- A step that is made above the bottom, whatever that is. -/
def Stays (s : State) (step : State → Except Error State) : Prop :=
  ∃ r : Except Error State, (∀ s', r = .ok s' → s'.Above) ∧
    ∀ bottom ns, step (s.atop bottom ns) = r.map (·.atop bottom ns)

/-- A step that hands a node down to the bottom. -/
def HandsDown (s : State) (t : Token) (step : State → Except Error State) : Prop :=
  ∃ k, ∀ bottom ns,
    step (s.atop bottom ns) = (State.mk (.value k) bottom (.root ns) s.warnings).step t 0

theorem stays_apply {step : State → Except Error State} {m : Move} (hm : m.Proper)
    (h : ∀ bottom ns, step (s.atop bottom ns) =
      .ok ((s.atop bottom ns).apply (m.onto (s.rows.lower bottom)))) : s.Stays step := by
  refine ⟨.ok (s.apply m), ?_, fun bottom ns => ?_⟩
  · rintro s' ⟨⟩
    exact above_apply hm
  · rw [h, atop_apply]
    rfl

theorem stays_error {step : State → Except Error State} {e : Error}
    (h : ∀ bottom ns, step (s.atop bottom ns) = .error e) : s.Stays step := by
  refine ⟨.error e, ?_, h⟩
  rintro s' ⟨⟩

theorem value_of_move {n : Node} {m : Move} (h : feed s.waiting n t = .move m) :
    s.value n t 0 = .ok (s.apply m) := by
  rw [State.value, h]

theorem value_of_element {n k : Node} (h : feed s.waiting n t = .element k) :
    s.value n t 0 = ({ s with rows := s.rows.push k } : State).element t 0 := by
  rw [State.value, h]

/-- A token behind a node. -/
theorem atop_value (s : State) (n : Node) (t : Token) :
    s.Stays (·.value n t 0) ∨ s.HandsDown t (·.value n t 0) := by
  rcases feed_append s.waiting n t with ⟨m, hm, hfeed⟩ | ⟨k, hfeed⟩
  · exact .inl (stays_apply hm fun bottom ns => value_of_move (hfeed _))
  cases hrows : s.rows with
  | root done =>
    -- All frames above the bottom have closed.
    refine .inr ⟨k, fun bottom ns => ?_⟩
    show (s.atop bottom ns).value n t 0 =
      (State.mk (.value k) bottom (.root ns) s.warnings).value k t 0
    rw [atop_root hrows]
    cases hdown : feed bottom k t with
    | move m =>
      rw [value_of_move ((hfeed bottom).trans hdown), value_of_move hdown]
      cases m <;> rfl
    | element k' =>
      rw [value_of_element ((hfeed bottom).trans hdown), value_of_element hdown]
      exact element_congr rfl rfl t 0
  | inner e done waiting outer =>
    -- The node is an element of the inner row.
    have hpush : ({ s with rows := s.rows.push k } : State).rows =
        .inner e (done ++ [k]) waiting outer := by
      rw [hrows]
      rfl
    refine .inl ⟨({ s with rows := s.rows.push k } : State).element t 0,
      fun s' h => above_element h, fun bottom ns => ?_⟩
    have hinner : feed s.waiting n t = .element k := by
      rw [← List.append_nil s.waiting, hfeed]
      rfl
    rw [← atop_element hpush, atop_inner hpush]
    show (s.atop bottom ns).value n t 0 = _
    rw [atop_inner hrows]
    exact Eq.trans (value_of_element hinner) (element_congr rfl rfl t 0)

/-- A token where an argument may stand. -/
theorem atop_argument (s : State) (a : Application) (t : Token) :
    s.Stays (·.argument a t 0) ∨ s.HandsDown t (·.argument a t 0) := by
  cases t.begin?_blind with
  | some m hm hbegin =>
    refine .inl (stays_apply (hm.onto (.argument a :: s.waiting)) fun bottom ns => ?_)
    rw [m.onto_onto]
    show State.argument _ a t 0 = _
    rw [State.argument, hbegin]
    rfl
  | none hbegin =>
    have hvalue : (fun u : State => u.argument a t 0) = (·.value a.node t 0) := by
      funext u
      rw [State.argument, hbegin]
    rw [hvalue]
    exact s.atop_value a.node t

/-- **A step is made above the bottom, or hands a node down.** -/
theorem atop_step (h : s.Above) (t : Token) :
    s.Stays (·.step t 0) ∨ s.HandsDown t (·.step t 0) := by
  -- In most places a step is one of the functions above.
  have same {step : State → Except Error State} (f : State → Except Error State)
      (hstep : ∀ bottom ns, step (s.atop bottom ns) = f (s.atop bottom ns))
      (hf : s.Stays f ∨ s.HandsDown t f) : s.Stays step ∨ s.HandsDown t step := by
    rcases hf with ⟨r, hr, hf⟩ | ⟨k, hf⟩
    · exact .inl ⟨r, hr, fun bottom ns => (hstep bottom ns).trans (hf bottom ns)⟩
    · exact .inr ⟨k, fun bottom ns => (hstep bottom ns).trans (hf bottom ns)⟩
  have hfocus (bottom : List Frame) (ns : List Node) : (s.atop bottom ns).focus = s.focus := rfl
  cases hf : s.focus with
  | value n =>
    exact same (·.value n t 0) (fun _ _ => by simp only [step, hfocus, hf]) (s.atop_value n t)
  | element =>
    obtain ⟨e, done, waiting, outer, hrows⟩ := h hf
    refine .inl ⟨s.element t 0, fun s' h => above_element h, fun bottom ns => ?_⟩
    rw [← atop_element hrows]
    simp only [step, hfocus, hf]
  | argument a =>
    exact same (·.argument a t 0) (fun _ _ => by simp only [step, hfocus, hf])
      (s.atop_argument a t)
  | operand op =>
    refine .inl ?_
    cases t.begin?_blind with
    | none hbegin => exact stays_error fun _ _ => by simp only [step, hfocus, hf, hbegin]; rfl
    | some m hm hbegin =>
      refine stays_apply (hm.onto (.prime :: s.waiting)) fun bottom ns => ?_
      rw [m.onto_onto]
      simp only [step, hfocus, hf, hbegin]
      rfl
  | radical =>
    by_cases ht : t = .delimiter (utf8 "[")
    · refine .inl (stays_apply (m := .enclose .index (.index :: s.waiting)) trivial fun _ _ => ?_)
      simp only [step, hfocus, hf, if_pos ht]
      rfl
    · refine same (·.argument (.start .radical) t 0) (fun _ _ => ?_) (s.atop_argument _ t)
      simp only [step, hfocus, hf, if_neg ht]
  | limits l =>
    cases l.move?_blind t with
    | none hmove =>
      refine same (·.value l.node t 0) (fun _ _ => ?_) (s.atop_value l.node t)
      simp only [step, hfocus, hf, hmove]
    | some m hm hmove =>
      refine .inl (stays_apply (hm.onto s.waiting) fun bottom ns => ?_)
      rw [m.onto_onto]
      simp only [step, hfocus, hf, hmove]
      rfl
  | columns name =>
    refine .inl ?_
    by_cases ht : t = .groupBegin
    · refine stays_apply (m := .enclose (.columns name) s.waiting) trivial fun _ _ => ?_
      simp only [step, hfocus, hf, if_pos ht]
      rfl
    · exact stays_error fun _ _ => by simp only [step, hfocus, hf, if_neg ht]; rfl
  | sized tag =>
    refine .inl ?_
    cases t with
    | delimiter glyph =>
      refine stays_apply (m := .focus (.value (sizedNode tag glyph)) s.waiting) trivial
        fun _ _ => ?_
      simp only [step, hfocus, hf]
      rfl
    | _ => exact stays_error fun _ _ => by simp only [step, hfocus, hf]; rfl
  | opening =>
    refine .inl ?_
    cases hglyph : fenceGlyph? t with
    | none => exact stays_error fun _ _ => by simp only [step, hfocus, hf, hglyph]; rfl
    | some glyph =>
      refine stays_apply (m := .enclose (.fence glyph) s.waiting) trivial fun _ _ => ?_
      simp only [step, hfocus, hf, hglyph]
      rfl
  | closing opening content =>
    refine .inl ?_
    cases hglyph : fenceGlyph? t with
    | none => exact stays_error fun _ _ => by simp only [step, hfocus, hf, hglyph]; rfl
    | some glyph =>
      refine stays_apply (m := .focus (.value (fenceNode opening glyph content)) s.waiting) trivial
        fun _ _ => ?_
      simp only [step, hfocus, hf, hglyph]
      rfl
  | middle =>
    refine .inl ?_
    cases hglyph : fenceGlyph? t with
    | none => exact stays_error fun _ _ => by simp only [step, hfocus, hf, hglyph]; rfl
    | some glyph =>
      refine stays_apply (m := .focus (.value (sizedNode .middle glyph)) s.waiting) trivial
        fun _ _ => ?_
      simp only [step, hfocus, hf, hglyph]
      rfl

/-- **Above the bottom the input may not end, or it ends with a node that is handed
down.** -/
theorem atop_nodes? (h : s.Above) :
    (∀ bottom ns, (s.atop bottom ns).nodes? = none) ∨
      ∃ k, ∀ bottom ns, (s.atop bottom ns).nodes? = some (ns ++ [closeAll bottom k]) := by
  have none_of {bottom : List Frame} {ns : List Node}
      (hno : ∀ ks, ¬(s.atop bottom ns).Rests ks) : (s.atop bottom ns).nodes? = none := by
    cases hnodes : (s.atop bottom ns).nodes? with
    | none => rfl
    | some ks => exact absurd (rests_of_nodes? hnodes) (hno ks)
  cases hrows : s.rows with
  | inner e done waiting outer =>
    refine .inl fun bottom ns => none_of fun ks hrests => ?_
    rw [atop_inner hrows] at hrests
    cases hrests with
    | element _ hroot | node _ hroot => cases hroot
  | root done =>
    cases hn : s.focus.node? with
    | none =>
      refine .inl fun bottom ns => none_of fun ks hrests => ?_
      cases hrests with
      | element hf _ =>
        obtain ⟨_, _, _, _, hinner⟩ := h hf
        rw [hrows] at hinner
        cases hinner
      | node hn' _ =>
        have hsome : s.focus.node? = some _ := hn'
        rw [hn] at hsome
        cases hsome
    | some n =>
      refine .inr ⟨closeAll s.waiting n, fun bottom ns => ?_⟩
      have hrests : (State.mk s.focus (s.waiting ++ bottom) (.root ns) s.warnings).Rests
          (ns ++ [closeAll (s.waiting ++ bottom) n]) := .node hn rfl
      rw [atop_root hrows, hrests.nodes?, closeAll, List.foldl_append]
      rfl

end State

end MathMarkup
