/-
MathMarkup/Proofs/FinalBreaks.lean

The line break at the end of an environment, which starts no row and can be left out
(`compile_final_lineBreak`).

The break meets whatever the content ends with.  Mostly it becomes an element of its
own, and lowering leaves it out.  But a command may still look for an argument and
takes the break for it; then the content has as many elements as before, and the last
one serves as well as it did without the break (`State.Holds.lineBreak`, see
`Node.Serves`).

In the source the break stands on a line of its own, in front of the command that ends the
environment, and that both are tokens there is due to `IsName.scans_lineBreak`.
-/
import MathMarkup.Proofs.Cells
import MathMarkup.Proofs.EnvironmentCommands
import MathMarkup.Proofs.FirstEnvironment
import MathMarkup.Proofs.Legality
import MathMarkup.Proofs.Serving

namespace MathMarkup

open Lexer

/-- The node of a line break. -/
abbrev Node.lineBreak : Node :=
  .leaf .lineBreak [] none

/-! ### Frames -/

variable {T : Token → Prop}

/-- A frame takes a line break only as the argument that a command lacks. -/
theorem Frame.shift_lineBreak {f : Frame} (hf : f.WellFormed T) {n : Node} {waiting : List Frame}
    {m : Move} (h : f.shift n .lineBreak waiting = some m) :
    ∃ a, m = .focus (.value .lineBreak) (.argument a :: waiting) ∧
      (f.close n).Serves (a.push .lineBreak).node := by
  cases f with
  | prime | scripts | first base op | second base op script | chain op | nest base op => cases h
  | limit op l =>
    simp only [shift, Limits.move?, ite_self] at h
    cases h
  | index =>
    obtain rfl := Option.some.inj h
    let a : Application := { Application.start .radical with index := some n }
    exact ⟨a, rfl, Application.serves_first (a := a) rfl rfl .lineBreak⟩
  | argument a =>
    by_cases hlen : (a.push n).args.length < (a.push n).tag.arity
    · simp only [shift, if_pos hlen] at h
      obtain rfl := Option.some.inj h
      exact ⟨a.push n, rfl, Application.serves_push hf hlen .lineBreak⟩
    · have hnone : (Frame.argument a).shift n .lineBreak waiting = none :=
        shift_argument_of_enough hlen (by rintro ⟨⟩) (by rintro op ⟨⟩) waiting
      rw [hnone] at h
      cases h

/-- A line break leaves the node in front of it finished, or is taken by a frame; by
induction on the frames. -/
theorem feed_lineBreak {waiting : List Frame} (hw : ∀ f ∈ waiting, f.WellFormed T) (n : Node) :
    feed waiting n .lineBreak = .element (State.closeAll waiting n) ∨
      ∃ waiting', feed waiting n .lineBreak = .move (.focus (.value .lineBreak) waiting') ∧
        (State.closeAll waiting n).Serves (State.closeAll waiting' .lineBreak) := by
  induction waiting generalizing n with
  | nil => exact .inl rfl
  | cons f waiting ih =>
    obtain ⟨hf, hw⟩ := List.forall_mem_cons.mp hw
    cases hshift : f.shift n .lineBreak waiting with
    | none =>
      simp only [feed, hshift]
      exact ih hw (f.close n)
    | some m =>
      obtain ⟨a, rfl, hserves⟩ := f.shift_lineBreak hf hshift
      simp only [feed, hshift]
      exact .inr ⟨_, rfl, hserves.closeAll waiting⟩

/-- Only a frame that adds nothing makes an environment of a node. -/
theorem Frame.close_eq_self {f : Frame} {n : Node} {data : Bytes} {tag : Option Token}
    {params : Params} {children : List Node}
    (h : f.close n = .mk .environment data tag params children) (k : Node) : f.close k = k := by
  cases f with
  | prime | scripts | chain _ => rfl
  | first base op | nest base op | second base op script => cases op <;> cases h
  | index => cases h
  | argument a =>
    rw [close, node_push] at h
    cases h
  | limit op l =>
    obtain ⟨tag', isStacked, sub, sup⟩ := l
    cases op <;> cases isStacked <;> cases sub <;> cases sup <;> cases h

theorem State.closeAll_eq_self {waiting : List Frame} {n : Node} {data : Bytes}
    {tag : Option Token} {params : Params} {children : List Node}
    (h : closeAll waiting n = .mk .environment data tag params children) (k : Node) :
    closeAll waiting k = k := by
  induction waiting generalizing n k with
  | nil => rfl
  | cons f waiting ih =>
    have hrest := ih (n := f.close n) h
    have hclose : f.close n = .mk .environment data tag params children :=
      (hrest (f.close n)).symm.trans h
    show closeAll waiting (f.close k) = k
    rw [hrest, f.close_eq_self hclose]

/-! ### The innermost row -/

/-- What the innermost row of a state holds if it ends now. -/
inductive State.Holds (s : State) (e : Enclosure) :
    List Node → List Frame → Rows → Prop
  | element {done : List Node} {waiting : List Frame} {outer : Rows} : s.focus = .element →
      s.rows = .inner e done waiting outer → Holds s e done waiting outer
  | node {n : Node} {done : List Node} {waiting : List Frame} {outer : Rows} :
      s.focus.node? = some n → s.rows = .inner e done waiting outer →
      Holds s e (done ++ [closeAll s.waiting n]) waiting outer

/-- A line break ends no row. -/
theorem Rows.closedBy_lineBreak (rows : Rows) : rows.closedBy .lineBreak = false := by
  cases rows with
  | root done => rfl
  | inner e done waiting outer => cases e <;> rfl

/-- Content with a line break behind it, or whose last node has taken the break up. -/
inductive Broken : List Node → List Node → Prop
  | last (ns : List Node) : Broken ns (ns ++ [.lineBreak])
  | taken (ns : List Node) {n n' : Node} : n.Serves n' → Broken (ns ++ [n]) (ns ++ [n'])

/-- The state `u` behind a line break that follows the node `n`. -/
inductive State.Breaks (s : State) (n : Node) (u : State) : Prop
  | last : u.focus = .value .lineBreak → u.waiting = [.prime, .scripts] →
      u.rows = s.rows.push (closeAll s.waiting n) → Breaks s n u
  | taken : u.focus = .value .lineBreak → u.rows = s.rows →
      (closeAll s.waiting n).Serves (closeAll u.waiting .lineBreak) → Breaks s n u

namespace State

variable {s s' : State} {e : Enclosure} {done : List Node} {waiting : List Frame} {outer : Rows}
  {t : Token} {name : Bytes}

/-- A closer comes behind the node that is in focus. -/
theorem step_eq_element_of_isCloser {n : Node} (hn : s.focus.node? = some n)
    (ht : t.isCloser = true) :
    s.step t 0 = { s with rows := s.rows.push (closeAll s.waiting n) }.element t 0 := by
  rw [step_eq_value hn (fun _ => Token.begin?_of_isCloser ht)
    (fun l _ => Limits.move?_of_isCloser ht l), State.value, feed_of_isCloser ht]

/-- A closer ends the row with what it holds. -/
theorem Holds.step (h : s.Holds e done waiting outer) (ht : t.isCloser = true)
    (hclosed : e.closedBy t = true) : s.step t 0 = s.close e done waiting outer t 0 := by
  cases h with
  | element hf hrows =>
    rw [State.step, hf]
    exact element_eq_close hrows hclosed 0
  | node hn hrows =>
    rw [step_eq_element_of_isCloser hn ht, element_eq_close (by rw [hrows]; rfl) hclosed]
    rfl

/-- The command that ends an environment makes a node of it. -/
theorem Holds.outcome {begun : Bytes} {columns : Option Bytes}
    (h : s.Holds (.environment begun columns) done waiting outer) :
    s.outcome [.environmentEnd name] =
      (State.mk (.value (environmentNode begun columns done)) waiting outer []).nodes? := by
  rw [outcome_of_step (h.step rfl rfl)]
  exact outcome_congr rfl rfl rfl []

/-- What can be ended with the command that ends an environment is one. -/
theorem exists_of_element (h : s.element (.environmentEnd name) 0 = .ok s') :
    ∃ begun columns done waiting outer,
      s.rows = .inner (.environment begun columns) done waiting outer := by
  rcases element_ok h with ⟨m, hm, -⟩ | ⟨e, done, waiting, outer, hrows, hclosed, -⟩
  · cases hm
  · cases e with
    | environment begun columns => exact ⟨begun, columns, done, waiting, outer, hrows⟩
    | group | index | columns _ | fence _ => cases hclosed

/-- Where an environment can be ended, the innermost row is one.  A focus that still needs
something does not let it end. -/
theorem holds_of_step (h : s.step (.environmentEnd name) 0 = .ok s') :
    ∃ begun columns done waiting outer,
      s.Holds (.environment begun columns) done waiting outer := by
  have node {n : Node} (hn : s.focus.node? = some n) : ∃ begun columns done waiting outer,
      s.Holds (.environment begun columns) done waiting outer := by
    rw [step_eq_element_of_isCloser hn rfl] at h
    obtain ⟨begun, columns, done, waiting, outer, hpush⟩ := exists_of_element h
    cases hrows : s.rows with
    | root done =>
      rw [hrows] at hpush
      cases hpush
    | inner e done waiting outer =>
      rw [hrows] at hpush
      obtain ⟨rfl, -, -, -⟩ := Rows.inner.inj hpush
      exact ⟨_, _, _, _, _, .node hn hrows⟩
  cases hf : s.focus with
  | element =>
    rw [State.step, hf] at h
    obtain ⟨begun, columns, done, waiting, outer, hrows⟩ := exists_of_element h
    exact ⟨_, _, _, _, _, .element hf hrows⟩
  | value n | argument a | radical | limits l => exact node (congrArg Focus.node? hf)
  | operand _ | columns _ | sized _ | opening | closing _ _ | middle =>
    rw [State.step, hf] at h
    cases h

theorem breaks_value (hw : ∀ f ∈ s.waiting, f.WellFormed T) (n : Node) :
    ∃ u, s.value n .lineBreak 0 = .ok u ∧ s.Breaks n u := by
  rcases feed_lineBreak hw n with hfeed | ⟨waiting', hfeed, hserves⟩
  · simp only [State.value, hfeed]
    exact ⟨_, element_eq_apply rfl (Rows.closedBy_lineBreak _) 0, .last rfl rfl rfl⟩
  · simp only [State.value, hfeed]
    exact ⟨_, rfl, .taken rfl rfl hserves⟩

theorem breaks_argument {a : Application} (ht : a.tag.takesArguments = true) (hargs : a.args = []) :
    ∃ u, s.argument a .lineBreak 0 = .ok u ∧ s.Breaks a.node u :=
  ⟨_, rfl, .taken rfl rfl ((a.serves_first ht hargs .lineBreak).closeAll s.waiting)⟩

/-- **A line break behind a node** is an element of its own, or the argument that a
command lacks. -/
theorem breaks_of_node (hs : s.WellFormed T) (hargs : ∀ a, s.focus = .argument a → a.args = [])
    {n : Node} (hn : s.focus.node? = some n) :
    ∃ u, s.step .lineBreak 0 = .ok u ∧ s.Breaks n u := by
  have hfocus := hs.focus
  cases hf : s.focus with
  | value k | limits l =>
    rw [hf] at hn
    obtain rfl := Option.some.inj hn
    rw [State.step, hf]
    exact breaks_value hs.waiting _
  | argument a =>
    rw [hf] at hn hfocus
    obtain rfl := Option.some.inj hn
    rw [State.step, hf]
    exact breaks_argument hfocus.takesArguments (hargs a hf)
  | radical =>
    rw [hf] at hn
    obtain rfl := Option.some.inj hn
    rw [State.step, hf]
    exact breaks_argument rfl rfl
  | element | operand _ | columns _ | sized _ | opening | closing _ _ | middle =>
    rw [hf] at hn
    cases hn

/-- **A line break at the end of a row.** -/
theorem Holds.lineBreak (h : s.Holds e done waiting outer) (hs : s.WellFormed T)
    (hargs : ∀ a, s.focus = .argument a → a.args = []) :
    ∃ u done', s.step .lineBreak 0 = .ok u ∧ u.Holds e done' waiting outer ∧ Broken done done' := by
  cases h with
  | element hf hrows =>
    let u : State := ⟨.value .lineBreak, [.prime, .scripts], s.rows, s.warnings⟩
    have hstep : s.step .lineBreak 0 = .ok u := by
      rw [State.step, hf]
      exact element_eq_apply rfl s.rows.closedBy_lineBreak 0
    have hholds : u.Holds e (done ++ [.lineBreak]) waiting outer := .node rfl hrows
    exact ⟨u, _, hstep, hholds, .last done⟩
  | @node n done _ _ hn hrows =>
    obtain ⟨u, hstep, hbreaks⟩ := breaks_of_node hs hargs hn
    cases hbreaks with
    | last hf hw hpush =>
      -- The node is an element by now, and primes and scripts might follow the break.
      rw [hrows] at hpush
      have hholds := Holds.node (congrArg Focus.node? hf) hpush
      rw [hw] at hholds
      exact ⟨u, _, hstep, hholds, .last _⟩
    | taken hf hsame hserves =>
      exact ⟨u, _, hstep, .node (congrArg Focus.node? hf) (hsame.trans hrows), .taken done hserves⟩

/-- Where there is one environment only, nothing waits for it. -/
theorem nodes?_environment {begun data : Bytes} {columns : Option Bytes} {tag : Option Token}
    {params : Params} {children : List Node}
    (h : (State.mk (.value (environmentNode begun columns done)) waiting outer []).nodes? =
      some [.mk .environment data tag params children]) :
    environmentNode begun columns done = .mk .environment data tag params children ∧
      ∀ n, (State.mk (.value n) waiting outer []).nodes? = some [n] := by
  have hrests := rests_of_nodes? h
  generalize hns : [Node.mk .environment data tag params children] = ns at hrests
  cases hrests with
  | element hf _ => cases hf
  | @node n before hn hroot =>
    obtain rfl := Option.some.inj hn
    have hroot : outer = .root before := hroot
    rcases List.append_eq_singleton_iff.mp hns.symm with ⟨rfl, hlast⟩ | ⟨-, hlast⟩
    · have hlast := List.singleton_inj.mp hlast
      have hself := closeAll_eq_self hlast
      refine ⟨(hself _).symm.trans hlast, fun k => ?_⟩
      have hnode : (State.mk (.value k) waiting outer []).Rests ([] ++ [closeAll waiting k]) :=
        .node rfl hroot
      rw [hnode.nodes?, hself]
      rfl
    · cases hlast

/-- **A line break at the end of the environment that a tree consists of.** -/
theorem outcome_lineBreak (hs : s.WellFormed T) (hargs : ∀ a, s.focus = .argument a → a.args = [])
    {data : Bytes} {tag : Option Token} {params : Params} {children : List Node}
    (h : s.outcome [.environmentEnd name] = some [.mk .environment data tag params children]) :
    ∃ children', Broken children children' ∧ s.outcome [.lineBreak, .environmentEnd name] =
      some [.mk .environment data tag params children'] := by
  cases hstep : s.step (.environmentEnd name) 0 with
  | error e =>
    rw [outcome_of_error hstep] at h
    cases h
  | ok s' =>
    obtain ⟨begun, columns, done, waiting, outer, hholds⟩ := holds_of_step hstep
    obtain ⟨u, done', hbreak, hholds', hbroken⟩ := hholds.lineBreak hs hargs
    rw [hholds.outcome] at h
    obtain ⟨hnode, hnodes⟩ := nodes?_environment h
    obtain ⟨-, rfl, rfl, rfl, rfl⟩ := Node.mk.inj hnode
    refine ⟨done', hbroken, ?_⟩
    rw [outcome_of_step hbreak, hholds'.outcome, hnodes]
    rfl

end State

/-! ### Lowering -/

/-- An environment with a line break at the end becomes what it becomes without. -/
theorem Broken.lower {ns ns' : List Node} (h : Broken ns ns')
    (hlast : ∀ n ∈ ns.getLast?, n.isLineBreak = false) {table : Table} {v : Variant} {data : Bytes}
    {tag : Option Token} {params : Params} {m : Markup}
    (hm : Lowering.lower table v (.mk .environment data tag params ns) = .ok m) :
    Lowering.lower table v (.mk .environment data tag params ns') = .ok m := by
  cases h with
  | taken before hserves =>
    have hall := hserves.forall₂_middle before []
    rw [List.append_nil, List.append_nil] at hall
    exact (Node.Serves.node hall _ _ _ _).lower hm
  | last =>
    simp only [Lowering.lower] at hm ⊢
    cases he : Lowering.environment? data with
    | none =>
      rw [he] at hm
      cases hm
    | some e =>
      rw [he] at hm
      obtain ⟨ms, hms, hm⟩ := Lowering.exists_of_bind_eq_ok hm
      -- Neither content has a line break at the end of its cells.
      have hcells : Lowering.cells ns ms = ms := by
        unfold Lowering.cells
        cases hns : ns.getLast? with
        | none => rfl
        | some n => simp [hlast n hns]
      have hbreak : Lowering.lowerAll table v (ns ++ [.lineBreak]) = .ok (ms ++ [.lineBreak]) :=
        Lowering.lowerAll_append_eq_ok.mpr ⟨ms, [.lineBreak], hms, rfl, rfl⟩
      simp only [hbreak]
      rw [hcells] at hm
      rw [← hm]
      show Except.ok _ = Except.ok _
      rw [cells_concat]

/-! ### Sources -/

/-- The environments that there are have names that can stand in braces. -/
theorem Lowering.isName_of_environment? {name : Bytes} (h : (environment? name).isSome = true) :
    IsName name := by
  have hnames : ∀ name ∈ environmentNames, IsName name := by
    decide
  refine hnames name (List.contains_iff_mem.mp ?_)
  cases hcontains : environmentNames.contains name with
  | true => rfl
  | false =>
    rw [environment?_eq_none_iff.mpr hcontains] at h
    cases h

/-- An environment in a source. -/
def environmentText (name content : Bytes) : Bytes :=
  named (utf8 "begin") name ++ content ++ named (utf8 "end") name

/-- The tree of an environment with a line break on a last line of its own. -/
theorem parse_lineBreak {name b : Bytes} (hname : IsName name) {data : Bytes} {tag : Option Token}
    {params : Params} {children : List Node}
    (h : (parse (environmentText name (b ++ utf8 "\n"))).tree =
      .ok (.branch .root [.mk .environment data tag params children])) :
    ∃ children', Broken children children' ∧
      (parse (environmentText name (b ++ utf8 "\n\\\\\n"))).tree =
        .ok (.branch .root [.mk .environment data tag params children']) := by
  obtain ⟨ts, hts, ns, hns, hroot⟩ := parse_eq_ok_iff.mp h
  obtain rfl : [.mk .environment data tag params children] = ns := by
    simpa [Node.branch] using hroot
  have hsource : environmentText name (b ++ utf8 "\n") =
      named (utf8 "begin") name ++ b ++ ascii '\n' :: named (utf8 "end") name := by
    have hline : utf8 "\n" = [ascii '\n'] := rfl
    simp [environmentText, hline]
  have hbroken : environmentText name (b ++ utf8 "\n\\\\\n") =
      named (utf8 "begin") name ++ b ++
        ascii '\n' :: ascii '\\' :: ascii '\\' :: ascii '\n' :: named (utf8 "end") name := by
    have hline : utf8 "\n\\\\\n" = [ascii '\n', ascii '\\', ascii '\\', ascii '\n'] := rfl
    simp [environmentText, hline]
  rw [hsource, tokenizes_iff] at hts
  obtain ⟨ps, rfl, hscans⟩ := hname.scans_lineBreak hts
  -- The state in front of the end of the environment.
  obtain ⟨s, hrun, hend⟩ := State.exists_run_of_append hns
  have hwell : s.WellFormed fun _ => True := by
    have hwell : (State.start.run (Lexemes.ofTokens ps).list).1.WellFormed fun _ => True :=
      State.start_wellFormed.run fun _ _ => trivial
    rwa [hrun] at hwell
  have hspelled := State.start_spelled.run hrun
  obtain ⟨children', hchildren, houtcome⟩ :=
    State.outcome_lineBreak hwell (fun a hf => hspelled.args_eq_nil hf) hend
  rw [← hbroken, ← tokenizes_iff] at hscans
  exact ⟨children', hchildren, hscans.parse_eq ((State.outcome_of_run hrun _).trans houtcome)⟩

/-- **A final line break in an environment is ignored.**  If a source consists of one
environment, whose content ends with a line and not with a line break, then with a line
break in a line of its own behind that content it compiles to the same markup. -/
theorem compile_final_lineBreak {table : Table} {name b : Bytes} {m : Markup}
    (hname : (Lowering.environment? name).isSome = true)
    (hm : compile table (environmentText name (b ++ utf8 "\n")) = .ok m) {data : Bytes}
    {tag : Option Token} {params : Params} {children : List Node}
    (htree : (parse (environmentText name (b ++ utf8 "\n"))).tree =
      .ok (.branch .root [.mk .environment data tag params children]))
    (hlast : ∀ n ∈ children.getLast?, n.isLineBreak = false) :
    compile table (environmentText name (b ++ utf8 "\n\\\\\n")) = .ok m := by
  obtain ⟨children', hbroken, htree'⟩ :=
    parse_lineBreak (Lowering.isName_of_environment? hname) htree
  obtain ⟨ns, ms, hns, hms, rfl⟩ := compile_eq_ok_iff.mp hm
  obtain rfl : [.mk .environment data tag params children] = ns := by
    simpa [Node.branch] using htree.symm.trans hns
  obtain ⟨k, hk, rfl⟩ := Lowering.lowerAll_singleton_eq_ok.mp hms
  have hk' := hbroken.lower hlast hk
  exact compile_eq_ok_iff.mpr
    ⟨_, _, htree', Lowering.lowerAll_singleton_eq_ok.mpr ⟨k, hk', rfl⟩, rfl⟩

/-- The break is taken as the second argument of the fraction, which is lost in the name of
an operator. -/
theorem compile_final_lineBreak_taken :
    let b := utf8 "x&\\operatorname\\frac1"
    let children : List Node :=
      [.leaf .letter (utf8 "x") none, .leaf .cellBreak [] none,
        .command .operatorName [.command (.fraction (utf8 "frac")) [.leaf .number (utf8 "1") none]]]
    (parse (environmentText (utf8 "pmatrix") (b ++ utf8 "\n"))).tree =
        .ok (.branch .root [environmentNode (utf8 "pmatrix") none children]) ∧
      (∀ n ∈ children.getLast?, n.isLineBreak = false) ∧
      ∃ m, compile Table.empty (environmentText (utf8 "pmatrix") (b ++ utf8 "\n")) = .ok m ∧
        compile Table.empty (environmentText (utf8 "pmatrix") (b ++ utf8 "\n\\\\\n")) = .ok m := by
  intro b children
  have htokens : Tokenizes (environmentText (utf8 "pmatrix") (b ++ utf8 "\n"))
      [.environmentBegin (utf8 "pmatrix"), .letter (utf8 "x"), .cellBreak, .operatorName,
        .fraction (utf8 "frac"), .number (utf8 "1"), .environmentEnd (utf8 "pmatrix")] := by
    decide +kernel
  have htree : (parse (environmentText (utf8 "pmatrix") (b ++ utf8 "\n"))).tree =
      .ok (.branch .root [environmentNode (utf8 "pmatrix") none children]) :=
    htokens.parse_eq rfl
  have hlast : ∀ n ∈ children.getLast?, n.isLineBreak = false := by
    rintro n ⟨⟩
    rfl
  obtain ⟨m, hm⟩ : ∃ m,
      compile Table.empty (environmentText (utf8 "pmatrix") (b ++ utf8 "\n")) = .ok m :=
    ⟨_, compile_eq_ok_iff.mpr ⟨_, _, htree, rfl, rfl⟩⟩
  exact ⟨htree, hlast, m, hm, compile_final_lineBreak rfl hm htree hlast⟩

end MathMarkup
