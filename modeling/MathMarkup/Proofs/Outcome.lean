/-
MathMarkup/Proofs/Outcome.lean

What comes out of a state.  `State.outcome s ts` is the list of nodes that there
are at the end when the tokens `ts` follow in state `s`, and nothing if they
cannot be parsed.  Neither offsets nor warnings matter for it.  So two states
that differ in warnings only have the same outcomes (`State.outcome_congr`), and
what a stretch of tokens does is said by an equation: in front of any further
tokens it leads from one state to another.

The equations of this module are about brace groups, which are one node wherever
a node is expected (`BraceGroup.outcome_operand`, `BraceGroup.outcome_start`), and
about frames that have no use for the token behind a node (`State.outcome_pass`).
-/
import MathMarkup.Proofs.Composition

namespace MathMarkup

/-- A source that is read to its end, as these tokens. -/
def Tokenizes (source : Bytes) (ts : List Token) : Prop :=
  (Lexemes.ofSource source).fault = none ∧ (Lexemes.ofSource source).tokens = ts

instance (source : Bytes) (ts : List Token) : Decidable (Tokenizes source ts) :=
  decidable_of_iff
    ((Lexemes.ofSource source).fault.isNone = true ∧ (Lexemes.ofSource source).tokens = ts)
    (and_congr_left fun _ => Option.isNone_iff_eq_none)

theorem tokenizes_iff {source : Bytes} {ts : List Token} :
    Tokenizes source ts ↔ Lexer.Scans .plain source ts :=
  Lexemes.scans_iff.symm

namespace State

variable {s s' u : State} {t : Token} {ts us : List Token} {ns : List Node}

/-- The nodes that there are if the input ends. -/
def nodes? (s : State) : Option (List Node) :=
  (s.finish 0).toOption.map Node.children

/-- The nodes that there are when tokens follow and then the input ends. -/
def outcome : State → List Token → Option (List Node)
  | s, [] => s.nodes?
  | s, t :: ts => (s.step t 0).toOption.bind (outcome · ts)

/-- The tree at the end of input is a root. -/
theorem exists_of_finish {offset : Nat} {tree : Node} (h : s.finish offset = .ok tree) :
    ∃ ns, tree = .branch .root ns := by
  have rows {rows : Rows} (h : finishRows offset rows = .ok tree) :
      ∃ ns, tree = .branch .root ns := by
    cases rows with
    | root done => exact ⟨done, (Except.ok.inj h).symm⟩
    | inner e done waiting outer => cases h
  cases hf : s.focus with
  | value n | element | argument a | radical | limits l =>
    simp only [State.finish, hf] at h
    exact rows h
  | operand _ | columns _ | sized _ | opening | closing _ _ | middle =>
    simp [State.finish, hf] at h

theorem Rests.nodes? (h : s.Rests ns) : s.nodes? = some ns := by
  rw [State.nodes?, h.finish 0]
  rfl

theorem rests_of_nodes? (h : s.nodes? = some ns) : s.Rests ns := by
  unfold State.nodes? at h
  cases hfinish : s.finish 0 with
  | error e =>
    rw [hfinish] at h
    cases h
  | ok tree =>
    rw [hfinish] at h
    obtain rfl := Option.some.inj h
    obtain ⟨ks, rfl⟩ := exists_of_finish hfinish
    exact rests_of_finish hfinish

theorem outcome_of_step (h : s.step t 0 = .ok s') (ts : List Token) :
    s.outcome (t :: ts) = s'.outcome ts := by
  rw [outcome, h]
  rfl

theorem outcome_of_error {e : Error} (h : s.step t 0 = .error e) (ts : List Token) :
    s.outcome (t :: ts) = none := by
  rw [outcome, h]
  rfl

theorem outcome_of_run (h : s.run (Lexemes.ofTokens ts).list = (s', none)) (us : List Token) :
    s.outcome (ts ++ us) = s'.outcome us := by
  induction ts generalizing s with
  | nil =>
    obtain ⟨rfl, -⟩ := Prod.mk.inj h
    rfl
  | cons t ts ih =>
    obtain ⟨s₁, hstep, hrun⟩ := exists_step_of_run_cons h
    rw [List.cons_append, outcome_of_step hstep]
    exact ih hrun

theorem exists_run_of_append (h : s.outcome (ts ++ us) = some ns) :
    ∃ s', s.run (Lexemes.ofTokens ts).list = (s', none) ∧ s'.outcome us = some ns := by
  induction ts generalizing s with
  | nil => exact ⟨s, rfl, h⟩
  | cons t ts ih =>
    rw [List.cons_append] at h
    cases hstep : s.step t 0 with
    | error e =>
      rw [outcome_of_error hstep] at h
      cases h
    | ok s₁ =>
      rw [outcome_of_step hstep] at h
      obtain ⟨s', hrun, hus⟩ := ih h
      refine ⟨s', ?_, hus⟩
      exact (run_cons_of_ok (l := ⟨t, 0⟩) hstep).trans hrun

theorem exists_run_of_outcome (h : s.outcome ts = some ns) :
    ∃ s', s.run (Lexemes.ofTokens ts).list = (s', none) ∧ s'.Rests ns := by
  rw [← List.append_nil ts] at h
  obtain ⟨s', hrun, hnodes⟩ := exists_run_of_append h
  exact ⟨s', hrun, rests_of_nodes? hnodes⟩

/-- Warnings do not matter. -/
theorem outcome_congr (hf : u.focus = s.focus) (hw : u.waiting = s.waiting)
    (hr : u.rows = s.rows) (ts : List Token) : u.outcome ts = s.outcome ts := by
  have hi : Inside (.root []) s u := ⟨hf, hw, hr.trans s.inside_root.rows⟩
  have hi' : Inside (.root []) u s := ⟨hf.symm, hw.symm, hr.symm.trans u.inside_root.rows⟩
  have lift {v w : State} {ks : List Node} (hi : Inside (.root []) v w)
      (h : v.outcome ts = some ks) : w.outcome ts = some ks := by
    obtain ⟨v', hrun, hrests⟩ := exists_run_of_outcome h
    obtain ⟨w', hrun', hi'⟩ := hi.run trivial rfl hrun
    have hnodes : w'.outcome [] = some ks := (hi'.rests hrests).nodes?
    rw [← hnodes, ← outcome_of_run hrun' [], List.append_nil]
  cases hu : u.outcome ts with
  | some ks => exact (lift hi' hu).symm
  | none =>
    cases hs : s.outcome ts with
    | none => rfl
    | some ks =>
      rw [lift hi hs] at hu
      cases hu

end State

/-- Tokens are read by themselves as what comes out of the start of a source. -/
theorem reads_iff {ts : List Token} {ns : List Node} :
    Reads ts ns ↔ State.start.outcome ts = some ns := by
  constructor
  · intro h
    obtain ⟨s, hrun, hrests⟩ := h.exists_run
    rw [← List.append_nil ts, State.outcome_of_run hrun]
    exact hrests.nodes?
  · intro h
    obtain ⟨s, hrun, hrests⟩ := State.exists_run_of_outcome h
    exact reads_of_run hrun hrests

/-- The tree of a source has the outcome of its tokens. -/
theorem parse_eq_ok_iff {source : Bytes} {tree : Node} :
    (parse source).tree = .ok tree ↔
      ∃ ts, Tokenizes source ts ∧ ∃ ns, State.start.outcome ts = some ns ∧
        tree = .branch .root ns := by
  constructor
  · intro h
    obtain ⟨hfault, -, hfinish, -⟩ := Lexemes.parse_ok h
    obtain ⟨ns, rfl⟩ := State.exists_of_finish hfinish
    exact ⟨_, ⟨hfault, rfl⟩, ns, reads_iff.mp (reads_of_parse h), rfl⟩
  · rintro ⟨ts, ⟨hfault, rfl⟩, ns, hts, rfl⟩
    exact (reads_iff.mpr hts).parse hfault

theorem Tokenizes.parse_eq_ok_iff {source : Bytes} {ts : List Token} {tree : Node}
    (h : Tokenizes source ts) :
    (parse source).tree = .ok tree ↔
      ∃ ns, State.start.outcome ts = some ns ∧ tree = .branch .root ns := by
  rw [MathMarkup.parse_eq_ok_iff]
  constructor
  · rintro ⟨us, hus, hns⟩
    obtain rfl : us = ts := hus.2.symm.trans h.2
    exact hns
  · exact fun hns => ⟨ts, h, hns⟩

theorem Tokenizes.parse_eq {source : Bytes} {ts : List Token} {ns : List Node}
    (h : Tokenizes source ts) (hts : State.start.outcome ts = some ns) :
    (parse source).tree = .ok (.branch .root ns) :=
  h.parse_eq_ok_iff.mpr ⟨ns, hts, rfl⟩

/-! ### Frames without a use for a token -/

/-- A frame that has no use for the token behind a node closes over the node. -/
theorem State.step_pass {f : Frame} {n : Node} {waiting : List Frame} {rows : Rows}
    {ws : List Warning} {t : Token} (h : f.shift n t waiting = none) :
    (State.mk (.value n) (f :: waiting) rows ws).step t 0 =
      (State.mk (.value (f.close n)) waiting rows ws).step t 0 := by
  simp only [State.step, State.value, feed, h]
  rfl

/-- So does a frame that no token follows. -/
theorem State.outcome_pass {f : Frame} {n : Node} {waiting : List Frame} {rows : Rows}
    {ws : List Warning} {ts : List Token} (h : ∀ t ∈ ts.head?, f.shift n t waiting = none) :
    (State.mk (.value n) (f :: waiting) rows ws).outcome ts =
      (State.mk (.value (f.close n)) waiting rows ws).outcome ts := by
  cases ts with
  | nil => rfl
  | cons t ts => rw [State.outcome, State.outcome, State.step_pass (h t rfl)]

/-! ### Brace groups -/

/-- A brace group whose content is read by itself, as that of a source with a tree
is. -/
structure BraceGroup where
  content : List Token
  nodes : List Node
  reads : Reads content nodes

namespace BraceGroup

/-- The group with the tokens of a source with a tree. -/
def ofSource {source : Bytes} {ns : List Node} (h : (parse source).tree = .ok (.branch .root ns)) :
    BraceGroup :=
  ⟨(Lexemes.ofSource source).tokens, ns, reads_of_parse h⟩

/-- The tokens of a group, braces included. -/
def tokens (g : BraceGroup) : List Token :=
  .groupBegin :: (g.content ++ [.groupEnd])

/-- The node that a group is: the only one in it, or a row. -/
def node (g : BraceGroup) : Node :=
  .collapse g.nodes

/-- The content of a group and the brace that ends it. -/
theorem outcome_content (g : BraceGroup) (waiting : List Frame) (rows : Rows) (ws : List Warning)
    (ts : List Token) :
    (State.mk .element [] (.inner .group [] waiting rows) ws).outcome
        (g.content ++ .groupEnd :: ts) =
      (State.mk (.value g.node) waiting rows ws).outcome ts := by
  have hopen : (Rows.inner .group [] waiting rows).IsOpen := trivial
  have hcontent : ∃ u, (State.mk .element [] (.inner .group [] waiting rows) ws).run
        (Lexemes.ofTokens g.content).list = (u, none) ∧
      u.step .groupEnd 0 = u.close .group g.nodes waiting rows .groupEnd 0 :=
    g.reads.run_enclosed hopen rfl rfl ws
  obtain ⟨u, hrun, hstep⟩ := hcontent
  rw [State.outcome_of_run hrun, State.outcome_of_step hstep]
  refine State.outcome_congr ?_ ?_ ?_ ts <;> rfl

/-- A group as an operand. -/
theorem outcome_operand (g : BraceGroup) (op : Script) (waiting : List Frame) (rows : Rows)
    (ws : List Warning) (ts : List Token) :
    (State.mk (.operand op) waiting rows ws).outcome (g.tokens ++ ts) =
      (State.mk (.value g.node) (.prime :: waiting) rows ws).outcome ts := by
  rw [← g.outcome_content, tokens, List.cons_append, List.append_assoc]
  exact State.outcome_of_step rfl _

/-- A group at the start of a source. -/
theorem outcome_start (g : BraceGroup) (ts : List Token) :
    State.start.outcome (g.tokens ++ ts) =
      (State.mk (.value g.node) [.prime, .scripts] (.root []) []).outcome ts := by
  rw [← g.outcome_content, tokens, List.cons_append, List.append_assoc]
  exact State.outcome_of_step rfl _

end BraceGroup

end MathMarkup
