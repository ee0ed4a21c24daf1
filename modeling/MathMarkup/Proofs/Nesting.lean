/-
MathMarkup/Proofs/Nesting.lean

Only properly nested sources have a tree.  Braces, fences and environments are
three kinds of brackets, and `Nested` is the grammar of the words over them in
which every closer matches the opener it belongs to; along with a word it tells
the warnings, one for each environment that ends under another name than it
began with, in the order in which environments end.

Nothing in a state of parsing is called a bracket.  What is open is spread over
the rows and the focus, and `State.brackets` collects it.  One more token does
one of three things to this stack (`Turn`): it goes on top, it takes the opener
it matches off the top, or it leaves the stack alone.  This is the step lemma
(`State.turned_step`).  `Closes` then says what words close a stack, read from
the end of a run to its beginning (`State.closes_of_run`).

The index of a root is closed by a delimiter, which is no bracket, and the
column specification of an array is a group inside of its environment that
comes before the content; both are rows like any other, so they need no case of
their own but in the definition of the stack.
-/
import MathMarkup.Proofs.WellFormed

namespace MathMarkup

/-! ### Nested words -/

namespace Token

/-- Whether the token opens a group, a fence or an environment. -/
def isOpener : Token → Bool
  | .groupBegin | .left | .environmentBegin _ => true
  | _ => false

/-- Whether the token opens or closes a group, a fence or an environment. -/
def isBracket (t : Token) : Bool :=
  t.isOpener || t.isCloser

/-- An opener and a closer of the same kind. -/
inductive Pairs : Token → Token → Prop
  | group : Pairs .groupBegin .groupEnd
  | fence : Pairs .left .right
  | environment (name endName : Bytes) : Pairs (.environmentBegin name) (.environmentEnd endName)

theorem Pairs.isOpener {opener closer : Token} (h : Pairs opener closer) :
    opener.isOpener = true ∧ closer.isOpener = false := by
  cases h <;> exact ⟨rfl, rfl⟩

theorem Pairs.isBracket {opener closer : Token} (h : Pairs opener closer) :
    closer.isBracket = true := by
  cases h <;> rfl

end Token

/-- The warning for an environment that ends under another name. -/
def mismatch (opener : Token) (closer : Lexeme) : List Warning :=
  match opener, closer with
  | .environmentBegin name, ⟨.environmentEnd endName, offset⟩ =>
    if endName = name then [] else [⟨name, endName, offset⟩]
  | _, _ => []

/-- Properly nested brackets, with the warnings for them in the order of the
closers. -/
inductive Nested : List Lexeme → List Warning → Prop
  | nil : Nested [] []
  | pair {opener closer : Lexeme} {inner rest : List Lexeme} {ws ws' : List Warning} :
      opener.token.Pairs closer.token → Nested inner ws → Nested rest ws' →
      Nested (opener :: (inner ++ closer :: rest)) (ws ++ mismatch opener.token closer ++ ws')

/-- The warnings for a word, with the openers that are open in front of it.  A
closer belongs to the innermost one, whatever its kind. -/
def unwind : List Token → List Lexeme → Option (List Warning)
  | stack, [] => if stack.isEmpty then some [] else none
  | stack, l :: ls =>
    if l.token.isOpener then unwind (l.token :: stack) ls
    else
      match stack with
      | [] => none
      | opener :: stack => (unwind stack ls).map (mismatch opener l ++ ·)

theorem unwind_opener (stack : List Token) {l : Lexeme} (h : l.token.isOpener = true)
    (ls : List Lexeme) : unwind stack (l :: ls) = unwind (l.token :: stack) ls := by
  cases stack <;> exact if_pos h

theorem unwind_closer (opener : Token) (stack : List Token) {l : Lexeme}
    (h : l.token.isOpener = false) (ls : List Lexeme) :
    unwind (opener :: stack) (l :: ls) = (unwind stack ls).map (mismatch opener l ++ ·) :=
  if_neg (by simp [h])

theorem Nested.unwind_append {word : List Lexeme} {ws : List Warning} (h : Nested word ws)
    (stack : List Token) (rest : List Lexeme) :
    unwind stack (word ++ rest) = (unwind stack rest).map (ws ++ ·) := by
  induction h generalizing stack rest with
  | nil => simp
  | @pair opener closer inner tail ws ws' hp _ _ ihinner ihtail =>
    obtain ⟨hopens, hcloses⟩ := hp.isOpener
    rw [List.cons_append, unwind_opener stack hopens, List.append_assoc, ihinner,
      List.cons_append, unwind_closer _ _ hcloses, ihtail]
    cases unwind stack rest with
    | none => rfl
    | some later => simp

/-- A word has at most one list of warnings. -/
theorem Nested.unique {word : List Lexeme} {ws ws' : List Warning} (h : Nested word ws)
    (h' : Nested word ws') : ws = ws' := by
  have hw := h.unwind_append [] []
  have hw' := h'.unwind_append [] []
  rw [hw] at hw'
  simpa [unwind] using hw'

/-! ### Words that close a stack -/

/-- What a bracket does to the openers that are open: it is put on top of them,
it takes the one it matches off, or it is no bracket at all. -/
inductive Turn (stack : List Token) (l : Lexeme) : List Token → List Warning → Prop
  | skip : l.token.isBracket = false → Turn stack l stack []
  | enter : l.token.isOpener = true → Turn stack l (l.token :: stack) []
  | leave {opener : Token} {rest : List Token} : stack = opener :: rest →
      opener.Pairs l.token → Turn stack l rest (mismatch opener l)

/-- A word that closes all that is open, from the innermost opener on. -/
inductive Closes : List Token → List Lexeme → List Warning → Prop
  | done {word : List Lexeme} {ws : List Warning} : Nested word ws → Closes [] word ws
  | next {opener : Token} {closer : Lexeme} {stack : List Token} {inner rest : List Lexeme}
      {ws ws' : List Warning} : opener.Pairs closer.token → Nested inner ws →
      Closes stack rest ws' →
      Closes (opener :: stack) (inner ++ closer :: rest) (ws ++ mismatch opener closer ++ ws')

/-- A nested word may come first. -/
theorem Closes.prepend {opener closer : Lexeme} {stack : List Token} {inner word : List Lexeme}
    {ws ws' : List Warning} (hp : opener.token.Pairs closer.token) (hinner : Nested inner ws)
    (h : Closes stack word ws') :
    Closes stack (opener :: (inner ++ closer :: word))
      (ws ++ mismatch opener.token closer ++ ws') := by
  cases h with
  | done hword => exact .done (.pair hp hinner hword)
  | @next outer closer' stack inner' rest ws₁ ws₂ hp' hinner' hrest =>
    have hfirst : Nested (opener :: (inner ++ closer :: inner'))
        (ws ++ mismatch opener.token closer ++ ws₁) := .pair hp hinner hinner'
    have hall := Closes.next hp' hfirst hrest
    simpa only [List.cons_append, List.append_assoc] using hall

/-- One more token in front, if the brackets behind it close what is then open. -/
theorem Closes.turn {stack stack' : List Token} {l : Lexeme} {ls : List Lexeme}
    {ws ws' : List Warning} (ht : Turn stack l stack' ws)
    (h : Closes stack' (ls.filter (·.token.isBracket)) ws') :
    Closes stack ((l :: ls).filter (·.token.isBracket)) (ws ++ ws') := by
  generalize hword : ls.filter (·.token.isBracket) = word at h
  cases ht with
  | skip hl =>
    rw [List.filter_cons_of_neg (by simp [hl]), hword]
    exact h
  | enter hl =>
    rw [List.filter_cons_of_pos (by simp [Token.isBracket, hl]), hword]
    -- The opener is the innermost one that `word` closes.
    cases h with
    | next hp hinner hrest => exact .prepend hp hinner hrest
  | leave hstack hp =>
    have hl : l.token.isBracket = true := hp.isBracket
    rw [List.filter_cons_of_pos (by simp [hl]), hword, hstack]
    exact .next hp .nil h

/-! ### The brackets that are open in a state -/

/-- The openers of what encloses a row; a column specification is a group within
an environment. -/
def Enclosure.brackets : Enclosure → List Token
  | .group => [.groupBegin]
  | .index => []
  | .columns name => [.groupBegin, .environmentBegin name]
  | .environment name _ => [.environmentBegin name]
  | .fence _ => [.left]

/-- The openers of the rows that are open. -/
def Rows.brackets : Rows → List Token
  | .root _ => []
  | .inner e _ _ outer => e.brackets ++ outer.brackets

/-- The opener that has no row yet. -/
def Focus.brackets : Focus → List Token
  | .columns name => [.environmentBegin name]
  | .opening => [.left]
  | _ => []

/-- The opener that a move adds. -/
def Move.brackets : Move → List Token
  | .focus f _ => f.brackets
  | .enclose e _ => e.brackets

/-- The openers that are open in a state. -/
def State.brackets (s : State) : List Token :=
  s.focus.brackets ++ s.rows.brackets

theorem Rows.brackets_push (rows : Rows) (n : Node) : (rows.push n).brackets = rows.brackets := by
  cases rows <;> rfl

theorem State.brackets_apply (s : State) (m : Move) :
    (s.apply m).brackets = m.brackets ++ s.rows.brackets := by
  cases m <;> rfl

/-! ### Tokens that begin or extend a node -/

/-- The move that a token makes opens what the token opens, and the token closes
nothing. -/
def Token.Leads (t : Token) (m : Move) : Prop :=
  t.isCloser = false ∧ m.brackets = if t.isOpener then [t] else []

theorem Token.leads_of_begin? {t : Token} {waiting : List Frame} {m : Move}
    (h : t.begin? waiting = some m) : t.Leads m := by
  cases t with
  | groupEnd | environmentEnd _ | right => cases h
  | verbatim kind data =>
    simp only [Token.begin?] at h
    split at h
    · cases h; exact ⟨rfl, rfl⟩
    · cases h; exact ⟨rfl, rfl⟩
  | environmentBegin name =>
    simp only [Token.begin?] at h
    split at h
    · cases h; exact ⟨rfl, rfl⟩
    · cases h; exact ⟨rfl, rfl⟩
  | _ => cases h; exact ⟨rfl, rfl⟩

theorem Limits.leads_of_move? {l : Limits} {t : Token} {waiting : List Frame} {m : Move}
    (h : l.move? t waiting = some m) : t.Leads m := by
  unfold Limits.move? at h
  split at h
  · split at h
    · cases h; exact ⟨rfl, rfl⟩
    split at h
    · cases h; exact ⟨rfl, rfl⟩
    · cases h
  · split at h
    · cases h
    · cases h; exact ⟨rfl, rfl⟩
  · cases h

namespace Frame

theorem leads_of_shift_argument {a : Application} {n : Node} {t : Token} {waiting : List Frame}
    {m : Move} (h : (Frame.argument a).shift n t waiting = some m) : t.Leads m := by
  simp only [Frame.shift] at h
  split at h
  · exact Token.leads_of_begin? h
  split at h
  · cases h; exact ⟨rfl, rfl⟩
  · split at h
    · cases h; exact ⟨rfl, rfl⟩
    · cases h
  · cases h

theorem leads_of_shift {f : Frame} {n : Node} {t : Token} {waiting : List Frame} {m : Move}
    (h : f.shift n t waiting = some m) : t.Leads m := by
  cases f with
  | argument a => exact leads_of_shift_argument h
  | index => exact Token.leads_of_begin? h
  | limit op l =>
    simp only [Frame.shift] at h
    split at h
    · cases h
    · exact Limits.leads_of_move? h
  | prime =>
    cases t with
    | prime count => cases h; exact ⟨rfl, rfl⟩
    | _ => simp [Frame.shift] at h
  | scripts | second base op script =>
    cases t with
    | script op => cases h; exact ⟨rfl, rfl⟩
    | _ => simp [Frame.shift] at h
  | first base op =>
    cases t with
    | script op' =>
      simp only [Frame.shift] at h
      split at h
      · cases h; exact ⟨rfl, rfl⟩
      · cases h; exact ⟨rfl, rfl⟩
    | _ => simp [Frame.shift] at h
  | chain op =>
    cases t with
    | script op' =>
      simp only [Frame.shift] at h
      split at h
      · cases h; exact ⟨rfl, rfl⟩
      · cases h
    | _ => simp [Frame.shift] at h
  | nest base op => cases t <;> simp [Frame.shift] at h

end Frame

/-- A frame that takes a token on does not close anything with it. -/
theorem leads_of_feed {waiting : List Frame} {n : Node} {t : Token} {m : Move}
    (h : feed waiting n t = .move m) : t.Leads m := by
  induction waiting generalizing n with
  | nil => cases h
  | cons f waiting ih =>
    unfold feed at h
    split at h
    · next m' hm =>
      cases h
      exact f.leads_of_shift hm
    · exact ih h

/-! ### Steps -/

namespace State

/-- A state after one more token, with the brackets that were open and the
warnings there were before it. -/
def Turned (stack : List Token) (warnings : List Warning) (l : Lexeme) (s : State) : Prop :=
  ∃ ws, Turn stack l s.brackets ws ∧ s.warnings = warnings ++ ws

/-- A token that leads to a move opens what the move opens. -/
theorem turned_apply {s : State} {t : Token} {m : Move} (h : t.Leads m) (offset : Nat) :
    Turned s.rows.brackets s.warnings ⟨t, offset⟩ (s.apply m) := by
  refine ⟨[], ?_, ?_⟩
  · -- A move puts its opener, if it has one, on top of the rows.
    rw [brackets_apply, h.2]
    split
    · next ht => exact .enter ht
    · next ht => exact .skip (by simp [Token.isBracket, ht, h.1])
  · rw [List.append_nil]
    cases m <;> rfl

/-- The end of a row takes off what encloses it. -/
theorem turned_close {s s' : State} {e : Enclosure} {done : List Node} {waiting : List Frame}
    {outer : Rows} {t : Token} {offset : Nat} (hc : e.closedBy t = true)
    (h : s.close e done waiting outer t offset = .ok s') :
    Turned (Rows.inner e done waiting outer).brackets s.warnings ⟨t, offset⟩ s' := by
  cases e with
  | group =>
    cases t with
    | groupEnd =>
      obtain rfl := Except.ok.inj h
      exact ⟨_, .leave rfl .group, (List.append_nil _).symm⟩
    | _ => cases hc
  | index =>
    cases t with
    | delimiter glyph =>
      obtain rfl := Except.ok.inj h
      exact ⟨_, .skip rfl, (List.append_nil _).symm⟩
    | _ => cases hc
  | columns name =>
    cases t with
    | groupEnd =>
      -- The environment stays open: its content is the next row.
      simp only [State.close] at h
      split at h
      · cases h
      · obtain rfl := Except.ok.inj h
        exact ⟨_, .leave rfl .group, (List.append_nil _).symm⟩
    | _ => cases hc
  | environment name columns =>
    cases t with
    | environmentEnd endName =>
      obtain rfl := Except.ok.inj h
      refine ⟨_, .leave rfl (.environment name endName), ?_⟩
      simp only [mismatch, beq_iff_eq]
    | _ => cases hc
  | fence opening =>
    cases t with
    | right =>
      obtain rfl := Except.ok.inj h
      exact ⟨_, .leave rfl .fence, (List.append_nil _).symm⟩
    | _ => cases hc

theorem turned_element {s s' : State} {t : Token} {offset : Nat}
    (h : s.element t offset = .ok s') :
    Turned s.rows.brackets s.warnings ⟨t, offset⟩ s' := by
  rcases element_ok h with ⟨m, hm, rfl⟩ | ⟨e, done, waiting, outer, hrows, hcloses, hclose⟩
  · exact turned_apply (Token.leads_of_begin? hm) offset
  · rw [hrows]
    exact turned_close hcloses hclose

theorem turned_value {s s' : State} {n : Node} {t : Token} {offset : Nat}
    (h : s.value n t offset = .ok s') : Turned s.rows.brackets s.warnings ⟨t, offset⟩ s' := by
  unfold State.value at h
  split at h
  · next m hm =>
    obtain rfl := Except.ok.inj h
    exact turned_apply (leads_of_feed hm) offset
  · next m hm =>
    have helement := turned_element h
    rwa [Rows.brackets_push] at helement

theorem turned_argument {s s' : State} {a : Application} {t : Token} {offset : Nat}
    (h : s.argument a t offset = .ok s') : Turned s.rows.brackets s.warnings ⟨t, offset⟩ s' := by
  unfold State.argument at h
  split at h
  · next m hm =>
    obtain rfl := Except.ok.inj h
    exact turned_apply (Token.leads_of_begin? hm) offset
  · exact turned_value h

/-- A delimiter of a fence is no bracket. -/
theorem isBracket_of_fenceGlyph? {t : Token} {glyph : Bytes} (h : fenceGlyph? t = some glyph) :
    t.isBracket = false := by
  cases t with
  | delimiter glyph | operator text => rfl
  | _ => cases h

/-- **A step turns the brackets that are open.** -/
theorem turned_step {s s' : State} {t : Token} {offset : Nat} (h : s.step t offset = .ok s') :
    Turned s.brackets s.warnings ⟨t, offset⟩ s' := by
  unfold State.brackets
  cases hf : s.focus with
  | value n =>
    simp only [State.step, hf] at h
    exact turned_value h
  | element =>
    simp only [State.step, hf] at h
    exact turned_element h
  | operand op =>
    simp only [State.step, hf] at h
    split at h
    · next m hm =>
      obtain rfl := Except.ok.inj h
      exact turned_apply (Token.leads_of_begin? hm) offset
    · cases h
  | argument a =>
    simp only [State.step, hf] at h
    exact turned_argument h
  | radical =>
    simp only [State.step, hf] at h
    split at h
    · next ht =>
      obtain rfl := Except.ok.inj h
      rw [ht]
      exact turned_apply ⟨rfl, rfl⟩ offset
    · exact turned_argument h
  | limits l =>
    simp only [State.step, hf] at h
    split at h
    · next m hm =>
      obtain rfl := Except.ok.inj h
      exact turned_apply (Limits.leads_of_move? hm) offset
    · exact turned_value h
  | columns name =>
    simp only [State.step, hf] at h
    split at h
    · next ht =>
      obtain rfl := Except.ok.inj h
      rw [ht]
      exact ⟨[], .enter rfl, (List.append_nil _).symm⟩
    · cases h
  | sized tag =>
    simp only [State.step, hf] at h
    split at h
    · obtain rfl := Except.ok.inj h
      exact ⟨[], .skip rfl, (List.append_nil _).symm⟩
    · cases h
  | opening | closing opening content | middle =>
    simp only [State.step, hf] at h
    split at h
    · next glyph hglyph =>
      obtain rfl := Except.ok.inj h
      exact ⟨[], .skip (isBracket_of_fenceGlyph? hglyph), (List.append_nil _).symm⟩
    · cases h

/-! ### Runs -/

/-- If nothing is open after a run, its brackets close all that was open before
it, and its warnings are those for them; by induction on the tokens. -/
theorem closes_of_run {s s' : State} {ls : List Lexeme} (h : s.run ls = (s', none))
    (hdone : s'.brackets = []) :
    ∃ ws, Closes s.brackets (ls.filter (·.token.isBracket)) ws ∧
      s'.warnings = s.warnings ++ ws := by
  induction ls generalizing s with
  | nil =>
    obtain ⟨rfl, -⟩ := Prod.mk.inj h
    refine ⟨[], ?_, (List.append_nil _).symm⟩
    rw [hdone]
    exact .done .nil
  | cons l ls ih =>
    unfold State.run at h
    split at h
    · next s₁ hstep =>
      obtain ⟨ws, hturn, hws⟩ := turned_step hstep
      obtain ⟨ws', hcloses, hws'⟩ := ih h
      refine ⟨ws ++ ws', hcloses.turn hturn, ?_⟩
      rw [hws', hws, List.append_assoc]
    · cases (Prod.mk.inj h).2

/-- At the end of input there is a tree only if nothing is open. -/
theorem brackets_of_finish {s : State} {offset : Nat} {tree : Node}
    (h : s.finish offset = .ok tree) : s.brackets = [] := by
  have rows {rows : Rows} (h : finishRows offset rows = .ok tree) : rows.brackets = [] := by
    cases rows with
    | root done => rfl
    | inner e done waiting outer => cases h
  have value {n : Node} (h : finishRows offset (s.rows.push n) = .ok tree) :
      s.rows.brackets = [] := by
    rw [← s.rows.brackets_push n]
    exact rows h
  unfold State.brackets
  cases hf : s.focus with
  | value n | argument a | radical | limits l =>
    simp only [State.finish, hf] at h
    exact value h
  | element =>
    simp only [State.finish, hf] at h
    exact rows h
  | operand _ | columns _ | sized _ | opening | closing _ _ | middle =>
    simp [State.finish, hf] at h

end State

/-! ### Sources -/

/-- **Only properly nested sources parse.**  If a source has a tree, it could be
read to its end, and its brackets are properly nested.  There is a warning for
each environment that ends under another name, in the order of their ends, and
no other. -/
theorem nested_of_parse {source : Bytes} {tree : Node} (h : (parse source).tree = .ok tree) :
    (Lexemes.ofSource source).fault = none ∧
      ∀ ws, Nested ((Lexemes.ofSource source).list.filter (·.token.isBracket)) ws ↔
        ws = (parse source).warnings := by
  obtain ⟨hfault, herror, hfinish, hwarnings⟩ := Lexemes.parse_ok h
  obtain ⟨ws, hcloses, hws⟩ :=
    State.closes_of_run (Prod.ext rfl herror) (State.brackets_of_finish hfinish)
  have hnested : Nested ((Lexemes.ofSource source).list.filter (·.token.isBracket)) ws := by
    cases hcloses with
    | done hnested => exact hnested
  have hsame : (parse source).warnings = ws := hwarnings.trans hws
  refine ⟨hfault, fun ws' => ?_⟩
  rw [hsame]
  constructor
  · exact fun hnested' => hnested'.unique hnested
  · rintro rfl
    exact hnested

/-- Two environments that end under other names, one in a fence of the other. -/
theorem nested_of_parse_renamed :
    let source := utf8 "\\begin\x7barray\x7d\x7bc\x7d\\left(" ++
      utf8 "\\begin\x7bmatrix\x7dx\\end\x7baligned\x7d" ++ utf8 "\\right)\\end\x7bmatrix\x7d"
    (parse source).warnings =
        [⟨utf8 "matrix", utf8 "aligned", 37⟩, ⟨utf8 "array", utf8 "matrix", 57⟩] ∧
      (Lexemes.ofSource source).fault = none ∧
      Nested ((Lexemes.ofSource source).list.filter (·.token.isBracket))
        [⟨utf8 "matrix", utf8 "aligned", 37⟩, ⟨utf8 "array", utf8 "matrix", 57⟩] := by
  intro source
  have hwarnings : (parse source).warnings =
      [⟨utf8 "matrix", utf8 "aligned", 37⟩, ⟨utf8 "array", utf8 "matrix", 57⟩] := by
    decide +kernel
  obtain ⟨tree, htree⟩ := exists_ok_of_isOk (r := (parse source).tree) (by decide +kernel)
  obtain ⟨hfault, hnested⟩ := nested_of_parse htree
  exact ⟨hwarnings, hfault, (hnested _).mpr hwarnings.symm⟩

end MathMarkup
