/-
MathMarkup/Proofs/Grammar.lean

How trees are written.  `Spelled` relates parts of a tree to the tokens they are
written with, in order, one rule for each construct.  A command with some of its
arguments and a large operator with some of its limits are parts too, since more
tokens may follow that belong to them; nodes side by side are written one after
another.

The rules say nothing of how a source is read.  In a state of parsing the tokens
read so far are spread over open rows, waiting frames and the focus, and for
each of these there is a relation that says which tokens it stands for.  One
more token is always one token more (`State.Spelled.step`), so that the tree of
a source is written with the tokens of the source, all of them and in their
order (`spelled_of_parse`).

The index of a root is the one node that a frame waits for and that is not
written like a node: it stands in brackets.  `Offered` sets it apart.
-/
import MathMarkup.Proofs.WellFormed

namespace MathMarkup

/-! ### The grammar -/

/-- The node of a token that is a node by itself. -/
def Token.leaf? (t : Token) : Option Node :=
  match t with
  | .letter text => some (.leaf .letter text none)
  | .number text => some (.leaf .number text none)
  | .operator text => some (.leaf .operator text (some t))
  | .delimiter glyph => some (.leaf .operator glyph (some t))
  | .prime count => some (.leaf .operator (Node.primeGlyph count) (some t))
  | .cellBreak => some (.leaf .cellBreak [] none)
  | .lineBreak => some (.leaf .lineBreak [] none)
  | .command name => some (.leaf .command name (some t))
  | .verbatim kind data =>
    if kind == utf8 "hspace" then
      some (.mk .command kind (some t) { width := some data.trim } [])
    else some (.leaf .text data (some t))
  | _ => none

/-- The name of the environment with a column specification. -/
def arrayName : Bytes :=
  utf8 "array"

/-- The command that sets whether limits are placed under and over an operator. -/
def switchToken (isStacked : Bool) : Token :=
  .command (if isStacked then utf8 "limits" else utf8 "nolimits")

/-- A part of a tree. -/
inductive Phrase
  /-- Nodes side by side. -/
  | nodes (ns : List Node)
  /-- A command with the arguments it has so far. -/
  | application (a : Application)
  /-- A large operator with the limits it has so far. -/
  | limits (l : Limits)

/-- The tokens that a part of a tree is written with. -/
inductive Spelled : Phrase → List Token → Prop
  | nil : Spelled (.nodes []) []
  | append {ns ms ts us} : Spelled (.nodes ns) ts → Spelled (.nodes ms) us →
      Spelled (.nodes (ns ++ ms)) (ts ++ us)
  | leaf {t n} : t.leaf? = some n → Spelled (.nodes [n]) [t]
  | group {ns ts} : Spelled (.nodes ns) ts →
      Spelled (.nodes [.collapse ns]) (.groupBegin :: (ts ++ [.groupEnd]))
  | primed {n ts} (count : Nat) : Spelled (.nodes [n]) ts →
      Spelled (.nodes [n.primed count]) (ts ++ [.prime count])
  /-- A script without a base. -/
  | bare {n ts} (op : Script) : Spelled (.nodes [n]) ts →
      Spelled (.nodes [(Node.group []).attach op n]) (.script op :: ts)
  | script {base n ts us} (op : Script) : Spelled (.nodes [base]) ts → Spelled (.nodes [n]) us →
      Spelled (.nodes [base.attach op n]) (ts ++ .script op :: us)
  /-- Two scripts on the same base, in either order. -/
  | scripts {base n n' ts us vs} (op : Script) : Spelled (.nodes [base]) ts →
      Spelled (.nodes [n]) us → Spelled (.nodes [n']) vs →
      Spelled (.nodes [(Frame.second base op n).close n'])
        (ts ++ .script op :: (us ++ .script op.other :: vs))
  | command {t} : t.takesArguments = true → Spelled (.application (.start t)) [t]
  | index {ns ts} : Spelled (.nodes ns) ts →
      Spelled (.application { Application.start .radical with index := some (.collapse ns) })
        (.radical :: .delimiter (utf8 "[") :: (ts ++ [.delimiter (utf8 "]")]))
  | argument {a n ts us} : a.args.length < a.tag.arity ∨ a.tag.extra = .groups →
      Spelled (.application a) ts → Spelled (.nodes [n]) us →
      Spelled (.application (a.push n)) (ts ++ us)
  | label {a n ts us op} : a.tag.extra = .label op → a.args.length = a.tag.arity →
      Spelled (.application a) ts → Spelled (.nodes [n]) us →
      Spelled (.application (a.push n)) (ts ++ .script op :: us)
  | applied {a ts} : Spelled (.application a) ts → Spelled (.nodes [a.node]) ts
  | large {t} : t.takesLimits = true → Spelled (.limits (.start t)) [t]
  | switch {l ts} (isStacked : Bool) : Spelled (.limits l) ts →
      Spelled (.limits { l with isStacked := isStacked }) (ts ++ [switchToken isStacked])
  | limit {l n ts us op} : l.has op = false → Spelled (.limits l) ts → Spelled (.nodes [n]) us →
      Spelled (.limits (l.set op n)) (ts ++ .script op :: us)
  | limited {l ts} : Spelled (.limits l) ts → Spelled (.nodes [l.node]) ts
  | sized (size glyph : Bytes) :
      Spelled (.nodes [State.sizedNode (.big size) glyph]) [.big size, .delimiter glyph]
  | middle {t glyph} : State.fenceGlyph? t = some glyph →
      Spelled (.nodes [State.sizedNode .middle glyph]) [.middle, t]
  | fence {t t' opening closing ns ts} : State.fenceGlyph? t = some opening →
      State.fenceGlyph? t' = some closing → Spelled (.nodes ns) ts →
      Spelled (.nodes [State.fenceNode opening closing ns]) (.left :: t :: (ts ++ [.right, t']))
  | environment {name ns ts} (endName : Bytes) : name ≠ arrayName → Spelled (.nodes ns) ts →
      Spelled (.nodes [.mk .environment name (some (.environmentBegin name)) {} ns])
        (.environmentBegin name :: (ts ++ [.environmentEnd endName]))
  | array {ks columns ns cs ts} (endName : Bytes) : Spelled (.nodes ks) cs →
      (Node.collapse ks).plainText? = some columns → Spelled (.nodes ns) ts →
      Spelled (.nodes [.mk .environment arrayName (some (.environmentBegin arrayName))
          { columns := some columns } ns])
        (.environmentBegin arrayName :: .groupBegin ::
          (cs ++ .groupEnd :: (ts ++ [.environmentEnd endName])))

/-- One more node. -/
theorem Spelled.snoc {ns : List Node} {n : Node} {ts us : List Token}
    (hs : Spelled (.nodes ns) ts) (hn : Spelled (.nodes [n]) us) :
    Spelled (.nodes (ns ++ [n])) (ts ++ us) :=
  .append hs hn

/-- Without nodes there are no tokens. -/
theorem Spelled.eq_nil {ts : List Token} (h : Spelled (.nodes []) ts) : ts = [] := by
  generalize hp : Phrase.nodes [] = p at h
  induction h with
  | nil => rfl
  | append _ _ ih ih' =>
    obtain ⟨rfl, rfl⟩ := List.append_eq_nil_iff.mp (Phrase.nodes.inj hp).symm
    rw [ih rfl, ih' rfl]
    rfl
  | _ => cases hp

/-! ### What waits for a node -/

/-- The tokens that were read for a frame before the node it waits for. -/
inductive Frame.Begun : Frame → List Token → Prop
  | prime : Begun .prime []
  | scripts : Begun .scripts []
  | chain (op : Script) : Begun (.chain op) []
  | first {base ts} (op : Script) : Spelled (.nodes [base]) ts →
      Begun (.first base op) (ts ++ [.script op])
  | second {base n ts us} (op : Script) : Spelled (.nodes [base]) ts → Spelled (.nodes [n]) us →
      Begun (.second base op n) (ts ++ .script op :: (us ++ [.script op.other]))
  | nest {base ts} (op : Script) : Spelled (.nodes [base]) ts →
      Begun (.nest base op) (ts ++ [.script op])
  | bare (op : Script) : Begun (.nest (.group []) op) [.script op]
  | argument {a ts} : a.args.length < a.tag.arity ∨ a.tag.extra = .groups →
      Spelled (.application a) ts → Begun (.argument a) ts
  | label {a ts op} : a.tag.extra = .label op → a.args.length = a.tag.arity →
      Spelled (.application a) ts → Begun (.argument a) (ts ++ [.script op])
  | limit {l ts op} : l.has op = false → Spelled (.limits l) ts →
      Begun (.limit op l) (ts ++ [.script op])

/-- The tokens that were read for the waiting frames, the innermost one last. -/
inductive Waits : List Frame → List Token → Prop
  | nil : Waits [] []
  | cons {f waiting ts us} : f.Begun us → Waits waiting ts → Waits (f :: waiting) (ts ++ us)

/-- The tokens that were read for the waiting frames and the node that comes to
them.  Only the index of a root is not written like a node. -/
inductive Offered : List Frame → Node → List Token → Prop
  | node {waiting n ts us} : Waits waiting ts → Spelled (.nodes [n]) us →
      Offered waiting n (ts ++ us)
  | index {waiting ns ts us} : Waits waiting ts → Spelled (.nodes ns) us →
      Offered (.index :: waiting) (.collapse ns)
        (ts ++ .radical :: .delimiter (utf8 "[") :: (us ++ [.delimiter (utf8 "]")]))

/-- The tokens that were read for the frames outside of a row and to open it. -/
inductive Opened : Enclosure → List Frame → List Token → Prop
  | group {waiting ts} : Waits waiting ts → Opened .group waiting (ts ++ [.groupBegin])
  | index {waiting ts} : Waits waiting ts →
      Opened .index (.index :: waiting) (ts ++ [.radical, .delimiter (utf8 "[")])
  | columns {waiting ts} : Waits waiting ts →
      Opened (.columns arrayName) waiting (ts ++ [.environmentBegin arrayName, .groupBegin])
  | environment {name waiting ts} : name ≠ arrayName → Waits waiting ts →
      Opened (.environment name none) waiting (ts ++ [.environmentBegin name])
  | array {ks columns waiting ts cs} : Waits waiting ts → Spelled (.nodes ks) cs →
      (Node.collapse ks).plainText? = some columns →
      Opened (.environment arrayName (some columns)) waiting
        (ts ++ .environmentBegin arrayName :: .groupBegin :: (cs ++ [.groupEnd]))
  | fence {t opening waiting ts} : State.fenceGlyph? t = some opening → Waits waiting ts →
      Opened (.fence opening) waiting (ts ++ [.left, t])

/-- The tokens that were read for open rows and their elements. -/
inductive Rows.Spelled : Rows → List Token → Prop
  | root {done ts} : MathMarkup.Spelled (.nodes done) ts → Rows.Spelled (.root done) ts
  | inner {e done waiting outer ts us vs} : Rows.Spelled outer ts → Opened e waiting us →
      MathMarkup.Spelled (.nodes done) vs →
      Rows.Spelled (.inner e done waiting outer) (ts ++ (us ++ vs))

/-- The tokens that were read for the focus and the frames that wait around it. -/
inductive Focus.Spelled : Focus → List Frame → List Token → Prop
  | value {n waiting ts} : Offered waiting n ts → Focus.Spelled (.value n) waiting ts
  | element : Focus.Spelled .element [] []
  | operand {waiting ts} (op : Script) : Waits waiting ts → Focus.Spelled (.operand op) waiting ts
  | argument {a waiting ts us} : Waits waiting ts → a.args = [] →
      MathMarkup.Spelled (.application a) us → Focus.Spelled (.argument a) waiting (ts ++ us)
  | radical {waiting ts} : Waits waiting ts → Focus.Spelled .radical waiting (ts ++ [.radical])
  | limits {l waiting ts us} : Waits waiting ts → MathMarkup.Spelled (.limits l) us →
      Focus.Spelled (.limits l) waiting (ts ++ us)
  | columns {waiting ts} : Waits waiting ts →
      Focus.Spelled (.columns arrayName) waiting (ts ++ [.environmentBegin arrayName])
  | sized {waiting ts} (size : Bytes) : Waits waiting ts →
      Focus.Spelled (.sized (.big size)) waiting (ts ++ [.big size])
  | opening {waiting ts} : Waits waiting ts → Focus.Spelled .opening waiting (ts ++ [.left])
  | closing {t opening ns waiting ts us} : Waits waiting ts →
      State.fenceGlyph? t = some opening → MathMarkup.Spelled (.nodes ns) us →
      Focus.Spelled (.closing opening ns) waiting (ts ++ .left :: t :: (us ++ [.right]))
  | middle {waiting ts} : Waits waiting ts → Focus.Spelled .middle waiting (ts ++ [.middle])

/-- The tokens that a move has read. -/
inductive Move.Spelled : Move → List Token → Prop
  | focus {f waiting ts} : f.Spelled waiting ts → Move.Spelled (.focus f waiting) ts
  | enclose {e waiting ts} : Opened e waiting ts → Move.Spelled (.enclose e waiting) ts

/-- The tokens that a state has read. -/
inductive State.Spelled (s : State) : List Token → Prop
  | mk {ts us} : s.rows.Spelled ts → s.focus.Spelled s.waiting us → State.Spelled s (ts ++ us)

/-! ### Closing a frame -/

/-- What a frame makes of a node is written with the tokens of both. -/
theorem Frame.Begun.close {f : Frame} {ts us : List Token} {n : Node} (hf : f.Begun ts)
    (hn : Spelled (.nodes [n]) us) : Spelled (.nodes [f.close n]) (ts ++ us) := by
  cases hf with
  | prime | scripts | chain op => exact hn
  | first op hb =>
    rw [List.append_assoc]
    exact .script op hb hn
  | nest op hb =>
    rw [List.append_assoc]
    exact .script op hb hn
  | second op hb hs =>
    rw [List.append_assoc, List.cons_append, List.append_assoc]
    exact .scripts op hb hs hn
  | bare op => exact .bare op hn
  | argument hroom ha => exact .applied (.argument hroom ha hn)
  | label hextra hlen ha =>
    rw [List.append_assoc]
    exact .applied (.label hextra hlen ha hn)
  | limit hfree hl =>
    rw [List.append_assoc]
    exact .limited (.limit hfree hl hn)

/-- The index of a root whose base never comes is written but lost. -/
theorem spelled_radical_of_index {ns : List Node} {ts : List Token}
    (h : Spelled (.nodes ns) ts) :
    Spelled (.nodes [.command .radical []])
      (.radical :: .delimiter (utf8 "[") :: (ts ++ [.delimiter (utf8 "]")])) :=
  .applied (.index h)

/-- What all waiting frames make of a node, when nothing follows it. -/
theorem Waits.closeAll {waiting : List Frame} {ts us : List Token} {n : Node}
    (hw : Waits waiting ts) (hn : Spelled (.nodes [n]) us) :
    Spelled (.nodes [State.closeAll waiting n]) (ts ++ us) := by
  induction hw generalizing n us with
  | nil => exact hn
  | cons hf _ ih =>
    rw [List.append_assoc]
    exact ih (hf.close hn)

theorem Offered.closeAll {waiting : List Frame} {ts : List Token} {n : Node}
    (h : Offered waiting n ts) : Spelled (.nodes [State.closeAll waiting n]) ts := by
  cases h with
  | node hw hn => exact hw.closeAll hn
  | index hw hns => exact hw.closeAll (spelled_radical_of_index hns)

/-! ### Beginning and extending a node -/

theorem spelled_of_takesArguments {t : Token} {waiting : List Frame} {ts : List Token}
    (hw : Waits waiting ts) (ht : t.takesArguments = true) :
    (Focus.argument (.start t)).Spelled waiting (ts ++ [t]) :=
  .argument hw rfl (.command ht)

/-- A move reads the token that begins it. -/
theorem Token.spelled_of_begin? {t : Token} {waiting : List Frame} {ts : List Token} {m : Move}
    (hw : Waits waiting ts) (h : t.begin? waiting = some m) : m.Spelled (ts ++ [t]) := by
  have leaf {n : Node} (hn : t.leaf? = some n) :
      (Move.focus (.value n) waiting).Spelled (ts ++ [t]) :=
    .focus (.value (.node hw (.leaf hn)))
  have application (ht : t.takesArguments = true) :
      (Move.focus (.argument (.start t)) waiting).Spelled (ts ++ [t]) :=
    .focus (spelled_of_takesArguments hw ht)
  have limits (ht : t.takesLimits = true) :
      (Move.focus (.limits (.start t)) waiting).Spelled (ts ++ [t]) :=
    .focus (.limits hw (.large ht))
  cases t with
  | groupEnd | environmentEnd _ | right => cases h
  | letter _ | number _ | operator _ | delimiter _ | prime _ | cellBreak | lineBreak | command _ =>
    cases h
    exact leaf rfl
  | verbatim kind data =>
    simp only [Token.begin?] at h
    split at h
    · next hkind =>
      cases h
      exact leaf (if_pos hkind)
    · next hkind =>
      cases h
      exact leaf (if_neg hkind)
  | groupBegin =>
    cases h
    exact .enclose (.group hw)
  | script op =>
    cases h
    have hwaits : Waits (.chain op :: .nest (.group []) op :: waiting) (ts ++ [.script op] ++ []) :=
      .cons (.chain op) (.cons (.bare op) hw)
    rw [List.append_nil] at hwaits
    exact .focus (.operand op hwaits)
  | environmentBegin name =>
    simp only [Token.begin?] at h
    split at h
    · next hname =>
      cases h
      obtain rfl : name = arrayName := beq_iff_eq.mp hname
      exact .focus (.columns hw)
    · next hname =>
      cases h
      exact .enclose (.environment (fun heq => hname (beq_iff_eq.mpr heq)) hw)
  | radical =>
    cases h
    exact .focus (.radical hw)
  | fraction _ | binomial _ | markOver _ _ | markUnder _ _ | style _ | slashed | overset
  | underset | overbrace _ | underbrace _ | operatorName =>
    cases h
    exact application rfl
  | bigOperator _ | integral _ | limit _ =>
    cases h
    exact limits rfl
  | big size =>
    cases h
    exact .focus (.sized size hw)
  | left =>
    cases h
    exact .focus (.opening hw)
  | middle =>
    cases h
    exact .focus (.middle hw)

theorem Limits.spelled_of_move? {l : Limits} {t : Token} {waiting : List Frame}
    {ts us : List Token} {m : Move} (hw : Waits waiting ts) (hl : Spelled (.limits l) us)
    (h : l.move? t waiting = some m) : m.Spelled (ts ++ us ++ [t]) := by
  unfold Limits.move? at h
  split at h
  · split at h
    · next hname =>
      cases h
      obtain rfl := beq_iff_eq.mp hname
      rw [List.append_assoc]
      exact .focus (.limits hw (.switch true hl))
    split at h
    · next hname =>
      cases h
      obtain rfl := beq_iff_eq.mp hname
      rw [List.append_assoc]
      exact .focus (.limits hw (.switch false hl))
    · cases h
  · next op =>
    split at h
    · cases h
    · next hfree =>
      cases h
      rw [List.append_assoc]
      exact .focus (.operand op (.cons (.limit (Bool.eq_false_iff.mpr hfree) hl) hw))
  · cases h

namespace Frame

/-- The first script of a base. -/
theorem spelled_script {base : Node} {waiting : List Frame} {ts us : List Token}
    (hw : Waits waiting ts) (hb : MathMarkup.Spelled (.nodes [base]) us) (op : Script) :
    (script base op waiting).Spelled (ts ++ us ++ [.script op]) := by
  have hwaits : Waits (.chain op :: .first base op :: waiting) (ts ++ (us ++ [.script op]) ++ []) :=
    .cons (.chain op) (.cons (.first op hb) hw)
  rw [List.append_nil, ← List.append_assoc] at hwaits
  exact .focus (.operand op hwaits)

/-- How a command goes on behind an argument. -/
theorem spelled_of_shift_argument {a : Application} {n : Node} {t : Token} {waiting : List Frame}
    {ts us : List Token} {m : Move} (hw : Waits waiting ts)
    (ha : MathMarkup.Spelled (.application (a.push n)) us)
    (h : (Frame.argument a).shift n t waiting = some m) : m.Spelled (ts ++ us ++ [t]) := by
  simp only [Frame.shift] at h
  split at h
  · next hlt => exact Token.spelled_of_begin? (.cons (.argument (.inl hlt) ha) hw) h
  split at h
  · next hextra =>
    cases h
    exact .enclose (.group (.cons (.argument (.inr hextra) ha) hw))
  · next op op' hextra =>
    split at h
    · next hop =>
      cases h
      obtain ⟨rfl, hlen⟩ := hop
      rw [List.append_assoc]
      exact .focus (.operand op' (.cons (.label hextra hlen ha) hw))
    · cases h
  · cases h

/-- A frame that has a use for a token reads it behind its node. -/
theorem Begun.shift {f : Frame} {n : Node} {t : Token} {waiting : List Frame}
    {ts us vs : List Token} {m : Move} (hf : f.Begun us) (hw : Waits waiting ts)
    (hn : MathMarkup.Spelled (.nodes [n]) vs) (h : f.shift n t waiting = some m) :
    m.Spelled (ts ++ (us ++ vs) ++ [t]) := by
  -- What the frame would make of the node, if a further script goes on that.
  have hclose : MathMarkup.Spelled (.nodes [f.close n]) (us ++ vs) := hf.close hn
  cases hf with
  | argument hroom ha => exact spelled_of_shift_argument hw (.argument hroom ha hn) h
  | @label a us op hextra hlen ha =>
    have hpush : MathMarkup.Spelled (.application (a.push n)) (us ++ [.script op] ++ vs) := by
      rw [List.append_assoc]
      exact .label hextra hlen ha hn
    exact spelled_of_shift_argument hw hpush h
  | @limit l us op hfree hl =>
    have hset : MathMarkup.Spelled (.limits (l.set op n)) (us ++ [.script op] ++ vs) := by
      rw [List.append_assoc]
      exact .limit hfree hl hn
    simp only [Frame.shift] at h
    split at h
    · cases h
    · exact Limits.spelled_of_move? hw hset h
  | prime =>
    cases t with
    | prime count =>
      cases h
      rw [List.append_assoc]
      exact .focus (.value (.node hw (.primed count hn)))
    | _ => simp [Frame.shift] at h
  | scripts =>
    cases t with
    | script op =>
      cases h
      exact spelled_script hw hn op
    | _ => simp [Frame.shift] at h
  | @first base us op hb =>
    cases t with
    | script op' =>
      simp only [Frame.shift] at h
      split at h
      · next hop =>
        cases h
        obtain rfl := hop
        have hwaits : Waits (.chain op.other :: .second base op n :: waiting)
            (ts ++ (us ++ .script op :: (vs ++ [.script op.other])) ++ []) :=
          .cons (.chain _) (.cons (.second op hb hn) hw)
        refine .focus (.operand op.other ?_)
        simpa using hwaits
      · cases h
        exact spelled_script hw hclose op'
    | _ => simp [Frame.shift] at h
  | second op hb hs =>
    cases t with
    | script op' =>
      cases h
      exact spelled_script hw hclose op'
    | _ => simp [Frame.shift] at h
  | chain op =>
    cases t with
    | script op' =>
      simp only [Frame.shift] at h
      split at h
      · next hop =>
        cases h
        obtain rfl := hop
        have hwaits : Waits (.chain op' :: .nest n op' :: waiting)
            (ts ++ (vs ++ [.script op']) ++ []) :=
          .cons (.chain op') (.cons (.nest op' hn) hw)
        refine .focus (.operand op' ?_)
        simpa using hwaits
      · cases h
    | _ => simp [Frame.shift] at h
  | nest op hb | bare op => cases t <;> simp [Frame.shift] at h

end Frame

/-- Where a node ends up when `t` follows it, `ts` being read up to there: a move
reads the token too, an element leaves it to the row. -/
def Fed.Spelled (ts : List Token) (t : Token) : Fed → Prop
  | .move m => m.Spelled (ts ++ [t])
  | .element n => MathMarkup.Spelled (.nodes [n]) ts

theorem Waits.feed {waiting : List Frame} {n : Node} {ts us : List Token} (hw : Waits waiting ts)
    (hn : Spelled (.nodes [n]) us) (t : Token) :
    (MathMarkup.feed waiting n t).Spelled (ts ++ us) t := by
  induction hw generalizing n us with
  | nil => exact hn
  | @cons f waiting ts vs hf hw ih =>
    rw [List.append_assoc]
    unfold MathMarkup.feed
    split
    · next m hm => exact hf.shift hw hn hm
    · exact ih (hf.close hn)

theorem Offered.feed {waiting : List Frame} {n : Node} {ts : List Token} (h : Offered waiting n ts)
    (t : Token) : (MathMarkup.feed waiting n t).Spelled ts t := by
  cases h with
  | node hw hn => exact hw.feed hn t
  | @index waiting ns ts us hw hns =>
    unfold MathMarkup.feed
    split
    · next m hm =>
      have hframe : Frame.Begun
          (.argument { Application.start .radical with index := some (.collapse ns) }) _ :=
        .argument (.inl Nat.zero_lt_one) (.index hns)
      exact Token.spelled_of_begin? (.cons hframe hw) hm
    · exact hw.feed (spelled_radical_of_index hns) t

/-! ### Steps -/

theorem Rows.Spelled.push {rows : Rows} {n : Node} {ts us : List Token} (h : rows.Spelled ts)
    (hn : MathMarkup.Spelled (.nodes [n]) us) : (rows.push n).Spelled (ts ++ us) := by
  cases h with
  | root hd => exact .root (hd.snoc hn)
  | inner ho he hd =>
    rw [List.append_assoc, List.append_assoc]
    exact .inner ho he (hd.snoc hn)

namespace State

/-- A move goes on behind the open rows. -/
theorem spelled_apply {s : State} {m : Move} {ts us : List Token} (hr : s.rows.Spelled ts)
    (hm : m.Spelled us) : (s.apply m).Spelled (ts ++ us) := by
  cases hm with
  | focus hf => exact .mk hr hf
  | enclose he =>
    have hrows : (Rows.inner _ [] _ s.rows).Spelled (ts ++ (us ++ [])) := .inner hr he .nil
    rw [List.append_nil] at hrows
    rw [← List.append_nil (ts ++ us)]
    exact .mk hrows .element

/-- The end of a row: its elements and the tokens around them are a node, or the
beginning of one. -/
theorem spelled_close {s s' : State} {e : Enclosure} {done : List Node} {waiting : List Frame}
    {outer : Rows} {t : Token} {offset : Nat} {ts us vs : List Token} (ho : outer.Spelled ts)
    (he : Opened e waiting us) (hd : MathMarkup.Spelled (.nodes done) vs)
    (hc : e.closedBy t = true) (h : s.close e done waiting outer t offset = .ok s') :
    s'.Spelled (ts ++ (us ++ vs) ++ [t]) := by
  cases he with
  | group hw =>
    cases t with
    | groupEnd =>
      obtain rfl := Except.ok.inj h
      simp only [List.append_assoc, List.cons_append, List.nil_append]
      exact .mk ho (.value (.node hw (.group hd)))
    | _ => cases hc
  | index hw =>
    cases t with
    | delimiter glyph =>
      obtain rfl : glyph = utf8 "]" := beq_iff_eq.mp hc
      obtain rfl := Except.ok.inj h
      simp only [List.append_assoc, List.cons_append, List.nil_append]
      exact .mk ho (.value (.index hw hd))
    | _ => cases hc
  | columns hw =>
    cases t with
    | groupEnd =>
      simp only [State.close] at h
      split at h
      · cases h
      · next columns hcolumns =>
        obtain rfl := Except.ok.inj h
        simp only [List.append_assoc, List.cons_append, List.nil_append]
        exact spelled_apply ho (.enclose (.array hw hd hcolumns))
    | _ => cases hc
  | environment hname hw =>
    cases t with
    | environmentEnd endName =>
      obtain rfl := Except.ok.inj h
      simp only [List.append_assoc, List.cons_append, List.nil_append]
      exact .mk ho (.value (.node hw (.environment endName hname hd)))
    | _ => cases hc
  | array hw hks hcolumns =>
    cases t with
    | environmentEnd endName =>
      obtain rfl := Except.ok.inj h
      simp only [List.append_assoc, List.cons_append, List.nil_append]
      exact .mk ho (.value (.node hw (.array endName hks hcolumns hd)))
    | _ => cases hc
  | fence hglyph hw =>
    cases t with
    | right =>
      obtain rfl := Except.ok.inj h
      simp only [List.append_assoc, List.cons_append, List.nil_append]
      exact .mk ho (.closing hw hglyph hd)
    | _ => cases hc

theorem spelled_element {s s' : State} {t : Token} {offset : Nat} {ts : List Token}
    (hr : s.rows.Spelled ts) (h : s.element t offset = .ok s') : s'.Spelled (ts ++ [t]) := by
  rcases element_ok h with ⟨m, hm, rfl⟩ | ⟨e, done, waiting, outer, hrows, hcloses, hclose⟩
  · have hwaits : Waits [.prime, .scripts] [] := .cons .prime (.cons .scripts .nil)
    exact spelled_apply hr (Token.spelled_of_begin? hwaits hm)
  · rw [hrows] at hr
    cases hr with
    | inner ho he hd => exact spelled_close ho he hd hcloses hclose

theorem spelled_value {s s' : State} {n : Node} {t : Token} {offset : Nat} {ts us : List Token}
    (hr : s.rows.Spelled ts) (hn : Offered s.waiting n us) (h : s.value n t offset = .ok s') :
    s'.Spelled (ts ++ us ++ [t]) := by
  have hfed := hn.feed t
  unfold State.value at h
  split at h
  · next m hm =>
    rw [hm] at hfed
    obtain rfl := Except.ok.inj h
    rw [List.append_assoc]
    exact spelled_apply hr hfed
  · next m hm =>
    rw [hm] at hfed
    exact spelled_element (hr.push hfed) h

theorem spelled_argument {s s' : State} {a : Application} {t : Token} {offset : Nat}
    {ts us vs : List Token} (hr : s.rows.Spelled ts) (hw : Waits s.waiting us) (hargs : a.args = [])
    (ha : MathMarkup.Spelled (.application a) vs) (h : s.argument a t offset = .ok s') :
    s'.Spelled (ts ++ (us ++ vs) ++ [t]) := by
  have hroom : a.args.length < a.tag.arity := by
    rw [hargs]
    exact a.tag.arity_pos
  unfold State.argument at h
  split at h
  · next m hm =>
    obtain rfl := Except.ok.inj h
    rw [List.append_assoc]
    exact spelled_apply hr (Token.spelled_of_begin? (.cons (.argument (.inl hroom) ha) hw) hm)
  · exact spelled_value hr (.node hw (.applied ha)) h

/-- **A step reads one token.** -/
theorem Spelled.step {s s' : State} {t : Token} {offset : Nat} {ts : List Token}
    (hs : s.Spelled ts) (h : s.step t offset = .ok s') : s'.Spelled (ts ++ [t]) := by
  rcases s with ⟨focus, waiting, rows, warnings⟩
  rcases hs with ⟨hr, hfocus⟩
  cases hfocus with
  | value hn => exact spelled_value hr hn h
  | element =>
    rw [List.append_nil]
    exact spelled_element hr h
  | operand op hw =>
    simp only [State.step] at h
    split at h
    · next m hm =>
      obtain rfl := Except.ok.inj h
      rw [List.append_assoc]
      refine spelled_apply hr (Token.spelled_of_begin? ?_ hm)
      have hwaits := Waits.cons .prime hw
      rwa [List.append_nil] at hwaits
    · cases h
  | argument hw hargs ha => exact spelled_argument hr hw hargs ha h
  | radical hw =>
    simp only [State.step] at h
    split at h
    · next ht =>
      obtain rfl := Except.ok.inj h
      rw [ht]
      simp only [List.append_assoc, List.cons_append, List.nil_append]
      exact spelled_apply hr (.enclose (.index hw))
    · exact spelled_argument (a := .start .radical) hr hw rfl (.command rfl) h
  | limits hw hl =>
    simp only [State.step] at h
    split at h
    · next m hm =>
      obtain rfl := Except.ok.inj h
      rw [List.append_assoc]
      exact spelled_apply hr (Limits.spelled_of_move? hw hl hm)
    · exact spelled_value hr (.node hw (.limited hl)) h
  | columns hw =>
    simp only [State.step] at h
    split at h
    · next ht =>
      obtain rfl := Except.ok.inj h
      rw [ht]
      simp only [List.append_assoc, List.cons_append, List.nil_append]
      exact spelled_apply hr (.enclose (.columns hw))
    · cases h
  | sized size hw =>
    simp only [State.step] at h
    split at h
    · obtain rfl := Except.ok.inj h
      simp only [List.append_assoc, List.cons_append, List.nil_append]
      exact .mk hr (.value (.node hw (.sized size _)))
    · cases h
  | opening hw =>
    simp only [State.step] at h
    split at h
    · next glyph hglyph =>
      obtain rfl := Except.ok.inj h
      simp only [List.append_assoc, List.cons_append, List.nil_append]
      exact spelled_apply hr (.enclose (.fence hglyph hw))
    · cases h
  | closing hw hopening hns =>
    simp only [State.step] at h
    split at h
    · next glyph hglyph =>
      obtain rfl := Except.ok.inj h
      simp only [List.append_assoc, List.cons_append, List.nil_append]
      exact .mk hr (.value (.node hw (.fence hopening hglyph hns)))
    · cases h
  | middle hw =>
    simp only [State.step] at h
    split at h
    · next glyph hglyph =>
      obtain rfl := Except.ok.inj h
      simp only [List.append_assoc, List.cons_append, List.nil_append]
      exact .mk hr (.value (.node hw (.middle hglyph)))
    · cases h

/-- A command in focus waits for its first argument. -/
theorem Spelled.args_eq_nil {s : State} {ts : List Token} {a : Application} (hs : s.Spelled ts)
    (hf : s.focus = .argument a) : a.args = [] := by
  obtain ⟨-, hfocus⟩ := hs
  rw [hf] at hfocus
  cases hfocus with
  | argument _ hargs _ => exact hargs

/-! ### Runs -/

theorem start_spelled : State.start.Spelled [] := by
  have hstart : State.start.Spelled ([] ++ []) := .mk (.root .nil) .element
  exact hstart

/-- A run reads its tokens; by induction on them. -/
theorem Spelled.run {s s' : State} {ls : List Lexeme} {ts : List Token} (hs : s.Spelled ts)
    (h : s.run ls = (s', none)) : s'.Spelled (ts ++ ls.map (·.token)) := by
  induction ls generalizing s ts with
  | nil =>
    obtain ⟨rfl, -⟩ := Prod.mk.inj h
    rwa [List.map_nil, List.append_nil]
  | cons l ls ih =>
    unfold State.run at h
    split at h
    · next s₁ hstep =>
      have hrest := ih (hs.step hstep) h
      rwa [List.append_assoc] at hrest
    · cases (Prod.mk.inj h).2

theorem spelled_of_finishRows {rows : Rows} {offset : Nat} {tree : Node} {ts : List Token}
    (hr : rows.Spelled ts) (h : finishRows offset rows = .ok tree) :
    ∃ ns, tree = .branch .root ns ∧ MathMarkup.Spelled (.nodes ns) ts := by
  cases hr with
  | root hd => exact ⟨_, (Except.ok.inj h).symm, hd⟩
  | inner ho he hd => cases h

/-- The end of input reads nothing. -/
theorem Spelled.finish {s : State} {offset : Nat} {tree : Node} {ts : List Token}
    (hs : s.Spelled ts) (h : s.finish offset = .ok tree) :
    ∃ ns, tree = .branch .root ns ∧ MathMarkup.Spelled (.nodes ns) ts := by
  rcases s with ⟨focus, waiting, rows, warnings⟩
  rcases hs with ⟨hr, hfocus⟩
  cases hfocus with
  | value hn => exact spelled_of_finishRows (hr.push hn.closeAll) h
  | element =>
    rw [List.append_nil]
    exact spelled_of_finishRows hr h
  | argument hw _ ha => exact spelled_of_finishRows (hr.push (hw.closeAll (.applied ha))) h
  | radical hw =>
    exact spelled_of_finishRows (hr.push (hw.closeAll (.applied (.command rfl)))) h
  | limits hw hl => exact spelled_of_finishRows (hr.push (hw.closeAll (.limited hl))) h
  | operand | columns | sized | opening | closing | middle => cases h

end State

/-! ### Sources -/

/-- The tokens of a source, without their places. -/
def Lexemes.tokens (ls : Lexemes) : List Token :=
  ls.list.map (·.token)

/-- **The tree of a source is written with the tokens of the source.** -/
theorem spelled_of_parse {source : Bytes} {tree : Node} (h : (parse source).tree = .ok tree) :
    ∃ ns, tree = .branch .root ns ∧ Spelled (.nodes ns) (Lexemes.ofSource source).tokens := by
  obtain ⟨-, herror, hfinish, -⟩ := Lexemes.parse_ok h
  exact (State.start_spelled.run (Prod.ext rfl herror)).finish hfinish

end MathMarkup
