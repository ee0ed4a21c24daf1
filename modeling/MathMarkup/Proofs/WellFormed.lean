/-
MathMarkup/Proofs/WellFormed.lean

The trees that parsing builds.  `Node.WellFormed T` is the grammar of trees over
tokens from `T`: one rule for each construct, with the number of children it
has.  It does not follow the parser.  A tree is put together inside out, over
many tokens, and what waits for its parts is spread over the focus, the frames
and the rows of a state; so each of these gets a notion of being well formed
of its own, and all that has to be checked is that one step keeps them.

Main results: a step keeps a state well formed (`State.WellFormed.step`), hence
a run does (`State.WellFormed.run`), and the tree of a source is a root around
well-formed nodes (`parse_wellFormed`).  The set `T` is a parameter: what is
true of all tokens of a source is then true of all tags in its tree.
-/
import MathMarkup.Tree.Parser

namespace MathMarkup

/-! ### Commands by what they take -/

namespace Token

/-- A large operator or function, which takes limits. -/
def takesLimits : Token → Bool
  | .bigOperator _ | .integral _ | .limit _ => true
  | _ => false

/-- A command with arguments. -/
def takesArguments : Token → Bool
  | .fraction _ | .binomial _ | .radical | .markOver _ _ | .markUnder _ _ | .style _ | .slashed
  | .overset | .underset | .overbrace _ | .underbrace _ | .operatorName => true
  | _ => false

/-- How many arguments a command has at most; fractions and named operators take
any number.  The index of a radical and the label of a brace count. -/
def mostArguments? : Token → Option Nat
  | .markOver _ _ | .markUnder _ _ | .style _ | .slashed => some 1
  | .radical | .overset | .underset | .overbrace _ | .underbrace _ => some 2
  | _ => none

/-- Whether a command may have `n` arguments. -/
def Admits (t : Token) (n : Nat) : Prop :=
  ∀ most ∈ t.mostArguments?, n ≤ most

theorem admits_zero (t : Token) : t.Admits 0 := fun _ _ => Nat.zero_le _

theorem Admits.mono {t : Token} {n k : Nat} (h : t.Admits n) (hk : k ≤ n) : t.Admits k :=
  fun most hmost => Nat.le_trans hk (h most hmost)

theorem admits_one (t : Token) : t.Admits 1 := by
  intro most hmost
  cases t <;> simp_all [mostArguments?] <;> omega

theorem arity_pos (t : Token) : 0 < t.arity := by
  cases t <;> exact Nat.succ_pos _

/-- There is room for the arguments that a command has for certain. -/
theorem admits_arity (t : Token) : t.Admits t.arity := by
  intro most hmost
  cases t <;> simp_all [mostArguments?, arity] <;> omega

/-- Where brace groups may follow, any number of them may. -/
theorem admits_of_extra_groups {t : Token} (h : t.extra = .groups) (n : Nat) : t.Admits n := by
  intro most hmost
  cases t <;> simp_all [mostArguments?, extra]

/-- Where a label may follow, there is room for it. -/
theorem admits_of_extra_label {t : Token} {op : Script} (h : t.extra = .label op) :
    t.Admits (t.arity + 1) := by
  intro most hmost
  cases t <;> simp_all [mostArguments?, extra, arity]

end Token

/-! ### The grammar -/

namespace Node

/-- A large operator or function by itself. -/
def large (tag : Token) : Node :=
  .mk .command (match tag with | .limit name => name | _ => []) (some tag) {} []

/-- The trees that parsing can build from tokens of `T`. -/
inductive WellFormed (T : Token → Prop) : Node → Prop
  | letter {s} : T (.letter s) → WellFormed T (.leaf .letter s none)
  | number {s} : T (.number s) → WellFormed T (.leaf .number s none)
  | operator {s} : T (.operator s) → WellFormed T (.leaf .operator s (some (.operator s)))
  | delimiter {s} : T (.delimiter s) → WellFormed T (.leaf .operator s (some (.delimiter s)))
  | prime {count} : T (.prime count) → WellFormed T (.prime count)
  | cellBreak : T .cellBreak → WellFormed T (.leaf .cellBreak [] none)
  | lineBreak : T .lineBreak → WellFormed T (.leaf .lineBreak [] none)
  | command {name} : T (.command name) →
      WellFormed T (.leaf .command name (some (.command name)))
  | space {kind data} : T (.verbatim kind data) →
      WellFormed T (.mk .command kind (some (.verbatim kind data)) { width := some data.trim } [])
  | text {kind data} : T (.verbatim kind data) →
      WellFormed T (.leaf .text data (some (.verbatim kind data)))
  | group {ns} : ns.length ≠ 1 → (∀ n ∈ ns, WellFormed T n) → WellFormed T (.group ns)
  | superscript {base sup} : WellFormed T base → WellFormed T sup →
      WellFormed T (.branch .superscript [base, sup])
  | subscript {base sub} : WellFormed T base → WellFormed T sub →
      WellFormed T (.branch .subscript [base, sub])
  | subSup {base sub sup} : WellFormed T base → WellFormed T sub → WellFormed T sup →
      WellFormed T (.branch .subSup [base, sub, sup])
  | large {tag} : T tag → tag.takesLimits = true → WellFormed T (.large tag)
  | underscript {tag below} : T tag → tag.takesLimits = true → WellFormed T below →
      WellFormed T (.branch .underscript [.large tag, below])
  | overscript {tag above} : T tag → tag.takesLimits = true → WellFormed T above →
      WellFormed T (.branch .overscript [.large tag, above])
  | underOverscript {tag below above} : T tag → tag.takesLimits = true → WellFormed T below →
      WellFormed T above → WellFormed T (.branch .underOverscript [.large tag, below, above])
  | application {tag args} : T tag → tag.takesArguments = true → tag.Admits args.length →
      (∀ n ∈ args, WellFormed T n) → WellFormed T (.command tag args)
  | sized {size glyph} : T (.big size) → WellFormed T (State.sizedNode (.big size) glyph)
  | middle {glyph} : T .middle → WellFormed T (State.sizedNode .middle glyph)
  | fence {opening closing ns} : T .left → (∀ n ∈ ns, WellFormed T n) →
      WellFormed T (State.fenceNode opening closing ns)
  | environment {name columns ns} : T (.environmentBegin name) → (∀ n ∈ ns, WellFormed T n) →
      WellFormed T
        (.mk .environment name (some (.environmentBegin name)) { columns := columns } ns)

variable {T : Token → Prop}

/-- Nodes as one node: a single one was well formed already. -/
theorem WellFormed.collapse {ns : List Node} (h : ∀ n ∈ ns, WellFormed T n) :
    WellFormed T (Node.collapse ns) := by
  rcases ns with - | ⟨n, - | ⟨n', ns⟩⟩
  · exact .group (by simp) h
  · exact h n (by simp)
  · exact .group (by simp) h

theorem WellFormed.attach {base script : Node} (hb : WellFormed T base)
    (hs : WellFormed T script) (op : Script) : WellFormed T (base.attach op script) := by
  cases op with
  | sup => exact .superscript hb hs
  | sub => exact .subscript hb hs

theorem WellFormed.scripted {base : Node} {sub sup : Option Node} (hb : WellFormed T base)
    (hsub : ∀ n ∈ sub, WellFormed T n) (hsup : ∀ n ∈ sup, WellFormed T n) :
    WellFormed T (base.scripted sub sup) := by
  rcases sub with - | sub <;> rcases sup with - | sup
  · exact hb
  · exact .superscript hb (hsup sup rfl)
  · exact .subscript hb (hsub sub rfl)
  · exact .subSup hb (hsub sub rfl) (hsup sup rfl)

theorem WellFormed.stacked {tag : Token} {below above : Option Node} (ht : T tag)
    (hl : tag.takesLimits = true) (hb : ∀ n ∈ below, WellFormed T n)
    (ha : ∀ n ∈ above, WellFormed T n) : WellFormed T ((Node.large tag).stacked below above) := by
  rcases below with - | below <;> rcases above with - | above
  · exact .large ht hl
  · exact .overscript ht hl (ha above rfl)
  · exact .underscript ht hl (hb below rfl)
  · exact .underOverscript ht hl (hb below rfl) (ha above rfl)

end Node

/-! ### What waits for a node -/

variable {T : Token → Prop}

/-- A command with well-formed arguments and room for one more. -/
structure Application.WellFormed (T : Token → Prop) (a : Application) : Prop where
  tag : T a.tag
  takesArguments : a.tag.takesArguments = true
  args : ∀ n ∈ a.args, n.WellFormed T
  index : ∀ n ∈ a.index, a.tag = .radical ∧ n.WellFormed T
  room : a.tag.Admits (a.args.length + 1 + a.index.toList.length)

namespace Application

theorem WellFormed.start {t : Token} (ht : T t) (ha : t.takesArguments = true) :
    (Application.start t).WellFormed T :=
  ⟨ht, ha, by simp [Application.start], by simp [Application.start], t.admits_one⟩

/-- The node of a command is well formed whether or not an argument came. -/
theorem WellFormed.node {a : Application} (h : a.WellFormed T) : a.node.WellFormed T := by
  unfold Application.node
  split
  · exact .application h.tag h.takesArguments a.tag.admits_zero (by simp)
  · refine .application h.tag h.takesArguments (h.room.mono ?_) ?_
    · rw [List.length_append]; omega
    · intro n hn
      rcases List.mem_append.mp hn with hn | hn
      · exact h.args n hn
      · exact (h.index n (Option.mem_toList.mp hn)).2

theorem WellFormed.push_node {a : Application} (h : a.WellFormed T) {n : Node}
    (hn : n.WellFormed T) : (a.push n).node.WellFormed T := by
  have hne : (a.push n).args.isEmpty = false := by simp [Application.push]
  unfold Application.node
  rw [hne]
  refine .application h.tag h.takesArguments (h.room.mono ?_) ?_
  · simp only [Application.push, List.length_append, List.length_singleton]
    exact Nat.le_refl _
  · intro m hm
    simp only [Application.push, List.mem_append, List.mem_singleton, Option.mem_toList] at hm
    rcases hm with (hm | rfl) | hm
    · exact h.args m hm
    · exact hn
    · exact (h.index m hm).2

/-- With one argument more a command may wait again, if it still has room. -/
theorem WellFormed.push {a : Application} (h : a.WellFormed T) {n : Node} (hn : n.WellFormed T)
    (hroom : a.tag.Admits ((a.push n).args.length + 1 + a.index.toList.length)) :
    (a.push n).WellFormed T := by
  refine ⟨h.tag, h.takesArguments, ?_, h.index, hroom⟩
  intro m hm
  simp only [Application.push, List.mem_append, List.mem_singleton] at hm
  rcases hm with hm | rfl
  · exact h.args m hm
  · exact hn

end Application

/-- A large operator or function with well-formed limits. -/
structure Limits.WellFormed (T : Token → Prop) (l : Limits) : Prop where
  tag : T l.tag
  takesLimits : l.tag.takesLimits = true
  sub : ∀ n ∈ l.sub, n.WellFormed T
  sup : ∀ n ∈ l.sup, n.WellFormed T

namespace Limits

theorem WellFormed.start {t : Token} (ht : T t) (hl : t.takesLimits = true) :
    (Limits.start t).WellFormed T :=
  ⟨ht, hl, by simp [Limits.start], by simp [Limits.start]⟩

theorem WellFormed.set {l : Limits} (h : l.WellFormed T) (op : Script) {n : Node}
    (hn : n.WellFormed T) : (l.set op n).WellFormed T := by
  cases op with
  | sup => exact ⟨h.tag, h.takesLimits, h.sub, by rintro m ⟨⟩; exact hn⟩
  | sub => exact ⟨h.tag, h.takesLimits, by rintro m ⟨⟩; exact hn, h.sup⟩

theorem WellFormed.node {l : Limits} (h : l.WellFormed T) : l.node.WellFormed T := by
  show Node.WellFormed T
    (if l.isStacked then (Node.large l.tag).stacked l.sub l.sup
      else (Node.large l.tag).scripted l.sub l.sup)
  split
  · exact .stacked h.tag h.takesLimits h.sub h.sup
  · exact .scripted (.large h.tag h.takesLimits) h.sub h.sup

end Limits

/-- A frame around well-formed nodes. -/
def Frame.WellFormed (T : Token → Prop) : Frame → Prop
  | .prime | .scripts | .chain _ => True
  | .first base _ | .nest base _ => base.WellFormed T
  | .second base _ script => base.WellFormed T ∧ script.WellFormed T
  | .index => T .radical
  | .argument a => a.WellFormed T
  | .limit _ l => l.WellFormed T

/-- What encloses a row came from a token of `T`. -/
def Enclosure.WellFormed (T : Token → Prop) : Enclosure → Prop
  | .group | .index => True
  | .columns name | .environment name _ => T (.environmentBegin name)
  | .fence _ => T .left

/-- Rows of well-formed nodes, with well-formed frames waiting between them. -/
def Rows.WellFormed (T : Token → Prop) : Rows → Prop
  | .root done => ∀ n ∈ done, n.WellFormed T
  | .inner e done waiting outer =>
    e.WellFormed T ∧ (∀ n ∈ done, n.WellFormed T) ∧ (∀ f ∈ waiting, f.WellFormed T) ∧
      outer.WellFormed T

/-- What is expected next, around well-formed nodes. -/
def Focus.WellFormed (T : Token → Prop) : Focus → Prop
  | .value n => n.WellFormed T
  | .element | .operand _ => True
  | .argument a => a.WellFormed T
  | .radical => T .radical
  | .limits l => l.WellFormed T
  | .columns name => T (.environmentBegin name)
  | .sized tag => T tag ∧ ∃ size, tag = .big size
  | .opening => T .left
  | .closing _ content => T .left ∧ ∀ n ∈ content, n.WellFormed T
  | .middle => T .middle

/-- A move to a well-formed state. -/
def Move.WellFormed (T : Token → Prop) : Move → Prop
  | .focus f waiting => f.WellFormed T ∧ ∀ f ∈ waiting, f.WellFormed T
  | .enclose e waiting => e.WellFormed T ∧ ∀ f ∈ waiting, f.WellFormed T

/-- A state all of whose nodes are well formed. -/
structure State.WellFormed (T : Token → Prop) (s : State) : Prop where
  focus : s.focus.WellFormed T
  waiting : ∀ f ∈ s.waiting, f.WellFormed T
  rows : s.rows.WellFormed T

/-! ### Beginning and extending a node -/

/-- Adding a frame to those that wait. -/
theorem Frame.WellFormed.cons {f : Frame} {waiting : List Frame} (hf : f.WellFormed T)
    (hw : ∀ f ∈ waiting, f.WellFormed T) : ∀ g ∈ f :: waiting, g.WellFormed T :=
  List.forall_mem_cons.mpr ⟨hf, hw⟩

/-- What a token begins is well formed. -/
theorem Token.begin?_wellFormed {t : Token} {waiting : List Frame} {m : Move} (ht : T t)
    (hw : ∀ f ∈ waiting, f.WellFormed T) (h : t.begin? waiting = some m) : m.WellFormed T := by
  have leaf {n : Node} (hn : n.WellFormed T) : (Move.focus (.value n) waiting).WellFormed T :=
    ⟨hn, hw⟩
  have application (ha : t.takesArguments = true) :
      (Move.focus (.argument (.start t)) waiting).WellFormed T := ⟨.start ht ha, hw⟩
  have limits (hl : t.takesLimits = true) :
      (Move.focus (.limits (.start t)) waiting).WellFormed T := ⟨.start ht hl, hw⟩
  cases t with
  | groupEnd | environmentEnd _ | right => simp [Token.begin?] at h
  | letter _ => obtain rfl := Option.some.inj h; exact leaf (.letter ht)
  | number _ => obtain rfl := Option.some.inj h; exact leaf (.number ht)
  | operator _ => obtain rfl := Option.some.inj h; exact leaf (.operator ht)
  | delimiter _ => obtain rfl := Option.some.inj h; exact leaf (.delimiter ht)
  | prime _ => obtain rfl := Option.some.inj h; exact leaf (.prime ht)
  | cellBreak => obtain rfl := Option.some.inj h; exact leaf (.cellBreak ht)
  | lineBreak => obtain rfl := Option.some.inj h; exact leaf (.lineBreak ht)
  | command _ => obtain rfl := Option.some.inj h; exact leaf (.command ht)
  | verbatim kind data =>
    simp only [Token.begin?] at h
    split at h
    · obtain rfl := Option.some.inj h; exact leaf (.space ht)
    · obtain rfl := Option.some.inj h; exact leaf (.text ht)
  | groupBegin => obtain rfl := Option.some.inj h; exact ⟨trivial, hw⟩
  | script op =>
    obtain rfl := Option.some.inj h
    have hnest : (Frame.nest (.group []) op).WellFormed T :=
      Node.WellFormed.group (by simp) (by simp)
    exact ⟨trivial, .cons (f := .chain op) trivial (.cons hnest hw)⟩
  | environmentBegin name =>
    simp only [Token.begin?] at h
    split at h
    · obtain rfl := Option.some.inj h; exact ⟨ht, hw⟩
    · obtain rfl := Option.some.inj h; exact ⟨ht, hw⟩
  | radical => obtain rfl := Option.some.inj h; exact ⟨ht, hw⟩
  | fraction _ | binomial _ | markOver _ _ | markUnder _ _ | style _ | slashed | overset
  | underset | overbrace _ | underbrace _ | operatorName =>
    obtain rfl := Option.some.inj h; exact application rfl
  | bigOperator _ | integral _ | limit _ => obtain rfl := Option.some.inj h; exact limits rfl
  | big size => obtain rfl := Option.some.inj h; exact ⟨⟨ht, size, rfl⟩, hw⟩
  | left => obtain rfl := Option.some.inj h; exact ⟨ht, hw⟩
  | middle => obtain rfl := Option.some.inj h; exact ⟨ht, hw⟩

theorem Limits.WellFormed.move? {l : Limits} (hl : l.WellFormed T) {t : Token}
    {waiting : List Frame} {m : Move} (hw : ∀ f ∈ waiting, f.WellFormed T)
    (h : l.move? t waiting = some m) : m.WellFormed T := by
  unfold Limits.move? at h
  split at h
  · split at h
    · obtain rfl := Option.some.inj h
      exact ⟨⟨hl.tag, hl.takesLimits, hl.sub, hl.sup⟩, hw⟩
    · split at h
      · obtain rfl := Option.some.inj h
        exact ⟨⟨hl.tag, hl.takesLimits, hl.sub, hl.sup⟩, hw⟩
      · cases h
  · split at h
    · cases h
    · obtain rfl := Option.some.inj h
      exact ⟨trivial, .cons (f := .limit _ l) hl hw⟩
  · cases h

namespace Frame

theorem WellFormed.close {f : Frame} (hf : f.WellFormed T) {n : Node} (hn : n.WellFormed T) :
    (f.close n).WellFormed T := by
  cases f with
  | prime | scripts | chain _ => exact hn
  | first base op => exact .attach hf hn op
  | nest base op => exact .attach hf hn op
  | second base op script =>
    cases op with
    | sub => exact .subSup hf.1 hf.2 hn
    | sup => exact .subSup hf.1 hn hf.2
  | index => exact .application hf rfl (Token.admits_zero _) (by simp)
  | argument a => exact Application.WellFormed.push_node hf hn
  | limit op l => exact (Limits.WellFormed.set hf op hn).node

theorem script_wellFormed {base : Node} {waiting : List Frame} (hb : base.WellFormed T)
    (hw : ∀ f ∈ waiting, f.WellFormed T) (op : Script) :
    (Frame.script base op waiting).WellFormed T :=
  ⟨trivial, .cons (f := .chain op) trivial (.cons (f := .first base op) hb hw)⟩

/-- How a command goes on after one more argument: another one that it has for
certain, a brace group, or a label. -/
theorem WellFormed.shift_argument {a : Application} (ha : a.WellFormed T) {n : Node}
    (hn : n.WellFormed T) {t : Token} (ht : T t) {waiting : List Frame}
    (hw : ∀ f ∈ waiting, f.WellFormed T) {m : Move}
    (h : (Frame.argument a).shift n t waiting = some m) : m.WellFormed T := by
  have hlen : (a.push n).args.length = a.args.length + 1 := by simp [Application.push]
  have noIndex (hr : a.tag ≠ .radical) : a.index.toList.length = 0 := by
    rcases hi : a.index with - | i
    · rfl
    · exact absurd (ha.index i hi).1 hr
  simp only [Frame.shift] at h
  split at h
  · next hlt =>
    -- an index excludes a second argument: a radical has only one for certain
    have hr : a.tag ≠ .radical := by
      intro hr
      simp only [Application.push, hr, Token.arity] at hlt hlen
      omega
    refine Token.begin?_wellFormed ht (.cons (f := .argument (a.push n)) (ha.push hn ?_) hw) h
    rw [noIndex hr]
    exact a.tag.admits_arity.mono hlt
  · split at h
    · next hextra =>
      obtain rfl := Option.some.inj h
      exact ⟨trivial, .cons (f := .argument (a.push n))
        (ha.push hn (Token.admits_of_extra_groups hextra _)) hw⟩
    · next op op' hextra =>
      split at h
      · next hop =>
        obtain rfl := Option.some.inj h
        refine ⟨trivial, .cons (f := .argument (a.push n)) (ha.push hn ?_) hw⟩
        have hr : a.tag ≠ .radical := by
          intro hr
          simp [Application.push, hr, Token.extra] at hextra
        rw [noIndex hr, hop.2]
        exact Token.admits_of_extra_label hextra
      · cases h
    · cases h

theorem WellFormed.shift {f : Frame} (hf : f.WellFormed T) {n : Node} (hn : n.WellFormed T)
    {t : Token} (ht : T t) {waiting : List Frame} (hw : ∀ f ∈ waiting, f.WellFormed T) {m : Move}
    (h : f.shift n t waiting = some m) : m.WellFormed T := by
  cases f with
  | argument a => exact WellFormed.shift_argument hf hn ht hw h
  | index =>
    have ha : Application.WellFormed T { Application.start .radical with index := some n } := by
      refine ⟨hf, rfl, by simp [Application.start], ?_, ?_⟩
      · rintro i ⟨⟩
        exact ⟨rfl, hn⟩
      · rintro most ⟨⟩
        exact Nat.le_refl 2
    exact Token.begin?_wellFormed ht (.cons (f := .argument _) ha hw) h
  | limit op l =>
    simp only [Frame.shift] at h
    split at h
    · cases h
    · exact (Limits.WellFormed.set hf op hn).move? hw h
  | prime =>
    cases t with
    | prime count =>
      obtain rfl := Option.some.inj h
      exact ⟨.attach hn (.prime ht) .sup, hw⟩
    | _ => simp [Frame.shift] at h
  | scripts =>
    cases t with
    | script op =>
      obtain rfl := Option.some.inj h
      exact script_wellFormed hn hw op
    | _ => simp [Frame.shift] at h
  | first base op =>
    cases t with
    | script op' =>
      simp only [Frame.shift] at h
      split at h
      · obtain rfl := Option.some.inj h
        exact ⟨trivial, .cons (f := .chain op') trivial
          (.cons (f := .second base op n) ⟨hf, hn⟩ hw)⟩
      · obtain rfl := Option.some.inj h
        exact script_wellFormed (WellFormed.close (f := .first base op) hf hn) hw op'
    | _ => simp [Frame.shift] at h
  | second base op script =>
    cases t with
    | script op' =>
      obtain rfl := Option.some.inj h
      exact script_wellFormed (WellFormed.close (f := .second base op script) hf hn) hw op'
    | _ => simp [Frame.shift] at h
  | chain op =>
    cases t with
    | script op' =>
      simp only [Frame.shift] at h
      split at h
      · obtain rfl := Option.some.inj h
        exact ⟨trivial, .cons (f := .chain op) trivial (.cons (f := .nest n op) hn hw)⟩
      · cases h
    | _ => simp [Frame.shift] at h
  | nest base op => cases t <;> simp [Frame.shift] at h

end Frame

/-- Where a node ends up when a token follows it. -/
def Fed.WellFormed (T : Token → Prop) : Fed → Prop
  | .move m => m.WellFormed T
  | .element n => n.WellFormed T

theorem feed_wellFormed {waiting : List Frame} {n : Node} {t : Token}
    (hw : ∀ f ∈ waiting, f.WellFormed T) (hn : n.WellFormed T) (ht : T t) :
    (feed waiting n t).WellFormed T := by
  induction waiting generalizing n with
  | nil => exact hn
  | cons f waiting ih =>
    obtain ⟨hf, hw⟩ := List.forall_mem_cons.mp hw
    unfold feed
    split
    · next m hm => exact hf.shift hn ht hw hm
    · exact ih hw (hf.close hn)

/-! ### Steps -/

theorem Rows.WellFormed.push {rows : Rows} (h : rows.WellFormed T) {n : Node}
    (hn : n.WellFormed T) : (rows.push n).WellFormed T := by
  have snoc {done : List Node} (hd : ∀ n ∈ done, n.WellFormed T) :
      ∀ m ∈ done ++ [n], m.WellFormed T := by
    intro m hm
    rcases List.mem_append.mp hm with hm | hm
    · exact hd m hm
    · rwa [List.mem_singleton.mp hm]
  cases rows with
  | root done => exact snoc h
  | inner e done waiting outer => exact ⟨h.1, snoc h.2.1, h.2.2⟩

namespace State

theorem WellFormed.apply {s : State} (hs : s.WellFormed T) {m : Move} (hm : m.WellFormed T) :
    (s.apply m).WellFormed T := by
  cases m with
  | focus f waiting => exact ⟨hm.1, hm.2, hs.rows⟩
  | enclose e waiting => exact ⟨trivial, by simp [State.apply], hm.1, by simp, hm.2, hs.rows⟩

/-- The end of a row makes one node of it, or goes on to what follows it. -/
theorem WellFormed.close {s s' : State} {e : Enclosure} {done : List Node} {waiting : List Frame}
    {outer : Rows} {t : Token} {offset : Nat} (h : (Rows.inner e done waiting outer).WellFormed T)
    (hstep : s.close e done waiting outer t offset = .ok s') : s'.WellFormed T := by
  obtain ⟨he, hd, hw, ho⟩ := h
  cases e with
  | group => obtain rfl := Except.ok.inj hstep; exact ⟨.collapse hd, hw, ho⟩
  | index => obtain rfl := Except.ok.inj hstep; exact ⟨.collapse hd, hw, ho⟩
  | columns name =>
    simp only [State.close] at hstep
    split at hstep
    · cases hstep
    · obtain rfl := Except.ok.inj hstep
      exact ⟨trivial, by simp [State.apply], he, by simp, hw, ho⟩
  | environment name columns =>
    obtain rfl := Except.ok.inj hstep
    exact ⟨.environment he hd, hw, ho⟩
  | fence opening => obtain rfl := Except.ok.inj hstep; exact ⟨⟨he, hd⟩, hw, ho⟩

/-- Where an element is expected, a token begins one or ends the row. -/
theorem element_ok {s s' : State} {t : Token} {offset : Nat} (h : s.element t offset = .ok s') :
    (∃ m, t.begin? [.prime, .scripts] = some m ∧ s' = s.apply m) ∨
      ∃ e done waiting outer, s.rows = .inner e done waiting outer ∧ e.closedBy t = true ∧
        s.close e done waiting outer t offset = .ok s' := by
  rcases hr : s.rows with done | ⟨e, done, waiting, outer⟩
  · simp only [State.element, hr] at h
    split at h
    · next m hm => exact .inl ⟨m, hm, (Except.ok.inj h).symm⟩
    · cases h
  · simp only [State.element, hr] at h
    split at h
    · next hc => exact .inr ⟨e, done, waiting, outer, rfl, hc, h⟩
    split at h
    · next m hm => exact .inl ⟨m, hm, (Except.ok.inj h).symm⟩
    · cases h

theorem WellFormed.element {s s' : State} (hs : s.WellFormed T) {t : Token} (ht : T t)
    {offset : Nat} (h : s.element t offset = .ok s') : s'.WellFormed T := by
  rcases element_ok h with ⟨m, hm, rfl⟩ | ⟨e, done, waiting, outer, hrows, -, hclose⟩
  · exact hs.apply (Token.begin?_wellFormed ht (by simp [Frame.WellFormed]) hm)
  · have hinner := hs.rows
    rw [hrows] at hinner
    exact WellFormed.close hinner hclose

theorem WellFormed.value {s s' : State} (hs : s.WellFormed T) {n : Node} (hn : n.WellFormed T)
    {t : Token} (ht : T t) {offset : Nat} (h : s.value n t offset = .ok s') : s'.WellFormed T := by
  have hfed := feed_wellFormed hs.waiting hn ht
  unfold State.value at h
  split at h
  · next m hm =>
    rw [hm] at hfed
    obtain rfl := Except.ok.inj h
    exact hs.apply hfed
  · next m hm =>
    rw [hm] at hfed
    have hpush : WellFormed T { s with rows := s.rows.push m } :=
      ⟨hs.focus, hs.waiting, hs.rows.push hfed⟩
    exact hpush.element ht h

theorem WellFormed.argument {s s' : State} (hs : s.WellFormed T) {a : Application}
    (ha : a.WellFormed T) {t : Token} (ht : T t) {offset : Nat}
    (h : s.argument a t offset = .ok s') : s'.WellFormed T := by
  unfold State.argument at h
  split at h
  · next m hm =>
    obtain rfl := Except.ok.inj h
    exact hs.apply (Token.begin?_wellFormed ht (.cons (f := .argument a) ha hs.waiting) hm)
  · exact hs.value ha.node ht h

theorem WellFormed.withValue {s : State} (hs : s.WellFormed T) {n : Node} (hn : n.WellFormed T) :
    (s.withValue n).WellFormed T :=
  ⟨hn, hs.waiting, hs.rows⟩

/-- **A step keeps a state well formed.** -/
theorem WellFormed.step {s s' : State} (hs : s.WellFormed T) {t : Token} (ht : T t) {offset : Nat}
    (h : s.step t offset = .ok s') : s'.WellFormed T := by
  have hfocus := hs.focus
  cases hf : s.focus with
  | value n =>
    simp only [State.step, hf] at h hfocus
    exact hs.value hfocus ht h
  | element =>
    simp only [State.step, hf] at h
    exact hs.element ht h
  | operand op =>
    simp only [State.step, hf] at h
    split at h
    · next m hm =>
      obtain rfl := Except.ok.inj h
      exact hs.apply (Token.begin?_wellFormed ht (.cons (f := .prime) trivial hs.waiting) hm)
    · cases h
  | argument a =>
    simp only [State.step, hf] at h hfocus
    exact hs.argument hfocus ht h
  | radical =>
    simp only [State.step, hf] at h hfocus
    split at h
    · obtain rfl := Except.ok.inj h
      exact hs.apply ⟨trivial, .cons (f := .index) hfocus hs.waiting⟩
    · exact hs.argument (.start hfocus rfl) ht h
  | limits l =>
    simp only [State.step, hf] at h hfocus
    split at h
    · next m hm =>
      obtain rfl := Except.ok.inj h
      exact hs.apply (Limits.WellFormed.move? hfocus hs.waiting hm)
    · exact hs.value (Limits.WellFormed.node hfocus) ht h
  | columns name =>
    simp only [State.step, hf] at h hfocus
    split at h
    · obtain rfl := Except.ok.inj h
      exact hs.apply ⟨hfocus, hs.waiting⟩
    · cases h
  | sized tag =>
    simp only [State.step, hf] at h hfocus
    obtain ⟨htag, size, rfl⟩ := hfocus
    split at h
    · obtain rfl := Except.ok.inj h
      exact hs.withValue (.sized htag)
    · cases h
  | opening =>
    simp only [State.step, hf] at h hfocus
    split at h
    · obtain rfl := Except.ok.inj h
      exact hs.apply ⟨hfocus, hs.waiting⟩
    · cases h
  | closing opening content =>
    simp only [State.step, hf] at h hfocus
    split at h
    · obtain rfl := Except.ok.inj h
      exact hs.withValue (.fence hfocus.1 hfocus.2)
    · cases h
  | middle =>
    simp only [State.step, hf] at h hfocus
    split at h
    · obtain rfl := Except.ok.inj h
      exact hs.withValue (.middle hfocus)
    · cases h

/-! ### Runs -/

theorem start_wellFormed : State.start.WellFormed T :=
  ⟨trivial, by simp [State.start], by simp [State.start, Rows.WellFormed]⟩

/-- A run over tokens of `T` keeps a state well formed, by induction on the
tokens. -/
theorem WellFormed.run {s : State} (hs : s.WellFormed T) {ls : List Lexeme}
    (hl : ∀ l ∈ ls, T l.token) : (s.run ls).1.WellFormed T := by
  induction ls generalizing s with
  | nil => exact hs
  | cons l ls ih =>
    obtain ⟨ht, hl⟩ := List.forall_mem_cons.mp hl
    unfold State.run
    split
    · next s' hstep => exact ih (hs.step ht hstep) hl
    · exact hs

theorem closeAll_wellFormed {waiting : List Frame} {n : Node}
    (hw : ∀ f ∈ waiting, f.WellFormed T) (hn : n.WellFormed T) :
    (closeAll waiting n).WellFormed T := by
  induction waiting generalizing n with
  | nil => exact hn
  | cons f waiting ih =>
    obtain ⟨hf, hw⟩ := List.forall_mem_cons.mp hw
    exact ih hw (hf.close hn)

theorem finishRows_wellFormed {rows : Rows} {offset : Nat} {tree : Node} (hr : rows.WellFormed T)
    (h : finishRows offset rows = .ok tree) :
    ∃ ns, tree = .branch .root ns ∧ ∀ n ∈ ns, n.WellFormed T := by
  cases rows with
  | root done => exact ⟨done, (Except.ok.inj h).symm, hr⟩
  | inner e done waiting outer => cases h

theorem WellFormed.finish {s : State} (hs : s.WellFormed T) {offset : Nat} {tree : Node}
    (h : s.finish offset = .ok tree) :
    ∃ ns, tree = .branch .root ns ∧ ∀ n ∈ ns, n.WellFormed T := by
  have value {n : Node} (hn : n.WellFormed T)
      (h : finishRows offset (s.rows.push (closeAll s.waiting n)) = .ok tree) :
      ∃ ns, tree = .branch .root ns ∧ ∀ n ∈ ns, n.WellFormed T :=
    finishRows_wellFormed (hs.rows.push (closeAll_wellFormed hs.waiting hn)) h
  have hfocus := hs.focus
  cases hf : s.focus with
  | value n =>
    simp only [State.finish, hf] at h hfocus
    exact value hfocus h
  | element =>
    simp only [State.finish, hf] at h
    exact finishRows_wellFormed hs.rows h
  | argument a =>
    simp only [State.finish, hf] at h hfocus
    exact value (Application.WellFormed.node hfocus) h
  | radical =>
    simp only [State.finish, hf] at h hfocus
    exact value (Application.WellFormed.start hfocus rfl).node h
  | limits l =>
    simp only [State.finish, hf] at h hfocus
    exact value (Limits.WellFormed.node hfocus) h
  | operand _ | columns _ | sized _ | opening | closing _ _ | middle =>
    simp [State.finish, hf] at h

end State

/-! ### Sources -/

/-- Whether there is a result can be computed, and then there is one. -/
theorem exists_ok_of_isOk {ε α : Type} {r : Except ε α} (h : r.isOk = true) : ∃ a, r = .ok a := by
  cases r with
  | ok a => exact ⟨a, rfl⟩
  | error e => cases h

/-- What a successful parse says: the tokens came to an end, the run had no
error, and the tree is what its last state makes of the end of input. -/
theorem Lexemes.parse_ok {ls : Lexemes} {tree : Node} (h : ls.parse.tree = .ok tree) :
    ls.fault = none ∧ (State.start.run ls.list).2 = none ∧
      (State.start.run ls.list).1.finish ls.offset = .ok tree ∧
      ls.parse.warnings = (State.start.run ls.list).1.warnings := by
  unfold Lexemes.parse at h ⊢
  rcases hr : State.start.run ls.list with ⟨s, - | e⟩
  · rcases hf : ls.fault with - | e
    · simp only [hr, hf] at h ⊢
      exact ⟨trivial, trivial, h, trivial⟩
    · simp [hr, hf] at h
  · simp [hr] at h

/-- **The tree of a source is well formed** over every set that its tokens
belong to. -/
theorem parse_wellFormed {source : Bytes} {tree : Node} (h : (parse source).tree = .ok tree)
    (hT : ∀ l ∈ (Lexemes.ofSource source).list, T l.token) :
    ∃ ns, tree = .branch .root ns ∧ ∀ n ∈ ns, n.WellFormed T := by
  obtain ⟨-, -, hfinish, -⟩ := Lexemes.parse_ok h
  exact (State.start_wellFormed.run hT).finish hfinish

end MathMarkup
