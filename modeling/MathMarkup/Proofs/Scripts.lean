/-
MathMarkup/Proofs/Scripts.lean

What a run of scripts means.  Behind a base there may be any number of script
operators, each with a brace group, and the tree depends on how the operators
alternate.  It is told here by the blocks of equal operators:

    a ^ b ^ c _ d ^ e      has the blocks   ^ b ^ c,   _ d,   ^ e

A block is one script, in which each group is the base of what follows it
(`nested`).  The blocks are taken two at a time, a subscript and a superscript in
either order, and a last one stands alone (`paired`).

Parsing follows the same structure.  The frames of a block close over its groups
from the right (`outcome_block`, by induction on the block), and two blocks leave
a tree that is a base again (`outcome_blocks`, by induction on the blocks).
-/
import MathMarkup.Proofs.Outcome
import Mathlib.Data.List.SplitBy

namespace MathMarkup

/-- A script operator and the brace group behind it. -/
structure Attachment where
  op : Script
  group : BraceGroup

namespace Attachment

def tokens (a : Attachment) : List Token :=
  .script a.op :: a.group.tokens

def node (a : Attachment) : Node :=
  a.group.node

end Attachment

/-- What scripts are attached to: a token that is a node by itself, or a brace
group. -/
inductive Base
  | leaf (t : Token) (n : Node) (h : t.leaf? = some n)
  | group (g : BraceGroup)

namespace Base

def tokens : Base → List Token
  | .leaf t _ _ => [t]
  | .group g => g.tokens

def node : Base → Node
  | .leaf _ n _ => n
  | .group g => g.node

end Base

/-! ### The meaning of a run -/

/-- Scripts of one operator: each is the base of those behind it. -/
def nested (op : Script) : Node → List Node → Node
  | n, [] => n
  | n, m :: ms => n.attach op (nested op m ms)

/-- A block of one operator as one script. -/
def blockScript? : List Attachment → Option (Script × Node)
  | [] => none
  | a :: more => some (a.op, nested a.op a.node (more.map Attachment.node))

/-- The maximal blocks of equal operators in a run. -/
def blocks (run : List Attachment) : List (List Attachment) :=
  run.splitBy fun a b => decide (a.op = b.op)

/-- A tree with scripts, two at a time from the left. -/
def paired : Node → List (Script × Node) → Node
  | tree, [] => tree
  | tree, [(op, n)] => tree.attach op n
  | tree, (.sub, n) :: (_, m) :: more => paired (.branch .subSup [tree, n, m]) more
  | tree, (.sup, n) :: (_, m) :: more => paired (.branch .subSup [tree, m, n]) more

/-- A tree with a run of scripts. -/
def withScripts (tree : Node) (run : List Attachment) : Node :=
  paired tree ((blocks run).filterMap blockScript?)

/-! ### Blocks -/

theorem Script.eq_other {op op' : Script} (h : op ≠ op') : op = op'.other := by
  cases op <;> cases op' <;> first | rfl | exact absurd rfl h

/-- Blocks, none of which could be joined with the one before it; the operator
before the first is `last`. -/
inductive Alternates : (last : Option Script) → List (List Attachment) → Prop
  | nil {last : Option Script} : Alternates last []
  | cons {last : Option Script} {a : Attachment} {more : List Attachment}
      {bs : List (List Attachment)} : some a.op ≠ last → (∀ b ∈ more, b.op = a.op) →
      Alternates (some a.op) bs → Alternates last ((a :: more) :: bs)

/-- In a block all operators are the first one. -/
theorem op_eq_of_isChain {a : Attachment} {more : List Attachment}
    (h : (a :: more).IsChain fun x y => decide (x.op = y.op) = true) :
    ∀ b ∈ more, b.op = a.op := by
  induction more generalizing a with
  | nil => simp
  | cons c more ih =>
    obtain ⟨hac, hmore⟩ := List.isChain_cons_cons.mp h
    have hop : a.op = c.op := of_decide_eq_true hac
    refine List.forall_mem_cons.mpr ⟨hop.symm, fun b hb => ?_⟩
    rw [hop]
    exact ih hmore b hb

theorem alternates_blocks (run : List Attachment) : Alternates none (blocks run) := by
  have hnil : [] ∉ blocks run := List.nil_notMem_splitBy _ _
  have hchain : ∀ b ∈ blocks run, b.IsChain fun x y => decide (x.op = y.op) = true :=
    fun b hb => List.isChain_of_mem_splitBy hb
  have hnext := List.isChain_getLast_head_splitBy (fun a b : Attachment => decide (a.op = b.op)) run
  have hfirst : ∀ b ∈ (blocks run).head?, ∀ a ∈ b.head?, some a.op ≠ none := by simp
  change (blocks run).IsChain _ at hnext
  generalize blocks run = bs at hnil hchain hnext hfirst
  generalize none = last at hfirst
  induction bs generalizing last with
  | nil => exact .nil
  | cons b bs ih =>
    obtain ⟨hb, hbs⟩ := List.forall_mem_cons.mp hchain
    obtain ⟨hne, hmore⟩ := not_or.mp fun h => hnil (List.mem_cons.mpr h)
    rcases b with - | ⟨a, more⟩
    · exact absurd rfl hne
    have hops := op_eq_of_isChain hb
    refine .cons (hfirst _ rfl a rfl) hops (ih hmore hbs hnext.tail _ ?_)
    -- The last operator of a block is its first one, and the next block begins with another.
    intro c hc d hd
    obtain ⟨ha, hne, hother⟩ := (List.isChain_cons.mp hnext).1 c hc
    have hlast : ((a :: more).getLast ha).op = a.op := by
      rcases List.mem_cons.mp (List.getLast_mem ha) with h | h
      · rw [h]
      · exact hops _ h
    rw [hlast, List.head_of_mem_head? hd] at hother
    intro heq
    exact of_decide_eq_false hother (Option.some.inj heq).symm

/-! ### Parsing a run -/

/-- Behind a block comes the end, or an operator that is not its own. -/
def Ends (op : Script) (ts : List Token) : Prop :=
  ∀ t ∈ ts.head?, ∃ op', op' ≠ op ∧ t = .script op'

theorem Alternates.ends {op : Script} {bs : List (List Attachment)}
    (h : Alternates (some op) bs) : Ends op (bs.flatten.flatMap Attachment.tokens) := by
  cases h with
  | nil => rintro t ⟨⟩
  | @cons _ a more bs hop hmore hbs =>
    rintro t ⟨⟩
    exact ⟨a.op, fun h => hop (congrArg some h), rfl⟩

/-- A block behind its first operator is one script; by induction on the groups
behind the first, each of which waits with the ones before it. -/
theorem outcome_block {op : Script} {more : List Attachment} (hmore : ∀ a ∈ more, a.op = op)
    {ts : List Token} (hts : Ends op ts) (g : BraceGroup) (waiting : List Frame) (rows : Rows)
    (ws : List Warning) :
    (State.mk (.operand op) (.chain op :: waiting) rows ws).outcome
        (g.tokens ++ (more.flatMap Attachment.tokens ++ ts)) =
      (State.mk (.value (nested op g.node (more.map Attachment.node))) waiting rows ws).outcome
        ts := by
  induction more generalizing g waiting with
  | nil =>
    rw [g.outcome_operand, State.outcome_pass, State.outcome_pass]
    · rfl
    · -- Another operator ends the chain.
      intro t ht
      obtain ⟨op', hop', rfl⟩ := hts t ht
      exact if_neg hop'
    · intro t ht
      obtain ⟨op', -, rfl⟩ := hts t ht
      rfl
  | cons a more ih =>
    obtain ⟨rfl, hmore⟩ := List.forall_mem_cons.mp hmore
    rw [g.outcome_operand, State.outcome_pass (by rintro t ⟨⟩; rfl)]
    have hstep : (State.mk (.value g.node) (.chain a.op :: waiting) rows ws).step (.script a.op) 0 =
        .ok ⟨.operand a.op, .chain a.op :: .nest g.node a.op :: waiting, rows, ws⟩ := by
      simp only [State.step, State.value, feed, Frame.shift, if_true]
      rfl
    rw [List.flatMap_cons, Attachment.tokens, List.cons_append, List.cons_append,
      List.append_assoc]
    refine (State.outcome_of_step hstep _).trans ?_
    rw [ih hmore, State.outcome_pass fun _ _ => rfl]
    rfl

/-- Two scripts make a base for more. -/
theorem outcome_second (base : Node) (op : Script) (script n : Node) (rows : Rows)
    (ws : List Warning) (ts : List Token) :
    (State.mk (.value n) [.second base op script] rows ws).outcome ts =
      (State.mk (.value ((Frame.second base op script).close n)) [.scripts] rows ws).outcome
        ts := by
  cases ts with
  | nil => rfl
  | cons t ts =>
    rw [State.outcome, State.outcome]
    cases t <;> rfl

/-- The blocks of a run behind a base, and behind a base with one script that they
may go with; by induction on them. -/
theorem outcome_blocks {last : Option Script} {bs : List (List Attachment)}
    (h : Alternates last bs) (tree : Node) (ws : List Warning) :
    (State.mk (.value tree) [.scripts] (.root []) ws).outcome
        (bs.flatten.flatMap Attachment.tokens) =
      some [paired tree (bs.filterMap blockScript?)] ∧
    ∀ op ∈ last, ∀ n, (State.mk (.value n) [.first tree op] (.root []) ws).outcome
        (bs.flatten.flatMap Attachment.tokens) =
      some [paired tree ((op, n) :: bs.filterMap blockScript?)] := by
  induction h generalizing tree with
  | nil => exact ⟨rfl, fun _ _ _ => rfl⟩
  | @cons last a more bs hop hmore hbs ih =>
    -- The first block, with whatever waits for its script.
    have hblock (waiting : List Frame) :
        (State.mk (.operand a.op) (.chain a.op :: waiting) (.root []) ws).outcome
          (a.group.tokens ++ (more.flatMap Attachment.tokens ++
            bs.flatten.flatMap Attachment.tokens)) =
        (State.mk (.value (nested a.op a.node (more.map Attachment.node))) waiting (.root [])
          ws).outcome (bs.flatten.flatMap Attachment.tokens) :=
      outcome_block hmore hbs.ends a.group waiting (.root []) ws
    rw [List.flatten_cons, List.flatMap_append, List.flatMap_cons, List.append_assoc]
    refine ⟨?_, fun op hlast n => ?_⟩
    · refine (State.outcome_of_step rfl _).trans ((hblock _).trans ?_)
      exact (ih tree).2 a.op rfl _
    · -- The block before had the other operator, so the two make a pair.
      have hother : a.op = op.other := Script.eq_other fun h => hop (h ▸ hlast.symm)
      have hstep : (State.mk (.value n) [.first tree op] (.root []) ws).step (.script a.op) 0 =
          .ok ⟨.operand a.op, [.chain a.op, .second tree op n], .root [], ws⟩ := by
        simp only [State.step, State.value, feed, Frame.shift, if_pos hother]
        rfl
      refine (State.outcome_of_step hstep _).trans ((hblock _).trans ?_)
      rw [outcome_second, (ih _).1]
      cases op <;> rfl

theorem Token.begin?_of_leaf? {t : Token} {n : Node} (h : t.leaf? = some n)
    (waiting : List Frame) : t.begin? waiting = some (.focus (.value n) waiting) := by
  cases t with
  | letter _ | number _ | operator _ | delimiter _ | prime _ | cellBreak | lineBreak | command _ =>
    obtain rfl := Option.some.inj h
    rfl
  | verbatim kind data =>
    simp only [Token.leaf?] at h
    simp only [Token.begin?]
    split at h <;> next hkind => obtain rfl := Option.some.inj h; simp [hkind]
  | _ => cases h

/-- A base at the start of a source. -/
theorem Base.outcome_start (base : Base) {ts : List Token}
    (hts : ∀ t ∈ ts.head?, ∃ op, t = .script op) :
    State.start.outcome (base.tokens ++ ts) =
      (State.mk (.value base.node) [.scripts] (.root []) []).outcome ts := by
  have hprime : (State.mk (.value base.node) [.prime, .scripts] (.root []) []).outcome ts =
      (State.mk (.value base.node) [.scripts] (.root []) []).outcome ts := by
    refine State.outcome_pass fun t ht => ?_
    obtain ⟨op, rfl⟩ := hts t ht
    rfl
  rw [← hprime]
  cases base with
  | leaf t n h =>
    have hbegin := Token.begin?_of_leaf? h [.prime, .scripts]
    have hstep : State.start.step t 0 = .ok ⟨.value n, [.prime, .scripts], .root [], []⟩ :=
      State.element_eq_apply (s := State.start) hbegin rfl 0
    exact State.outcome_of_step hstep ts
  | group g => exact g.outcome_start ts

/-- A run of scripts behind a base. -/
theorem Base.outcome_withScripts (base : Base) (run : List Attachment) :
    State.start.outcome (base.tokens ++ run.flatMap Attachment.tokens) =
      some [withScripts base.node run] := by
  have hblocks := (outcome_blocks (alternates_blocks run) base.node []).1
  rw [show (blocks run).flatten = run from List.flatten_splitBy _ run] at hblocks
  rw [base.outcome_start, hblocks]
  · rfl
  · intro t ht
    cases run with
    | nil => cases ht
    | cons a run => exact ⟨a.op, (Option.some.inj ht).symm⟩

/-- Scripts that all have the same operator are one. -/
theorem withScripts_map (tree : Node) (op : Script) (g : BraceGroup) (gs : List BraceGroup) :
    withScripts tree ((g :: gs).map (Attachment.mk op)) =
      tree.attach op (nested op g.node (gs.map BraceGroup.node)) := by
  have hblocks : blocks ((g :: gs).map (Attachment.mk op)) =
      [(g :: gs).map (Attachment.mk op)] := by
    refine List.splitBy_of_isChain (List.cons_ne_nil _ _) ?_
    induction gs generalizing g with
    | nil => exact List.isChain_singleton _
    | cons g' gs ih => exact List.isChain_cons_cons.mpr ⟨decide_eq_true rfl, ih g'⟩
  rw [withScripts, hblocks]
  simp [blockScript?, paired, Attachment.node, Function.comp_def]

/-- A group with scripts in braces. -/
def BraceGroup.withScripts (g : BraceGroup) (run : List Attachment) : BraceGroup where
  content := g.tokens ++ run.flatMap Attachment.tokens
  nodes := [MathMarkup.withScripts g.node run]
  reads := reads_iff.mpr ((Base.group g).outcome_withScripts run)

theorem BraceGroup.node_withScripts (g : BraceGroup) (op : Script) (gs : List BraceGroup) :
    (g.withScripts (gs.map (Attachment.mk op))).node =
      nested op g.node (gs.map BraceGroup.node) := by
  cases gs with
  | nil => rfl
  | cons g' gs => exact withScripts_map g.node op g' gs

/-! ### Sources -/

/-- **The meaning of a run of scripts.**  A base with a run of scripts is one node,
by the blocks of the run.  So a repeated operator nests to the right, at any
length, and of two scripts with different operators either may come first. -/
theorem parse_scripts (base : Base) :
    (∀ run source, Tokenizes source (base.tokens ++ run.flatMap Attachment.tokens) →
      (parse source).tree = .ok (.branch .root [withScripts base.node run])) ∧
    (∀ op g gs source source',
      Tokenizes source
        (base.tokens ++ ((g :: gs).map (Attachment.mk op)).flatMap Attachment.tokens) →
      Tokenizes source'
        (base.tokens ++ (Attachment.mk op (g.withScripts (gs.map (Attachment.mk op)))).tokens) →
      (parse source).tree = (parse source').tree) ∧
    ∀ x y source source',
      Tokenizes source
        (base.tokens ++ [Attachment.mk .sub x, ⟨.sup, y⟩].flatMap Attachment.tokens) →
      Tokenizes source'
        (base.tokens ++ [Attachment.mk .sup y, ⟨.sub, x⟩].flatMap Attachment.tokens) →
      (parse source).tree = (parse source').tree := by
  have hrun (run : List Attachment) (source : Bytes)
      (h : Tokenizes source (base.tokens ++ run.flatMap Attachment.tokens)) :
      (parse source).tree = .ok (.branch .root [withScripts base.node run]) :=
    h.parse_eq (base.outcome_withScripts run)
  refine ⟨hrun, fun op g gs source source' h h' => ?_, fun x y source source' h h' => ?_⟩
  · rw [← List.flatMap_singleton Attachment.tokens] at h'
    have hone := withScripts_map base.node op (g.withScripts (gs.map (Attachment.mk op))) []
    rw [hrun _ _ h, hrun _ _ h', withScripts_map, ← g.node_withScripts]
    exact congrArg (fun n => Except.ok (Node.branch .root [n])) hone.symm
  · rw [hrun _ _ h, hrun _ _ h']
    rfl

/-- Three blocks behind a group, of which the first has two subscripts; a repeated
operator that is written out with braces; and two scripts in either order. -/
theorem parse_scripts_blocks :
    let leaf (s : String) := Node.leaf .letter (utf8 s) none
    let xy := Node.mk .row (utf8 "\x7b\x7d") none {} [leaf "x", leaf "y"]
    (parse (utf8 "\x7bxy\x7d_\x7bb\x7d_\x7bc\x7d^\x7bd\x7d_\x7be\x7d")).tree =
        .ok (.branch .root [.branch .subscript [.branch .subSup
          [xy, .branch .subscript [leaf "b", leaf "c"], leaf "d"], leaf "e"]]) ∧
      (parse (utf8 "\x7bxy\x7d^\x7bb\x7d^\x7bc\x7d^\x7bd\x7d")).tree =
        (parse (utf8 "\x7bxy\x7d^\x7b\x7bb\x7d^\x7bc\x7d^\x7bd\x7d\x7d")).tree ∧
      (parse (utf8 "\x7bxy\x7d_\x7bb\x7d^\x7bc\x7d")).tree =
        (parse (utf8 "\x7bxy\x7d^\x7bc\x7d_\x7bb\x7d")).tree := by
  intro leaf xy
  let base : Base := .group (.ofSource
    (show (parse (utf8 "xy")).tree = .ok (.branch .root [leaf "x", leaf "y"]) by
      with_unfolding_all rfl))
  let b := BraceGroup.ofSource
    (show (parse (utf8 "b")).tree = .ok (.branch .root [leaf "b"]) by with_unfolding_all rfl)
  let c := BraceGroup.ofSource
    (show (parse (utf8 "c")).tree = .ok (.branch .root [leaf "c"]) by with_unfolding_all rfl)
  let d := BraceGroup.ofSource
    (show (parse (utf8 "d")).tree = .ok (.branch .root [leaf "d"]) by with_unfolding_all rfl)
  let e := BraceGroup.ofSource
    (show (parse (utf8 "e")).tree = .ok (.branch .root [leaf "e"]) by with_unfolding_all rfl)
  obtain ⟨hrun, hnested, hpaired⟩ := parse_scripts base
  refine ⟨?_, ?_, ?_⟩
  · exact hrun [⟨.sub, b⟩, ⟨.sub, c⟩, ⟨.sup, d⟩, ⟨.sub, e⟩] _ (by decide +kernel)
  · exact hnested .sup b [c, d] _ _ (by decide +kernel) (by decide +kernel)
  · exact hpaired b c _ _ (by decide +kernel) (by decide +kernel)

end MathMarkup
