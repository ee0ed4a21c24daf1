/-
MathMarkup/Proofs/Constructions.lean

What the constructions of lowering are made of.  Lowering puts markup together from
the markup of children, and adds operators, fences and rows of its own, but no
number, text or identifier.  So whoever picks nothing but these (`Markup.Picks`)
finds in a construction what there is to find in its parts, in their order
(`Markup.collect`).
-/
import Mathlib.Data.List.Basic
import MathMarkup.Proofs.Lowered

namespace MathMarkup

namespace Markup

/-! ### Collecting -/

/-- All places of a markup tree: the tree itself, then all places of its
children. -/
def places (m : Markup) : List Markup :=
  m :: m.children.attach.flatMap fun c => places c.1
termination_by sizeOf m
decreasing_by exact sizeOf_lt_of_mem_children c.2

theorem places_eq (m : Markup) : m.places = m :: m.children.flatMap places := by
  rw [places, ← List.flatMap_map (f := Subtype.val) (g := places), List.attach_map_subtype_val]

section Collect

variable {β : Type} {f : Markup → Option β}

/-- What is picked at the places of a tree, in order. -/
def collect (f : Markup → Option β) (m : Markup) : List β :=
  m.places.filterMap f

/-- What is picked in several trees. -/
def collectAll (f : Markup → Option β) (ms : List Markup) : List β :=
  ms.flatMap (collect f)

theorem collect_eq (f : Markup → Option β) (m : Markup) :
    m.collect f = (f m).toList ++ collectAll f m.children := by
  have hchildren : (m.children.flatMap places).filterMap f = collectAll f m.children :=
    List.filterMap_flatMap
  rw [collect, places_eq, List.filterMap_cons, hchildren]
  cases f m with
  | none => rfl
  | some b => rfl

@[simp] theorem collectAll_nil : collectAll f [] = [] := rfl

@[simp] theorem collectAll_cons (m : Markup) (ms : List Markup) :
    collectAll f (m :: ms) = m.collect f ++ collectAll f ms := rfl

@[simp] theorem collectAll_append (ms ns : List Markup) :
    collectAll f (ms ++ ns) = collectAll f ms ++ collectAll f ns :=
  List.flatMap_append

/-- A number, a text or an identifier. -/
abbrev isItem : Markup → Bool
  | .number _ | .text _ | .identifier _ _ => true
  | _ => false

/-- Nothing is picked but numbers, texts and identifiers. -/
def Picks (f : Markup → Option β) : Prop :=
  ∀ m : Markup, m.isItem = false → f m = none

/-- Elsewhere there is what is in the children. -/
theorem Picks.collect (hf : Picks f) {m : Markup} (hm : m.isItem = false) :
    m.collect f = collectAll f m.children := by
  rw [collect_eq, hf m hm]
  rfl

end Collect

end Markup

namespace Token

/-- What a command shows of its arguments, in the order of the markup.  A script that is
set over or under a base is written before it; the name of an operator is plain
text. -/
def shown {α : Type} : Token → List α → List α
  | .overset, args | .underset, args => args.reverse
  | .operatorName, args => args.tail
  | _, args => args

theorem shown_map {α β : Type} (g : α → β) (tag : Token) (args : List α) :
    tag.shown (args.map g) = (tag.shown args).map g := by
  cases tag
  case overset | underset => exact List.map_reverse.symm
  case operatorName => exact List.map_tail.symm
  all_goals rfl

theorem mem_of_mem_shown {α : Type} {tag : Token} {a : α} {args : List α}
    (h : a ∈ tag.shown args) : a ∈ args := by
  cases tag
  case overset | underset => exact List.mem_reverse.mp h
  case operatorName => exact List.mem_of_mem_tail h
  all_goals exact h

theorem shown_eq_or_reverse {α : Type} {tag : Token} (h : tag ≠ .operatorName) (args : List α) :
    tag.shown args = args ∨ tag.shown args = args.reverse := by
  cases tag
  case overset | underset => exact .inr rfl
  case operatorName => exact absurd rfl h
  all_goals exact .inl rfl

/-- The variant of the arguments of a command. -/
def variantBelow (v : Variant) : Token → Variant
  | .style w => w
  | _ => v

end Token

namespace Lowering

open Markup (Picks collectAll)

theorem lowerAll_reverse {table : Table} {v : Variant} {ns : List Node} {ms : List Markup}
    (h : lowerAll table v ns = .ok ms) : lowerAll table v ns.reverse = .ok ms.reverse := by
  induction ns generalizing ms with
  | nil =>
    obtain rfl := Except.ok.inj h
    rfl
  | cons n ns ih =>
    obtain ⟨m, ks, hm, hks, rfl⟩ := lowerAll_cons_eq_ok.mp h
    rw [List.reverse_cons, List.reverse_cons]
    exact lowerAll_append_eq_ok.mpr
      ⟨_, _, ih hks, lowerAll_singleton_eq_ok.mpr ⟨m, hm, rfl⟩, rfl⟩

/-! ### Constructions -/

section Picks

variable {β : Type} {f : Markup → Option β} {ms : List Markup} {m : Markup}

theorem collect_fractionOf (hf : Picks f) (kind : Bytes) (numerator denominator : Markup) :
    (fractionOf kind numerator denominator).collect f =
      numerator.collect f ++ denominator.collect f := by
  unfold fractionOf
  cases fractionDisplay? kind <;> cases isBinomial kind <;>
    simp [hf.collect, Markup.children]

theorem collect_of_fraction (hf : Picks f) {kind : Bytes} (h : fraction kind ms = .ok m) :
    m.collect f = collectAll f ms := by
  rcases ms with - | ⟨numerator, - | ⟨denominator, - | ⟨k, more⟩⟩⟩
  · cases h
  · cases h
  · obtain rfl := Except.ok.inj h
    simp [collect_fractionOf hf]
  · obtain rfl := Except.ok.inj h
    simp [collect_fractionOf hf, hf.collect, Markup.children]

theorem collect_of_radical (hf : Picks f) (hlen : ms.length ≤ 2) (h : radical ms = .ok m) :
    m.collect f = collectAll f ms := by
  rcases ms with - | ⟨base, - | ⟨index, - | ⟨k, more⟩⟩⟩
  · cases h
  · obtain rfl := Except.ok.inj h
    simp [hf.collect, Markup.children]
  · obtain rfl := Except.ok.inj h
    simp [hf.collect, Markup.children]
  · simp at hlen

theorem collect_of_overbrace (hf : Picks f) {glyph : Bytes} (hlen : ms.length ≤ 2)
    (h : overbrace glyph ms = .ok m) : m.collect f = collectAll f ms := by
  rcases ms with - | ⟨base, - | ⟨label, - | ⟨k, more⟩⟩⟩
  · cases h
  · obtain rfl := Except.ok.inj h
    simp [hf.collect, Markup.children]
  · obtain rfl := Except.ok.inj h
    simp [hf.collect, Markup.children]
  · simp at hlen

theorem collect_of_underbrace (hf : Picks f) {glyph : Bytes} (hlen : ms.length ≤ 2)
    (h : underbrace glyph ms = .ok m) : m.collect f = collectAll f ms := by
  rcases ms with - | ⟨base, - | ⟨label, - | ⟨k, more⟩⟩⟩
  · cases h
  · obtain rfl := Except.ok.inj h
    simp [hf.collect, Markup.children]
  · obtain rfl := Except.ok.inj h
    simp [hf.collect, Markup.children]
  · simp at hlen

theorem eq_of_one (h : one ms = .ok m) : ms = [m] := by
  rcases ms with - | ⟨k, - | ⟨l, ms⟩⟩
  · cases h
  · rw [Except.ok.inj h]
  · cases h

theorem eq_of_two {n : Markup} (h : two ms = .ok (m, n)) : ms = [m, n] := by
  rcases ms with - | ⟨k, - | ⟨l, - | ⟨o, ms⟩⟩⟩
  · cases h
  · cases h
  · obtain ⟨rfl, rfl⟩ := Prod.mk.inj (Except.ok.inj h)
    rfl
  · cases h

theorem collect_rowOf (hf : Picks f) (ms : List Markup) :
    (rowOf ms).collect f = collectAll f ms := by
  rcases ms with - | ⟨m, - | ⟨n, ms⟩⟩ <;>
    simp [rowOf, hf.collect, Markup.children]

/-- Scripts and limits are made of as many trees as their kind says. -/
theorem collect_of_scripts (hf : Picks f) {kind : Kind}
    (hk : kind.scriptedLength? = some ms.length) (h : scripts kind ms = .ok m) :
    m.collect f = collectAll f ms := by
  have hlen := hk
  cases kind <;> simp only [Kind.scriptedLength?, Option.some.injEq, reduceCtorEq] at hlen
  case superscript | subscript | underscript | overscript =>
    obtain ⟨a, b, rfl⟩ := List.length_eq_two.mp hlen.symm
    obtain rfl := Except.ok.inj h
    exact hf.collect rfl
  case subSup | underOverscript =>
    obtain ⟨a, b, c, rfl⟩ := List.length_eq_three.mp hlen.symm
    obtain rfl := Except.ok.inj h
    exact hf.collect rfl

theorem collect_environment (hf : Picks f) (e : Environment) (columns : Bytes)
    (cells : List Markup) : (e.markup columns cells).collect f = collectAll f cells := by
  cases e with
  | array =>
    rcases hcs : Column.parse columns with - | ⟨c, cs⟩ <;>
      simp [Environment.markup, hcs, hf.collect, Markup.children]
  | _ => simp [Environment.markup, hf.collect, Markup.children]

theorem eq_lineBreak_of_isLineBreak {table : Table} {v : Variant} {n : Node}
    (hn : n.isLineBreak = true) (h : lower table v n = .ok m) : m = .lineBreak := by
  cases n with
  | missing => cases hn
  | mk kind data tag params children =>
    cases kind with
    | lineBreak => exact (Except.ok.inj h).symm
    | _ => cases hn

/-- The line break that is left out at the end of a table is nothing to pick. -/
theorem collectAll_cells (hf : Picks f) {table : Table} {v : Variant} {ns : List Node}
    (h : lowerAll table v ns = .ok ms) : collectAll f (cells ns ms) = collectAll f ms := by
  rcases ns.eq_nil_or_concat' with rfl | ⟨ns, n, rfl⟩
  · rfl
  · obtain ⟨as, _, -, hlast, rfl⟩ := lowerAll_append_eq_ok.mp h
    obtain ⟨m, hm, rfl⟩ := lowerAll_singleton_eq_ok.mp hlast
    unfold cells
    rw [List.getLast?_concat]
    dsimp only
    split
    -- What is dropped from the markup is the markup of the node that is a line break.
    · next hbreak =>
      rw [List.dropLast_concat, eq_lineBreak_of_isLineBreak hbreak hm]
      simp [hf.collect, Markup.children]
    · rfl

/-! ### Nodes -/

variable {table : Table} {v : Variant} {ns : List Node}

/-- Scripts and limits. -/
theorem collect_of_branch (hf : Picks f) {kind : Kind}
    (hk : kind.scriptedLength? = some ns.length) (h : lower table v (.branch kind ns) = .ok m) :
    ∃ ms, lowerAll table v ns = .ok ms ∧ m.collect f = collectAll f ms := by
  -- The kinds with that many children are just those of scripts and limits.
  have hall : lowerAll table v ns >>= scripts kind = .ok m := by
    cases kind
    case superscript | subscript | subSup | underscript | overscript | underOverscript => exact h
    all_goals cases hk
  obtain ⟨ms, hms, hm⟩ := exists_of_bind_eq_ok hall
  rw [← length_of_lowerAll hms] at hk
  exact ⟨ms, hms, collect_of_scripts hf hk hm⟩

/-- A group, and a whole formula. -/
theorem collect_of_row (hf : Picks f) {kind : Kind} (hk : kind = .root ∨ kind = .row)
    {data : Bytes} {tag : Option Token} {params : Params}
    (h : lower table v (.mk kind data tag params ns) = .ok m) :
    ∃ ms, lowerAll table v ns = .ok ms ∧ m.collect f = collectAll f ms := by
  rcases hk with rfl | rfl <;>
  · obtain ⟨ms, hms, hm⟩ := exists_of_bind_eq_ok h
    obtain rfl := Except.ok.inj hm
    exact ⟨ms, hms, hf.collect rfl⟩

theorem collect_of_fenceNode (hf : Picks f) {opening closing : Bytes}
    (h : lower table v (State.fenceNode opening closing ns) = .ok m) :
    ∃ ms, lowerAll table v ns = .ok ms ∧ m.collect f = collectAll f ms := by
  obtain ⟨ms, hms, hm⟩ := exists_of_bind_eq_ok h
  obtain rfl := Except.ok.inj hm
  exact ⟨ms, hms, by simp [hf.collect, collect_rowOf hf, Markup.children]⟩

theorem collect_of_environment (hf : Picks f) {name : Bytes} {tag : Option Token} {params : Params}
    (h : lower table v (.mk .environment name tag params ns) = .ok m) :
    ∃ ms, lowerAll table v ns = .ok ms ∧ m.collect f = collectAll f ms := by
  simp only [lower] at h
  split at h
  · cases h
  · obtain ⟨ms, hms, hm⟩ := exists_of_bind_eq_ok h
    obtain rfl := Except.ok.inj hm
    refine ⟨ms, hms, ?_⟩
    rw [collect_environment hf, collectAll_cells hf hms]

/-- There is nothing in a large operator by itself. -/
theorem collect_of_large (hf : Picks f) {tag : Token} (ht : tag.takesLimits = true)
    (h : lower table v (.large tag) = .ok m) : m.collect f = [] := by
  cases tag
  case bigOperator glyph | integral glyph | limit name =>
    obtain rfl := Except.ok.inj h
    exact hf.collect rfl
  all_goals cases ht

/-- A command has what its arguments have, as far as it shows them.  A slash is the one
thing that goes into the markup of an argument. -/
theorem collect_of_command (hf : Picks f) {tag : Token} {args : List Node}
    (ht : tag.takesArguments = true) (hadmits : tag.Admits args.length)
    (h : lower table v (.command tag args) = .ok m) :
    ∃ ms, lowerAll table (tag.variantBelow v) (tag.shown args) = .ok ms ∧
      (m.collect f = collectAll f ms ∨ ∃ base, ms = [base] ∧ m = slashed base) := by
  -- Behind its check a command lowers all arguments and builds on them.
  have check {c : Prop} [Decidable c] {e : Error} {w : Variant}
      {g : List Markup → Except Error Markup}
      (h : (if c then .error e else lowerAll table w args >>= g) = .ok m) :
      ∃ ms, lowerAll table w args = .ok ms ∧ g ms = .ok m := by
    split at h
    · cases h
    · exact exists_of_bind_eq_ok h
  have atMost {w : Variant} {ms : List Markup} {most : Nat} (hmost : most ∈ tag.mostArguments?)
      (hms : lowerAll table w args = .ok ms) : ms.length ≤ most := by
    rw [length_of_lowerAll hms]
    exact hadmits most hmost
  cases tag
  case fraction kind | binomial kind =>
    obtain ⟨ms, hms, hm⟩ := check h
    exact ⟨ms, hms, .inl (collect_of_fraction hf hm)⟩
  case radical =>
    obtain ⟨ms, hms, hm⟩ := check h
    exact ⟨ms, hms, .inl (collect_of_radical hf (atMost rfl hms) hm)⟩
  case overbrace glyph =>
    obtain ⟨ms, hms, hm⟩ := check h
    exact ⟨ms, hms, .inl (collect_of_overbrace hf (atMost rfl hms) hm)⟩
  case underbrace glyph =>
    obtain ⟨ms, hms, hm⟩ := check h
    exact ⟨ms, hms, .inl (collect_of_underbrace hf (atMost rfl hms) hm)⟩
  case markOver glyph accent | markUnder glyph accent =>
    obtain ⟨ms, hms, hm⟩ := check h
    obtain ⟨base, hbase, hm⟩ := exists_of_bind_eq_ok hm
    obtain rfl := eq_of_one hbase
    obtain rfl := Except.ok.inj hm
    exact ⟨[base], hms, .inl (by simp [hf.collect, Markup.children])⟩
  case overset | underset =>
    -- The script is the first of the arguments and the last child of the markup.
    obtain ⟨ms, hms, hm⟩ := check h
    obtain ⟨⟨script, base⟩, htwo, hm⟩ := exists_of_bind_eq_ok hm
    obtain rfl := eq_of_two htwo
    obtain rfl := Except.ok.inj hm
    exact ⟨[base, script], lowerAll_reverse hms, .inl (hf.collect rfl)⟩
  case style w =>
    obtain ⟨ms, hms, hm⟩ := check h
    obtain rfl := eq_of_one hm
    exact ⟨[m], hms, .inl (by simp)⟩
  case slashed =>
    obtain ⟨ms, hms, hm⟩ := check h
    obtain ⟨base, hbase, hm⟩ := exists_of_bind_eq_ok hm
    obtain rfl := eq_of_one hbase
    exact ⟨[base], hms, .inr ⟨base, rfl, (Except.ok.inj hm).symm⟩⟩
  case operatorName =>
    rcases args with - | ⟨name, args⟩
    · cases h
    · obtain ⟨ms, hms, hm⟩ := exists_of_bind_eq_ok h
      obtain rfl := Except.ok.inj hm
      exact ⟨ms, hms, .inl (hf.collect rfl)⟩
  all_goals cases ht

end Picks

end Lowering

end MathMarkup
