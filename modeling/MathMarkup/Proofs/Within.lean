/-
MathMarkup/Proofs/Within.lean

What lies within a tree.  Trees of sources, markup and elements are different
types, but all that matters here is which children a tree has: `Within` is the
relation between a tree and everything in it, the tree itself included, at any
depth.  A property "at every place of a tree" is then one condition on single
places, quantified over what lies within (`forall_within_iff` opens it by one
level).

Markup is taken apart in many ways, so it gets an induction principle in terms
of its children too (`Markup.induct`).
-/
import MathMarkup.Markup.Basic
import MathMarkup.Tree.Basic

namespace MathMarkup

section Within

variable {α : Type} {children : α → List α}

/-- `Within children n m`: `n` is `m`, or lies within one of its children. -/
inductive Within (children : α → List α) : α → α → Prop
  | self (m : α) : Within children m m
  | inside {n c m : α} : c ∈ children m → Within children n c → Within children n m

/-- A condition holds everywhere in a tree if it holds at its root and
everywhere in its children. -/
theorem forall_within_iff {p : α → Prop} {m : α} :
    (∀ n, Within children n m → p n) ↔
      p m ∧ ∀ c ∈ children m, ∀ n, Within children n c → p n := by
  constructor
  · intro h
    exact ⟨h m (.self m), fun c hc n hn => h n (.inside hc hn)⟩
  · rintro ⟨hm, hc⟩ n hn
    cases hn with
    | self => exact hm
    | inside hmem hn => exact hc _ hmem n hn

end Within

/-- The children of a node. -/
def Node.children : Node → List Node
  | .missing => []
  | .mk _ _ _ _ children => children

namespace Markup

/-- The children of a markup tree: all markup that it is made of, in order. -/
def children : Markup → List Markup
  | .missing | .identifier _ _ | .number _ | .operator _ _ | .space _ | .text _ | .lineBreak
  | .cellBreak => []
  | .root _ children | .row children _ => children
  | .function _ args => args
  | .superscript base sup => [base, sup]
  | .subscript base sub => [base, sub]
  | .subSup base sub sup => [base, sub, sup]
  | .overscript base above _ => [base, above]
  | .underscript base below _ => [base, below]
  | .underOverscript base below above _ _ => [base, below, above]
  | .radical base index => [base, index]
  | .fraction numerator denominator _ => [numerator, denominator]
  | .fenced _ _ content => [content]
  | .table cells _ _ => cells
  | .styled _ content => [content]

theorem sizeOf_lt_of_mem_children {c m : Markup} (h : c ∈ m.children) : sizeOf c < sizeOf m := by
  have list {ms : List Markup} (h : c ∈ ms) : sizeOf c < sizeOf ms := List.sizeOf_lt_of_mem h
  cases m <;> simp only [children, List.mem_cons, List.not_mem_nil, or_false] at h
  case root | row | function | table =>
    have := list h
    simp +arith only [root.sizeOf_spec, row.sizeOf_spec, function.sizeOf_spec, table.sizeOf_spec]
    omega
  all_goals
    rcases h with rfl | rfl | rfl <;> simp +arith

/-- Induction on markup: what holds of a tree whenever it holds of its children
holds of every tree. -/
theorem induct {p : Markup → Prop} (step : ∀ m : Markup, (∀ c ∈ m.children, p c) → p m)
    (m : Markup) : p m :=
  step m fun c _ => induct step c
termination_by sizeOf m
decreasing_by exact sizeOf_lt_of_mem_children ‹_›

end Markup

end MathMarkup
