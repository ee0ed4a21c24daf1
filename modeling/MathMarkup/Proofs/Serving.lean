/-
MathMarkup/Proofs/Serving.lean

Nodes that serve as well.  One node serves as well as another if it becomes the same
markup wherever the other one becomes any, and looks the same to what looks at nodes
before they are lowered: the text of an operator's name and the end of an
environment.

It is enough that the children of a node serve as well (`Node.Serves.node`), so that
exchanging a node deep inside of an unfinished construct makes no difference
(`Node.Serves.closeAll`).  A command that lacks an argument becomes no markup at all,
and so anything else of it serves as well (`Application.serves_push`): it can still be
part of a tree that is compiled, as the name of an operator.
-/
import Mathlib.Data.List.Forall2
import MathMarkup.Proofs.Conservation
import MathMarkup.Proofs.Embedding

namespace MathMarkup

/-- `n'` can stand where `n` stands. -/
structure Node.Serves (n n' : Node) : Prop where
  lower : ∀ {table : Table} {v : Variant} {m : Markup},
    Lowering.lower table v n = .ok m → Lowering.lower table v n' = .ok m
  plainText : n'.plainText? = n.plainText?
  lineBreak : n'.isLineBreak = n.isLineBreak

/-! ### Commands -/

namespace Lowering

variable {α β : Type} {r r' : Except Error α}

theorem bind_of_imp {f : α → Except Error β} {b : β} (h : ∀ a, r = .ok a → r' = .ok a)
    (hr : r >>= f = .ok b) : r' >>= f = .ok b := by
  obtain ⟨a, ha, hb⟩ := exists_of_bind_eq_ok hr
  rw [h a ha]
  exact hb

/-- The same check in front of both. -/
theorem check_of_imp {c c' : Prop} [Decidable c] [Decidable c'] {e e' : Error} {a : α}
    (hc : c' ↔ c) (h : r = .ok a → r' = .ok a) (hr : (if c then .error e else r) = .ok a) :
    (if c' then .error e' else r') = .ok a := by
  split at hr
  · cases hr
  · next hnot =>
    rw [if_neg (fun h => hnot (hc.mp h))]
    exact h hr

/-- A command asks how many arguments it has, what they become and, if it is a named
operator, for the text of the first one. -/
theorem command_of_imp {table : Table} {v : Variant} {tag : Option Token} {params : Params}
    {args args' : List Node} {all all' rest rest' : Variant → Except Error (List Markup)}
    {m : Markup} (hlength : args'.length = args.length)
    (hname : args'.head?.map Node.plainText? = args.head?.map Node.plainText?)
    (hall : ∀ w ms, all w = .ok ms → all' w = .ok ms)
    (hrest : ∀ w ms, rest w = .ok ms → rest' w = .ok ms)
    (h : command table v tag params args all rest = .ok m) :
    command table v tag params args' all' rest' = .ok m := by
  have hempty : args'.isEmpty = true ↔ args.isEmpty = true := by
    rw [List.isEmpty_iff_length_eq_zero, List.isEmpty_iff_length_eq_zero, hlength]
  cases tag with
  | none => cases h
  | some tag =>
    cases tag with
    | operatorName =>
      rcases args with - | ⟨n, args⟩
      · cases h
      rcases args' with - | ⟨n', args'⟩
      · cases hlength
      have hname : n'.plainText? = n.plainText? := Option.some.inj hname
      simp only [command, hname] at h ⊢
      exact bind_of_imp (hrest v) h
    | fraction kind | binomial kind =>
      exact check_of_imp (by rw [hlength]) (bind_of_imp (hall v)) h
    | overset | underset | markOver glyph accent | markUnder glyph accent | slashed =>
      exact check_of_imp (by rw [hlength]) (bind_of_imp (hall v)) h
    | style w => exact check_of_imp (by rw [hlength]) (bind_of_imp (hall w)) h
    | radical | overbrace glyph | underbrace glyph =>
      exact check_of_imp hempty (bind_of_imp (hall v)) h
    | left => exact bind_of_imp (hall v) h
    | _ => exact h

end Lowering

/-! ### Nodes with children that serve as well -/

namespace Node.Serves

open Lowering

variable {table : Table} {v : Variant} {n n' : Node} {ns ns' : List Node} {ms : List Markup}

theorem refl (n : Node) : Serves n n :=
  ⟨id, rfl, rfl⟩

theorem lowerAll (h : List.Forall₂ Serves ns ns') (hms : Lowering.lowerAll table v ns = .ok ms) :
    Lowering.lowerAll table v ns' = .ok ms := by
  induction h generalizing ms with
  | nil => exact hms
  | cons hn _ ih =>
    obtain ⟨m, ms, hm, hrest, rfl⟩ := lowerAll_cons_eq_ok.mp hms
    exact lowerAll_cons_eq_ok.mpr ⟨m, ms, hn.lower hm, ih hrest, rfl⟩

theorem lowerRest (h : List.Forall₂ Serves ns ns') (hms : Lowering.lowerRest table v ns = .ok ms) :
    Lowering.lowerRest table v ns' = .ok ms := by
  cases h with
  | nil => exact hms
  | cons _ h => exact lowerAll h hms

theorem plainTextAll (h : List.Forall₂ Serves ns ns') : plainTextAll? ns' = plainTextAll? ns := by
  induction h with
  | nil => rfl
  | cons hn _ ih => simp only [plainTextAll?, hn.plainText, ih]

theorem getLast? (h : List.Forall₂ Serves ns ns') :
    ns'.getLast?.map isLineBreak = ns.getLast?.map isLineBreak := by
  induction h with
  | nil => rfl
  | @cons k k' ks ks' hn hks ih =>
    cases hks with
    | nil => exact congrArg some hn.lineBreak
    | cons _ _ => simpa only [List.getLast?_cons_cons] using ih

theorem cells (h : List.Forall₂ Serves ns ns') (ms : List Markup) :
    Lowering.cells ns' ms = Lowering.cells ns ms := by
  have hlast := getLast? h
  unfold Lowering.cells
  cases hn : ns.getLast? <;> cases hn' : ns'.getLast? <;> simp_all

/-- **A node serves as well if its children do.** -/
theorem node (h : List.Forall₂ Serves ns ns') (kind : Kind) (data : Bytes) (tag : Option Token)
    (params : Params) :
    Serves (.mk kind data tag params ns) (.mk kind data tag params ns') := by
  refine ⟨fun {table v m} hm => ?_, ?_, by cases kind <;> rfl⟩
  · cases kind with
    | letter | number | operator | text | lineBreak | cellBreak | unknown _ => exact hm
    | root | row | superscript | subscript | subSup | underscript | overscript | underOverscript =>
      exact bind_of_imp (fun _ => lowerAll h) hm
    | command =>
      have hname : ns'.head?.map plainText? = ns.head?.map plainText? := by
        cases h with
        | nil => rfl
        | cons hn _ => exact congrArg some hn.plainText
      simp only [Lowering.lower] at hm ⊢
      exact command_of_imp h.length_eq.symm hname (fun _ _ => lowerAll h)
        (fun _ _ => lowerRest h) hm
    | environment =>
      simp only [Lowering.lower] at hm ⊢
      cases he : environment? data with
      | none =>
        rw [he] at hm
        cases hm
      | some e =>
        rw [he] at hm
        simp only [cells h]
        exact bind_of_imp (fun _ => lowerAll h) hm
  · simp only [plainText?, plainTextAll h]

theorem forall₂_refl (ns : List Node) : List.Forall₂ Serves ns ns :=
  List.forall₂_same.mpr fun n _ => refl n

/-- One node among others. -/
theorem forall₂_middle (h : Serves n n') (before after : List Node) :
    List.Forall₂ Serves (before ++ [n] ++ after) (before ++ [n'] ++ after) :=
  List.rel_append (List.rel_append (forall₂_refl before) (.cons h .nil)) (forall₂_refl after)

/-! ### Constructs around a node -/

theorem rel_refl (o : Option Node) : Option.Rel Serves o o := by
  cases o with
  | none => exact .none
  | some n => exact .some (refl n)

theorem scripted (base : Node) {sub sub' sup sup' : Option Node} (hsub : Option.Rel Serves sub sub')
    (hsup : Option.Rel Serves sup sup') :
    Serves (base.scripted sub sup) (base.scripted sub' sup') := by
  cases hsub with
  | none =>
    cases hsup with
    | none => exact refl base
    | some hsup => exact node (.cons (refl base) (.cons hsup .nil)) _ _ _ _
  | some hsub =>
    cases hsup with
    | none => exact node (.cons (refl base) (.cons hsub .nil)) _ _ _ _
    | some hsup => exact node (.cons (refl base) (.cons hsub (.cons hsup .nil))) _ _ _ _

theorem stacked (base : Node) {below below' above above' : Option Node}
    (hbelow : Option.Rel Serves below below') (habove : Option.Rel Serves above above') :
    Serves (base.stacked below above) (base.stacked below' above') := by
  cases hbelow with
  | none =>
    cases habove with
    | none => exact refl base
    | some habove => exact node (.cons (refl base) (.cons habove .nil)) _ _ _ _
  | some hbelow =>
    cases habove with
    | none => exact node (.cons (refl base) (.cons hbelow .nil)) _ _ _ _
    | some habove => exact node (.cons (refl base) (.cons hbelow (.cons habove .nil))) _ _ _ _

theorem limits {tag : Token} {isStacked : Bool} {sub sub' sup sup' : Option Node}
    (hsub : Option.Rel Serves sub sub') (hsup : Option.Rel Serves sup sup') :
    Serves (Limits.node ⟨tag, isStacked, sub, sup⟩) (Limits.node ⟨tag, isStacked, sub', sup'⟩) := by
  cases isStacked with
  | true => exact stacked _ hsub hsup
  | false => exact scripted _ hsub hsup

/-- What a frame makes of a node that serves as well. -/
theorem close (h : Serves n n') (f : Frame) : Serves (f.close n) (f.close n') := by
  cases f with
  | prime | scripts | chain _ => exact h
  | first base op | nest base op =>
    cases op with
    | sub => exact scripted base (.some h) .none
    | sup => exact scripted base .none (.some h)
  | second base op script =>
    cases op with
    | sub => exact scripted base (rel_refl (some script)) (.some h)
    | sup => exact scripted base (.some h) (rel_refl (some script))
  | index => exact refl _
  | argument a =>
    simp only [Frame.close, Frame.node_push]
    exact node (h.forall₂_middle a.args a.index.toList) _ _ _ _
  | limit op l =>
    cases op with
    | sub => exact limits (.some h) (rel_refl l.sup)
    | sup => exact limits (rel_refl l.sub) (.some h)

/-- What all waiting frames make of it; by induction on the frames. -/
theorem closeAll (h : Serves n n') (waiting : List Frame) :
    Serves (State.closeAll waiting n) (State.closeAll waiting n') := by
  induction waiting generalizing n n' with
  | nil => exact h
  | cons f waiting ih => exact ih (h.close f)

end Node.Serves

/-! ### Commands that lack an argument -/

theorem Node.serves_command {tag : Token} (ht : tag.takesArguments = true) {args : List Node}
    (hlen : args.length < tag.arity) (args' : List Node) :
    Serves (.command tag args) (.command tag args') :=
  ⟨fun h => absurd h (Lowering.lower_command_ne_ok ht hlen), rfl, rfl⟩

/-- The first argument of a command. -/
theorem Application.serves_first {a : Application} (ht : a.tag.takesArguments = true)
    (hargs : a.args = []) (n : Node) : a.node.Serves (a.push n).node := by
  have hnode : a.node = .command a.tag [] := if_pos (by rw [hargs]; rfl)
  have hlen : ([] : List Node).length < a.tag.arity := a.tag.arity_pos
  rw [hnode, Frame.node_push]
  exact Node.serves_command ht hlen _

/-- One more argument of a command that has one but needs another. -/
theorem Application.serves_push {T : Token → Prop} {a : Application} (ha : a.WellFormed T)
    {n : Node} (hlen : (a.push n).args.length < (a.push n).tag.arity) (n' : Node) :
    (a.push n).node.Serves ((a.push n).push n').node := by
  rw [Frame.node_push, Frame.node_push]
  exact Node.serves_command ha.takesArguments (Frame.length_lt_arity ha hlen) _

end MathMarkup
