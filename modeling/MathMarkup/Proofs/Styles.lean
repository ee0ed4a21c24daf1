/-
MathMarkup/Proofs/Styles.lean

What style switches do.  The variant in which a tree is lowered is handed down through
every construct, and a style switch hands down its own.  Two things follow.

Two runs in different variants differ in nothing but the variants of identifiers.
Whether they succeed, with which error they fail and all other markup is the same,
because no construction looks at a variant (`Blind`): wiping out the variants before
a construction or behind it makes no difference.

Which variant an identifier has can be told from the tree alone.  A letter of a tree
has a style, that of the closest switch around it, or none (`Node.letters`).  The
identifiers of the markup are the letters of the tree, one by one and in order, each in
its style or else in the variant of the run (`shows_of_wellFormed`).
-/
import Mathlib.Data.List.Forall2
import MathMarkup.Proofs.Constructions
import MathMarkup.Proofs.TableUse

namespace MathMarkup

/-! ### Markup without variants -/

namespace Markup

mutual

/-- A markup tree with all identifiers in one variant. -/
def upright : Markup → Markup
  | .identifier s _ => .identifier s .normal
  | .root display children => .root display (uprightAll children)
  | .row children bracket => .row (uprightAll children) bracket
  | .function name args => .function name (uprightAll args)
  | .superscript base sup => .superscript base.upright sup.upright
  | .subscript base sub => .subscript base.upright sub.upright
  | .subSup base sub sup => .subSup base.upright sub.upright sup.upright
  | .overscript base above accent => .overscript base.upright above.upright accent
  | .underscript base below accent => .underscript base.upright below.upright accent
  | .underOverscript base below above accentUnder accentOver =>
    .underOverscript base.upright below.upright above.upright accentUnder accentOver
  | .radical base index => .radical base.upright index.upright
  | .fraction numerator denominator thickness =>
    .fraction numerator.upright denominator.upright thickness
  | .fenced opening closing content => .fenced opening closing content.upright
  | .table cells align columnLines => .table (uprightAll cells) align columnLines
  | .styled display content => .styled display content.upright
  | .missing => .missing
  | .number s => .number s
  | .operator s form => .operator s form
  | .space width => .space width
  | .text s => .text s
  | .lineBreak => .lineBreak
  | .cellBreak => .cellBreak

/-- Several trees with all identifiers in one variant. -/
def uprightAll : List Markup → List Markup
  | [] => []
  | m :: ms => m.upright :: uprightAll ms

end

theorem uprightAll_eq_map (ms : List Markup) : uprightAll ms = ms.map upright := by
  induction ms with
  | nil => rfl
  | cons m ms ih => rw [uprightAll, ih, List.map_cons]

end Markup

namespace Lowering

open Markup (upright uprightAll)

/-! ### Two runs -/

/-- Results that are the same up to what `f` forgets, or the same error. -/
def Alike {α β : Type} (f : α → β) (r r' : Except Error α) : Prop :=
  r.map f = r'.map f

section Alike

variable {α β α' β' : Type} {f : α → β} {g : α' → β'} {r r' : Except Error α}

theorem Alike.exists_ok {a : α} (h : Alike f r r') (hr : r = .ok a) :
    ∃ a', r' = .ok a' ∧ f a' = f a := by
  subst hr
  cases r' with
  | error e => cases h
  | ok a' => exact ⟨a', rfl, (Except.ok.inj h).symm⟩

theorem Alike.error_of_error {e : Error} (h : Alike f r r') (hr : r = .error e) :
    r' = .error e := by
  subst hr
  cases r' with
  | error e' =>
    cases h
    rfl
  | ok a' => cases h

theorem Alike.error_iff (h : Alike f r r') (e : Error) : r = .error e ↔ r' = .error e :=
  ⟨h.error_of_error, Alike.error_of_error (Eq.symm h)⟩

theorem Alike.bind {k k' : α → Except Error α'} (h : Alike f r r')
    (hk : ∀ a a', f a = f a' → Alike g (k a) (k' a')) : Alike g (r >>= k) (r' >>= k') := by
  cases r with
  | error e =>
    obtain rfl := h.error_of_error rfl
    rfl
  | ok a =>
    obtain ⟨a', rfl, ha⟩ := h.exists_ok rfl
    exact hk a a' ha.symm

/-- A check in front of both runs. -/
theorem Alike.check (h : Alike f r r') {c : Prop} [Decidable c] {e : Error} :
    Alike f (if c then .error e else r) (if c then .error e else r') := by
  split
  · rfl
  · exact h

end Alike

/-- A construction that does not look at variants. -/
def Blind (build : List Markup → Except Error Markup) : Prop :=
  ∀ ms, (build ms).map upright = build (uprightAll ms)

theorem Alike.build {r r' : Except Error (List Markup)} (h : Alike uprightAll r r')
    {build : List Markup → Except Error Markup} (hbuild : Blind build) :
    Alike upright (r >>= build) (r' >>= build) := by
  refine h.bind fun ms ms' hms => ?_
  calc (build ms).map upright
    _ = build (uprightAll ms) := hbuild ms
    _ = build (uprightAll ms') := by rw [hms]
    _ = (build ms').map upright := (hbuild ms').symm

/-! ### Constructions do not look at variants -/

theorem blind_of_pure {build : List Markup → Markup}
    (h : ∀ ms, (build ms).upright = build (uprightAll ms)) : Blind fun ms => .ok (build ms) :=
  fun ms => congrArg Except.ok (h ms)

theorem blind_of_one {build : Markup → Markup} (h : ∀ m, (build m).upright = build m.upright) :
    Blind fun ms => do return build (← one ms) := by
  rintro (- | ⟨m, - | ⟨n, ms⟩⟩)
  · rfl
  · exact congrArg Except.ok (h m)
  · rfl

theorem upright_fractionOf (kind : Bytes) (numerator denominator : Markup) :
    (fractionOf kind numerator denominator).upright =
      fractionOf kind numerator.upright denominator.upright := by
  unfold fractionOf
  cases fractionDisplay? kind <;> cases isBinomial kind <;>
    simp only [upright, Bool.false_eq_true, if_true, if_false]

theorem blind_fraction (kind : Bytes) : Blind (fraction kind) := by
  rintro (- | ⟨numerator, - | ⟨denominator, - | ⟨m, ms⟩⟩⟩)
  · rfl
  · rfl
  · exact congrArg Except.ok (upright_fractionOf kind numerator denominator)
  · refine congrArg Except.ok ?_
    rw [upright, uprightAll, upright_fractionOf]

theorem blind_radical : Blind radical := by
  rintro (- | ⟨base, - | ⟨index, ms⟩⟩) <;> rfl

theorem blind_overbrace (glyph : Bytes) : Blind (overbrace glyph) := by
  rintro (- | ⟨base, - | ⟨label, - | ⟨m, ms⟩⟩⟩) <;> rfl

theorem blind_underbrace (glyph : Bytes) : Blind (underbrace glyph) := by
  rintro (- | ⟨base, - | ⟨label, - | ⟨m, ms⟩⟩⟩) <;> rfl

theorem blind_scripts (kind : Kind) : Blind (scripts kind) := by
  rintro (- | ⟨base, - | ⟨m, - | ⟨n, ms⟩⟩⟩) <;> cases kind <;> rfl

theorem upright_slashed (m : Markup) : (slashed m).upright = slashed m.upright := by
  cases m <;> rfl

theorem upright_rowOf (ms : List Markup) : (rowOf ms).upright = rowOf (uprightAll ms) := by
  rcases ms with - | ⟨m, - | ⟨n, ms⟩⟩ <;> rfl

theorem uprightAll_cells (ns : List Node) (ms : List Markup) :
    uprightAll (cells ns ms) = cells ns (uprightAll ms) := by
  unfold cells
  split
  · split
    · rw [Markup.uprightAll_eq_map, Markup.uprightAll_eq_map, List.map_dropLast]
    · rfl
  · rfl

theorem upright_environment (e : Environment) (columns : Bytes) (cells : List Markup) :
    (e.markup columns cells).upright = e.markup columns (uprightAll cells) := by
  cases e with
  | array =>
    rcases hcs : Column.parse columns with - | ⟨c, cs⟩ <;>
      simp only [Environment.markup, hcs, upright]
  | _ => rfl

theorem alike_resolve (table : Table) (v w : Variant) (name : Bytes) :
    Alike upright (resolve table v name) (resolve table w name) := by
  unfold resolve
  split <;> rfl

/-- A command whose arguments are alike in all variants. -/
theorem alike_command {all rest : Variant → Except Error (List Markup)}
    (hall : ∀ v w, Alike uprightAll (all v) (all w))
    (hrest : ∀ v w, Alike uprightAll (rest v) (rest w)) (table : Table) (v w : Variant)
    (tag : Option Token) (params : Params) (args : List Node) :
    Alike upright (command table v tag params args all rest)
      (command table w tag params args all rest) := by
  cases tag with
  | none => rfl
  | some tag =>
    cases tag with
    | command name => exact alike_resolve table v w name
    | fraction kind | binomial kind => exact ((hall v w).build (blind_fraction kind)).check
    | radical => exact ((hall v w).build blind_radical).check
    | overbrace glyph => exact ((hall v w).build (blind_overbrace glyph)).check
    | underbrace glyph => exact ((hall v w).build (blind_underbrace glyph)).check
    | markOver glyph accent | markUnder glyph accent =>
      refine ((hall v w).build (blind_of_one ?_)).check
      exact fun _ => rfl
    | overset | underset =>
      refine ((hall v w).build ?_).check
      rintro (- | ⟨script, - | ⟨base, - | ⟨m, ms⟩⟩⟩) <;> rfl
    | slashed => exact ((hall v w).build (blind_of_one upright_slashed)).check
    | left =>
      refine (hall v w).build (blind_of_pure fun ms => ?_)
      rw [upright, upright_rowOf]
    | operatorName =>
      cases args with
      | nil => rfl
      | cons name args => exact (hrest v w).build (blind_of_pure fun _ => rfl)
    -- The others have no arguments, and a style switch does not look at the variant of the run.
    | _ => rfl

mutual

/-- Two runs on a node; by induction on the tree. -/
theorem alike_lower (table : Table) (v w : Variant) :
    (n : Node) → Alike upright (lower table v n) (lower table w n)
  | .missing => rfl
  | .mk kind data tag params children => by
    have hall (v w : Variant) :
        Alike uprightAll (lowerAll table v children) (lowerAll table w children) :=
      alike_lowerAll table v w children
    cases kind with
    | root | row => exact (hall v w).build (blind_of_pure fun _ => rfl)
    | command =>
      exact alike_command hall (fun v w => alike_lowerRest table v w children) table v w tag params
        children
    | superscript | subscript | subSup | underscript | overscript | underOverscript =>
      exact (hall v w).build (blind_scripts _)
    | environment =>
      simp only [lower]
      split
      · rfl
      · refine (hall v w).build (blind_of_pure fun ms => ?_)
        rw [upright_environment, uprightAll_cells]
    | _ => rfl

theorem alike_lowerAll (table : Table) (v w : Variant) :
    (ns : List Node) → Alike uprightAll (lowerAll table v ns) (lowerAll table w ns)
  | [] => rfl
  | n :: ns =>
    (alike_lower table v w n).bind fun _ _ hm =>
      (alike_lowerAll table v w ns).bind fun _ _ hms =>
        congrArg Except.ok (congrArg₂ List.cons hm hms)

theorem alike_lowerRest (table : Table) (v w : Variant) :
    (ns : List Node) → Alike uprightAll (lowerRest table v ns) (lowerRest table w ns)
  | [] => rfl
  | _ :: ns => alike_lowerAll table v w ns

end

end Lowering

/-! ### Letters of a tree -/

/-- A letter of a tree: its text, and the variant of the closest style switch around it
in the tree, if there is one. -/
structure Letter where
  text : Bytes
  style : Option Variant
  deriving DecidableEq, Repr

namespace Letter

/-- A letter in an argument of a command, which may be a style switch. -/
def below : Token → Letter → Letter
  | .style v, l => { l with style := some (l.style.getD v) }
  | _, l => l

/-- The identifier of a letter where `v` is the variant around the tree.  There may be
slashes through it. -/
structure ShownAs (v : Variant) (l : Letter) (i : Bytes × Variant) : Prop where
  text : ∃ k, i.1 = l.text ++ (List.replicate k Lowering.slash).flatten
  variant : i.2 = l.style.getD v

theorem shownAs_self (v : Variant) (s : Bytes) : ShownAs v ⟨s, none⟩ (s, v) :=
  ⟨⟨0, (List.append_nil s).symm⟩, rfl⟩

/-- One more slash. -/
theorem ShownAs.slashed {v u : Variant} {l : Letter} {s : Bytes} (h : l.ShownAs v (s, u)) :
    l.ShownAs v (s ++ Lowering.slash, u) := by
  obtain ⟨⟨k, hk⟩, hvariant⟩ := h
  refine ⟨⟨k + 1, ?_⟩, hvariant⟩
  simp only at hk
  rw [hk, List.replicate_succ', List.flatten_append, List.flatten_singleton, List.append_assoc]

/-- The variant that a command hands down is the one around its letters. -/
theorem ShownAs.below {tag : Token} {v : Variant} {l : Letter} {i : Bytes × Variant}
    (h : l.ShownAs (tag.variantBelow v) i) : (l.below tag).ShownAs v i := by
  cases tag with
  | style w => exact ⟨h.text, h.variant⟩
  | _ => exact h

end Letter

namespace Node

mutual

/-- The letters of a tree in the order of its markup: those that were written, and the
commands that the table takes for letters. -/
def letters (table : Table) : Node → List Letter
  | .missing => []
  | .mk kind data tag _ children =>
    match kind, tag with
    | .letter, _ => [⟨data, none⟩]
    | .command, some (.command name) => (table.letter? name).toList.map (⟨·, none⟩)
    -- From the inside out, so that a letter keeps the style it has.
    | .command, some tag => (tag.shown (lettersEach table children)).flatten.map (.below tag)
    | _, _ => (lettersEach table children).flatten

/-- The letters of several trees. -/
def lettersEach (table : Table) : List Node → List (List Letter)
  | [] => []
  | n :: ns => n.letters table :: lettersEach table ns

end

theorem lettersEach_eq_map (table : Table) (ns : List Node) :
    lettersEach table ns = ns.map (letters table) := by
  induction ns with
  | nil => rfl
  | cons n ns ih => rw [lettersEach, ih, List.map_cons]

theorem flatten_lettersEach (table : Table) (ns : List Node) :
    (lettersEach table ns).flatten = ns.flatMap (letters table) := by
  rw [lettersEach_eq_map, List.flatMap_def]

/-- What lies within a well-formed node is well formed. -/
theorem WellFormed.within {T : Token → Prop} {k n : Node} (hn : n.WellFormed T)
    (h : Within children k n) : k.WellFormed T := by
  induction h with
  | self => exact hn
  | inside hc _ ih => exact ih (hn.forall_mem_children _ hc)

end Node

namespace Markup

/-- An identifier with its variant. -/
def identifier? : Markup → Option (Bytes × Variant)
  | .identifier s v => some (s, v)
  | _ => none

/-- The identifiers of a tree with their variants, in order. -/
def identifiers (m : Markup) : List (Bytes × Variant) :=
  m.collect identifier?

theorem picks_identifier? : Picks identifier? := by
  intro m hm
  cases m with
  | identifier => cases hm
  | _ => rfl

theorem identifiers_identifier (s : Bytes) (v : Variant) :
    (identifier s v).identifiers = [(s, v)] :=
  collect_eq identifier? _

theorem identifiers_eq_nil {m : Markup} (h : m.identifier? = none) (hm : m.children = []) :
    m.identifiers = [] := by
  rw [identifiers, collect_eq, h, hm]
  rfl

end Markup

namespace Lowering

open Markup (collectAll identifier? picks_identifier?)

variable {table : Table}

/-- The identifiers of a lowered node are its letters. -/
def Shows (table : Table) (n : Node) : Prop :=
  ∀ v m, lower table v n = .ok m →
    List.Forall₂ (Letter.ShownAs v) (n.letters table) m.identifiers

theorem shownAs_lowerAll {ns : List Node} (h : ∀ n ∈ ns, Shows table n) {v : Variant}
    {ms : List Markup} (hms : lowerAll table v ns = .ok ms) :
    List.Forall₂ (Letter.ShownAs v) (ns.flatMap (Node.letters table))
      (collectAll identifier? ms) := by
  induction ns generalizing ms with
  | nil =>
    obtain rfl := Except.ok.inj hms
    exact .nil
  | cons n ns ih =>
    obtain ⟨hn, hns⟩ := List.forall_mem_cons.mp h
    obtain ⟨m, ks, hm, hks, rfl⟩ := lowerAll_cons_eq_ok.mp hms
    exact List.rel_append (hn v m hm) (ih hns hks)

/-- A node whose markup is made from all of its nodes, in their order and in the variant
that it is given itself. -/
theorem shows_of_parts {n : Node} {ns : List Node} (hns : ∀ k ∈ ns, Shows table k)
    (hletters : n.letters table = (Node.lettersEach table ns).flatten)
    (hn : ∀ v m, lower table v n = .ok m →
      ∃ ms, lowerAll table v ns = .ok ms ∧ m.collect identifier? = collectAll identifier? ms) :
    Shows table n := by
  intro v m hm
  obtain ⟨ms, hms, hcollect⟩ := hn v m hm
  rw [hletters, Node.flatten_lettersEach, Markup.identifiers, hcollect]
  exact shownAs_lowerAll hns hms

/-- A node whose markup is no identifier and has none in it. -/
theorem shows_of_nil {n : Node} (hletters : n.letters table = [])
    (hn : ∀ v m, lower table v n = .ok m → m.identifiers = []) : Shows table n := by
  intro v m hm
  rw [hletters, hn v m hm]
  exact .nil

/-- A command with a name is a letter if the table says so. -/
theorem shows_name (name : Bytes) : Shows table (.leaf .command name (some (.command name))) := by
  intro v m h
  have hm : resolve table v name = .ok m := h
  have hletters : Node.letters table (.leaf .command name (some (.command name))) =
      (table.letter? name).toList.map (⟨·, none⟩) := rfl
  unfold resolve at hm
  rw [hletters, Table.letter?]
  rcases hlookup : table.lookup name with - | definition
  · rw [hlookup] at hm
    cases hm
  · rw [hlookup] at hm
    cases definition with
    | letter s =>
      obtain rfl := Except.ok.inj hm
      rw [Markup.identifiers_identifier]
      exact .cons (Letter.shownAs_self v s) .nil
    | _ =>
      obtain rfl := Except.ok.inj hm
      rw [Markup.identifiers_eq_nil rfl rfl]
      exact .nil

theorem shownAs_slashed {v : Variant} {ls : List Letter} {m : Markup}
    (h : List.Forall₂ (Letter.ShownAs v) ls m.identifiers) :
    List.Forall₂ (Letter.ShownAs v) ls (slashed m).identifiers := by
  cases m with
  | identifier s u =>
    rw [Markup.identifiers_identifier] at h
    rw [slashed, Markup.identifiers_identifier]
    -- The identifier is the only one, and so is its letter.
    cases h with
    | cons hl hnil => exact .cons hl.slashed hnil
  | operator s form =>
    rw [Markup.identifiers_eq_nil rfl rfl] at h ⊢
    exact h
  | _ => exact h

/-- The letters of a command are those in the arguments that it shows. -/
theorem shows_application {tag : Token} {args : List Node} (ht : tag.takesArguments = true)
    (hadmits : tag.Admits args.length) (hargs : ∀ n ∈ args, Shows table n) :
    Shows table (.command tag args) := by
  intro v m hm
  obtain ⟨ms, hms, hbuilt⟩ := collect_of_command picks_identifier? ht hadmits hm
  have hletters : Node.letters table (.command tag args) =
      ((tag.shown args).flatMap (Node.letters table)).map (.below tag) := by
    -- Only a name is treated in another way, and it takes no arguments.
    have heach : Node.letters table (.command tag args) =
        (tag.shown (Node.lettersEach table args)).flatten.map (.below tag) := by
      cases tag <;> first | rfl | cases ht
    rw [heach, Node.lettersEach_eq_map, Token.shown_map, List.flatMap_def]
  have hshown := shownAs_lowerAll (fun n hn => hargs n (Token.mem_of_mem_shown hn)) hms
  rw [hletters, List.forall₂_map_left_iff]
  refine List.Forall₂.imp (fun _ _ => Letter.ShownAs.below) ?_
  rcases hbuilt with hcollect | ⟨base, rfl, rfl⟩
  · rw [Markup.identifiers, hcollect]
    exact hshown
  · refine shownAs_slashed ?_
    rw [Markup.collectAll_cons, Markup.collectAll_nil, List.append_nil] at hshown
    exact hshown

theorem shows_large {tag : Token} (ht : tag.takesLimits = true) : Shows table (.large tag) := by
  refine shows_of_nil ?_ fun v m h => collect_of_large picks_identifier? ht h
  cases tag <;> first | rfl | cases ht

/-- Every node that parsing can build shows its letters; by induction on the node. -/
theorem shows_of_wellFormed {T : Token → Prop} {n : Node} (h : n.WellFormed T) :
    Shows table n := by
  -- Markup without parts that is no identifier.
  have single {n : Node} {k : Markup} (hletters : n.letters table = [])
      (hn : ∀ v, lower table v n = .ok k) (hk : k.identifier? = none)
      (hchildren : k.children = []) : Shows table n := by
    refine shows_of_nil hletters ?_
    intro v m hm
    obtain rfl := Except.ok.inj ((hn v).symm.trans hm)
    exact Markup.identifiers_eq_nil hk hchildren
  induction h with
  | letter _ =>
    intro v m hm
    obtain rfl := Except.ok.inj hm
    rw [Markup.identifiers_identifier]
    exact .cons (Letter.shownAs_self v _) .nil
  | number _ | operator _ | delimiter _ | prime _ | cellBreak _ | lineBreak _ | text _ | sized _
    | middle _ => exact single rfl (fun _ => rfl) rfl rfl
  | command _ => exact shows_name _
  | @space kind data _ =>
    refine shows_of_nil rfl ?_
    intro v m hm
    have hspace : hspace data.trim = .ok m := hm
    unfold Lowering.hspace at hspace
    split at hspace
    · obtain rfl := Except.ok.inj hspace
      exact Markup.identifiers_eq_nil rfl rfl
    · cases hspace
  | group _ _ ih =>
    exact shows_of_parts ih rfl fun _ _ => collect_of_row picks_identifier? (.inr rfl)
  | superscript _ _ ih ih' | subscript _ _ ih ih' =>
    refine shows_of_parts ?_ rfl fun _ _ => collect_of_branch picks_identifier? rfl
    simpa using ⟨ih, ih'⟩
  | subSup _ _ _ ih ih' ih'' =>
    refine shows_of_parts ?_ rfl fun _ _ => collect_of_branch picks_identifier? rfl
    simpa using ⟨ih, ih', ih''⟩
  | large _ ht => exact shows_large ht
  | underscript _ ht _ ih | overscript _ ht _ ih =>
    refine shows_of_parts ?_ rfl fun _ _ => collect_of_branch picks_identifier? rfl
    simpa using ⟨shows_large ht, ih⟩
  | underOverscript _ ht _ _ ih ih' =>
    refine shows_of_parts ?_ rfl fun _ _ => collect_of_branch picks_identifier? rfl
    simpa using ⟨shows_large ht, ih, ih'⟩
  | application _ ht hadmits _ ih => exact shows_application ht hadmits ih
  | fence _ _ ih =>
    refine shows_of_parts ih ?_ fun _ _ => collect_of_fenceNode picks_identifier?
    -- A fence is a command as well, but no style switch.
    exact List.map_id _
  | environment _ _ ih =>
    exact shows_of_parts ih rfl fun _ _ => collect_of_environment picks_identifier?

/-! ### Trees of sources -/

theorem shows_of_parse {source : Bytes} {tree n : Node} (h : (parse source).tree = .ok tree)
    (hn : Within Node.children n tree) : Shows table n := by
  obtain ⟨ns, rfl, hwell⟩ := parse_wellFormed (T := fun _ => True) h fun _ _ => trivial
  cases hn with
  | self =>
    refine shows_of_parts ?_ rfl fun _ _ => collect_of_row picks_identifier? (.inl rfl)
    exact fun k hk => shows_of_wellFormed (hwell k hk)
  | inside hc hk => exact shows_of_wellFormed ((hwell _ hc).within hk)

/-- A style switch around another one has no effect. -/
theorem lower_style_style (v outer inner : Variant) (args : List Node) :
    lower table v (.command (.style outer) [.command (.style inner) args]) =
      lower table v (.command (.style inner) args) := by
  have houter : lower table v (.command (.style outer) [.command (.style inner) args]) =
      lowerAll table outer [.command (.style inner) args] >>= one := rfl
  -- The inner switch does not look at the variant that it is given.
  have hinner : lower table v (.command (.style inner) args) =
      lower table outer (.command (.style inner) args) := rfl
  rw [houter, hinner, lowerAll]
  cases lower table outer (.command (.style inner) args) with
  | error e => rfl
  | ok m => rfl

/-- **Style switches set the variants of identifiers, and the innermost one wins.**  Two
runs of lowering on a node of a tree, in any variants `v` and `w`, fail with the same
error or both succeed.  Their markup is then the same up to the variants of its
identifiers.  The identifiers are in both the letters of the node, in the same order: one
below a style switch in the variant of the closest one, any other in `v` and `w`. -/
theorem lower_in_variants {source : Bytes} {tree n : Node} (h : (parse source).tree = .ok tree)
    (hn : Within Node.children n tree) (table : Table) (v w : Variant) :
    (∀ e, lower table v n = .error e ↔ lower table w n = .error e) ∧
      (∀ m, lower table v n = .ok m →
        ∃ m', lower table w n = .ok m' ∧ m'.upright = m.upright ∧
          List.Forall₂ (Letter.ShownAs v) (n.letters table) m.identifiers ∧
          List.Forall₂ (Letter.ShownAs w) (n.letters table) m'.identifiers) ∧
      ∀ outer inner args,
        lower table v (.command (.style outer) [.command (.style inner) args]) =
          lower table v (.command (.style inner) args) := by
  have hshows : Shows table n := shows_of_parse h hn
  refine ⟨(alike_lower table v w n).error_iff, ?_, lower_style_style v⟩
  intro m hm
  obtain ⟨m', hm', hupright⟩ := (alike_lower table v w n).exists_ok hm
  exact ⟨m', hm', hupright, hshows v m hm, hshows w m' hm'⟩

/-- Bold around roman, with a slash, and behind them letters without a style, of which the
second is written first. -/
theorem lower_in_variants_nested :
    let source := utf8 "\\mathbf\x7ba\\mathrm\x7b\\slashed b\x7d\x7d\\overset cd"
    let letter (s : String) := Node.leaf .letter (utf8 s) none
    let roman := Node.command (.style .normal) [.command .slashed [letter "b"]]
    let bold := Node.command (.style .bold) [.group [letter "a", roman]]
    let tree := Node.branch .root [bold, .command .overset [letter "c", letter "d"]]
    (parse source).tree = .ok tree ∧
      tree.letters .empty =
        [⟨utf8 "a", some .bold⟩, ⟨utf8 "b", some .normal⟩, ⟨utf8 "d", none⟩, ⟨utf8 "c", none⟩] ∧
      ∃ m m', lower .empty .italic tree = .ok m ∧ lower .empty .script tree = .ok m' ∧
        m'.upright = m.upright ∧
        List.Forall₂ (Letter.ShownAs .italic) (tree.letters .empty) m.identifiers ∧
        List.Forall₂ (Letter.ShownAs .script) (tree.letters .empty) m'.identifiers := by
  intro source letter roman bold tree
  have hfault : (Lexemes.ofSource source).fault = none :=
    Option.isNone_iff_eq_none.mp (by decide +kernel)
  have htokens : (Lexemes.ofSource source).tokens =
      [.style .bold, .groupBegin, .letter (utf8 "a"), .style .normal, .groupBegin, .slashed,
        .letter (utf8 "b"), .groupEnd, .groupEnd, .overset, .letter (utf8 "c"),
        .letter (utf8 "d")] := by
    decide +kernel
  have hreads : Reads (Lexemes.ofSource source).tokens
      [bold, .command .overset [letter "c", letter "d"]] := by
    rw [htokens]
    rfl
  have htree : (parse source).tree = .ok tree := hreads.parse hfault
  have hruns := (lower_in_variants htree (.self tree) .empty .italic .script).2.1 _ rfl
  obtain ⟨m', hm', hsame⟩ := hruns
  exact ⟨htree, rfl, _, m', rfl, hm', hsame⟩

end Lowering

end MathMarkup
