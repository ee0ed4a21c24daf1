/-
MathMarkup/Proofs/Lowered.lean

Lowering the trees of sources.  A tree that parsing built is lowered to markup
or to a report, an error that tells what is wrong with the source.  The other
errors, for a tree with a node missing, a node of no known kind or a tag that
introduces no command, do not occur.

What is true of all markup that lowering makes is shown in one induction, for
any property at all (`lower_yields`): `Keeps T p` lists the constructions that
lowering uses, each with what is known of its parts, and asks that `p` is kept
by each of them.  The set `T` of tokens is the one of `Node.WellFormed`.
-/
import MathMarkup.Compile
import MathMarkup.Proofs.ReadBack
import MathMarkup.Proofs.WellFormed

namespace MathMarkup

open Reader (IsValue)

/-- How many children a node with scripts or limits has, its base included. -/
def Kind.scriptedLength? : Kind → Option Nat
  | .superscript | .subscript | .underscript | .overscript => some 2
  | .subSup | .underOverscript => some 3
  | _ => none

/-- An error that tells what is wrong with a source whose tree is well formed. -/
def Error.IsReport : Error → Bool
  | .unknownCommand _ | .unknownEnvironment _ | .arity _ _ _ | .spaceWidth _ _ => true
  | _ => false

namespace Lowering

/-! ### Results and reports -/

/-- The result has a property, or there is a report instead of a result. -/
def Yields {α : Type} (p : α → Prop) : Except Error α → Prop
  | .ok a => p a
  | .error e => e.IsReport = true

theorem Yields.bind {α β : Type} {p : α → Prop} {q : β → Prop} {r : Except Error α}
    {f : α → Except Error β} (h : Yields p r) (hf : ∀ a, p a → Yields q (f a)) :
    Yields q (r >>= f) := by
  cases r with
  | ok a => exact hf a h
  | error e => exact h

/-- A check that ends in a report. -/
theorem Yields.check {α : Type} {p : α → Prop} {c : Prop} [Decidable c] {e : Error}
    {r : Except Error α} (he : e.IsReport = true) (h : ¬ c → Yields p r) :
    Yields p (if c then .error e else r) := by
  split
  · exact he
  · next hc => exact h hc

section Results

variable {table : Table} {v : Variant}

/-- What a computation in two steps with a result has done. -/
theorem exists_of_bind_eq_ok {α β : Type} {r : Except Error α} {f : α → Except Error β} {b : β}
    (h : r >>= f = .ok b) : ∃ a, r = .ok a ∧ f a = .ok b := by
  cases r with
  | ok a => exact ⟨a, rfl, h⟩
  | error e => cases h

theorem lowerAll_cons_eq_ok {n : Node} {ns : List Node} {ks : List Markup} :
    lowerAll table v (n :: ns) = .ok ks ↔
      ∃ m ms, lower table v n = .ok m ∧ lowerAll table v ns = .ok ms ∧ ks = m :: ms := by
  rw [lowerAll]
  constructor
  · intro h
    obtain ⟨m, hm, h⟩ := exists_of_bind_eq_ok h
    obtain ⟨ms, hms, h⟩ := exists_of_bind_eq_ok h
    exact ⟨m, ms, hm, hms, (Except.ok.inj h).symm⟩
  · rintro ⟨m, ms, hm, hms, rfl⟩
    rw [hm, hms]
    rfl

theorem lowerAll_append_eq_ok {ns ms : List Node} {ks : List Markup} :
    lowerAll table v (ns ++ ms) = .ok ks ↔
      ∃ as bs, lowerAll table v ns = .ok as ∧ lowerAll table v ms = .ok bs ∧ ks = as ++ bs := by
  induction ns generalizing ks with
  | nil => simp [lowerAll]
  | cons n ns ih =>
    rw [List.cons_append, lowerAll_cons_eq_ok]
    constructor
    · rintro ⟨m, _, hm, hrest, rfl⟩
      obtain ⟨as, bs, has, hbs, rfl⟩ := ih.mp hrest
      exact ⟨m :: as, bs, lowerAll_cons_eq_ok.mpr ⟨m, as, hm, has, rfl⟩, hbs, rfl⟩
    · rintro ⟨_, bs, hns, hbs, rfl⟩
      obtain ⟨m, as, hm, has, rfl⟩ := lowerAll_cons_eq_ok.mp hns
      exact ⟨m, as ++ bs, hm, ih.mpr ⟨as, bs, has, hbs, rfl⟩, rfl⟩

theorem lowerAll_singleton_eq_ok {n : Node} {ms : List Markup} :
    lowerAll table v [n] = .ok ms ↔ ∃ m, lower table v n = .ok m ∧ ms = [m] := by
  rw [lowerAll_cons_eq_ok]
  constructor
  · rintro ⟨m, _, hm, hnil, rfl⟩
    obtain rfl := Except.ok.inj hnil
    exact ⟨m, hm, rfl⟩
  · rintro ⟨m, hm, rfl⟩
    exact ⟨m, [], hm, rfl, rfl⟩

theorem length_of_lowerAll {ns : List Node} {ms : List Markup}
    (h : lowerAll table v ns = .ok ms) : ms.length = ns.length := by
  induction ns generalizing ms with
  | nil =>
    obtain rfl := Except.ok.inj h
    rfl
  | cons n ns ih =>
    obtain ⟨m, ms, -, hms, rfl⟩ := lowerAll_cons_eq_ok.mp h
    rw [List.length_cons, List.length_cons, ih hms]

end Results

/-! ### Columns -/

theorem isValue_joinWith {sep : Bytes} (hsep : IsValue sep) {words : List Bytes}
    (h : ∀ w ∈ words, IsValue w) : IsValue (Bytes.joinWith sep words) := by
  induction words with
  | nil => exact List.forall_mem_nil _
  | cons w words ih =>
    have hw : IsValue w := h w (by simp)
    cases words with
    | nil => exact hw
    | cons w' words =>
      have hrest : IsValue (Bytes.joinWith sep (w' :: words)) :=
        ih fun u hu => h u (List.mem_cons_of_mem _ hu)
      show IsValue (w ++ sep ++ Bytes.joinWith sep (w' :: words))
      exact Markup.isValue_append (Markup.isValue_append hw hsep) hrest

/-- The alignments of columns can stand between quotes. -/
theorem isValue_alignment (cs : List Column) : IsValue (Column.alignment cs) := by
  refine isValue_joinWith (by decide) fun w hw => ?_
  obtain ⟨c, -, rfl⟩ := List.mem_map.mp hw
  cases c.align <;> decide

/-- The lines between columns can stand between quotes. -/
theorem isValue_lines (cs : List Column) : IsValue (Column.lines cs) := by
  show IsValue (if (Column.between cs).any id then _ else [])
  split
  · refine isValue_joinWith (by decide) fun w hw => ?_
    obtain ⟨l, -, rfl⟩ := List.mem_map.mp hw
    cases l <;> decide
  · exact List.forall_mem_nil _

/-! ### Constructions -/

/-- A property of markup that all constructions of lowering keep.  A cell break
and a function with arguments stand for a token of their own, and so does every
size. -/
structure Keeps (T : Token → Prop) (p : Markup → Prop) : Prop where
  identifier : ∀ s v, p (.identifier s v)
  number : ∀ s, p (.number s)
  text : ∀ s, p (.text s)
  space : ∀ width, p (.space width)
  operator : ∀ s form, form.size = [] ∨ T (.big form.size) → p (.operator s form)
  respelled : ∀ s t form, p (.operator s form) → p (.operator t form)
  lineBreak : p .lineBreak
  cellBreak : T .cellBreak → p .cellBreak
  name : ∀ s, p (.function s [])
  function : T .operatorName → ∀ s args, (∀ m ∈ args, p m) → p (.function s args)
  row : ∀ ms bracket, (∀ m ∈ ms, p m) → p (.row ms bracket)
  superscript : ∀ base sup, p base → p sup → p (.superscript base sup)
  subscript : ∀ base sub, p base → p sub → p (.subscript base sub)
  subSup : ∀ base sub sup, p base → p sub → p sup → p (.subSup base sub sup)
  overscript : ∀ base above accent, p base → p above → p (.overscript base above accent)
  underscript : ∀ base below accent, p base → p below → p (.underscript base below accent)
  underOverscript : ∀ base below above u o, p base → p below → p above →
    p (.underOverscript base below above u o)
  squareRoot : ∀ base, p base → p (.radical base .missing)
  radical : ∀ base index, p base → p index → p (.radical base index)
  fraction : ∀ numerator denominator thickness, p numerator → p denominator →
    p (.fraction numerator denominator thickness)
  fenced : ∀ opening closing content, p content → p (.fenced opening closing content)
  styled : ∀ display content, p content → p (.styled display content)
  table : ∀ cells align columnLines, IsValue align → IsValue columnLines → (∀ m ∈ cells, p m) →
    p (.table cells align columnLines)

namespace Keeps

variable {T : Token → Prop} {p : Markup → Prop}

theorem fractionOf (hp : Keeps T p) (kind : Bytes) {numerator denominator : Markup}
    (hn : p numerator) (hd : p denominator) : p (fractionOf kind numerator denominator) := by
  have plain : p (if isBinomial kind then
      .fenced (utf8 "(") (utf8 ")") (.fraction numerator denominator .zero)
    else .fraction numerator denominator .medium) := by
    split
    · exact hp.fenced _ _ _ (hp.fraction _ _ _ hn hd)
    · exact hp.fraction _ _ _ hn hd
  unfold Lowering.fractionOf
  cases fractionDisplay? kind with
  | some display => exact hp.styled _ _ plain
  | none => exact plain

theorem slashed (hp : Keeps T p) {m : Markup} (hm : p m) : p (slashed m) := by
  cases m with
  | identifier s v => exact hp.identifier _ _
  | operator s form => exact hp.respelled _ _ _ hm
  | _ => exact hm

theorem rowOf (hp : Keeps T p) {ms : List Markup} (h : ∀ m ∈ ms, p m) : p (rowOf ms) := by
  rcases ms with - | ⟨m, - | ⟨n, ms⟩⟩
  · exact hp.row _ _ h
  · exact h m (by simp)
  · exact hp.row _ _ h

theorem environment (hp : Keeps T p) (e : Environment) (columns : Bytes) {cells : List Markup}
    (h : ∀ m ∈ cells, p m) : p (e.markup columns cells) := by
  have plain {align : Bytes} (ha : IsValue align) : p (.table cells align []) :=
    hp.table _ _ _ ha (List.forall_mem_nil _) h
  have center : IsValue (utf8 "center") := by decide
  have left : IsValue (utf8 "left") := by decide
  cases e with
  | plain => exact plain center
  | small => exact hp.styled _ _ (plain center)
  | aligned => exact plain left
  | array =>
    rcases hcs : Column.parse columns with - | ⟨c, cs⟩
    · simp only [Environment.markup, hcs]
      exact plain center
    · simp only [Environment.markup, hcs]
      exact hp.table _ _ _ (isValue_alignment _) (isValue_lines _) h
  | fenced opening closing => exact hp.fenced _ _ _ (plain center)
  | cases => exact hp.fenced _ _ _ (plain left)

theorem resolve (hp : Keeps T p) (table : Table) (v : Variant) (name : Bytes) :
    Yields p (resolve table v name) := by
  unfold Lowering.resolve
  split
  · exact rfl
  · exact hp.name _
  · exact hp.operator _ _ (.inl rfl)
  · exact hp.identifier _ _
  · exact hp.space _

theorem hspace (hp : Keeps T p) (width : Bytes) : Yields p (hspace width) := by
  unfold Lowering.hspace
  split
  · exact hp.space _
  · exact rfl

end Keeps

/-! ### Arguments -/

section Commands

variable {T : Token → Prop} {p : Markup → Prop} {table : Table}

/-- Markup for nodes, one for each. -/
def Matches (p : Markup → Prop) (ns : List Node) (ms : List Markup) : Prop :=
  ms.length = ns.length ∧ ∀ m ∈ ms, p m

theorem lowerAll_yields {v : Variant} {ns : List Node} (h : ∀ n ∈ ns, Yields p (lower table v n)) :
    Yields (Matches p ns) (lowerAll table v ns) := by
  induction ns with
  | nil => exact ⟨rfl, List.forall_mem_nil _⟩
  | cons n ns ih =>
    rw [lowerAll]
    refine (h n (by simp)).bind fun m hm => ?_
    refine (ih fun k hk => h k (List.mem_cons_of_mem _ hk)).bind fun ms hms => ?_
    exact ⟨congrArg (· + 1) hms.1, List.forall_mem_cons.mpr ⟨hm, hms.2⟩⟩

/-- All arguments but the first. -/
theorem lowerRest_yields {v : Variant} {ns : List Node}
    (h : ∀ n ∈ ns, Yields p (lower table v n)) :
    Yields (fun ms => ∀ m ∈ ms, p m) (lowerRest table v ns) := by
  cases ns with
  | nil => exact List.forall_mem_nil _
  | cons n ns =>
    have hall := lowerAll_yields fun k hk => h k (List.mem_cons_of_mem _ hk)
    rw [lowerRest]
    revert hall
    cases lowerAll table v ns with
    | ok ms => exact fun hall => hall.2
    | error e => exact fun hall => hall

theorem Matches.one {ns : List Node} {ms : List Markup} (h : Matches p ns ms)
    (hn : ns.length = 1) : Yields p (one ms) := by
  obtain ⟨m, rfl⟩ := List.length_eq_one_iff.mp (h.1.trans hn)
  exact h.2 m (by simp)

/-- The markup of two nodes. -/
theorem Matches.pair {ns : List Node} {ms : List Markup} (h : Matches p ns ms)
    (hn : ns.length = 2) : ∃ m n, ms = [m, n] ∧ p m ∧ p n := by
  obtain ⟨hlen, hms⟩ := h
  rw [hn] at hlen
  rcases ms with - | ⟨m, - | ⟨n, - | ⟨k, ms⟩⟩⟩
  · cases hlen
  · cases hlen
  · exact ⟨m, n, rfl, hms m (by simp), hms n (by simp)⟩
  · cases hlen

/-- The markup of three nodes. -/
theorem Matches.triple {ns : List Node} {ms : List Markup} (h : Matches p ns ms)
    (hn : ns.length = 3) : ∃ m n k, ms = [m, n, k] ∧ p m ∧ p n ∧ p k := by
  obtain ⟨hlen, hms⟩ := h
  rw [hn] at hlen
  rcases ms with - | ⟨m, - | ⟨n, - | ⟨k, - | ⟨l, ms⟩⟩⟩⟩
  · cases hlen
  · cases hlen
  · cases hlen
  · exact ⟨m, n, k, rfl, hms m (by simp), hms n (by simp), hms k (by simp)⟩
  · cases hlen

theorem Matches.two {ns : List Node} {ms : List Markup} (h : Matches p ns ms)
    (hn : ns.length = 2) : Yields (fun mn => p mn.1 ∧ p mn.2) (two ms) := by
  obtain ⟨m, n, rfl, hm, hn⟩ := h.pair hn
  exact ⟨hm, hn⟩

theorem Matches.fraction (hp : Keeps T p) (kind : Bytes) {ns : List Node} {ms : List Markup}
    (h : Matches p ns ms) (hn : ¬ ns.length < 2) : Yields p (fraction kind ms) := by
  obtain ⟨hlen, hms⟩ := h
  rcases ms with - | ⟨numerator, - | ⟨denominator, more⟩⟩
  · simp only [List.length_nil] at hlen; omega
  · simp only [List.length_cons, List.length_nil] at hlen; omega
  have hfrac : p (fractionOf kind numerator denominator) :=
    hp.fractionOf kind (hms _ (by simp)) (hms _ (by simp))
  cases more with
  | nil => exact hfrac
  | cons m more =>
    refine hp.row _ _ (List.forall_mem_cons.mpr ⟨hfrac, fun k hk => ?_⟩)
    exact hms k (List.mem_cons_of_mem _ (List.mem_cons_of_mem _ hk))

theorem Matches.radical (hp : Keeps T p) {ns : List Node} {ms : List Markup} (h : Matches p ns ms)
    (hn : ns ≠ []) : Yields p (radical ms) := by
  obtain ⟨hlen, hms⟩ := h
  rcases ms with - | ⟨base, - | ⟨index, more⟩⟩
  · exact absurd (List.length_eq_zero_iff.mp hlen.symm) hn
  · exact hp.squareRoot _ (hms _ (by simp))
  · exact hp.radical _ _ (hms _ (by simp)) (hms _ (by simp))

theorem Matches.scripts (hp : Keeps T p) {kind : Kind} {ns : List Node} {ms : List Markup}
    (h : Matches p ns ms) (hk : kind.scriptedLength? = some ns.length) :
    Yields p (scripts kind ms) := by
  cases kind <;> simp only [Kind.scriptedLength?, Option.some.injEq, reduceCtorEq] at hk
  case superscript =>
    obtain ⟨base, sup, rfl, hb, hs⟩ := h.pair hk.symm
    exact hp.superscript _ _ hb hs
  case subscript =>
    obtain ⟨base, sub, rfl, hb, hs⟩ := h.pair hk.symm
    exact hp.subscript _ _ hb hs
  case underscript =>
    obtain ⟨base, below, rfl, hb, hu⟩ := h.pair hk.symm
    exact hp.underscript _ _ _ hb hu
  case overscript =>
    obtain ⟨base, above, rfl, hb, ha⟩ := h.pair hk.symm
    exact hp.overscript _ _ _ hb ha
  case subSup =>
    obtain ⟨base, sub, sup, rfl, hb, hs, hs'⟩ := h.triple hk.symm
    exact hp.subSup _ _ _ hb hs hs'
  case underOverscript =>
    obtain ⟨base, below, above, rfl, hb, hu, ha⟩ := h.triple hk.symm
    exact hp.underOverscript _ _ _ _ _ hb hu ha

/-- The brace itself. -/
theorem Keeps.brace (hp : Keeps T p) (glyph : Bytes) :
    p (.operator glyph { stretchy := true }) :=
  hp.operator _ _ (.inl rfl)

theorem Matches.overbrace (hp : Keeps T p) (glyph : Bytes) {ns : List Node} {ms : List Markup}
    (h : Matches p ns ms) (hn : ns ≠ []) : Yields p (overbrace glyph ms) := by
  obtain ⟨hlen, hms⟩ := h
  rcases ms with - | ⟨base, - | ⟨label, - | ⟨m, more⟩⟩⟩
  · exact absurd (List.length_eq_zero_iff.mp hlen.symm) hn
  · exact hp.overscript _ _ _ (hms _ (by simp)) (hp.brace glyph)
  · exact hp.overscript _ _ _ (hms _ (by simp))
      (hp.overscript _ _ _ (hp.brace glyph) (hms _ (by simp)))
  · exact hp.overscript _ _ _ (hms _ (by simp)) (hp.brace glyph)

theorem Matches.underbrace (hp : Keeps T p) (glyph : Bytes) {ns : List Node} {ms : List Markup}
    (h : Matches p ns ms) (hn : ns ≠ []) : Yields p (underbrace glyph ms) := by
  obtain ⟨hlen, hms⟩ := h
  rcases ms with - | ⟨base, - | ⟨label, - | ⟨m, more⟩⟩⟩
  · exact absurd (List.length_eq_zero_iff.mp hlen.symm) hn
  · exact hp.underscript _ _ _ (hms _ (by simp)) (hp.brace glyph)
  · exact hp.underscript _ _ _ (hms _ (by simp))
      (hp.underscript _ _ _ (hp.brace glyph) (hms _ (by simp)))
  · exact hp.underscript _ _ _ (hms _ (by simp)) (hp.brace glyph)

/-- A command with arguments: it reports a wrong number of them, and with the
right number it is made of what they are lowered to. -/
theorem command_yields (hp : Keeps T p) (v : Variant) {tag : Token} (params : Params)
    {args : List Node} {all rest : Variant → Except Error (List Markup)} (ht : T tag)
    (hargs : tag.takesArguments = true) (hall : ∀ v, Yields (Matches p args) (all v))
    (hrest : ∀ v, Yields (fun ms => ∀ m ∈ ms, p m) (rest v)) :
    Yields p (command table v (some tag) params args all rest) := by
  -- Behind the check there are as many arguments as the construction takes apart.
  cases tag
  case fraction kind | binomial kind =>
    exact .check rfl fun hn => (hall v).bind fun ms hms => hms.fraction hp kind hn
  case radical =>
    refine .check rfl fun hn => (hall v).bind fun ms hms => hms.radical hp ?_
    simpa using hn
  case markOver glyph accent =>
    refine .check rfl fun hn => (hall v).bind fun ms hms => ?_
    refine (hms.one (Decidable.not_not.mp hn)).bind fun m hm => ?_
    exact hp.overscript _ _ _ hm (hp.operator _ _ (.inl rfl))
  case markUnder glyph accent =>
    refine .check rfl fun hn => (hall v).bind fun ms hms => ?_
    refine (hms.one (Decidable.not_not.mp hn)).bind fun m hm => ?_
    exact hp.underscript _ _ _ hm (hp.operator _ _ (.inl rfl))
  case overset =>
    refine .check rfl fun hn => (hall v).bind fun ms hms => ?_
    exact (hms.two (Decidable.not_not.mp hn)).bind fun mn h => hp.overscript _ _ _ h.2 h.1
  case underset =>
    refine .check rfl fun hn => (hall v).bind fun ms hms => ?_
    exact (hms.two (Decidable.not_not.mp hn)).bind fun mn h => hp.underscript _ _ _ h.2 h.1
  case overbrace glyph =>
    refine .check rfl fun hn => (hall v).bind fun ms hms => hms.overbrace hp glyph ?_
    simpa using hn
  case underbrace glyph =>
    refine .check rfl fun hn => (hall v).bind fun ms hms => hms.underbrace hp glyph ?_
    simpa using hn
  case style w =>
    refine .check rfl fun hn => (hall w).bind fun ms hms => ?_
    exact hms.one (Decidable.not_not.mp hn)
  case operatorName =>
    cases args with
    | nil => exact rfl
    | cons name args => exact (hrest v).bind fun ms hms => hp.function ht _ _ hms
  case slashed =>
    refine .check rfl fun hn => (hall v).bind fun ms hms => ?_
    exact (hms.one (Decidable.not_not.mp hn)).bind fun m hm => hp.slashed hm
  all_goals cases hargs

/-! ### Trees -/

theorem forall_mem_cells {ns : List Node} {ms : List Markup} (h : ∀ m ∈ ms, p m) :
    ∀ m ∈ cells ns ms, p m := by
  unfold cells
  split
  · split
    · exact fun m hm => h m (List.dropLast_subset ms hm)
    · exact h
  · exact h

/-- A large operator or function by itself. -/
theorem large_yields (hp : Keeps T p) (v : Variant) {tag : Token} (hl : tag.takesLimits = true) :
    Yields p (lower table v (.large tag)) := by
  cases tag
  case bigOperator glyph | integral glyph => exact hp.operator _ _ (.inl rfl)
  case limit name => exact hp.name name
  all_goals cases hl

/-- A node with as many scripts or limits as its kind says. -/
theorem scripted_yields (hp : Keeps T p) {v : Variant} {kind : Kind} {ns : List Node}
    (hk : kind.scriptedLength? = some ns.length) (h : ∀ n ∈ ns, Yields p (lower table v n)) :
    Yields p (lower table v (.branch kind ns)) := by
  have hall : Yields p (lowerAll table v ns >>= scripts kind) :=
    (lowerAll_yields h).bind fun ms hms => hms.scripts hp hk
  cases kind
  case superscript | subscript | subSup | underscript | overscript | underOverscript => exact hall
  all_goals cases hk

/-- **Lowering.**  What all constructions of lowering keep is true of the markup
of every well-formed tree, and a tree without markup has a report. -/
theorem lower_yields (hp : Keeps T p) {n : Node} (hn : n.WellFormed T) (v : Variant) :
    Yields p (lower table v n) := by
  -- The grammar has a rule for each construct, and each is one of those that `Keeps` lists.
  induction hn generalizing v with
  | letter _ => exact hp.identifier _ _
  | number _ => exact hp.number _
  | operator _ => exact hp.operator _ _ (.inl rfl)
  | delimiter _ => exact hp.operator _ _ (.inl rfl)
  | prime _ => exact hp.operator _ _ (.inl rfl)
  | cellBreak ht => exact hp.cellBreak ht
  | lineBreak _ => exact hp.lineBreak
  | command _ => exact hp.resolve table v _
  | space _ => exact hp.hspace _
  | text _ => exact hp.text _
  | group _ _ ih =>
    exact (lowerAll_yields fun n hn => ih n hn v).bind fun ms hms => hp.row _ _ hms.2
  | superscript _ _ ihb ihs | subscript _ _ ihb ihs =>
    exact scripted_yields hp rfl (by simpa using ⟨ihb v, ihs v⟩)
  | subSup _ _ _ ihb ihs ihs' =>
    exact scripted_yields hp rfl (by simpa using ⟨ihb v, ihs v, ihs' v⟩)
  | large _ hl => exact large_yields hp v hl
  | underscript _ hl _ ih | overscript _ hl _ ih =>
    exact scripted_yields hp rfl (by simpa using ⟨large_yields hp v hl, ih v⟩)
  | underOverscript _ hl _ _ ihb iha =>
    exact scripted_yields hp rfl (by simpa using ⟨large_yields hp v hl, ihb v, iha v⟩)
  | application ht hargs _ _ ih =>
    exact command_yields hp v _ ht hargs (fun v => lowerAll_yields fun n hn => ih n hn v)
      fun v => lowerRest_yields fun n hn => ih n hn v
  | sized ht => exact hp.operator _ _ (.inr ht)
  | middle _ => exact hp.operator _ _ (.inl rfl)
  | fence _ _ ih =>
    refine (lowerAll_yields fun n hn => ih n hn v).bind fun ms hms => ?_
    exact hp.fenced _ _ _ (hp.rowOf hms.2)
  | @environment name columns ns _ _ ih =>
    have hall := lowerAll_yields fun n hn => ih n hn v
    cases he : environment? name with
    | none =>
      simp only [lower, he]
      exact rfl
    | some e =>
      simp only [lower, he]
      exact hall.bind fun ms hms => hp.environment e _ (forall_mem_cells hms.2)

/-- A root around well-formed nodes. -/
theorem lowerTree_yields (hp : Keeps T p) {ns : List Node} (h : ∀ n ∈ ns, n.WellFormed T) :
    Yields (fun m => ∃ ms, m = .root .inline ms ∧ ∀ c ∈ ms, p c)
      (lowerTree table (.branch .root ns)) := by
  refine (lowerAll_yields fun n hn => lower_yields hp (h n hn) .italic).bind fun ms hms => ?_
  exact ⟨ms, rfl, hms.2⟩

end Commands

end Lowering

/-- What all constructions of lowering keep is true of everything under the root
of compiled markup. -/
theorem exists_root_of_compile {T : Token → Prop} {p : Markup → Prop} {table : Table}
    {source : Bytes} {m : Markup} (hp : Lowering.Keeps T p)
    (hT : ∀ l ∈ (Lexemes.ofSource source).list, T l.token) (h : compile table source = .ok m) :
    ∃ ms, m = .root .inline ms ∧ ∀ c ∈ ms, p c := by
  unfold compile at h
  split at h
  · next tree htree =>
    obtain ⟨ns, rfl, hns⟩ := parse_wellFormed htree hT
    have hyields : Lowering.Yields _ (lowerTree table (.branch .root ns)) :=
      Lowering.lowerTree_yields hp hns
    rw [h] at hyields
    exact hyields
  · cases h

/-- What compiles is a source with a tree whose nodes can all be lowered. -/
theorem compile_eq_ok_iff {table : Table} {source : Bytes} {m : Markup} :
    compile table source = .ok m ↔
      ∃ ns ms, (parse source).tree = .ok (.branch .root ns) ∧
        Lowering.lowerAll table .italic ns = .ok ms ∧ m = .root .inline ms := by
  constructor
  · intro h
    unfold compile at h
    split at h
    · next tree htree =>
      obtain ⟨ns, rfl, -⟩ := parse_wellFormed (T := fun _ => True) htree fun _ _ => trivial
      obtain ⟨ms, hms, hm⟩ := Lowering.exists_of_bind_eq_ok h
      exact ⟨ns, ms, htree, hms, (Except.ok.inj hm).symm⟩
    · cases h
  · rintro ⟨ns, ms, htree, hms, rfl⟩
    simp only [compile, htree, Node.branch, lowerTree, hms]
    rfl

/-! ### Trees of sources -/

namespace Node

/-- A command that takes limits. -/
def IsLarge : Node → Prop
  | .mk .command _ (some tag) _ _ => tag.takesLimits = true
  | _ => False

/-- The parameters and the number of arguments that a command needs to be lowered,
by the token that introduced it. -/
def IsCommand (params : Params) (args : List Node) : Token → Prop
  | .command _ | .bigOperator _ | .integral _ | .limit _ => args = []
  | .verbatim _ _ => params.width.isSome = true
  | .left => params.opening.isSome = true ∧ params.closing.isSome = true
  | .big _ | .middle => params.delimiter.isSome = true
  | .markOver _ _ | .markUnder _ _ | .style _ | .slashed => args.length ≤ 1
  | .radical | .overset | .underset | .overbrace _ | .underbrace _ => args.length ≤ 2
  | .fraction _ | .binomial _ | .operatorName => True
  | _ => False

/-- A node with all that lowering takes for granted: the children that its kind
has and, for a command, a tag that introduces one. -/
def Proper : Node → Prop
  | .missing => False
  | .mk kind _ tag params children =>
    match kind with
    | .root | .unknown _ => False
    | .superscript | .subscript => children.length = 2
    | .subSup => children.length = 3
    | .underscript | .overscript => children.length = 2 ∧ ∃ base ∈ children.head?, base.IsLarge
    | .underOverscript => children.length = 3 ∧ ∃ base ∈ children.head?, base.IsLarge
    | .row => children.length ≠ 1
    | .command => ∃ t ∈ tag, IsCommand params children t
    | .environment | .letter | .number | .operator | .text | .lineBreak | .cellBreak => True

theorem isCommand_of_admits {t : Token} {args : List Node} (params : Params)
    (ht : t.takesArguments = true) (ha : t.Admits args.length) : IsCommand params args t := by
  cases t
  case markOver | markUnder | style | slashed => exact ha 1 rfl
  case radical | overset | underset | overbrace | underbrace => exact ha 2 rfl
  case fraction | binomial | operatorName => trivial
  all_goals cases ht

theorem proper_large {t : Token} (h : t.takesLimits = true) : (large t).Proper := by
  refine ⟨t, rfl, ?_⟩
  cases t
  case bigOperator | integral | limit => rfl
  all_goals cases h

/-- Every place within a well-formed tree is a proper node. -/
theorem WellFormed.proper {T : Token → Prop} {n : Node} (hn : n.WellFormed T) :
    ∀ k, Within children k n → k.Proper := by
  -- A large operator has no children, so it is all that lies within it.
  have large {t : Token} (h : t.takesLimits = true) :
      ∀ k, Within children k (Node.large t) → k.Proper :=
    forall_within_iff.mpr ⟨proper_large h, List.forall_mem_nil _⟩
  induction hn with
  | letter _ | number _ | operator _ | delimiter _ | prime _ | cellBreak _ | lineBreak _ | text _ =>
    exact forall_within_iff.mpr ⟨trivial, List.forall_mem_nil _⟩
  | command _ => exact forall_within_iff.mpr ⟨⟨_, rfl, rfl⟩, List.forall_mem_nil _⟩
  | space _ => exact forall_within_iff.mpr ⟨⟨_, rfl, rfl⟩, List.forall_mem_nil _⟩
  | sized _ | middle _ => exact forall_within_iff.mpr ⟨⟨_, rfl, rfl⟩, List.forall_mem_nil _⟩
  | group hlen _ ih => exact forall_within_iff.mpr ⟨hlen, ih⟩
  | superscript _ _ ihb ihs | subscript _ _ ihb ihs =>
    refine forall_within_iff.mpr ⟨rfl, ?_⟩
    rintro c (_ | ⟨_, _ | ⟨_, ⟨⟩⟩⟩)
    · exact ihb
    · exact ihs
  | subSup _ _ _ ihb ihs ihs' =>
    refine forall_within_iff.mpr ⟨rfl, ?_⟩
    rintro c (_ | ⟨_, _ | ⟨_, _ | ⟨_, ⟨⟩⟩⟩⟩)
    · exact ihb
    · exact ihs
    · exact ihs'
  | large _ hl => exact large hl
  | underscript _ hl _ ih | overscript _ hl _ ih =>
    refine forall_within_iff.mpr ⟨⟨rfl, _, rfl, hl⟩, ?_⟩
    rintro c (_ | ⟨_, _ | ⟨_, ⟨⟩⟩⟩)
    · exact large hl
    · exact ih
  | underOverscript _ hl _ _ ihb iha =>
    refine forall_within_iff.mpr ⟨⟨rfl, _, rfl, hl⟩, ?_⟩
    rintro c (_ | ⟨_, _ | ⟨_, _ | ⟨_, ⟨⟩⟩⟩⟩)
    · exact large hl
    · exact ihb
    · exact iha
  | application _ hargs hadmits _ ih =>
    exact forall_within_iff.mpr ⟨⟨_, rfl, isCommand_of_admits _ hargs hadmits⟩, ih⟩
  | fence _ _ ih => exact forall_within_iff.mpr ⟨⟨_, rfl, rfl, rfl⟩, ih⟩
  | environment _ _ ih => exact forall_within_iff.mpr ⟨trivial, ih⟩

end Node

/-- **Parsing builds trees that lowering can go through.**  The tree of a source
is a root around nodes that are proper at every depth.  Whatever the table,
lowering it gives markup that renders completely, or a report. -/
theorem proper_tree_of_parse {source : Bytes} {tree : Node} (h : (parse source).tree = .ok tree) :
    (∃ ns, tree = .branch .root ns ∧ ∀ n ∈ ns, ∀ k, Within Node.children k n → k.Proper) ∧
      ∀ table, Lowering.Yields
        (fun m => ∀ room, m.render.length ≤ room → m.renderWithin room = (m.render, true))
        (lowerTree table tree) := by
  obtain ⟨ns, rfl, hns⟩ := parse_wellFormed h (T := fun _ => True) fun _ _ => trivial
  refine ⟨⟨ns, rfl, fun n hn => (hns n hn).proper⟩, fun table => ?_⟩
  -- Which reports there are does not depend on what the markup looks like.
  have anything : Lowering.Keeps (fun _ => True) fun _ => True := by
    constructor <;> intros <;> trivial
  have hyields : Lowering.Yields _ (lowerTree table (.branch .root ns)) :=
    Lowering.lowerTree_yields anything hns
  cases hlow : lowerTree table (.branch .root ns) with
  | ok m => exact fun room hroom => Markup.renderWithin_of_le hroom
  | error e => rwa [hlow] at hyields

/-- A sum with a limit under it, before a fence with a fraction in it. -/
theorem proper_tree_of_parse_sum :
    ∃ tree, (parse (utf8 "\\sum_i\\left(\\frac1\x7bx^2\x7d\\right)")).tree = .ok tree ∧
      (∃ ns, tree = .branch .root ns ∧ ∀ n ∈ ns, ∀ k, Within Node.children k n → k.Proper) ∧
      ∀ table, Lowering.Yields
        (fun m => ∀ room, m.render.length ≤ room → m.renderWithin room = (m.render, true))
        (lowerTree table tree) := by
  obtain ⟨tree, htree⟩ := exists_ok_of_isOk
    (r := (parse (utf8 "\\sum_i\\left(\\frac1\x7bx^2\x7d\\right)")).tree) (by decide +kernel)
  exact ⟨tree, htree, proper_tree_of_parse htree⟩

end MathMarkup
