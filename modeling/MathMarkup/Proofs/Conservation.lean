/-
MathMarkup/Proofs/Conservation.lean

Nothing gets lost between the tokens of a source and its markup, and nothing is
doubled.  Counted are numbers, texts and identifiers (`Item`): a token stands
for at most one of them, and so does a place of markup.  What is written between
the two, the tree, needs no count of its own: `Spelled` already says which
tokens it is written with, so that one induction over the rules goes from
tokens to markup (`counts_of_spelled`).

The order is not kept.  A root has its index behind its base, an upper limit may
be written before the lower one, and so on; so the items of both sides are
compared as permutations of each other.  Two things are left out because they
are not lowered but read as plain text, the names of named operators and the
column specifications of arrays.
-/
import Mathlib.Data.List.Basic
import MathMarkup.Proofs.Compiled
import MathMarkup.Proofs.Constructions
import MathMarkup.Proofs.Grammar

namespace MathMarkup

/-! ### Items of markup -/

/-- What is counted. -/
inductive Item
  | number (text : Bytes)
  | text (text : Bytes)
  | identifier
  deriving DecidableEq, Repr

namespace Markup

/-- What is counted at a place. -/
def item? : Markup → Option Item
  | .number s => some (.number s)
  | .text s => some (.text s)
  | .identifier _ _ => some .identifier
  | _ => none

/-- All that is counted in a tree. -/
def items (m : Markup) : List Item :=
  m.places.filterMap item?

/-- All that is counted in several trees. -/
def itemsAll (ms : List Markup) : List Item :=
  ms.flatMap items

theorem items_eq (m : Markup) : m.items = m.item?.toList ++ itemsAll m.children :=
  collect_eq item? m

theorem picks_item? : Picks item? := by
  intro m hm
  cases m with
  | number | text | identifier => cases hm
  | _ => rfl

@[simp] theorem itemsAll_nil : itemsAll [] = [] := rfl

@[simp] theorem itemsAll_cons (m : Markup) (ms : List Markup) :
    itemsAll (m :: ms) = m.items ++ itemsAll ms := rfl

@[simp] theorem itemsAll_append (ms ns : List Markup) :
    itemsAll (ms ++ ns) = itemsAll ms ++ itemsAll ns :=
  List.flatMap_append

/-- A place that does not count itself. -/
theorem items_of_none {m : Markup} (h : m.item? = none) : m.items = itemsAll m.children := by
  rw [items_eq, h]
  rfl

end Markup

open Markup (itemsAll items_of_none picks_item?)

namespace Lowering

/-! ### Items of the constructions -/

theorem items_slashed (m : Markup) : (slashed m).items = m.items := by
  cases m with
  | identifier | operator => rw [slashed, Markup.items_eq, Markup.items_eq]; rfl
  | _ => rfl

/-- A command counts what its arguments count, whatever variant they are lowered
in.  The name of a named operator is not lowered. -/
theorem perm_items_of_command {table : Table} {v : Variant} {tag : Token} {args : List Node}
    {m : Markup} (ht : tag.takesArguments = true) (hname : tag ≠ .operatorName)
    (hadmits : tag.Admits args.length) (h : lower table v (.command tag args) = .ok m) :
    ∃ w ms, lowerAll table w args = .ok ms ∧ m.items.Perm (itemsAll ms) := by
  obtain ⟨ms, hms, hm⟩ := collect_of_command picks_item? ht hadmits h
  have hitems : m.items = itemsAll ms := by
    rcases hm with hm | ⟨base, rfl, rfl⟩
    · exact hm
    · rw [items_slashed, Markup.itemsAll_cons, Markup.itemsAll_nil, List.append_nil]
  -- In whatever order the arguments are shown, they are all there.
  rcases Token.shown_eq_or_reverse hname args with hshown | hshown <;> rw [hshown] at hms
  · exact ⟨_, ms, hms, .of_eq hitems⟩
  · have hback := lowerAll_reverse hms
    rw [List.reverse_reverse] at hback
    refine ⟨_, ms.reverse, hback, ?_⟩
    rw [hitems]
    exact ms.reverse_perm.symm.flatMap_right _

/-- A command with less than the arguments that it has for certain is reported. -/
theorem lower_command_ne_ok {table : Table} {v : Variant} {tag : Token} {args : List Node}
    {m : Markup} (ht : tag.takesArguments = true) (hlen : args.length < tag.arity) :
    lower table v (.command tag args) ≠ .ok m := by
  intro h
  have reported {e : Error} (he : lower table v (.command tag args) = .error e) : False := by
    rw [he] at h
    cases h
  cases tag with
  | fraction kind | binomial kind => exact reported (if_pos hlen)
  | overset | underset => exact reported (if_pos (Nat.ne_of_lt hlen))
  | radical | markOver glyph accent | markUnder glyph accent | overbrace glyph | underbrace glyph
  | style v | slashed | operatorName =>
    obtain rfl : args = [] := List.length_eq_zero_iff.mp (Nat.lt_one_iff.mp hlen)
    exact reported rfl
  | _ => cases ht

/-- Nodes as one node count what they count. -/
theorem items_of_collapse {table : Table} {v : Variant} {ns : List Node} {m : Markup}
    (h : lower table v (.collapse ns) = .ok m) :
    ∃ ms, lowerAll table v ns = .ok ms ∧ m.items = itemsAll ms := by
  have row (h : lower table v (.group ns) = .ok m) :
      ∃ ms, lowerAll table v ns = .ok ms ∧ m.items = itemsAll ms :=
    collect_of_row picks_item? (.inr rfl) h
  rcases ns with - | ⟨n, - | ⟨k, ns⟩⟩
  · exact row h
  · exact ⟨[m], lowerAll_singleton_eq_ok.mpr ⟨m, h, rfl⟩, by simp⟩
  · exact row h

/-- A node with the scripts it has counts what it and they count. -/
theorem items_of_scripted {table : Table} {v : Variant} {base : Node} {sub sup : Option Node}
    {m : Markup} (h : lower table v (base.scripted sub sup) = .ok m) :
    ∃ ms, lowerAll table v ([base] ++ (sub.toList ++ sup.toList)) = .ok ms ∧
      m.items = itemsAll ms := by
  rcases sub with - | sub <;> rcases sup with - | sup
  · exact ⟨[m], lowerAll_singleton_eq_ok.mpr ⟨m, h, rfl⟩, by simp⟩
  · exact collect_of_branch picks_item? rfl h
  · exact collect_of_branch picks_item? rfl h
  · exact collect_of_branch picks_item? rfl h

/-- An operator with the limits it has counts what it and they count. -/
theorem items_of_stacked {table : Table} {v : Variant} {base : Node} {below above : Option Node}
    {m : Markup} (h : lower table v (base.stacked below above) = .ok m) :
    ∃ ms, lowerAll table v ([base] ++ (below.toList ++ above.toList)) = .ok ms ∧
      m.items = itemsAll ms := by
  rcases below with - | below <;> rcases above with - | above
  · exact ⟨[m], lowerAll_singleton_eq_ok.mpr ⟨m, h, rfl⟩, by simp⟩
  · exact collect_of_branch picks_item? rfl h
  · exact collect_of_branch picks_item? rfl h
  · exact collect_of_branch picks_item? rfl h

/-- A node with one script counts what both count. -/
theorem items_of_attach {table : Table} {v : Variant} {base n : Node} {op : Script} {m : Markup}
    (h : lower table v (base.attach op n) = .ok m) :
    ∃ ms, lowerAll table v ([base] ++ [n]) = .ok ms ∧ m.items = itemsAll ms := by
  cases op with
  | sup => exact collect_of_branch picks_item? rfl h
  | sub => exact collect_of_branch picks_item? rfl h

/-- A large operator counts what its limits count. -/
theorem items_of_limits {table : Table} {v : Variant} {l : Limits} {m : Markup}
    (ht : l.tag.takesLimits = true) (h : lower table v l.node = .ok m) :
    ∃ ms, lowerAll table v (l.sub.toList ++ l.sup.toList) = .ok ms ∧ m.items = itemsAll ms := by
  have hall : ∃ ms,
      lowerAll table v ([Node.large l.tag] ++ (l.sub.toList ++ l.sup.toList)) = .ok ms ∧
        m.items = itemsAll ms := by
    cases hs : l.isStacked with
    | true =>
      simp only [Limits.node, hs] at h
      exact items_of_stacked h
    | false =>
      simp only [Limits.node, hs] at h
      exact items_of_scripted h
  obtain ⟨ms, hms, hm⟩ := hall
  obtain ⟨bases, limits, hbases, hlimits, rfl⟩ := lowerAll_append_eq_ok.mp hms
  obtain ⟨base, hbase, rfl⟩ := lowerAll_singleton_eq_ok.mp hbases
  have hlarge : base.items = [] := collect_of_large picks_item? ht hbase
  refine ⟨limits, hlimits, ?_⟩
  rw [hm, List.singleton_append, Markup.itemsAll_cons, hlarge, List.nil_append]

end Lowering

/-! ### Items of tokens -/

/-- What a token stands for, if it is counted. -/
def Token.item? (table : Table) : Token → Option Item
  | .letter _ => some .identifier
  | .number s => some (.number s)
  | .verbatim kind data => if kind == utf8 "hspace" then none else some (.text data)
  | .command name => if (table.letter? name).isSome then some .identifier else none
  | _ => none

/-- All that is counted in tokens. -/
def itemsOf (table : Table) (ts : List Token) : List Item :=
  ts.filterMap (Token.item? table)

section

variable {table : Table}

@[simp] theorem itemsOf_nil : itemsOf table [] = [] := rfl

@[simp] theorem itemsOf_append (ts us : List Token) :
    itemsOf table (ts ++ us) = itemsOf table ts ++ itemsOf table us :=
  List.filterMap_append

/-- A token that is not counted. -/
theorem itemsOf_cons_of_none {t : Token} (h : t.item? table = none) (ts : List Token) :
    itemsOf table (t :: ts) = itemsOf table ts :=
  List.filterMap_cons_none h

theorem item?_of_fenceGlyph? {t : Token} {glyph : Bytes} (h : State.fenceGlyph? t = some glyph) :
    t.item? table = none := by
  cases t with
  | delimiter glyph | operator text => rfl
  | _ => cases h

theorem item?_of_takesArguments {t : Token} (h : t.takesArguments = true) :
    t.item? table = none := by
  cases t <;> first | rfl | cases h

theorem item?_of_takesLimits {t : Token} (h : t.takesLimits = true) : t.item? table = none := by
  cases t with
  | bigOperator glyph | integral glyph | limit name => rfl
  | _ => cases h

/-- A command counts if the table says that it is a letter. -/
theorem items_of_resolve {v : Variant} {name : Bytes} {m : Markup}
    (h : Lowering.resolve table v name = .ok m) : m.items = itemsOf table [.command name] := by
  unfold Lowering.resolve at h
  rcases hlookup : table.lookup name with - | (text | text | text | width) <;>
    rw [hlookup] at h <;> cases h <;>
    simp [itemsOf, Token.item?, Table.letter?, hlookup, Markup.items_eq, Markup.item?,
      Markup.children]

/-- A raw argument counts unless it is a width. -/
theorem items_of_verbatim {v : Variant} {kind data : Bytes} {n : Node} {m : Markup}
    (hn : (Token.verbatim kind data).leaf? = some n) (h : Lowering.lower table v n = .ok m) :
    m.items = itemsOf table [.verbatim kind data] := by
  simp only [Token.leaf?] at hn
  split at hn
  · next hkind =>
    -- The width may be wrong, but what it stands for is a space.
    cases hn
    have hspace : Lowering.hspace data.trim = .ok m := h
    unfold Lowering.hspace at hspace
    split at hspace
    · cases hspace
      simp [itemsOf, Token.item?, hkind, Markup.items_eq, Markup.item?, Markup.children]
    · cases hspace
  · next hkind =>
    cases hn
    obtain rfl := Except.ok.inj h
    simp [itemsOf, Token.item?, hkind, Markup.items_eq, Markup.item?, Markup.children]

/-- A token that is a node by itself counts as much as its markup. -/
theorem items_of_leaf {t : Token} {n : Node} {v : Variant} {m : Markup} (hn : t.leaf? = some n)
    (h : Lowering.lower table v n = .ok m) : m.items = itemsOf table [t] := by
  cases t
  case letter | number =>
    cases hn
    obtain rfl := Except.ok.inj h
    rw [Markup.items_eq]
    rfl
  case operator | delimiter | prime | cellBreak | lineBreak =>
    cases hn
    obtain rfl := Except.ok.inj h
    exact items_of_none rfl
  case command name =>
    cases hn
    exact items_of_resolve h
  case verbatim kind data => exact items_of_verbatim hn h
  all_goals cases hn

end

/-! ### From tokens to markup -/

/-- The nodes of a part of a tree. -/
def Phrase.content : Phrase → List Node
  | .nodes ns => ns
  | .application a => a.args ++ a.index.toList
  | .limits l => l.sub.toList ++ l.sup.toList

/-- A token that has nothing behind it that is read as plain text. -/
def Token.IsLowered (t : Token) : Prop :=
  t ≠ .operatorName ∧ t ≠ .environmentBegin arrayName

/-- A command whose arguments are lowered has at most as many as it may have, and
only a root has an index. -/
structure Application.Bounded (a : Application) : Prop where
  tag : a.tag.IsLowered
  takesArguments : a.tag.takesArguments = true
  index : a.index.isSome = true → a.tag = .radical
  admits : a.tag.Admits (a.args ++ a.index.toList).length

/-- There is room for one more argument, and in a root for its base. -/
theorem Application.Bounded.push {a : Application} {n : Node} (h : a.Bounded)
    (hroom : a.tag.Admits (a.args.length + 1)) (hbase : a.tag = .radical → a.args = []) :
    (a.push n).Bounded := by
  refine ⟨h.tag, h.takesArguments, h.index, ?_⟩
  cases hi : a.index with
  | none => simpa [Application.push, hi] using hroom
  | some i =>
    have htag : a.tag = .radical := h.index (by rw [hi]; rfl)
    have htwo : Token.radical.Admits 2 := by
      rintro most ⟨⟩
      exact Nat.le_refl 2
    simpa [Application.push, hi, htag, hbase htag] using htwo

/-- What a part of a tree is, apart from its nodes. -/
def Phrase.Bounded : Phrase → Prop
  | .nodes _ => True
  | .application a => a.Bounded
  | .limits l => l.tag.takesLimits = true

theorem Spelled.bounded {p : Phrase} {ts : List Token} (h : Spelled p ts)
    (hts : ∀ t ∈ ts, t.IsLowered) : p.Bounded := by
  induction h with
  | command ht =>
    exact ⟨hts _ (List.mem_singleton_self _), ht, by simp [Application.start], Token.admits_zero _⟩
  | index _ _ => exact ⟨hts _ List.mem_cons_self, rfl, fun _ => rfl, Token.admits_one _⟩
  | @argument a n ts us hroom _ _ iha _ =>
    refine (iha (List.forall_mem_append.mp hts).1).push ?_ ?_
    · rcases hroom with hlt | hgroups
      · exact a.tag.admits_arity.mono hlt
      · exact Token.admits_of_extra_groups hgroups _
    · intro htag
      rw [htag] at hroom
      rcases hroom with hlt | hgroups
      · exact List.eq_nil_of_length_eq_zero (Nat.lt_one_iff.mp hlt)
      · cases hgroups
  | @label a n ts us op hextra hlen _ _ iha _ =>
    refine (iha (List.forall_mem_append.mp hts).1).push ?_ ?_
    · rw [hlen]
      exact Token.admits_of_extra_label hextra
    · intro htag
      rw [htag] at hextra
      cases hextra
  | large ht => exact ht
  | switch _ _ ih => exact ih (List.forall_mem_append.mp hts).1
  | @limit _ _ _ _ op _ _ _ ih _ => cases op <;> exact ih (List.forall_mem_append.mp hts).1
  | _ => trivial

open Lowering
open scoped List

/-- Lowered nodes count some items, in some order. -/
def Counts (table : Table) (ns : List Node) (is : List Item) : Prop :=
  ∀ v ms, lowerAll table v ns = .ok ms → itemsAll ms ~ is

section

variable {table : Table}

theorem counts_nil : Counts table [] [] := by
  intro v ms h
  obtain rfl := Except.ok.inj h
  exact .refl _

/-- Nodes side by side count together. -/
theorem Counts.append {ns ks : List Node} {is js : List Item} (hns : Counts table ns is)
    (hks : Counts table ks js) : Counts table (ns ++ ks) (is ++ js) := by
  intro v ms h
  obtain ⟨as, bs, has, hbs, rfl⟩ := lowerAll_append_eq_ok.mp h
  rw [Markup.itemsAll_append]
  exact (hns v as has).append (hks v bs hbs)

/-- A node between others counts as if it stood behind them. -/
theorem Counts.insert {ns ks : List Node} {n : Node} {is js : List Item}
    (hns : Counts table (ns ++ ks) is) (hn : Counts table [n] js) :
    Counts table (ns ++ n :: ks) (is ++ js) := by
  intro v ms h
  obtain ⟨as, bs, has, hbs, rfl⟩ := lowerAll_append_eq_ok.mp h
  obtain ⟨m, cs, hm, hcs, rfl⟩ := lowerAll_cons_eq_ok.mp hbs
  have hrest := hns v (as ++ cs) (lowerAll_append_eq_ok.mpr ⟨as, cs, has, hcs, rfl⟩)
  have hone := hn v [m] (lowerAll_singleton_eq_ok.mpr ⟨m, hm, rfl⟩)
  simp only [Markup.itemsAll_append, Markup.itemsAll_cons, Markup.itemsAll_nil,
    List.append_nil] at hrest hone ⊢
  calc itemsAll as ++ (m.items ++ itemsAll cs)
    _ ~ itemsAll as ++ (itemsAll cs ++ m.items) := List.perm_append_comm.append_left _
    _ = itemsAll as ++ itemsAll cs ++ m.items := (List.append_assoc _ _ _).symm
    _ ~ is ++ js := hrest.append hone

theorem Counts.perm {ns : List Node} {is js : List Item} (h : Counts table ns is) (hp : is ~ js) :
    Counts table ns js :=
  fun v ms hms => (h v ms hms).trans hp

/-- A node counts what the nodes count that its markup is made from. -/
theorem Counts.one {n : Node} {ns : List Node} {is : List Item} (hns : Counts table ns is)
    (hn : ∀ v m, lower table v n = .ok m →
      ∃ w ms, lowerAll table w ns = .ok ms ∧ m.items ~ itemsAll ms) : Counts table [n] is := by
  intro v ms h
  obtain ⟨m, hm, rfl⟩ := lowerAll_singleton_eq_ok.mp h
  obtain ⟨w, ks, hks, hperm⟩ := hn v m hm
  rw [Markup.itemsAll_cons, Markup.itemsAll_nil, List.append_nil]
  exact hperm.trans (hns w ks hks)

/-- A node whose markup is made from nothing else. -/
theorem counts_of_items {n : Node} {is : List Item}
    (hn : ∀ v m, lower table v n = .ok m → m.items = is) : Counts table [n] is := by
  intro v ms h
  obtain ⟨m, hm, rfl⟩ := lowerAll_singleton_eq_ok.mp h
  rw [Markup.itemsAll_cons, Markup.itemsAll_nil, List.append_nil, hn v m hm]

/-- The same for a node that is made from all of its nodes in their order. -/
theorem Counts.same {n : Node} {ns : List Node} {is : List Item} (hns : Counts table ns is)
    (hn : ∀ v m, lower table v n = .ok m →
      ∃ ms, lowerAll table v ns = .ok ms ∧ m.items = itemsAll ms) : Counts table [n] is := by
  refine hns.one ?_
  intro v m hm
  obtain ⟨ms, hms, heq⟩ := hn v m hm
  exact ⟨v, ms, hms, .of_eq heq⟩

theorem counts_prime (count : Nat) : Counts table [Node.prime count] [] :=
  counts_of_items fun _ m h => by
    obtain rfl := Except.ok.inj h
    exact items_of_none rfl

theorem Counts.attach {base n : Node} {is js : List Item} (hbase : Counts table [base] is)
    (hn : Counts table [n] js) (op : Script) : Counts table [base.attach op n] (is ++ js) :=
  (hbase.append hn).same fun _ _ => items_of_attach

theorem Counts.collapse {ns : List Node} {is : List Item} (hns : Counts table ns is) :
    Counts table [.collapse ns] is :=
  hns.same fun _ _ => items_of_collapse

theorem counts_sized (glyph : Bytes) {tag : Token}
    (htag : (∃ size, tag = .big size) ∨ tag = .middle) :
    Counts table [State.sizedNode tag glyph] [] :=
  counts_of_items fun _ m h => by
    rcases htag with ⟨size, rfl⟩ | rfl <;> obtain rfl := Except.ok.inj h
    · exact items_of_none rfl
    · exact items_of_none rfl

/-- A node with two scripts, of which either may be written first. -/
theorem Counts.scripts {base n n' : Node} {is js ks : List Item} (hbase : Counts table [base] is)
    (hn : Counts table [n] js) (hn' : Counts table [n'] ks) (op : Script) :
    Counts table [(Frame.second base op n).close n'] (is ++ (js ++ ks)) := by
  cases op with
  | sub =>
    show Counts table [.branch .subSup [base, n, n']] (is ++ (js ++ ks))
    exact (hbase.append (hn.append hn')).same fun _ _ => collect_of_branch picks_item? rfl
  | sup =>
    show Counts table [.branch .subSup [base, n', n]] (is ++ (js ++ ks))
    have hswapped : Counts table ([base] ++ ([n'] ++ [n])) (is ++ (js ++ ks)) :=
      (hbase.append (hn'.append hn)).perm (List.perm_append_comm.append_left _)
    exact hswapped.same fun _ _ => collect_of_branch picks_item? rfl

/-- One more argument, which stands in front of an index. -/
theorem Counts.push {a : Application} {n : Node} {is js : List Item}
    (ha : Counts table (a.args ++ a.index.toList) is) (hn : Counts table [n] js) :
    Counts table ((a.push n).args ++ (a.push n).index.toList) (is ++ js) := by
  show Counts table (a.args ++ [n] ++ a.index.toList) (is ++ js)
  rw [List.append_assoc]
  exact ha.insert hn

/-- A command with its arguments.  Without arguments it is not lowered, and it
does not matter that its index is lost. -/
theorem Counts.applied {a : Application} {is : List Item}
    (hargs : Counts table (a.args ++ a.index.toList) is) (h : a.Bounded) :
    Counts table [a.node] is := by
  cases hempty : a.args.isEmpty with
  | true =>
    have hnode : a.node = .command a.tag [] := if_pos hempty
    intro v ms hms
    obtain ⟨m, hm, rfl⟩ := lowerAll_singleton_eq_ok.mp hms
    rw [hnode] at hm
    exact absurd hm (lower_command_ne_ok h.takesArguments a.tag.arity_pos)
  | false =>
    have hnode : a.node = .command a.tag (a.args ++ a.index.toList) :=
      if_neg (Bool.eq_false_iff.mp hempty)
    rw [hnode]
    exact hargs.one fun _ _ => perm_items_of_command h.takesArguments h.tag.1 h.admits

/-- One more limit. -/
theorem Counts.set {l : Limits} {n : Node} {op : Script} {is js : List Item}
    (hl : Counts table (l.sub.toList ++ l.sup.toList) is) (hn : Counts table [n] js)
    (hfree : l.has op = false) :
    Counts table ((l.set op n).sub.toList ++ (l.set op n).sup.toList) (is ++ js) := by
  cases op with
  | sub =>
    have hsub : l.sub = none := Option.not_isSome_iff_eq_none.mp (Bool.eq_false_iff.mp hfree)
    rw [hsub] at hl
    exact hl.insert hn
  | sup =>
    have hsup : l.sup = none := Option.not_isSome_iff_eq_none.mp (Bool.eq_false_iff.mp hfree)
    rw [hsup, Option.toList_none, List.append_nil] at hl
    exact hl.append hn

/-- What is written with some tokens counts as much as they do, in some order. -/
theorem counts_of_spelled (hlimits : table.letter? (utf8 "limits") = none)
    (hnolimits : table.letter? (utf8 "nolimits") = none) {p : Phrase} {ts : List Token}
    (h : Spelled p ts) (hts : ∀ t ∈ ts, t.IsLowered) :
    Counts table p.content (itemsOf table ts) := by
  have hswitch (isStacked : Bool) : (switchToken isStacked).item? table = none := by
    cases isStacked with
    | true => simp [switchToken, Token.item?, hlimits]
    | false => simp [switchToken, Token.item?, hnolimits]
  induction h with
  | nil => exact counts_nil
  | append _ _ ih ih' =>
    rw [List.forall_mem_append] at hts
    rw [itemsOf_append]
    exact (ih hts.1).append (ih' hts.2)
  | leaf hn => exact counts_of_items fun _ _ => items_of_leaf hn
  | group _ ih =>
    simp only [List.forall_mem_cons, List.forall_mem_append] at hts
    rw [itemsOf_cons_of_none rfl, itemsOf_append, itemsOf_cons_of_none rfl, itemsOf_nil,
      List.append_nil]
    exact (ih hts.2.1).collapse
  | primed count _ ih =>
    rw [List.forall_mem_append] at hts
    rw [itemsOf_append]
    exact (ih hts.1).attach (counts_prime count) .sup
  | bare op _ ih =>
    rw [List.forall_mem_cons] at hts
    rw [itemsOf_cons_of_none rfl]
    exact counts_nil.collapse.attach (ih hts.2) op
  | script op _ _ ih ih' =>
    simp only [List.forall_mem_cons, List.forall_mem_append] at hts
    rw [itemsOf_append, itemsOf_cons_of_none rfl]
    exact (ih hts.1).attach (ih' hts.2.2) op
  | scripts op _ _ _ ih ih' ih'' =>
    simp only [List.forall_mem_cons, List.forall_mem_append] at hts
    rw [itemsOf_append, itemsOf_cons_of_none rfl, itemsOf_append, itemsOf_cons_of_none rfl]
    exact (ih hts.1).scripts (ih' hts.2.2.1) (ih'' hts.2.2.2.2) op
  | command ht =>
    rw [itemsOf_cons_of_none (item?_of_takesArguments ht)]
    exact counts_nil
  | index _ ih =>
    simp only [List.forall_mem_cons, List.forall_mem_append] at hts
    rw [itemsOf_cons_of_none rfl, itemsOf_cons_of_none rfl, itemsOf_append,
      itemsOf_cons_of_none rfl, itemsOf_nil, List.append_nil]
    exact (ih hts.2.2.1).collapse
  | argument _ _ _ ih ih' =>
    rw [List.forall_mem_append] at hts
    rw [itemsOf_append]
    exact (ih hts.1).push (ih' hts.2)
  | label _ _ _ _ ih ih' =>
    simp only [List.forall_mem_cons, List.forall_mem_append] at hts
    rw [itemsOf_append, itemsOf_cons_of_none rfl]
    exact (ih hts.1).push (ih' hts.2.2)
  | applied ha ih => exact (ih hts).applied (ha.bounded hts)
  | large ht =>
    rw [itemsOf_cons_of_none (item?_of_takesLimits ht)]
    exact counts_nil
  | switch isStacked _ ih =>
    rw [List.forall_mem_append] at hts
    rw [itemsOf_append, itemsOf_cons_of_none (hswitch isStacked), itemsOf_nil, List.append_nil]
    exact ih hts.1
  | limit hfree _ _ ih ih' =>
    simp only [List.forall_mem_cons, List.forall_mem_append] at hts
    rw [itemsOf_append, itemsOf_cons_of_none rfl]
    exact (ih hts.1).set (ih' hts.2.2) hfree
  | limited hl ih => exact (ih hts).same fun _ _ => items_of_limits (hl.bounded hts)
  | sized size glyph =>
    rw [itemsOf_cons_of_none rfl, itemsOf_cons_of_none rfl]
    exact counts_sized _ (.inl ⟨size, rfl⟩)
  | middle ht =>
    rw [itemsOf_cons_of_none rfl, itemsOf_cons_of_none (item?_of_fenceGlyph? ht)]
    exact counts_sized _ (.inr rfl)
  | fence ht ht' _ ih =>
    simp only [List.forall_mem_cons, List.forall_mem_append] at hts
    rw [itemsOf_cons_of_none rfl, itemsOf_cons_of_none (item?_of_fenceGlyph? ht), itemsOf_append,
      itemsOf_cons_of_none rfl, itemsOf_cons_of_none (item?_of_fenceGlyph? ht'), itemsOf_nil,
      List.append_nil]
    exact (ih hts.2.2.1).same fun _ _ => collect_of_fenceNode picks_item?
  | environment endName _ _ ih =>
    simp only [List.forall_mem_cons, List.forall_mem_append] at hts
    rw [itemsOf_cons_of_none rfl, itemsOf_append, itemsOf_cons_of_none rfl, itemsOf_nil,
      List.append_nil]
    exact (ih hts.2.1).same fun _ _ => collect_of_environment picks_item?
  | array endName _ _ _ _ _ =>
    exact absurd rfl (hts _ List.mem_cons_self).2

end

/-! ### The three counts -/

namespace Markup

/-- The text of a number. -/
def number? : Markup → Option Bytes
  | .number s => some s
  | _ => none

/-- The text of a text. -/
def text? : Markup → Option Bytes
  | .text s => some s
  | _ => none

/-- Whether this is an identifier. -/
def isIdentifier : Markup → Bool
  | .identifier _ _ => true
  | _ => false

end Markup

namespace Token

/-- The text of a number. -/
def number? : Token → Option Bytes
  | .number s => some s
  | _ => none

/-- The raw argument of `\text` or `\mbox`. -/
def text? : Token → Option Bytes
  | .verbatim kind data =>
    if kind == utf8 "text" || kind == utf8 "mbox" then some data else none
  | _ => none

/-- Whether this is a letter. -/
def isLetter : Token → Bool
  | .letter _ => true
  | _ => false

/-- Whether a table says that this command is a letter.  A switch between the
places of limits is never one. -/
def isLetterOf (table : Table) : Token → Bool
  | .command name =>
    name != utf8 "limits" && name != utf8 "nolimits" && (table.letter? name).isSome
  | _ => false

end Token

namespace Item

/-- The text of a number. -/
def number? : Item → Option Bytes
  | .number s => some s
  | _ => none

/-- The text of a text. -/
def text? : Item → Option Bytes
  | .text s => some s
  | _ => none

end Item

namespace Markup

theorem numbers_items (m : Markup) :
    m.items.filterMap Item.number? = m.places.filterMap number? := by
  rw [items, List.filterMap_filterMap]
  congr 1
  funext k
  cases k <;> rfl

theorem texts_items (m : Markup) : m.items.filterMap Item.text? = m.places.filterMap text? := by
  rw [items, List.filterMap_filterMap]
  congr 1
  funext k
  cases k <;> rfl

theorem count_identifier_items (m : Markup) :
    m.items.count .identifier = m.places.countP isIdentifier := by
  rw [items, List.count_filterMap]
  congr 1
  funext k
  cases k <;> rfl

end Markup

section

variable {table : Table}

theorem numbers_itemsOf (ts : List Token) :
    (itemsOf table ts).filterMap Item.number? = ts.filterMap Token.number? := by
  rw [itemsOf, List.filterMap_filterMap]
  congr 1
  funext t
  cases t <;> simp [Token.item?, Token.number?, Item.number?]

/-- The only raw arguments there are are texts and widths. -/
theorem texts_itemsOf {ts : List Token} (hts : ∀ t ∈ ts, t.Readable) :
    (itemsOf table ts).filterMap Item.text? = ts.filterMap Token.text? := by
  rw [itemsOf, List.filterMap_filterMap]
  refine List.filterMap_congr ?_
  intro t ht
  cases t with
  | verbatim kind data =>
    have hkind := (hts _ ht).isVerbatim
    simp only [Vocabulary.isVerbatim, Bool.or_eq_true, beq_iff_eq] at hkind
    rcases hkind with (rfl | rfl) | rfl <;> rfl
  | command name => simp [Token.item?, Token.text?, Item.text?]
  | _ => rfl

/-- Identifiers come from letters and from commands that are letters. -/
theorem count_identifier_itemsOf (hlimits : table.letter? (utf8 "limits") = none)
    (hnolimits : table.letter? (utf8 "nolimits") = none) (ts : List Token) :
    (itemsOf table ts).count .identifier =
      ts.countP Token.isLetter + ts.countP (Token.isLetterOf table) := by
  -- Without a letter among the two switches, a command is a letter or is not.
  have hcommand (name : Bytes) :
      Token.isLetterOf table (.command name) = (table.letter? name).isSome := by
    by_cases h : name = utf8 "limits" ∨ name = utf8 "nolimits"
    · rcases h with rfl | rfl <;> simp [Token.isLetterOf, hlimits, hnolimits]
    · obtain ⟨h, h'⟩ := not_or.mp h
      simp [Token.isLetterOf, h, h']
  have hone (t : Token) : (itemsOf table [t]).count .identifier =
      [t].countP Token.isLetter + [t].countP (Token.isLetterOf table) := by
    cases t with
    | letter s => rfl
    | command name =>
      rw [List.countP_singleton, List.countP_singleton, hcommand]
      cases hname : (table.letter? name).isSome <;>
        simp [itemsOf, Token.item?, Token.isLetter, hname]
    | verbatim kind data =>
      by_cases hkind : kind = utf8 "hspace" <;>
        simp [itemsOf, Token.item?, Token.isLetter, Token.isLetterOf, hkind]
    | _ => rfl
  induction ts with
  | nil => rfl
  | cons t ts ih =>
    rw [← List.singleton_append, itemsOf_append, List.count_append, List.countP_append,
      List.countP_append, ih, hone]
    omega

end

/-- Compiled markup counts as much as the tokens of its source. -/
theorem perm_items_of_compile {table : Table} {source : Bytes} {m : Markup}
    (hlimits : table.letter? (utf8 "limits") = none)
    (hnolimits : table.letter? (utf8 "nolimits") = none)
    (hts : ∀ t ∈ (Lexemes.ofSource source).tokens, t.IsLowered)
    (h : compile table source = .ok m) :
    m.items ~ itemsOf table (Lexemes.ofSource source).tokens := by
  cases htree : (parse source).tree with
  | error e =>
    rw [compile, htree] at h
    cases h
  | ok tree =>
    rw [compile, htree] at h
    obtain ⟨ns, rfl, hspelled⟩ := spelled_of_parse htree
    obtain ⟨ms, hms, hm⟩ := exists_of_bind_eq_ok h
    obtain rfl := Except.ok.inj hm
    rw [items_of_none rfl]
    exact counts_of_spelled hlimits hnolimits hspelled hts .italic ms hms

/-- **Nothing is lost or doubled from tokens to markup.**  In a source without
named operators and arrays, numbers and texts come out of compiling as they are,
in some order, and the identifiers are as many as the letters and the commands
that are letters by the table. -/
theorem conserved_of_compile {table : Table} {source : Bytes} {m : Markup}
    (hlimits : table.letter? (utf8 "limits") = none)
    (hnolimits : table.letter? (utf8 "nolimits") = none)
    (hname : .operatorName ∉ (Lexemes.ofSource source).tokens)
    (harray : .environmentBegin (utf8 "array") ∉ (Lexemes.ofSource source).tokens)
    (h : compile table source = .ok m) :
    m.places.filterMap Markup.number? ~
        (Lexemes.ofSource source).tokens.filterMap Token.number? ∧
      m.places.filterMap Markup.text? ~ (Lexemes.ofSource source).tokens.filterMap Token.text? ∧
      m.places.countP Markup.isIdentifier =
        (Lexemes.ofSource source).tokens.countP Token.isLetter +
          (Lexemes.ofSource source).tokens.countP (Token.isLetterOf table) := by
  have hlowered : ∀ t ∈ (Lexemes.ofSource source).tokens, t.IsLowered :=
    fun t ht => ⟨fun heq => hname (heq ▸ ht), fun heq => harray (heq ▸ ht)⟩
  have hreadable : ∀ t ∈ (Lexemes.ofSource source).tokens, t.Readable :=
    List.forall_mem_map.mpr (readable_of_mem_lexemes source)
  have hperm := perm_items_of_compile hlimits hnolimits hlowered h
  refine ⟨?_, ?_, ?_⟩
  · rw [← Markup.numbers_items, ← numbers_itemsOf]
    exact hperm.filterMap Item.number?
  · rw [← Markup.texts_items, ← texts_itemsOf hreadable]
    exact hperm.filterMap Item.text?
  · rw [← Markup.count_identifier_items, ← count_identifier_itemsOf hlimits hnolimits]
    exact hperm.count_eq .identifier

/-- A root with an index, limits in the other order, a text over its base and a
fraction with an argument too many. -/
theorem conserved_of_compile_reordered :
    ∃ m, compile (Table.empty.addLetter (utf8 "pi") (utf8 "π")) (utf8
        "\\sqrt[3]\\pi\\sum\\limits^9_x\\overset\x7b\\text\x7bdef\x7d\x7d=\\frac12\x7b3\x7d") =
          .ok m ∧
      m.places.filterMap Markup.number? ~ [utf8 "3", utf8 "9", utf8 "1", utf8 "2", utf8 "3"] ∧
      m.places.filterMap Markup.text? ~ [utf8 "def"] ∧
      m.places.countP Markup.isIdentifier = 2 := by
  generalize htable : Table.empty.addLetter (utf8 "pi") (utf8 "π") = table
  generalize hsource :
    utf8 "\\sqrt[3]\\pi\\sum\\limits^9_x\\overset\x7b\\text\x7bdef\x7d\x7d=\\frac12\x7b3\x7d" =
      source
  have htokens : (Lexemes.ofSource source).tokens =
      [.radical, .delimiter (utf8 "["), .number (utf8 "3"), .delimiter (utf8 "]"),
        .command (utf8 "pi"), .bigOperator (utf8 "∑"), .command (utf8 "limits"), .script .sup,
        .number (utf8 "9"), .script .sub, .letter (utf8 "x"), .overset, .groupBegin,
        .verbatim (utf8 "text") (utf8 "def"), .groupEnd, .operator (utf8 "="),
        .fraction (utf8 "frac"), .number (utf8 "1"), .number (utf8 "2"), .groupBegin,
        .number (utf8 "3"), .groupEnd] := by
    rw [← hsource]
    decide +kernel
  obtain ⟨m, hm⟩ := exists_ok_of_isOk (r := compile table source)
    (by rw [← htable, ← hsource]; decide +kernel)
  have hconserved := conserved_of_compile (by rw [← htable]; decide +kernel)
    (by rw [← htable]; decide +kernel) (by rw [htokens]; decide) (by rw [htokens]; decide) hm
  rw [htokens, ← htable] at hconserved
  exact ⟨m, hm, hconserved⟩

end MathMarkup
