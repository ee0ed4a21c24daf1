/-
MathMarkup/Proofs/Arity.lean

How many child elements scripts, fractions and roots get.  MathML asks for two
or three, one in each place, and the places are filled by whatever markup
stands there; but not all markup is one element.  A cell break is rendered as
nothing, and a function with arguments as several elements side by side.

`Markup.width` counts the elements that a tree is rendered as, and
`Markup.SlotsFit` asks, at every place of a tree, that the widths of what is in
its slots add up to the number of slots.  This is exactly when the rendered
elements have the children that their names ask for (`haveArity_elements_iff`).
A source without cell breaks and named operators is always on the safe side,
since then everything in a slot is a single element.
-/
import MathMarkup.Proofs.Compiled

namespace MathMarkup

/-! ### Elements and their children -/

namespace Content

/-- What is in an element. -/
def children : Content → List Content
  | .text _ => []
  | .element _ _ content => content

/-- Whether this is an element, not text. -/
def isElement : Content → Bool
  | .text _ => false
  | .element _ _ _ => true

/-- How many child elements an element has to have, by its name. -/
def required? (name : Bytes) : Option Nat :=
  if name ∈ ["msup", "msub", "mover", "munder", "mfrac", "mroot"].map utf8 then some 2
  else if name ∈ ["msubsup", "munderover"].map utf8 then some 3
  else none

/-- An element with the child elements that its name asks for. -/
def ArityHere : Content → Prop
  | .text _ => True
  | .element name _ content => ∀ k ∈ required? name, content.countP isElement = k

/-- All elements within have the child elements that their names ask for. -/
def HasArity (c : Content) : Prop :=
  ∀ d, Within children d c → d.ArityHere

theorem hasArity_text (s : Bytes) : HasArity (.text s) :=
  forall_within_iff.mpr ⟨trivial, List.forall_mem_nil _⟩

/-- A forest in which all elements have the child elements that their names ask
for. -/
def HaveArity (cs : List Content) : Prop :=
  ∀ c ∈ cs, c.HasArity

@[simp] theorem haveArity_nil : HaveArity [] :=
  List.forall_mem_nil _

@[simp] theorem haveArity_cons {c : Content} {cs : List Content} :
    HaveArity (c :: cs) ↔ c.HasArity ∧ HaveArity cs :=
  List.forall_mem_cons

@[simp] theorem haveArity_append {cs ds : List Content} :
    HaveArity (cs ++ ds) ↔ HaveArity cs ∧ HaveArity ds :=
  List.forall_mem_append

@[simp] theorem haveArity_ofText (s : Bytes) : HaveArity (ofText s) := by
  unfold ofText
  split
  · exact haveArity_nil
  · exact haveArity_cons.mpr ⟨hasArity_text s, haveArity_nil⟩

end Content

open Content

namespace Markup

/-- An element whose name asks for a number of children. -/
theorem hasArity_node_of_some {name : String} {k : Nat} (hn : required? (utf8 name) = some k)
    {as : List (Bytes × Bytes)} {cs : List Content} :
    (node name as cs).HasArity ↔ cs.countP isElement = k ∧ HaveArity cs := by
  refine forall_within_iff.trans (and_congr ?_ Iff.rfl)
  show (∀ k ∈ required? (utf8 name), _) ↔ _
  rw [hn]
  simp

/-- An element that may have any number of children. -/
theorem hasArity_node_of_none {name : String} (hn : required? (utf8 name) = none)
    {as : List (Bytes × Bytes)} {cs : List Content} :
    (node name as cs).HasArity ↔ HaveArity cs := by
  refine forall_within_iff.trans ?_
  show (∀ k ∈ required? (utf8 name), _) ∧ HaveArity cs ↔ _
  rw [hn]
  simp

theorem haveArity_node_of_none {name : String} (hn : required? (utf8 name) = none)
    {as : List (Bytes × Bytes)} {cs : List Content} :
    HaveArity [node name as cs] ↔ HaveArity cs := by
  rw [haveArity_cons, and_iff_left haveArity_nil, hasArity_node_of_none hn]

/-! ### Widths and slots -/

/-- How many elements a tree is rendered as. -/
def width : Markup → Nat
  | .missing | .cellBreak => 0
  | .function _ [arg] => arg.width + 2
  | .function _ (_ :: _ :: _) => 3
  | _ => 1

/-- The parts of a tree that stand in the place of one element each. -/
def slots : Markup → List Markup
  | .superscript base sup => [base, sup]
  | .subscript base sub => [base, sub]
  | .subSup base sub sup => [base, sub, sup]
  | .overscript base above _ => [base, above]
  | .underscript base below _ => [base, below]
  | .underOverscript base below above _ _ => [base, below, above]
  | .radical _ .missing => []
  | .radical base index => [base, index]
  | .fraction numerator denominator _ => [numerator, denominator]
  | _ => []

/-- How many elements several trees are rendered as. -/
def widthAll : List Markup → Nat
  | [] => 0
  | m :: ms => m.width + widthAll ms

/-- What is in the slots is as many elements as there are slots. -/
def FitsHere (m : Markup) : Prop :=
  widthAll m.slots = m.slots.length

/-- The slots of a tree are filled as they should be at every place. -/
def SlotsFit (m : Markup) : Prop :=
  ∀ n, Within children n m → n.FitsHere

theorem slotsFit_iff {m : Markup} : m.SlotsFit ↔ m.FitsHere ∧ ∀ c ∈ m.children, c.SlotsFit :=
  forall_within_iff

/-- Without slots, only the children matter. -/
theorem slotsFit_iff_of_slots_nil {m : Markup} (h : m.slots = []) :
    m.SlotsFit ↔ ∀ c ∈ m.children, c.SlotsFit := by
  have here : m.FitsHere := by
    unfold FitsHere
    rw [h]
    rfl
  rw [slotsFit_iff]
  exact and_iff_right here

/-- A tree is rendered as so many elements. -/
theorem countP_elements (m : Markup) : m.elements.countP isElement = m.width := by
  induction m using induct with
  | step m ih =>
    cases m with
    | function name args =>
      rcases args with - | ⟨arg, - | ⟨arg', args⟩⟩
      · rfl
      · have harg : arg.elements.countP isElement = arg.width := ih arg List.mem_cons_self
        show List.countP isElement (_ :: applied :: arg.elements) = _
        rw [List.countP_cons_of_pos rfl, List.countP_cons_of_pos rfl, harg, width]
      · rfl
    | radical base index => cases index <;> rfl
    | _ => rfl

/-! ### The children of rendered elements -/

theorem haveArity_elementsAll {ms : List Markup} :
    HaveArity (elementsAll ms) ↔ ∀ m ∈ ms, HaveArity m.elements := by
  rw [elementsAll_eq]
  unfold HaveArity
  simp only [List.mem_flatMap]
  constructor
  · exact fun h m hm c hc => h c ⟨m, hm, hc⟩
  · rintro h c ⟨m, hm, hc⟩
    exact h m hm c hc

theorem haveArity_table {cells : List Markup} {align columnLines : Bytes} :
    HaveArity (elements (.table cells align columnLines)) ↔ ∀ m ∈ cells, HaveArity m.elements := by
  have hcell (cell : List Markup) :
      (node "mtd" [] (elementsAll cell)).HasArity ↔ ∀ m ∈ cell, HaveArity m.elements :=
    (hasArity_node_of_none (by decide)).trans haveArity_elementsAll
  have hrow (row : List (List Markup)) :
      (node "mtr" [] (row.map fun cell => node "mtd" [] (elementsAll cell))).HasArity ↔
        ∀ cell ∈ row, ∀ m ∈ cell, HaveArity m.elements := by
    rw [hasArity_node_of_none (by decide), HaveArity, List.forall_mem_map]
    simp only [hcell]
  rw [elements_table, haveArity_node_of_none (by decide), HaveArity, List.forall_mem_map]
  simp only [hrow]
  rw [forall_mem_rows_iff]
  -- The breaks themselves are rendered as nothing and as a space.
  constructor
  · intro h m hm
    by_cases hc : m = .cellBreak
    · rw [hc]
      exact haveArity_nil
    by_cases hl : m = .lineBreak
    · rw [hl]
      exact (haveArity_node_of_none (by decide)).mpr haveArity_nil
    exact h m hm hc hl
  · exact fun h m hm _ _ => h m hm

/-- A function and its arguments. -/
theorem haveArity_function {name : Bytes} {args : List Markup} :
    HaveArity (elements (.function name args)) ↔ ∀ m ∈ args, HaveArity m.elements := by
  have hname : (node "mi" [] (ofText name)).HasArity :=
    (hasArity_node_of_none (by decide)).mpr (haveArity_ofText name)
  have happlied : applied.HasArity :=
    (hasArity_node_of_none (by decide)).mpr (haveArity_cons.mpr ⟨hasArity_text _, haveArity_nil⟩)
  rcases args with - | ⟨arg, - | ⟨arg', args⟩⟩
  · exact iff_of_true (haveArity_cons.mpr ⟨hname, haveArity_nil⟩) (List.forall_mem_nil _)
  · show HaveArity (node "mi" [] (ofText name) :: applied :: arg.elements) ↔ _
    rw [haveArity_cons, haveArity_cons, and_iff_right hname, and_iff_right happlied]
    simp
  · show HaveArity (node "mi" [] (ofText name) :: applied :: [node "mrow" [] _]) ↔ _
    rw [haveArity_cons, haveArity_cons, and_iff_right hname, and_iff_right happlied,
      haveArity_node_of_none (by decide), haveArity_elementsAll]

theorem hasArity_fenceElement (form : String) (glyph : Bytes) :
    (fenceElement form glyph).HasArity :=
  (hasArity_node_of_none (by decide)).mpr (haveArity_ofText glyph)

/-- The parts of an element with two slots. -/
theorem haveArity_pair {name : String} (hn : required? (utf8 name) = some 2)
    {as : List (Bytes × Bytes)} {m n : Markup} :
    HaveArity [node name as (m.elements ++ n.elements)] ↔
      m.width + n.width = 2 ∧ HaveArity m.elements ∧ HaveArity n.elements := by
  rw [haveArity_cons, and_iff_left haveArity_nil, hasArity_node_of_some hn, List.countP_append,
    countP_elements, countP_elements, haveArity_append]

/-- The parts of an element with three slots. -/
theorem haveArity_triple {name : String} (hn : required? (utf8 name) = some 3)
    {as : List (Bytes × Bytes)} {m n k : Markup} :
    HaveArity [node name as (m.elements ++ n.elements ++ k.elements)] ↔
      m.width + n.width + k.width = 3 ∧
        HaveArity m.elements ∧ HaveArity n.elements ∧ HaveArity k.elements := by
  rw [haveArity_cons, and_iff_left haveArity_nil, hasArity_node_of_some hn, List.countP_append,
    List.countP_append, countP_elements, countP_elements, countP_elements, haveArity_append,
    haveArity_append, and_assoc]

/-- A tree with two slots. -/
theorem slotsFit_pair {s m n : Markup} (hs : s.slots = [m, n]) (hc : s.children = [m, n]) :
    s.SlotsFit ↔ m.width + n.width = 2 ∧ m.SlotsFit ∧ n.SlotsFit := by
  rw [slotsFit_iff, FitsHere, hs, hc]
  simp [widthAll]

/-- A tree with three slots. -/
theorem slotsFit_triple {s m n k : Markup} (hs : s.slots = [m, n, k])
    (hc : s.children = [m, n, k]) :
    s.SlotsFit ↔ m.width + n.width + k.width = 3 ∧ m.SlotsFit ∧ n.SlotsFit ∧ k.SlotsFit := by
  rw [slotsFit_iff, FitsHere, hs, hc]
  simp [widthAll, Nat.add_assoc]

/-- **The children of rendered elements.**  All elements of a tree have the child
elements that their names ask for exactly if its slots are filled as they should
be at every place. -/
theorem haveArity_elements_iff (m : Markup) : HaveArity m.elements ↔ m.SlotsFit := by
  induction m using induct with
  | step m ih =>
    have below (hs : m.slots = []) :
        (∀ c ∈ m.children, HaveArity c.elements) ↔ m.SlotsFit := by
      rw [slotsFit_iff_of_slots_nil hs]
      exact forall₂_congr ih
    have leaf (hs : m.slots = []) (hc : m.children = []) (h : HaveArity m.elements) :
        HaveArity m.elements ↔ m.SlotsFit := by
      rw [← below hs, hc]
      exact iff_of_true h (List.forall_mem_nil _)
    have pair {name : String} {as : List (Bytes × Bytes)} {n k : Markup}
        (hn : required? (utf8 name) = some 2)
        (he : m.elements = [node name as (n.elements ++ k.elements)]) (hs : m.slots = [n, k])
        (hc : m.children = [n, k]) : HaveArity m.elements ↔ m.SlotsFit := by
      rw [he, haveArity_pair hn, slotsFit_pair hs hc, ih n (by simp [hc]), ih k (by simp [hc])]
    have triple {name : String} {as : List (Bytes × Bytes)} {n k l : Markup}
        (hn : required? (utf8 name) = some 3)
        (he : m.elements = [node name as (n.elements ++ k.elements ++ l.elements)])
        (hs : m.slots = [n, k, l]) (hc : m.children = [n, k, l]) :
        HaveArity m.elements ↔ m.SlotsFit := by
      rw [he, haveArity_triple hn, slotsFit_triple hs hc, ih n (by simp [hc]), ih k (by simp [hc]),
        ih l (by simp [hc])]
    cases m with
    | missing | cellBreak => exact leaf rfl rfl haveArity_nil
    | identifier | number | operator | text =>
      exact leaf rfl rfl ((haveArity_node_of_none (by decide)).mpr (haveArity_ofText _))
    | space | lineBreak =>
      exact leaf rfl rfl ((haveArity_node_of_none (by decide)).mpr haveArity_nil)
    | root display children | row children bracket =>
      rw [← below rfl]
      exact (haveArity_node_of_none (by decide)).trans haveArity_elementsAll
    | function name args =>
      rw [← below rfl]
      exact haveArity_function
    | superscript | subscript | overscript | underscript | fraction =>
      exact pair (by decide) rfl rfl rfl
    | subSup | underOverscript => exact triple (by decide) rfl rfl rfl
    | radical base index =>
      cases index with
      | missing =>
        rw [← below rfl]
        refine (haveArity_node_of_none (by decide)).trans ?_
        simp [children, elements]
      | _ => exact pair (by decide) rfl rfl rfl
    | fenced opening closing content =>
      rw [← below rfl]
      refine (haveArity_node_of_none (by decide)).trans ?_
      simp [children, hasArity_fenceElement]
    | table cells align columnLines =>
      rw [← below rfl]
      exact haveArity_table
    | styled display content =>
      rw [← below rfl]
      refine (haveArity_node_of_none (by decide)).trans ?_
      simp [children]

/-! ### Compiled markup -/

theorem slotsFit_missing : SlotsFit .missing :=
  (slotsFit_iff_of_slots_nil rfl).mpr (List.forall_mem_nil _)

/-- One element, with all slots in it filled as they should be. -/
def IsOne (m : Markup) : Prop :=
  m.width = 1 ∧ m.SlotsFit

theorem isOne_of_children {m : Markup} (hw : m.width = 1) (hs : m.slots = [])
    (hc : ∀ c ∈ m.children, c.IsOne) : m.IsOne :=
  ⟨hw, (slotsFit_iff_of_slots_nil hs).mpr fun c hmem => (hc c hmem).2⟩

theorem isOne_pair {s m n : Markup} (hw : s.width = 1) (hs : s.slots = [m, n])
    (hc : s.children = [m, n]) (hm : m.IsOne) (hn : n.IsOne) : s.IsOne := by
  refine ⟨hw, (slotsFit_pair hs hc).mpr ⟨?_, hm.2, hn.2⟩⟩
  rw [hm.1, hn.1]

theorem isOne_triple {s m n k : Markup} (hw : s.width = 1) (hs : s.slots = [m, n, k])
    (hc : s.children = [m, n, k]) (hm : m.IsOne) (hn : n.IsOne) (hk : k.IsOne) : s.IsOne := by
  refine ⟨hw, (slotsFit_triple hs hc).mpr ⟨?_, hm.2, hn.2, hk.2⟩⟩
  rw [hm.1, hn.1, hk.1]

/-- Without cell breaks and named operators, lowering makes single elements. -/
theorem keeps_isOne :
    Lowering.Keeps (fun t => t ≠ .cellBreak ∧ t ≠ .operatorName) IsOne where
  identifier _ _ := isOne_of_children rfl rfl (List.forall_mem_nil _)
  number _ := isOne_of_children rfl rfl (List.forall_mem_nil _)
  text _ := isOne_of_children rfl rfl (List.forall_mem_nil _)
  space _ := isOne_of_children rfl rfl (List.forall_mem_nil _)
  operator _ _ _ := isOne_of_children rfl rfl (List.forall_mem_nil _)
  respelled _ _ _ _ := isOne_of_children rfl rfl (List.forall_mem_nil _)
  lineBreak := isOne_of_children rfl rfl (List.forall_mem_nil _)
  cellBreak h := absurd rfl h.1
  name _ := isOne_of_children rfl rfl (List.forall_mem_nil _)
  function h := absurd rfl h.2
  row _ _ h := isOne_of_children rfl rfl h
  superscript _ _ hb hs := isOne_pair rfl rfl rfl hb hs
  subscript _ _ hb hs := isOne_pair rfl rfl rfl hb hs
  subSup _ _ _ hb hs hs' := isOne_triple rfl rfl rfl hb hs hs'
  overscript _ _ _ hb ha := isOne_pair rfl rfl rfl hb ha
  underscript _ _ _ hb hu := isOne_pair rfl rfl rfl hb hu
  underOverscript _ _ _ _ _ hb hu ha := isOne_triple rfl rfl rfl hb hu ha
  squareRoot base hb := by
    refine ⟨rfl, (slotsFit_iff_of_slots_nil rfl).mpr ?_⟩
    simp [children, hb.2, slotsFit_missing]
  radical _ index hb hi := by
    cases index with
    | missing => cases hi.1
    | _ => exact isOne_pair rfl rfl rfl hb hi
  fraction _ _ _ hn hd := isOne_pair rfl rfl rfl hn hd
  fenced _ _ _ h := isOne_of_children rfl rfl (by simpa [children] using h)
  styled _ _ h := isOne_of_children rfl rfl (by simpa [children] using h)
  table _ _ _ _ _ h := isOne_of_children rfl rfl h

/-- **The arity of compiled markup.**  Rendered and read back, compiled markup has
the child elements that the names of its elements ask for, at every depth,
exactly if at every place the slots are filled with as many elements as there
are slots.  A source without cell breaks and named operators is always fine. -/
theorem compiled_arity {table : Table} {source : Bytes} {m : Markup}
    (h : compile table source = .ok m) :
    ∃ forest, Reader.read m.render = some forest ∧ (HaveArity forest ↔ m.SlotsFit) ∧
      ((∀ l ∈ (Lexemes.ofSource source).list, l.token ≠ .cellBreak ∧ l.token ≠ .operatorName) →
        HaveArity forest) := by
  have harity : HaveArity m.elements ↔ m.SlotsFit := haveArity_elements_iff m
  refine ⟨m.elements, read_render_eq (hasPlainValues_of_compile h), harity, fun htokens => ?_⟩
  obtain ⟨ms, rfl, hms⟩ := exists_root_of_compile keeps_isOne htokens h
  exact harity.mpr ((slotsFit_iff_of_slots_nil rfl).mpr fun c hc => (hms c hc).2)

/-- A fraction with a script, a root and limits. -/
theorem compiled_arity_nested :
    ∃ m forest, compile Table.empty (utf8 "\\frac1\x7bx_i^2\x7d^\\sqrt[3]y+\\sum_0^n") = .ok m ∧
      Reader.read m.render = some forest ∧ HaveArity forest := by
  obtain ⟨m, hm⟩ := exists_ok_of_isOk
    (r := compile Table.empty (utf8 "\\frac1\x7bx_i^2\x7d^\\sqrt[3]y+\\sum_0^n"))
    (by decide +kernel)
  obtain ⟨forest, hread, -, hfine⟩ := compiled_arity hm
  exact ⟨m, forest, hm, hread, hfine (by decide +kernel)⟩

/-- A function with an argument is three elements, so that a script on it has
four children where two are asked for. -/
theorem not_arity_scripted_function :
    ∃ m forest, compile Table.empty (utf8 "\\operatorname\x7bf\x7d\x7bx\x7d^2") = .ok m ∧
      Reader.read m.render = some forest ∧ ¬ HaveArity forest := by
  have hlist : (Lexemes.ofSource (utf8 "\\operatorname\x7bf\x7d\x7bx\x7d^2")).list =
      [⟨.operatorName, 0⟩, ⟨.groupBegin, 13⟩, ⟨.letter (utf8 "f"), 14⟩, ⟨.groupEnd, 15⟩,
        ⟨.groupBegin, 16⟩, ⟨.letter (utf8 "x"), 17⟩, ⟨.groupEnd, 18⟩, ⟨.script .sup, 19⟩,
        ⟨.number (utf8 "2"), 20⟩] := by decide +kernel
  have hfault : (Lexemes.ofSource (utf8 "\\operatorname\x7bf\x7d\x7bx\x7d^2")).fault = none := by
    rw [← Option.isNone_iff_eq_none]
    decide +kernel
  have hm : compile Table.empty (utf8 "\\operatorname\x7bf\x7d\x7bx\x7d^2") =
      .ok (.root .inline [.superscript (.function (utf8 "f") [.identifier (utf8 "x") .italic])
        (.number (utf8 "2"))]) := by
    rw [compile, parse, Lexemes.parse, hlist, hfault]
    rfl
  refine ⟨_, _, hm, read_render_eq (hasPlainValues_of_compile hm), ?_⟩
  rw [haveArity_elements_iff]
  intro hfit
  -- The script is the only child of the root; its slots hold three elements and one.
  have here : 4 = 2 := hfit _ (.inside List.mem_cons_self (.self _))
  cases here

end Markup

end MathMarkup
