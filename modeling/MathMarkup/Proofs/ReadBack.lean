/-
MathMarkup/Proofs/ReadBack.lean

Rendered markup can be read back.  `Markup.elements` says which elements a tree
stands for, with names, attributes and texts as they are and not as they are
written; the cells of a table are its rows (`elements_table`).  Reading what was
rendered gives these elements (`read_render_eq`), for every tree whose attribute
values can stand between quotes, and whatever its texts are.

Three strings of a tree are written as attribute values without being escaped:
the alignment and the lines of a table and the size of an operator.  All other
values are known or are numbers, so `HasPlainValues` asks for nothing else.
-/
import MathMarkup.Proofs.Reader
import MathMarkup.Proofs.Within

namespace MathMarkup

open Reader

/-! ### The elements of a tree -/

namespace Markup

/-- An attribute that is there or not. -/
def flagPairs (name : String) (value : Bool) : List (Bytes × Bytes) :=
  if value then [(utf8 name, utf8 "true")] else []

/-- The attributes of an identifier: its variant, unless it is the default. -/
def variantPairs (text : Bytes) (v : Variant) : List (Bytes × Bytes) :=
  if v = (if Cluster.count text = 1 then .italic else .normal) then []
  else [(utf8 "mathvariant", v.name)]

/-- The attributes of an operator. -/
def operatorPairs (f : OperatorForm) : List (Bytes × Bytes) :=
  flagPairs "fence" f.fence ++ flagPairs "separator" f.separator ++ flagPairs "largeop" f.largeOp
    ++ flagPairs "stretchy" f.stretchy
    ++ if f.size.isEmpty then [] else [(utf8 "maxsize", f.size), (utf8 "minsize", f.size)]

/-- The attributes of a table; centred columns and absent lines are not named. -/
def tablePairs (align columnLines : Bytes) : List (Bytes × Bytes) :=
  (if align.isEmpty || align == utf8 "center" then [] else [(utf8 "columnalign", align)])
    ++ if columnLines.isEmpty then [] else [(utf8 "columnlines", columnLines)]

/-- The attributes of a fraction. -/
def thicknessPairs : Thickness → List (Bytes × Bytes)
  | .zero => [(utf8 "linethickness", utf8 "0")]
  | .medium => []

/-- The attributes of the outermost element. -/
def rootPairs (display : Display) : List (Bytes × Bytes) :=
  (utf8 "xmlns", utf8 "http://www.w3.org/1998/Math/MathML")
    :: if display = .block then [(utf8 "display", utf8 "block")] else []

/-- An element with attributes and content. -/
def node (name : String) (attributes : List (Bytes × Bytes)) (content : List Content) : Content :=
  .element (utf8 name) attributes content

/-- A delimiter of a fence. -/
def fenceElement (form : String) (glyph : Bytes) : Content :=
  node "mo" [(utf8 "stretchy", utf8 "true"), (utf8 "form", utf8 form)] (Content.ofText glyph)

/-- The operator between a function and what it is applied to. -/
def applied : Content :=
  node "mo" [] [.text (utf8 "\u2061")]

mutual

/-- The elements that a tree stands for. -/
def elements : Markup → List Content
  | .missing | .cellBreak => []
  | .root display children => [node "math" (rootPairs display) (elementsAll children)]
  | .row children _ => [node "mrow" [] (elementsAll children)]
  | .identifier s v => [node "mi" (variantPairs s v) (Content.ofText s)]
  | .number s => [node "mn" [] (Content.ofText s)]
  | .operator s form => [node "mo" (operatorPairs form) (Content.ofText s)]
  | .text s => [node "mtext" [] (Content.ofText s)]
  | .space width => [node "mspace" [(utf8 "width", width.text ++ utf8 "em")] []]
  | .lineBreak => [node "mspace" [(utf8 "linebreak", utf8 "newline")] []]
  | .function name args =>
    node "mi" [] (Content.ofText name) ::
      match args with
      | [] => []
      | [arg] => applied :: arg.elements
      | args => [applied, node "mrow" [] (elementsAll args)]
  | .superscript base sup => [node "msup" [] (base.elements ++ sup.elements)]
  | .subscript base sub => [node "msub" [] (base.elements ++ sub.elements)]
  | .subSup base sub sup => [node "msubsup" [] (base.elements ++ sub.elements ++ sup.elements)]
  | .overscript base above accent =>
    [node "mover" (flagPairs "accent" accent) (base.elements ++ above.elements)]
  | .underscript base below accent =>
    [node "munder" (flagPairs "accentunder" accent) (base.elements ++ below.elements)]
  | .underOverscript base below above accentUnder accentOver =>
    [node "munderover" (flagPairs "accentunder" accentUnder ++ flagPairs "accent" accentOver)
      (base.elements ++ below.elements ++ above.elements)]
  | .radical base .missing => [node "msqrt" [] base.elements]
  | .radical base index => [node "mroot" [] (base.elements ++ index.elements)]
  | .fraction numerator denominator thickness =>
    [node "mfrac" (thicknessPairs thickness) (numerator.elements ++ denominator.elements)]
  | .fenced opening closing content =>
    [node "mrow" []
      (fenceElement "prefix" opening :: (content.elements ++ [fenceElement "postfix" closing]))]
  | .table cells align columnLines =>
    [node "mtable" (tablePairs align columnLines)
      ((elementsOfCells cells).map fun row => node "mtr" [] (row.map (node "mtd" [])))]
  | .styled display content =>
    [node "mstyle" [(utf8 "displaystyle", utf8 (if display = .block then "true" else "false"))]
      content.elements]

/-- The elements of several trees. -/
def elementsAll : List Markup → List Content
  | [] => []
  | n :: ns => n.elements ++ elementsAll ns

/-- The elements of a stream of cells, by rows and cells. -/
def elementsOfCells : List Markup → List (List (List Content))
  | [] => [[[]]]
  | n :: ns =>
    match n, elementsOfCells ns with
    | .cellBreak, cells :: more => ([] :: cells) :: more
    | .lineBreak, more => [[]] :: more
    | _, (cell :: cells) :: more => ((n.elements ++ cell) :: cells) :: more
    | _, more => [n.elements] :: more

end

theorem elementsAll_eq (ms : List Markup) : elementsAll ms = ms.flatMap elements := by
  induction ms with
  | nil => rfl
  | cons m ms ih => rw [elementsAll, ih, List.flatMap_cons]

theorem piecesAll_eq (ms : List Markup) : piecesAll ms = ms.flatMap pieces := by
  induction ms with
  | nil => rfl
  | cons m ms ih => rw [piecesAll, ih, List.flatMap_cons]

/-! ### Rows of cells -/

theorem rows_cellBreak {ns : List Markup} {row : List (List Markup)}
    {more : List (List (List Markup))} (h : rows ns = row :: more) :
    rows (.cellBreak :: ns) = ([] :: row) :: more := by
  rw [rows]
  exact h

theorem rows_lineBreak (ns : List Markup) : rows (.lineBreak :: ns) = [[]] :: rows ns := by
  rw [rows]

theorem rows_cons {n : Markup} (hc : n ≠ .cellBreak) (hl : n ≠ .lineBreak) {ns cell : List Markup}
    {cells : List (List Markup)} {more : List (List (List Markup))}
    (h : rows ns = (cell :: cells) :: more) :
    rows (n :: ns) = ((n :: cell) :: cells) :: more := by
  rw [rows]
  · exact hc
  · exact hl
  · exact h

/-- Goes through a stream of cells: at each place there is a cell break, a line
break or content, and what follows has a first row with a first cell. -/
theorem cells_induct {p : List Markup → Prop} (nil : p [])
    (cellBreak : ∀ ns, p ns → p (.cellBreak :: ns)) (lineBreak : ∀ ns, p ns → p (.lineBreak :: ns))
    (content : ∀ n ns, n ≠ .cellBreak → n ≠ .lineBreak → p ns → p (n :: ns)) (ns : List Markup) :
    p ns := by
  induction ns with
  | nil => exact nil
  | cons n ns ih =>
    by_cases hc : n = .cellBreak
    · subst hc
      exact cellBreak ns ih
    · by_cases hl : n = .lineBreak
      · subst hl
        exact lineBreak ns ih
      · exact content n ns hc hl ih

/-- There is a first row with a first cell. -/
theorem exists_rows_eq (ns : List Markup) :
    ∃ cell cells more, rows ns = (cell :: cells) :: more := by
  induction ns using cells_induct with
  | nil => exact ⟨[], [], [], rfl⟩
  | cellBreak ns ih =>
    obtain ⟨cell, cells, more, h⟩ := ih
    exact ⟨_, _, _, rows_cellBreak h⟩
  | lineBreak ns ih => exact ⟨_, _, _, rows_lineBreak ns⟩
  | content n ns hc hl ih =>
    obtain ⟨cell, cells, more, h⟩ := ih
    exact ⟨_, _, _, rows_cons hc hl h⟩

/-- The cells of all rows hold the stream without its breaks. -/
theorem forall_mem_rows_iff {p : Markup → Prop} {ns : List Markup} :
    (∀ row ∈ rows ns, ∀ cell ∈ row, ∀ m ∈ cell, p m) ↔
      ∀ m ∈ ns, m ≠ .cellBreak → m ≠ .lineBreak → p m := by
  induction ns using cells_induct with
  | nil => simp [rows]
  | cellBreak ns ih =>
    obtain ⟨cell, cells, more, h⟩ := exists_rows_eq ns
    rw [h] at ih
    rw [rows_cellBreak h]
    simp only [List.forall_mem_cons] at ih ⊢
    rw [← ih]
    simp
  | lineBreak ns ih =>
    rw [rows_lineBreak]
    simp only [List.forall_mem_cons]
    rw [ih]
    simp
  | content n ns hc hl ih =>
    obtain ⟨cell, cells, more, h⟩ := exists_rows_eq ns
    rw [h] at ih
    rw [rows_cons hc hl h]
    simp only [List.forall_mem_cons] at ih ⊢
    rw [← ih]
    simp only [hc, hl, ne_eq, not_false_eq_true, forall_const, and_assoc]

theorem elementsOfCells_eq (ns : List Markup) :
    elementsOfCells ns = (rows ns).map (List.map elementsAll) := by
  induction ns using cells_induct with
  | nil => rfl
  | cellBreak ns ih =>
    obtain ⟨cell, cells, more, h⟩ := exists_rows_eq ns
    rw [h] at ih
    rw [rows_cellBreak h, elementsOfCells]
    · rfl
    · exact ih
  | lineBreak ns ih =>
    rw [rows_lineBreak, elementsOfCells, ih]
    rfl
  | content n ns hc hl ih =>
    obtain ⟨cell, cells, more, h⟩ := exists_rows_eq ns
    rw [h] at ih
    rw [rows_cons hc hl h, elementsOfCells]
    · rfl
    · exact hc
    · exact hl
    · exact ih

/-- The elements of a table are its rows, and those of a row its cells. -/
theorem elements_table (cells : List Markup) (align columnLines : Bytes) :
    elements (.table cells align columnLines) =
      [node "mtable" (tablePairs align columnLines) ((rows cells).map fun row =>
        node "mtr" [] (row.map fun cell => node "mtd" [] (elementsAll cell)))] := by
  rw [elements, elementsOfCells_eq, List.map_map]
  simp only [Function.comp_def, List.map_map]

/-- The pieces of a cell. -/
def piecesOfCell (cell : List Markup) : List Bytes :=
  wrap "mtd" [] (piecesAll cell)

/-- The pieces of a row of cells. -/
def piecesOfRow (row : List (List Markup)) : List Bytes :=
  wrap "mtr" [] (row.flatMap piecesOfCell)

/-- From inside the first cell to the end of the last row: the rest of that
cell, the other cells of its row, the other rows. -/
theorem piecesOfCells_eq {ns cell : List Markup} {cells : List (List Markup)}
    {more : List (List (List Markup))} (h : rows ns = (cell :: cells) :: more) :
    piecesOfCells ns ++ [endTag "mtd", endTag "mtr"] =
      piecesAll cell ++ endTag "mtd" ::
        (cells.flatMap piecesOfCell ++ endTag "mtr" :: more.flatMap piecesOfRow) := by
  induction ns using cells_induct generalizing cell cells more with
  | nil =>
    obtain ⟨⟨rfl, rfl⟩, rfl⟩ : ([] = cell ∧ [] = cells) ∧ [] = more := by simpa [rows] using h
    rfl
  | cellBreak ns ih =>
    obtain ⟨cell', cells', more', h'⟩ := exists_rows_eq ns
    rw [rows_cellBreak h'] at h
    obtain ⟨⟨rfl, rfl⟩, rfl⟩ : ([] = cell ∧ cell' :: cells' = cells) ∧ more' = more := by
      simpa using h
    have hrest := ih h'
    rw [piecesOfCells, List.cons_append, List.cons_append, hrest, piecesAll, List.nil_append,
      List.flatMap_cons, piecesOfCell, wrap]
    simp only [List.cons_append, List.append_assoc, List.nil_append]
  | lineBreak ns ih =>
    obtain ⟨cell', cells', more', h'⟩ := exists_rows_eq ns
    rw [rows_lineBreak, h'] at h
    obtain ⟨⟨rfl, rfl⟩, rfl⟩ :
        ([] = cell ∧ [] = cells) ∧ (cell' :: cells') :: more' = more := by simpa using h
    have hrest := ih h'
    rw [piecesOfCells, List.cons_append, List.cons_append, List.cons_append, List.cons_append,
      hrest, piecesAll, List.nil_append, List.flatMap_nil, List.nil_append, List.flatMap_cons,
      piecesOfRow, wrap, List.flatMap_cons, piecesOfCell, wrap]
    simp only [List.cons_append, List.append_assoc, List.nil_append]
  | content n ns hc hl ih =>
    obtain ⟨cell', cells', more', h'⟩ := exists_rows_eq ns
    rw [rows_cons hc hl h'] at h
    obtain ⟨⟨rfl, rfl⟩, rfl⟩ : (n :: cell' = cell ∧ cells' = cells) ∧ more' = more := by
      simpa using h
    have hrest := ih h'
    have hn : piecesOfCells (n :: ns) = n.pieces ++ piecesOfCells ns := by
      rw [piecesOfCells]
      · exact hc
      · exact hl
    rw [hn, List.append_assoc, hrest, piecesAll, List.append_assoc]

/-- The pieces of a table are those of its rows. -/
theorem pieces_table (cells : List Markup) (align columnLines : Bytes) :
    pieces (.table cells align columnLines) =
      wrap "mtable" (tableAttributes align columnLines) ((rows cells).flatMap piecesOfRow) := by
  obtain ⟨cell, row, more, h⟩ := exists_rows_eq cells
  have hcells : piecesOfCells cells ++ [endTag "mtd", endTag "mtr", endTag "mtable"] =
      (piecesOfCells cells ++ [endTag "mtd", endTag "mtr"]) ++ [endTag "mtable"] := by
    rw [List.append_assoc]
    rfl
  rw [pieces, hcells, piecesOfCells_eq h, h, wrap, List.flatMap_cons, piecesOfRow, wrap,
    List.flatMap_cons, piecesOfCell, wrap]
  simp only [List.cons_append, List.append_assoc, List.nil_append]

/-! ### Attributes -/

theorem attr_eq (name : String) (value : Bytes) :
    attr name value = written [(utf8 name, value)] := by
  rw [written, List.flatMap_singleton]
  rfl

theorem written_append (as bs : List (Bytes × Bytes)) :
    written (as ++ bs) = written as ++ written bs :=
  List.flatMap_append

theorem flag_eq (name : String) (value : Bool) :
    flag name value = written (flagPairs name value) := by
  cases value with
  | true => exact attr_eq name _
  | false => rfl

theorem variantAttribute_eq (text : Bytes) (v : Variant) :
    variantAttribute text v = written (variantPairs text v) := by
  unfold variantAttribute variantPairs
  by_cases h : v = if Cluster.count text = 1 then .italic else .normal
  · rw [if_pos h, if_pos h]
    rfl
  · rw [if_neg h, if_neg h]
    exact attr_eq _ _

theorem operatorAttributes_eq (f : OperatorForm) :
    operatorAttributes f = written (operatorPairs f) := by
  unfold operatorAttributes operatorPairs
  simp only [written_append, ← flag_eq]
  split
  · rfl
  · rw [attr_eq, attr_eq, ← written_append]
    rfl

theorem tableAttributes_eq (align columnLines : Bytes) :
    tableAttributes align columnLines = written (tablePairs align columnLines) := by
  unfold tableAttributes tablePairs
  rw [written_append]
  congr 1
  · split
    · rfl
    · exact attr_eq _ _
  · split
    · rfl
    · exact attr_eq _ _

theorem thicknessAttribute_eq (t : Thickness) :
    thicknessAttribute t = written (thicknessPairs t) := by
  cases t with
  | medium => rfl
  | zero => exact attr_eq _ _

theorem rootAttributes_eq (display : Display) :
    rootAttributes display = written (rootPairs display) := by
  cases display <;> decide

theorem areAttributes_append {as bs : List (Bytes × Bytes)} (ha : AreAttributes as)
    (hb : AreAttributes bs) : AreAttributes (as ++ bs) :=
  List.forall_mem_append.mpr ⟨ha, hb⟩

theorem areAttributes_cons {name : String} {value : Bytes} {as : List (Bytes × Bytes)}
    (hn : IsName (utf8 name) = true) (hv : IsValue value) (ha : AreAttributes as) :
    AreAttributes ((utf8 name, value) :: as) :=
  List.forall_mem_cons.mpr ⟨⟨hn, hv⟩, ha⟩

theorem areAttributes_flagPairs (name : String) (hn : IsName (utf8 name) = true) (value : Bool) :
    AreAttributes (flagPairs name value) := by
  cases value with
  | true => exact areAttributes_cons hn (by decide) areAttributes_nil
  | false => exact areAttributes_nil

theorem areAttributes_variantPairs (text : Bytes) (v : Variant) :
    AreAttributes (variantPairs text v) := by
  have hnormal : IsValue (utf8 "normal") := by decide
  have hv : IsValue v.name := by
    cases v with
    | unnamed _ => exact hnormal
    | _ => decide
  unfold variantPairs
  by_cases h : v = if Cluster.count text = 1 then .italic else .normal
  · rw [if_pos h]
    exact areAttributes_nil
  · rw [if_neg h]
    exact areAttributes_cons (by decide) hv areAttributes_nil

theorem areAttributes_operatorPairs {f : OperatorForm} (hf : IsValue f.size) :
    AreAttributes (operatorPairs f) := by
  unfold operatorPairs
  refine areAttributes_append (areAttributes_append (areAttributes_append (areAttributes_append
    ?_ ?_) ?_) ?_) ?_
  · exact areAttributes_flagPairs _ (by decide) _
  · exact areAttributes_flagPairs _ (by decide) _
  · exact areAttributes_flagPairs _ (by decide) _
  · exact areAttributes_flagPairs _ (by decide) _
  · split
    · exact areAttributes_nil
    · exact areAttributes_cons (by decide) hf (areAttributes_cons (by decide) hf areAttributes_nil)

theorem areAttributes_tablePairs {align columnLines : Bytes} (ha : IsValue align)
    (hl : IsValue columnLines) : AreAttributes (tablePairs align columnLines) := by
  unfold tablePairs
  refine areAttributes_append ?_ ?_
  · split
    · exact areAttributes_nil
    · exact areAttributes_cons (by decide) ha areAttributes_nil
  · split
    · exact areAttributes_nil
    · exact areAttributes_cons (by decide) hl areAttributes_nil

theorem areAttributes_thicknessPairs (t : Thickness) : AreAttributes (thicknessPairs t) := by
  cases t with
  | medium => exact areAttributes_nil
  | zero => exact areAttributes_cons (by decide) (by decide) areAttributes_nil

theorem areAttributes_rootPairs (display : Display) : AreAttributes (rootPairs display) := by
  cases display with
  | inline => exact areAttributes_cons (by decide) (by decide) areAttributes_nil
  | block =>
    exact areAttributes_cons (by decide) (by decide)
      (areAttributes_cons (by decide) (by decide) areAttributes_nil)

/-! ### Numbers as attribute values -/

theorem isValue_append {s t : Bytes} (hs : IsValue s) (ht : IsValue t) : IsValue (s ++ t) :=
  List.forall_mem_append.mpr ⟨hs, ht⟩

/-- The bytes that numbers are written with. -/
def isNumeral (b : UInt8) : Bool :=
  Byte.isDigit b || (utf8 ".+-NaInf").contains b

theorem ne_of_isNumeral {b c : UInt8} (hb : isNumeral b = true) (hc : isNumeral c = false) :
    b ≠ c := by
  rintro rfl
  rw [hb] at hc
  cases hc

theorem isNumeral_replicate_zero (n : Nat) :
    ∀ b ∈ List.replicate n (ascii '0'), isNumeral b = true := by
  intro b hb
  rw [List.eq_of_mem_replicate hb]
  decide

theorem isNumeral_ofNat (n : Nat) : ∀ b ∈ Bytes.ofNat n, isNumeral b = true := by
  intro b hb
  obtain ⟨c, hc, rfl⟩ := List.mem_map.mp hb
  have hdigit : c.isDigit = true := Nat.isDigit_of_mem_toDigits (by decide) (by decide) hc
  simp only [Char.isDigit, Bool.and_eq_true, decide_eq_true_eq, UInt32.le_iff_toNat_le] at hdigit
  have hlow : 48 ≤ c.toNat := hdigit.1
  have hhigh : c.toNat ≤ 57 := hdigit.2
  have hb : (ascii c).toNat = c.toNat := by
    rw [ascii, Nat.toUInt8_eq, UInt8.toNat_ofNat']
    omega
  have hbyte : Byte.isDigit (ascii c) = true := by
    simp only [Byte.isDigit, Bool.and_eq_true, decide_eq_true_eq, UInt8.le_iff_toNat_le, hb]
    exact ⟨hlow, hhigh⟩
  rw [isNumeral, hbyte]
  rfl

theorem isNumeral_plain (d : Decimal) : ∀ b ∈ d.plain, isNumeral b = true := by
  have hdigits := isNumeral_ofNat d.digits
  have hzero : ∀ b ∈ utf8 "0.", isNumeral b = true := List.all_eq_true.mp (by decide)
  unfold Decimal.plain
  split
  · exact hdigits
  · split
    · exact List.forall_mem_append.mpr ⟨hdigits, isNumeral_replicate_zero _⟩
    · dsimp only
      split
      · refine List.forall_mem_append.mpr ⟨fun b hb => hdigits b (List.mem_of_mem_take hb), ?_⟩
        exact List.forall_mem_cons.mpr ⟨rfl, fun b hb => hdigits b (List.mem_of_mem_drop hb)⟩
      · refine List.forall_mem_append.mpr ⟨?_, hdigits⟩
        exact List.forall_mem_append.mpr ⟨hzero, isNumeral_replicate_zero _⟩

theorem isNumeral_text (x : Binary32) : ∀ b ∈ x.text, isNumeral b = true := by
  cases x with
  | nan => exact List.all_eq_true.mp (by decide)
  | infinite negative => cases negative <;> exact List.all_eq_true.mp (by decide)
  | finite negative m e =>
    unfold Binary32.text Binary32.textWith
    dsimp only
    split
    · exact List.forall_mem_cons.mpr ⟨rfl, isNumeral_plain _⟩
    · exact isNumeral_plain _

/-- The text of every number can stand between quotes. -/
theorem isValue_text (x : Binary32) : IsValue x.text := by
  intro b hb
  have hnumeral := isNumeral_text x b hb
  exact ⟨ne_of_isNumeral hnumeral rfl, ne_of_isNumeral hnumeral rfl, ne_of_isNumeral hnumeral rfl⟩

/-! ### Reading back -/

/-- The strings of a node that are written as attribute values can stand between
quotes. -/
def PlainHere : Markup → Prop
  | .operator _ form => IsValue form.size
  | .table _ align columnLines => IsValue align ∧ IsValue columnLines
  | _ => True

/-- All strings of a tree that are written as attribute values can stand between
quotes. -/
def HasPlainValues (m : Markup) : Prop :=
  ∀ n, Within children n m → n.PlainHere

theorem hasPlainValues_iff {m : Markup} :
    m.HasPlainValues ↔ m.PlainHere ∧ ∀ c ∈ m.children, c.HasPlainValues :=
  forall_within_iff

theorem reads_piecesAll {ms : List Markup} (h : ∀ m ∈ ms, Reads m.pieces m.elements) :
    Reads (piecesAll ms) (elementsAll ms) := by
  rw [piecesAll_eq, elementsAll_eq]
  exact .flatMap h

theorem reads_pair {m n : Markup} (h : ∀ c ∈ [m, n], Reads c.pieces c.elements) :
    Reads (m.pieces ++ n.pieces) (m.elements ++ n.elements) :=
  (h m (by simp)).append (h n (by simp))

theorem reads_triple {m n k : Markup} (h : ∀ c ∈ [m, n, k], Reads c.pieces c.elements) :
    Reads (m.pieces ++ n.pieces ++ k.pieces) (m.elements ++ n.elements ++ k.elements) :=
  ((h m (by simp)).append (h n (by simp))).append (h k (by simp))

/-- An element without attributes. -/
theorem reads_wrap {name : String} (hn : IsName (utf8 name) = true) {ps : List Bytes}
    {cs : List Content} (h : Reads ps cs) : Reads (wrap name [] ps) [node name [] cs] :=
  Reads.wrap hn areAttributes_nil h

theorem reads_fenceOperator (form : String) (hf : IsValue (utf8 form)) (glyph : Bytes) :
    Reads [fenceOperator form glyph] [fenceElement form glyph] := by
  have ha : flag "stretchy" true ++ attr "form" (utf8 form) =
      written [(utf8 "stretchy", utf8 "true"), (utf8 "form", utf8 form)] := by
    rw [flag_eq, attr_eq, ← written_append]
    rfl
  rw [fenceOperator, ha]
  exact .text (by decide)
    (areAttributes_cons (by decide) (by decide)
      (areAttributes_cons (by decide) hf areAttributes_nil))
    glyph

theorem reads_function {name : Bytes} {args : List Markup}
    (h : ∀ m ∈ args, Reads m.pieces m.elements) :
    Reads (pieces (.function name args)) (elements (.function name args)) := by
  have hname : Reads [textElement "mi" [] name] [node "mi" [] (Content.ofText name)] :=
    .text (by decide) areAttributes_nil name
  rcases args with - | ⟨arg, - | ⟨arg', args⟩⟩
  · rw [pieces, elements]
    exact hname
  · rw [pieces, elements]
    exact hname.cons (Reads.applyFunction.cons (h arg (by simp)))
  · rw [pieces, elements]
    · exact hname.cons (Reads.applyFunction.cons (reads_wrap (by decide) (reads_piecesAll h)))
    all_goals simp

theorem reads_radical {base index : Markup}
    (h : ∀ c ∈ [base, index], Reads c.pieces c.elements) :
    Reads (pieces (.radical base index)) (elements (.radical base index)) := by
  by_cases hi : index = .missing
  · subst hi
    rw [pieces, elements]
    exact reads_wrap (by decide) (h base (by simp))
  · rw [pieces, elements]
    · exact reads_wrap (by decide) (reads_pair h)
    · exact hi
    · exact hi

/-- A fence is a row: its delimiters stand at both ends of the content. -/
theorem reads_fenced {opening closing : Bytes} {content : Markup}
    (h : Reads content.pieces content.elements) :
    Reads (pieces (.fenced opening closing content))
      (elements (.fenced opening closing content)) := by
  have hinner := (reads_fenceOperator "prefix" (by decide) opening).cons
    (h.append (reads_fenceOperator "postfix" (by decide) closing))
  have hmrow : IsName (utf8 "mrow") = true := by decide
  rw [elements]
  refine (reads_wrap hmrow hinner).congr ?_
  simp only [pieces, wrap, List.flatten_cons, List.flatten_append, List.flatten_nil,
    List.append_assoc, List.append_nil, List.cons_append, List.nil_append]

theorem reads_table {cells : List Markup} {align columnLines : Bytes} (ha : IsValue align)
    (hl : IsValue columnLines) (h : ∀ m ∈ cells, Reads m.pieces m.elements) :
    Reads (pieces (.table cells align columnLines))
      (elements (.table cells align columnLines)) := by
  have hcell {cell : List Markup} (hc : ∀ m ∈ cell, Reads m.pieces m.elements) :
      Reads (piecesOfCell cell) [node "mtd" [] (elementsAll cell)] :=
    reads_wrap (by decide) (reads_piecesAll hc)
  have hrow {row : List (List Markup)} (hr : ∀ cell ∈ row, ∀ m ∈ cell, Reads m.pieces m.elements) :
      Reads (piecesOfRow row)
        [node "mtr" [] (row.map fun cell => node "mtd" [] (elementsAll cell))] := by
    rw [List.map_eq_flatMap]
    exact reads_wrap (by decide) (.flatMap fun cell hc => hcell (hr cell hc))
  rw [pieces_table, elements_table, tableAttributes_eq, List.map_eq_flatMap]
  refine .wrap (by decide) (areAttributes_tablePairs ha hl) (.flatMap fun row hr => ?_)
  exact hrow (forall_mem_rows_iff.mpr (fun m hm _ _ => h m hm) row hr)

/-- Every tree with plain attribute values is read back from its pieces. -/
theorem reads_pieces {m : Markup} (h : m.HasPlainValues) : Reads m.pieces m.elements := by
  induction m using induct with
  | step m ih =>
    obtain ⟨here, below⟩ := hasPlainValues_iff.mp h
    have ih : ∀ c ∈ m.children, Reads c.pieces c.elements := fun c hc => ih c hc (below c hc)
    -- Only an operator and a table have anything to ask of their own strings.
    cases m with
    | missing => exact .nil
    | cellBreak => exact .nil
    | root display children =>
      rw [pieces, elements, rootAttributes_eq]
      exact .wrap (by decide) (areAttributes_rootPairs display) (reads_piecesAll ih)
    | row children bracket =>
      rw [pieces, elements]
      exact reads_wrap (by decide) (reads_piecesAll ih)
    | identifier s v =>
      rw [pieces, elements, variantAttribute_eq]
      exact .text (by decide) (areAttributes_variantPairs s v) s
    | number s =>
      rw [pieces, elements]
      exact .text (by decide) areAttributes_nil s
    | operator s form =>
      rw [pieces, elements, operatorAttributes_eq]
      exact .text (by decide) (areAttributes_operatorPairs here) s
    | text s =>
      rw [pieces, elements]
      exact .text (by decide) areAttributes_nil s
    | space width =>
      rw [pieces, elements, attr_eq]
      have hvalue : IsValue (width.text ++ utf8 "em") :=
        isValue_append (isValue_text width) (by decide)
      exact .empty (by decide) (areAttributes_cons (by decide) hvalue areAttributes_nil)
    | lineBreak =>
      rw [pieces, elements, attr_eq]
      exact .empty (by decide) (areAttributes_cons (by decide) (by decide) areAttributes_nil)
    | function name args => exact reads_function ih
    | superscript base sup =>
      rw [pieces, elements]
      exact reads_wrap (by decide) (reads_pair ih)
    | subscript base sub =>
      rw [pieces, elements]
      exact reads_wrap (by decide) (reads_pair ih)
    | subSup base sub sup =>
      rw [pieces, elements]
      exact reads_wrap (by decide) (reads_triple ih)
    | overscript base above accent =>
      rw [pieces, elements, flag_eq]
      exact .wrap (by decide) (areAttributes_flagPairs _ (by decide) accent) (reads_pair ih)
    | underscript base below accent =>
      rw [pieces, elements, flag_eq]
      exact .wrap (by decide) (areAttributes_flagPairs _ (by decide) accent) (reads_pair ih)
    | underOverscript base below above accentUnder accentOver =>
      rw [pieces, elements, flag_eq, flag_eq, ← written_append]
      have hflags := areAttributes_append
        (areAttributes_flagPairs "accentunder" (by decide) accentUnder)
        (areAttributes_flagPairs "accent" (by decide) accentOver)
      exact .wrap (by decide) hflags (reads_triple ih)
    | radical base index => exact reads_radical ih
    | fraction numerator denominator thickness =>
      rw [pieces, elements, thicknessAttribute_eq]
      exact .wrap (by decide) (areAttributes_thicknessPairs thickness) (reads_pair ih)
    | fenced opening closing content => exact reads_fenced (ih content (by simp [children]))
    | table cells align columnLines => exact reads_table here.1 here.2 ih
    | styled display content =>
      rw [pieces, elements, attr_eq]
      have hvalue : IsValue (utf8 (if display = .block then "true" else "false")) := by
        cases display <;> decide
      exact .wrap (by decide) (areAttributes_cons (by decide) hvalue areAttributes_nil)
        (ih content (by simp [children]))

/-- Rendering and reading are inverse. -/
theorem read_render_eq {m : Markup} (h : m.HasPlainValues) : read m.render = some m.elements :=
  (reads_pieces h).read_eq

theorem takeWithin_of_le {ps : List Bytes} {room : Nat} (h : ps.flatten.length ≤ room) :
    takeWithin room ps = (ps.flatten, true) := by
  induction ps generalizing room with
  | nil => rfl
  | cons p ps ih =>
    rw [List.flatten_cons, List.length_append] at h
    rw [takeWithin, if_pos (by omega), ih (by omega), List.flatten_cons]

/-- With room for all of it, rendering hands over everything. -/
theorem renderWithin_of_le {m : Markup} {room : Nat} (h : m.render.length ≤ room) :
    m.renderWithin room = (m.render, true) :=
  takeWithin_of_le h

end Markup

end MathMarkup
