/-
MathMarkup/Proofs/Preview.lean

The text of a tree and the text that one sees of its elements.  A rendered tree without
its tags and with its escapes decoded (`visibleText`) is the plain text of the tree
(`visibleText_render`), except where the two go different ways by design: a root shows
its index behind its base, and the application of a function to arguments shows an
operator of its own.

`Shows s text` says that the bytes `s` show `text`, whatever stands behind them.  Tags
show nothing, escaped text shows itself, and the rest is putting the two together.  So
the proof goes through the tree, and a table through its stream of cells, without
looking at a single byte.
-/
import MathMarkup.Proofs.ReadBack

namespace MathMarkup

/-! ### What one sees -/

/-- A text without its tags, each of which goes from a `<` to the next `>`; `inside` says
that a tag has already begun. -/
def withoutTags : (inside : Bool) → Bytes → Bytes
  | _, [] => []
  | true, b :: rest => withoutTags (b != ascii '>') rest
  | false, b :: rest =>
    if b == ascii '<' then withoutTags true rest else b :: withoutTags false rest

/-- The four escapes with the bytes that they stand for. -/
def escapes : List (Bytes × UInt8) :=
  [(utf8 "&amp;", ascii '&'), (utf8 "&lt;", ascii '<'), (utf8 "&gt;", ascii '>'),
    (utf8 "&quot;", ascii '"')]

/-- A text with its escapes decoded, of which the first `passed` bytes are already
dealt with. -/
def unescapeFrom : (passed : Nat) → Bytes → Bytes
  | _, [] => []
  | passed + 1, _ :: rest => unescapeFrom passed rest
  | 0, b :: rest =>
    match escapes.find? fun e => e.1.isPrefixOf (b :: rest) with
    | some (name, c) => c :: unescapeFrom (name.length - 1) rest
    | none => b :: unescapeFrom 0 rest

/-- What one sees of a rendered text. -/
def visibleText (s : Bytes) : Bytes :=
  unescapeFrom 0 (withoutTags false s)

/-! ### Tags and escaped text -/

theorem withoutTags_tag {s : Bytes} (hs : ascii '>' ∉ s) (rest : Bytes) :
    withoutTags true (s ++ ascii '>' :: rest) = withoutTags false rest := by
  induction s with
  | nil => rfl
  | cons b s ih =>
    have hinside : (b != ascii '>') = true := by
      simpa using (List.ne_of_not_mem_cons hs).symm
    rw [List.cons_append, withoutTags, hinside, ih (List.not_mem_of_not_mem_cons hs)]

theorem withoutTags_text {s : Bytes} (hs : ascii '<' ∉ s) (rest : Bytes) :
    withoutTags false (s ++ rest) = s ++ withoutTags false rest := by
  induction s with
  | nil => rfl
  | cons b s ih =>
    have hopens : (b == ascii '<') = false := by
      simpa using (List.ne_of_not_mem_cons hs).symm
    rw [List.cons_append, withoutTags, hopens, ih (List.not_mem_of_not_mem_cons hs)]
    rfl

theorem not_mem_escapeText (s : Bytes) : ascii '<' ∉ escapeText s := by
  rw [escapeText, List.mem_flatMap]
  rintro ⟨b, -, hb⟩
  unfold escapeByte at hb
  split at hb
  · exact absurd hb (by decide)
  split at hb
  · exact absurd hb (by decide)
  · next hlt =>
    split at hb
    · exact absurd hb (by decide)
    split at hb
    · exact absurd hb (by decide)
    · obtain rfl := List.mem_singleton.mp hb
      exact hlt rfl

theorem unescapeFrom_escapeByte (b : UInt8) (rest : Bytes) :
    unescapeFrom 0 (escapeByte b ++ rest) = b :: unescapeFrom 0 rest := by
  unfold escapeByte
  simp only [beq_iff_eq]
  split
  · next h => subst h; rfl
  · next hamp =>
    split
    · next h => subst h; rfl
    split
    · next h => subst h; rfl
    split
    · next h => subst h; rfl
    · -- Every escape begins with the byte that this one is not.
      have hnone : escapes.find? (fun e => e.1.isPrefixOf (b :: rest)) = none := by
        have hb : (ascii '&' == b) = false := by simpa using Ne.symm hamp
        have hhead (name : Bytes) : (ascii '&' :: name).isPrefixOf (b :: rest) = false := by
          rw [List.isPrefixOf, hb]
          rfl
        rw [List.find?_eq_none]
        rintro e he
        simp only [escapes, List.mem_cons, List.not_mem_nil, or_false] at he
        rcases he with rfl | rfl | rfl | rfl <;> exact Bool.eq_false_iff.mp (hhead _)
      rw [List.singleton_append, unescapeFrom, hnone]

theorem unescapeFrom_escapeText (s rest : Bytes) :
    unescapeFrom 0 (escapeText s ++ rest) = s ++ unescapeFrom 0 rest := by
  induction s with
  | nil => rfl
  | cons b s ih =>
    rw [escapeText, List.flatMap_cons, List.append_assoc, unescapeFrom_escapeByte, ← escapeText, ih]
    rfl

/-! ### Bytes that show a text -/

/-- The bytes `s` show `text`, whatever follows them. -/
def Shows (s text : Bytes) : Prop :=
  ∀ rest, visibleText (s ++ rest) = text ++ visibleText rest

namespace Shows

theorem nil : Shows [] [] :=
  fun _ => rfl

theorem append {s s' text text' : Bytes} (h : Shows s text) (h' : Shows s' text') :
    Shows (s ++ s') (text ++ text') := by
  intro rest
  rw [List.append_assoc, h, h', List.append_assoc]

/-- Something that shows nothing in front. -/
theorem behind {s s' text : Bytes} (h : Shows s []) (h' : Shows s' text) :
    Shows (s ++ s') text :=
  h.append h'

/-- A tag shows nothing. -/
theorem tag {s : Bytes} (hs : ascii '>' ∉ s) : Shows (ascii '<' :: (s ++ [ascii '>'])) [] := by
  intro rest
  have htag : withoutTags false (ascii '<' :: (s ++ [ascii '>']) ++ rest) =
      withoutTags false rest := by
    rw [List.cons_append, List.append_assoc]
    exact withoutTags_tag hs rest
  rw [visibleText, htag]
  rfl

theorem escaped (s : Bytes) : Shows (escapeText s) s := by
  intro rest
  rw [visibleText, withoutTags_text (not_mem_escapeText s), unescapeFrom_escapeText]
  rfl

theorem visibleText_eq {s text : Bytes} (h : Shows s text) : visibleText s = text := by
  have hend := h []
  rw [List.append_nil] at hend
  exact hend.trans (List.append_nil text)

end Shows

namespace Markup

/-! ### Elements -/

section Elements

variable {name : String} (hname : ascii '>' ∉ utf8 name) {attributes : Bytes}
  (hattributes : ascii '>' ∉ attributes)
include hname hattributes

theorem shows_startTag : Shows (startTag name attributes) [] := by
  have hs : ascii '>' ∉ utf8 name ++ attributes := List.not_mem_append hname hattributes
  exact .tag hs

theorem shows_emptyTag : Shows (emptyTag name attributes) [] := by
  have hs : ascii '>' ∉ utf8 name ++ attributes ++ utf8 "/" :=
    List.not_mem_append (List.not_mem_append hname hattributes) (by decide)
  have htag : emptyTag name attributes =
      ascii '<' :: (utf8 name ++ attributes ++ utf8 "/" ++ [ascii '>']) := by
    rw [List.append_assoc]
    rfl
  rw [htag]
  exact .tag hs

omit hattributes in
theorem shows_endTag : Shows (endTag name) [] := by
  have hs : ascii '>' ∉ utf8 "/" ++ utf8 name := List.not_mem_append (by decide) hname
  exact .tag hs

/-- An element shows what its content shows. -/
theorem shows_wrap {content : List Bytes} {text : Bytes} (h : Shows content.flatten text) :
    Shows (wrap name attributes content).flatten text := by
  have hend := h.append (shows_endTag hname)
  rw [List.append_nil] at hend
  have hwrap : (wrap name attributes content).flatten =
      startTag name attributes ++ (content.flatten ++ endTag name) := by
    simp only [wrap, List.flatten_cons, List.flatten_append, List.flatten_nil, List.append_nil]
  rw [hwrap]
  exact (shows_startTag hname hattributes).behind hend

theorem shows_textElement (s : Bytes) : Shows (textElement name attributes s) s := by
  have hend := ((shows_startTag hname hattributes).behind (.escaped s)).append (shows_endTag hname)
  rw [List.append_nil] at hend
  exact hend

end Elements

/-! ### Attributes -/

theorem not_mem_attr {name : String} {value : Bytes} (hname : ascii '>' ∉ utf8 name)
    (hvalue : ascii '>' ∉ value) : ascii '>' ∉ attr name value := by
  have hfront : ascii '>' ∉ utf8 " " ++ utf8 name ++ utf8 "=\"" :=
    List.not_mem_append (List.not_mem_append (by decide) hname) (by decide)
  exact List.not_mem_append (List.not_mem_append hfront hvalue) (by decide)

theorem not_mem_flag {name : String} (hname : ascii '>' ∉ utf8 name) (value : Bool) :
    ascii '>' ∉ flag name value := by
  cases value with
  | true => exact not_mem_attr hname (by decide)
  | false => exact List.not_mem_nil

theorem not_mem_variantAttribute (text : Bytes) (v : Variant) :
    ascii '>' ∉ variantAttribute text v := by
  have hnormal : ascii '>' ∉ utf8 "normal" := by decide
  have hv : ascii '>' ∉ v.name := by
    cases v with
    | unnamed _ => exact hnormal
    | _ => decide
  unfold variantAttribute
  by_cases h : v = if Cluster.count text = 1 then .italic else .normal
  · rw [if_pos h]
    exact List.not_mem_nil
  · rw [if_neg h]
    exact not_mem_attr (by decide) hv

theorem not_mem_operatorAttributes {f : OperatorForm} (hsize : ascii '>' ∉ f.size) :
    ascii '>' ∉ operatorAttributes f := by
  refine List.not_mem_append (List.not_mem_append (List.not_mem_append (List.not_mem_append
    ?_ ?_) ?_) ?_) ?_
  · exact not_mem_flag (by decide) _
  · exact not_mem_flag (by decide) _
  · exact not_mem_flag (by decide) _
  · exact not_mem_flag (by decide) _
  · split
    · exact List.not_mem_nil
    · exact List.not_mem_append (not_mem_attr (by decide) hsize) (not_mem_attr (by decide) hsize)

theorem not_mem_tableAttributes {align columnLines : Bytes} (halign : ascii '>' ∉ align)
    (hlines : ascii '>' ∉ columnLines) : ascii '>' ∉ tableAttributes align columnLines := by
  refine List.not_mem_append ?_ ?_
  · split
    · exact List.not_mem_nil
    · exact not_mem_attr (by decide) halign
  · split
    · exact List.not_mem_nil
    · exact not_mem_attr (by decide) hlines

/-! ### Trees -/

/-- A string that neither begins nor ends a tag. -/
def HasNoAngles (s : Bytes) : Prop :=
  ascii '<' ∉ s ∧ ascii '>' ∉ s

/-- A node that shows its own text: no root with an index, no function with arguments, no
strings with angle brackets among its attributes. -/
def ShowsItself : Markup → Prop
  | .radical _ index => index = .missing
  | .function _ args => args = []
  | .operator _ form => HasNoAngles form.size
  | .table _ align columnLines => HasNoAngles align ∧ HasNoAngles columnLines
  | _ => True

/-- A tree of nodes that show themselves, at any depth. -/
def ShowsPlainly (m : Markup) : Prop :=
  ∀ n, Within children n m → n.ShowsItself

theorem showsPlainly_iff {m : Markup} :
    m.ShowsPlainly ↔ m.ShowsItself ∧ ∀ c ∈ m.children, c.ShowsPlainly :=
  forall_within_iff

theorem shows_piecesAll {ms : List Markup} (h : ∀ m ∈ ms, Shows m.pieces.flatten m.plainText) :
    Shows (piecesAll ms).flatten (plainTextAll ms) := by
  induction ms with
  | nil => exact .nil
  | cons m ms ih =>
    obtain ⟨hm, hms⟩ := List.forall_mem_cons.mp h
    rw [piecesAll, plainTextAll, List.flatten_append]
    exact hm.append (ih hms)

theorem shows_pair {m n : Markup} (h : ∀ c ∈ [m, n], Shows c.pieces.flatten c.plainText) :
    Shows (m.pieces ++ n.pieces).flatten (m.plainText ++ n.plainText) := by
  rw [List.flatten_append]
  exact (h m (by simp)).append (h n (by simp))

theorem shows_triple {m n k : Markup} (h : ∀ c ∈ [m, n, k], Shows c.pieces.flatten c.plainText) :
    Shows (m.pieces ++ n.pieces ++ k.pieces).flatten
      (m.plainText ++ n.plainText ++ k.plainText) := by
  rw [List.flatten_append, List.flatten_append]
  exact ((h m (by simp)).append (h n (by simp))).append (h k (by simp))

/-- The tags between the cells of a stream show nothing. -/
theorem shows_piecesOfCells {ns : List Markup}
    (h : ∀ n ∈ ns, Shows n.pieces.flatten n.plainText) :
    Shows (piecesOfCells ns).flatten (plainTextAll ns) := by
  have hcell : Shows (endTag "mtd" ++ startTag "mtd" []) [] :=
    (shows_endTag (by decide)).behind (shows_startTag (by decide) List.not_mem_nil)
  have hrow : Shows (endTag "mtr" ++ startTag "mtr" []) [] :=
    (shows_endTag (by decide)).behind (shows_startTag (by decide) List.not_mem_nil)
  induction ns using cells_induct with
  | nil => exact .nil
  | cellBreak ns ih =>
    have hlater := ih (List.forall_mem_cons.mp h).2
    rw [piecesOfCells, plainTextAll, List.flatten_cons, List.flatten_cons, ← List.append_assoc]
    exact hcell.append hlater
  | lineBreak ns ih =>
    have hlater := ih (List.forall_mem_cons.mp h).2
    have hbreak : (piecesOfCells (.lineBreak :: ns)).flatten =
        endTag "mtd" ++ ((endTag "mtr" ++ startTag "mtr" []) ++
          (startTag "mtd" [] ++ (piecesOfCells ns).flatten)) := by
      simp only [piecesOfCells, List.flatten_cons, List.append_assoc]
    rw [hbreak, plainTextAll]
    exact (shows_endTag (by decide)).behind
      (hrow.behind ((shows_startTag (by decide) List.not_mem_nil).behind hlater))
  | content n ns hc hl ih =>
    obtain ⟨hn, hns⟩ := List.forall_mem_cons.mp h
    have hpieces : piecesOfCells (n :: ns) = n.pieces ++ piecesOfCells ns := by
      rw [piecesOfCells]
      · exact hc
      · exact hl
    rw [hpieces, plainTextAll, List.flatten_append]
    exact hn.append (ih hns)

/-- A table is its stream of cells between tags. -/
theorem shows_table {cells : List Markup} {align columnLines : Bytes}
    (halign : ascii '>' ∉ align) (hlines : ascii '>' ∉ columnLines)
    (h : ∀ n ∈ cells, Shows n.pieces.flatten n.plainText) :
    Shows (pieces (.table cells align columnLines)).flatten (plainTextAll cells) := by
  have hpieces : pieces (.table cells align columnLines) =
      wrap "mtable" (tableAttributes align columnLines)
        (wrap "mtr" [] (wrap "mtd" [] (piecesOfCells cells))) := by
    rw [pieces]
    simp only [wrap, List.cons_append, List.append_assoc, List.nil_append]
  rw [hpieces]
  exact shows_wrap (by decide) (not_mem_tableAttributes halign hlines)
    (shows_wrap (by decide) List.not_mem_nil
      (shows_wrap (by decide) List.not_mem_nil (shows_piecesOfCells h)))

theorem shows_fenceOperator (form : String) (hform : ascii '>' ∉ utf8 form) (glyph : Bytes) :
    Shows (fenceOperator form glyph) glyph :=
  shows_textElement (by decide)
    (List.not_mem_append (not_mem_flag (by decide) true) (not_mem_attr (by decide) hform)) glyph

/-- A fence shows its delimiters around what its content shows. -/
theorem shows_fenced {opening closing : Bytes} {content : Markup}
    (h : Shows content.pieces.flatten content.plainText) :
    Shows (pieces (.fenced opening closing content)).flatten
      (opening ++ content.plainText ++ closing) := by
  have hpieces : (pieces (.fenced opening closing content)).flatten =
      (wrap "mrow" [] [fenceOperator "prefix" opening ++ content.pieces.flatten ++
        fenceOperator "postfix" closing]).flatten := by
    simp only [pieces, wrap, List.flatten_cons, List.flatten_append, List.flatten_nil,
      List.append_assoc, List.append_nil, List.cons_append, List.nil_append]
  rw [hpieces]
  refine shows_wrap (by decide) List.not_mem_nil ?_
  rw [List.flatten_singleton]
  exact ((shows_fenceOperator _ (by decide) _).append h).append
    (shows_fenceOperator _ (by decide) _)

/-- Every tree whose nodes show themselves shows its plain text; by induction on the
tree. -/
theorem shows_pieces {m : Markup} (h : m.ShowsPlainly) :
    Shows m.pieces.flatten m.plainText := by
  induction m using induct with
  | step m ih =>
    obtain ⟨here, below⟩ := showsPlainly_iff.mp h
    have ih : ∀ c ∈ m.children, Shows c.pieces.flatten c.plainText :=
      fun c hc => ih c hc (below c hc)
    have text {name : String} {attributes : Bytes} (hname : ascii '>' ∉ utf8 name)
        (ha : ascii '>' ∉ attributes) (s : Bytes) :
        Shows [textElement name attributes s].flatten s := by
      rw [List.flatten_singleton]
      exact shows_textElement hname ha s
    have empty {name : String} {attributes : Bytes} (hname : ascii '>' ∉ utf8 name)
        (ha : ascii '>' ∉ attributes) : Shows [emptyTag name attributes].flatten [] := by
      rw [List.flatten_singleton]
      exact shows_emptyTag hname ha
    cases m with
    | missing | cellBreak => exact .nil
    | root display children =>
      rw [pieces, plainText]
      have ha : ascii '>' ∉ rootAttributes display := by cases display <;> decide
      exact shows_wrap (by decide) ha (shows_piecesAll ih)
    | row children bracket =>
      rw [pieces, plainText]
      exact shows_wrap (by decide) List.not_mem_nil (shows_piecesAll ih)
    | identifier s v =>
      rw [pieces, plainText]
      exact text (by decide) (not_mem_variantAttribute s v) s
    | number s =>
      rw [pieces, plainText]
      exact text (by decide) List.not_mem_nil s
    | operator s form =>
      rw [pieces, plainText]
      exact text (by decide) (not_mem_operatorAttributes here.2) s
    | text s =>
      rw [pieces, plainText]
      exact text (by decide) List.not_mem_nil s
    | space width =>
      rw [pieces, plainText]
      have hwidth : ascii '>' ∉ width.text ++ utf8 "em" := by
        refine List.not_mem_append (fun hmem => ?_) (by decide)
        exact ne_of_isNumeral (isNumeral_text width _ hmem) rfl rfl
      exact empty (by decide) (not_mem_attr (by decide) hwidth)
    | lineBreak =>
      rw [pieces, plainText]
      exact empty (by decide) (not_mem_attr (by decide) (by decide))
    | function name args =>
      obtain rfl : args = [] := here
      rw [pieces, plainText, plainTextAll, List.append_nil]
      exact text (by decide) List.not_mem_nil name
    | superscript base sup =>
      rw [pieces, plainText]
      exact shows_wrap (by decide) List.not_mem_nil (shows_pair ih)
    | subscript base sub =>
      rw [pieces, plainText]
      exact shows_wrap (by decide) List.not_mem_nil (shows_pair ih)
    | subSup base sub sup =>
      rw [pieces, plainText]
      exact shows_wrap (by decide) List.not_mem_nil (shows_triple ih)
    | overscript base above accent =>
      rw [pieces, plainText]
      exact shows_wrap (by decide) (not_mem_flag (by decide) accent) (shows_pair ih)
    | underscript base below accent =>
      rw [pieces, plainText]
      exact shows_wrap (by decide) (not_mem_flag (by decide) accent) (shows_pair ih)
    | underOverscript base below above accentUnder accentOver =>
      rw [pieces, plainText]
      have hflags : ascii '>' ∉ flag "accentunder" accentUnder ++ flag "accent" accentOver :=
        List.not_mem_append (not_mem_flag (by decide) accentUnder)
          (not_mem_flag (by decide) accentOver)
      exact shows_wrap (by decide) hflags (shows_triple ih)
    | radical base index =>
      obtain rfl : index = .missing := here
      rw [pieces, plainText, plainText, List.nil_append]
      exact shows_wrap (by decide) List.not_mem_nil (ih base (by simp [children]))
    | fraction numerator denominator thickness =>
      rw [pieces, plainText]
      have ha : ascii '>' ∉ thicknessAttribute thickness := by cases thickness <;> decide
      exact shows_wrap (by decide) ha (shows_pair ih)
    | fenced opening closing content =>
      rw [plainText]
      exact shows_fenced (ih content (by simp [children]))
    | table cells align columnLines =>
      rw [plainText]
      exact shows_table here.1.2 here.2.2 ih
    | styled display content =>
      rw [pieces, plainText]
      have hvalue : ascii '>' ∉ utf8 (if display = .block then "true" else "false") := by
        cases display <;> decide
      exact shows_wrap (by decide) (not_mem_attr (by decide) hvalue)
        (ih content (by simp [children]))

/-- **What one sees of a rendered tree is its plain text.** -/
theorem visibleText_render {m : Markup} (h : m.ShowsPlainly) :
    visibleText m.render = m.plainText :=
  (shows_pieces h).visibleText_eq

/-- A table with texts that look like an escape and like tags, and with nothing in the
fence of a cell. -/
theorem visibleText_render_table :
    let m : Markup := .table
      [.text (utf8 "&lt;"), .cellBreak, .radical (.fenced (utf8 "</mo>") [] .missing) .missing,
        .lineBreak, .operator (utf8 ">\"") { size := utf8 "1.2em" }]
      (utf8 "left") (utf8 "none")
    m.ShowsPlainly ∧ visibleText m.render = utf8 "&lt;</mo>>\"" := by
  intro m
  have hleaf {c : Markup} (hc : c.ShowsItself) (hchildren : c.children = []) : c.ShowsPlainly :=
    showsPlainly_iff.mpr ⟨hc, hchildren ▸ List.forall_mem_nil _⟩
  have hmissing : Markup.missing.ShowsPlainly := hleaf trivial rfl
  have hfence : (Markup.fenced (utf8 "</mo>") [] .missing).ShowsPlainly :=
    showsPlainly_iff.mpr ⟨trivial, List.forall_mem_singleton.mpr hmissing⟩
  have hm : m.ShowsPlainly := by
    refine showsPlainly_iff.mpr ⟨⟨⟨by decide, by decide⟩, by decide, by decide⟩, ?_⟩
    rintro c (_ | ⟨_, _ | ⟨_, _ | ⟨_, _ | ⟨_, _ | ⟨_, ⟨⟩⟩⟩⟩⟩⟩)
    · exact hleaf trivial rfl
    · exact hleaf trivial rfl
    · refine showsPlainly_iff.mpr ⟨rfl, ?_⟩
      exact List.forall_mem_cons.mpr ⟨hfence, List.forall_mem_singleton.mpr hmissing⟩
    · exact hleaf trivial rfl
    · exact hleaf ⟨by decide, by decide⟩ rfl
  exact ⟨hm, visibleText_render hm⟩

end Markup

end MathMarkup
