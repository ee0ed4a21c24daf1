/-
MathMarkup/Proofs/Reader.lean

A plain reader of markup.  It knows start tags with double-quoted attributes,
tags without content, end tags, and the five references that a renderer uses;
it knows nothing of what the names mean.  Every end tag has to carry the name
of the innermost open element, so that reading succeeds only where all tags are
balanced, and nothing but `<` and `&` is special in a text.

The reader is a machine that takes one byte at a time, with the elements around
the current place on a stack.  Reading a text in two parts is reading the first
and then the second (`Reader.run_append`), which is all that the lemmas below
need: each says where a piece of markup takes a reader, whatever comes before
and behind it.  They are stated of the pieces that `Markup.pieces` is made of,
with the attributes of a tag as a list of names and values (`written`).
-/
import MathMarkup.Markup.Render

namespace MathMarkup

/-- Markup as it was read: a run of text, or an element around its content. -/
inductive Content
  | text (s : Bytes)
  | element (name : Bytes) (attributes : List (Bytes × Bytes)) (content : List Content)

/-- The content of an element with a text in it; an empty text is none. -/
def Content.ofText (s : Bytes) : List Content :=
  if s.isEmpty then [] else [.text s]

/-! ### The machine -/

/-- A start tag: the name of an element and its attributes in order. -/
structure Tag where
  name : Bytes
  attributes : List (Bytes × Bytes)

/-- The element of a tag around some content. -/
def Tag.element (tag : Tag) (content : List Content) : Content :=
  .element tag.name tag.attributes content

/-- Where in the markup a reader stands. -/
inductive Place
  /-- Between tags. -/
  | content
  /-- Behind `&`, in the name of a reference. -/
  | reference (name : Bytes)
  /-- Right behind `<`. -/
  | opened
  /-- In the name of a start tag. -/
  | startName (name : Bytes)
  /-- In the name of an end tag. -/
  | endName (name : Bytes)
  /-- In the name of an attribute. -/
  | attribute (tag : Tag) (name : Bytes)
  /-- Behind the equals sign of an attribute. -/
  | equals (tag : Tag) (name : Bytes)
  /-- In the value of an attribute. -/
  | value (tag : Tag) (name value : Bytes)
  /-- Behind the value of an attribute. -/
  | behind (tag : Tag)
  /-- Behind the slash of a tag without content. -/
  | slash (tag : Tag)

/-- A reader: its place, the text since the last tag, the content before that
text, and the open elements, each with the content in front of it. -/
structure Reader where
  place : Place
  text : Bytes
  content : List Content
  around : List (Tag × List Content)

namespace Reader

/-- What a reference stands for. -/
def reference? (name : Bytes) : Option Bytes :=
  if name = utf8 "amp" then some (utf8 "&")
  else if name = utf8 "lt" then some (utf8 "<")
  else if name = utf8 "gt" then some (utf8 ">")
  else if name = utf8 "quot" then some (utf8 "\"")
  else if name = utf8 "#x2061" then some (utf8 "\u2061")
  else none

/-- A reader between tags, behind some content. -/
def between (content : List Content) (around : List (Tag × List Content)) : Reader :=
  ⟨.content, [], content, around⟩

/-- Behind a start tag. -/
def enter (r : Reader) (tag : Tag) : Reader :=
  between [] ((tag, r.content) :: r.around)

/-- Behind an end tag, which must belong to the innermost open element. -/
def leave (r : Reader) (name : Bytes) : Option Reader :=
  match r.around with
  | [] => none
  | (tag, before) :: around =>
    if tag.name = name then some (between (before ++ [tag.element r.content]) around) else none

/-- The reader behind one more byte. -/
def step (r : Reader) (b : UInt8) : Option Reader :=
  match r.place with
  | .content =>
    if b = ascii '<' then
      some { r with place := .opened, text := [], content := r.content ++ Content.ofText r.text }
    else if b = ascii '&' then some { r with place := .reference [] }
    else some { r with text := r.text ++ [b] }
  | .reference name =>
    if b = ascii ';' then
      (reference? name).map fun s => { r with place := .content, text := r.text ++ s }
    else some { r with place := .reference (name ++ [b]) }
  | .opened =>
    if b = ascii '/' then some { r with place := .endName [] }
    else if Byte.isLetter b then some { r with place := .startName [b] }
    else none
  | .startName name =>
    if Byte.isLetter b then some { r with place := .startName (name ++ [b]) }
    else if b = ascii ' ' then some { r with place := .attribute ⟨name, []⟩ [] }
    else if b = ascii '>' then some (r.enter ⟨name, []⟩)
    else if b = ascii '/' then some { r with place := .slash ⟨name, []⟩ }
    else none
  | .endName name =>
    if Byte.isLetter b then some { r with place := .endName (name ++ [b]) }
    else if b = ascii '>' then r.leave name
    else none
  | .attribute tag name =>
    if Byte.isLetter b then some { r with place := .attribute tag (name ++ [b]) }
    else if b = ascii '=' then some { r with place := .equals tag name }
    else none
  | .equals tag name =>
    if b = ascii '"' then some { r with place := .value tag name [] } else none
  | .value tag name value =>
    if b = ascii '"' then
      some { r with place := .behind ⟨tag.name, tag.attributes ++ [(name, value)]⟩ }
    else if b = ascii '<' ∨ b = ascii '&' then none
    else some { r with place := .value tag name (value ++ [b]) }
  | .behind tag =>
    if b = ascii ' ' then some { r with place := .attribute tag [] }
    else if b = ascii '>' then some (r.enter tag)
    else if b = ascii '/' then some { r with place := .slash tag }
    else none
  | .slash tag =>
    if b = ascii '>' then some (between (r.content ++ [tag.element []]) r.around) else none

/-- The reader behind some bytes, if they can be read. -/
def run : Reader → Bytes → Option Reader
  | r, [] => some r
  | r, b :: s => (r.step b).bind fun r => run r s

/-- The content read, once everything that was opened is closed. -/
def finish (r : Reader) : Option (List Content) :=
  match r.place, r.around with
  | .content, [] => some (r.content ++ Content.ofText r.text)
  | _, _ => none

/-- Reads markup. -/
def read (s : Bytes) : Option (List Content) :=
  ((between [] []).run s).bind finish

/-! ### Reading in parts -/

theorem run_append (r : Reader) (s t : Bytes) :
    r.run (s ++ t) = (r.run s).bind fun r => r.run t := by
  induction s generalizing r with
  | nil => rfl
  | cons b s ih =>
    rw [List.cons_append, run, run]
    rcases r.step b with - | r'
    · rfl
    · exact ih r'

theorem run_append_of {r r' : Reader} {s : Bytes} (h : r.run s = some r') (t : Bytes) :
    r.run (s ++ t) = r'.run t := by
  rw [run_append, h]
  rfl

theorem run_cons_of {r r' : Reader} {b : UInt8} (h : r.step b = some r') (s : Bytes) :
    r.run (b :: s) = r'.run s := by
  rw [run, h]
  rfl

/-- A place that collects bytes of some kind goes on collecting them. -/
theorem run_collect {f : Bytes → Place} {p : UInt8 → Prop}
    (hstep : ∀ (r : Reader) (name : Bytes) (b : UInt8), p b →
      { r with place := f name }.step b = some { r with place := f (name ++ [b]) })
    (r : Reader) (name : Bytes) {s : Bytes} (hs : ∀ b ∈ s, p b) :
    { r with place := f name }.run s = some { r with place := f (name ++ s) } := by
  induction s generalizing name with
  | nil => rw [List.append_nil]; rfl
  | cons b s ih =>
    obtain ⟨hb, hs⟩ := List.forall_mem_cons.mp hs
    rw [run_cons_of (hstep r name b hb), ih (name ++ [b]) hs, List.append_assoc]
    rfl

/-! ### Text -/

/-- An escaped byte reads as the byte. -/
theorem run_escapeByte (t : Bytes) (c : List Content) (o : List (Tag × List Content))
    (b : UInt8) :
    (Reader.mk .content t c o).run (escapeByte b) = some ⟨.content, t ++ [b], c, o⟩ := by
  unfold escapeByte
  simp only [beq_iff_eq]
  split
  · next h => subst h; rfl
  · next hamp =>
    split
    · next h => subst h; rfl
    · next hlt =>
      split
      · next h => subst h; rfl
      · split
        · next h => subst h; rfl
        · have hb : (Reader.mk .content t c o).step b = some ⟨.content, t ++ [b], c, o⟩ :=
            (if_neg hlt).trans (if_neg hamp)
          exact run_cons_of hb []

/-- Escaped text reads as the text, byte for byte. -/
theorem run_escapeText (t s : Bytes) (c : List Content) (o : List (Tag × List Content)) :
    (Reader.mk .content t c o).run (escapeText s) = some ⟨.content, t ++ s, c, o⟩ := by
  induction s generalizing t with
  | nil => rw [List.append_nil]; rfl
  | cons b s ih =>
    rw [escapeText, List.flatMap_cons, run_append_of (run_escapeByte t c o b)]
    rw [← escapeText, ih, List.append_assoc]
    rfl

/-! ### Tags -/

/-- A name of tags and attributes: one letter or more. -/
def IsName (s : Bytes) : Bool :=
  !s.isEmpty && s.all Byte.isLetter

/-- A value that can stand between quotes as it is. -/
def IsValue (s : Bytes) : Prop :=
  ∀ b ∈ s, b ≠ ascii '"' ∧ b ≠ ascii '<' ∧ b ≠ ascii '&'

-- Goes through the bytes of the value, not through all bytes there are.
instance : DecidablePred IsValue := fun s => List.decidableBAll _ s

/-- Attributes as they stand in a tag. -/
def written (attributes : List (Bytes × Bytes)) : Bytes :=
  attributes.flatMap fun (name, value) =>
    utf8 " " ++ name ++ utf8 "=\"" ++ value ++ utf8 "\""

/-- Attributes that can be read back. -/
def AreAttributes (attributes : List (Bytes × Bytes)) : Prop :=
  ∀ a ∈ attributes, IsName a.1 = true ∧ IsValue a.2

theorem areAttributes_nil : AreAttributes [] :=
  List.forall_mem_nil _

/-- The place behind the part of a start tag that was read so far. -/
def inTag (tag : Tag) : Place :=
  match tag.attributes with
  | [] => .startName tag.name
  | _ => .behind tag

theorem step_inTag_blank (r : Reader) (tag : Tag) :
    { r with place := inTag tag }.step (ascii ' ') =
      some { r with place := .attribute tag [] } := by
  obtain ⟨name, - | ⟨a, as⟩⟩ := tag <;> rfl

theorem step_inTag_close (r : Reader) (tag : Tag) :
    { r with place := inTag tag }.step (ascii '>') = some (r.enter tag) := by
  obtain ⟨name, - | ⟨a, as⟩⟩ := tag <;> rfl

theorem step_inTag_slash (r : Reader) (tag : Tag) :
    { r with place := inTag tag }.step (ascii '/') = some { r with place := .slash tag } := by
  obtain ⟨name, - | ⟨a, as⟩⟩ := tag <;> rfl

theorem mem_of_isName {s : Bytes} (h : IsName s = true) : ∀ b ∈ s, Byte.isLetter b = true := by
  simp only [IsName, Bool.and_eq_true, List.all_eq_true] at h
  exact h.2

/-- One attribute is added to those read before it. -/
theorem run_attribute (r : Reader) (tag : Tag) {name value : Bytes} (hn : IsName name = true)
    (hv : IsValue value) :
    { r with place := inTag tag }.run (utf8 " " ++ name ++ utf8 "=\"" ++ value ++ utf8 "\"") =
      some { r with place := inTag ⟨tag.name, tag.attributes ++ [(name, value)]⟩ } := by
  have hblank : { r with place := inTag tag }.run (utf8 " ") =
      some { r with place := .attribute tag [] } :=
    run_cons_of (step_inTag_blank r tag) []
  have hname : { r with place := .attribute tag [] }.run name =
      some { r with place := .attribute tag name } := by
    refine run_collect (p := fun b => Byte.isLetter b = true) ?_ r [] (mem_of_isName hn)
    intro r name b hb
    exact if_pos hb
  have hequals : { r with place := .attribute tag name }.run (utf8 "=\"") =
      some { r with place := .value tag name [] } := rfl
  have hvalue : { r with place := .value tag name [] }.run value =
      some { r with place := .value tag name value } := by
    refine run_collect ?_ r [] hv
    intro r value b hb
    have hplain : ¬ (b = ascii '<' ∨ b = ascii '&') := by
      rintro (h | h)
      · exact hb.2.1 h
      · exact hb.2.2 h
    exact (if_neg hb.1).trans (if_neg hplain)
  have hbehind : inTag ⟨tag.name, tag.attributes ++ [(name, value)]⟩ =
      .behind ⟨tag.name, tag.attributes ++ [(name, value)]⟩ := by
    obtain ⟨n, - | ⟨a, as⟩⟩ := tag <;> rfl
  rw [List.append_assoc, List.append_assoc, List.append_assoc]
  rw [run_append_of hblank, run_append_of hname, run_append_of hequals, run_append_of hvalue,
    hbehind]
  rfl

theorem run_written (r : Reader) (tag : Tag) {as : List (Bytes × Bytes)} (ha : AreAttributes as) :
    { r with place := inTag tag }.run (written as) =
      some { r with place := inTag ⟨tag.name, tag.attributes ++ as⟩ } := by
  induction as generalizing tag with
  | nil => rw [List.append_nil]; rfl
  | cons a as ih =>
    obtain ⟨⟨hn, hv⟩, ha⟩ := List.forall_mem_cons.mp ha
    rw [written, List.flatMap_cons, run_append_of (run_attribute r tag hn hv)]
    rw [← written, ih _ ha, List.append_assoc]
    rfl

/-- A tag up to its last bracket; the text in front of it is content by then. -/
theorem run_tag {name : String} {as : List (Bytes × Bytes)} (hn : IsName (utf8 name) = true)
    (ha : AreAttributes as) (t : Bytes) (c : List Content) (o : List (Tag × List Content)) :
    (Reader.mk .content t c o).run (utf8 "<" ++ utf8 name ++ written as) =
      some ⟨inTag ⟨utf8 name, as⟩, [], c ++ Content.ofText t, o⟩ := by
  have hopened : (Reader.mk .content t c o).run (utf8 "<") =
      some ⟨.opened, [], c ++ Content.ofText t, o⟩ := rfl
  have hname : (Reader.mk .opened [] (c ++ Content.ofText t) o).run (utf8 name) =
      some ⟨inTag ⟨utf8 name, []⟩, [], c ++ Content.ofText t, o⟩ := by
    rcases hs : utf8 name with - | ⟨b, s⟩
    · rw [hs] at hn
      cases hn
    · rw [hs] at hn
      obtain ⟨hb, hs⟩ := List.forall_mem_cons.mp (mem_of_isName hn)
      have hslash : b ≠ ascii '/' := by
        rintro rfl
        cases hb
      have hstep : (Reader.mk .opened [] (c ++ Content.ofText t) o).step b =
          some ⟨.startName [b], [], c ++ Content.ofText t, o⟩ :=
        (if_neg hslash).trans (if_pos hb)
      rw [run_cons_of hstep]
      refine run_collect (f := .startName) (p := fun b => Byte.isLetter b = true) ?_
        ⟨.opened, [], c ++ Content.ofText t, o⟩ [b] hs
      intro r name b hb
      exact if_pos hb
  rw [List.append_assoc, run_append_of hopened, run_append_of hname]
  exact run_written ⟨.content, [], c ++ Content.ofText t, o⟩ ⟨utf8 name, []⟩ ha

/-- A start tag opens an element. -/
theorem run_startTag {name : String} {as : List (Bytes × Bytes)} (hn : IsName (utf8 name) = true)
    (ha : AreAttributes as) (c : List Content) (o : List (Tag × List Content)) :
    (between c o).run (Markup.startTag name (written as)) =
      some (between [] ((⟨utf8 name, as⟩, c) :: o)) := by
  have hc : c ++ Content.ofText [] = c := List.append_nil c
  have htag := run_tag hn ha [] c o
  rw [hc] at htag
  rw [Markup.startTag, between, run_append_of htag]
  exact run_cons_of (step_inTag_close ⟨.content, [], c, o⟩ ⟨utf8 name, as⟩) []

/-- A tag without content is an element. -/
theorem run_emptyTag {name : String} {as : List (Bytes × Bytes)} (hn : IsName (utf8 name) = true)
    (ha : AreAttributes as) (c : List Content) (o : List (Tag × List Content)) :
    (between c o).run (Markup.emptyTag name (written as)) =
      some (between (c ++ [.element (utf8 name) as []]) o) := by
  have hc : c ++ Content.ofText [] = c := List.append_nil c
  have htag := run_tag hn ha [] c o
  rw [hc] at htag
  rw [Markup.emptyTag, between, run_append_of htag]
  exact run_cons_of (step_inTag_slash ⟨.content, [], c, o⟩ ⟨utf8 name, as⟩) [ascii '>']

/-- An end tag closes the element that it names. -/
theorem run_endTag {name : String} (hn : IsName (utf8 name) = true) (t : Bytes)
    (c before : List Content) (as : List (Bytes × Bytes)) (o : List (Tag × List Content)) :
    (Reader.mk .content t c ((⟨utf8 name, as⟩, before) :: o)).run (Markup.endTag name) =
      some (between (before ++ [.element (utf8 name) as (c ++ Content.ofText t)]) o) := by
  let r : Reader := ⟨.content, [], c ++ Content.ofText t, (⟨utf8 name, as⟩, before) :: o⟩
  have hopened : (Reader.mk .content t c ((⟨utf8 name, as⟩, before) :: o)).run (utf8 "</") =
      some { r with place := .endName [] } := rfl
  have hname : { r with place := .endName [] }.run (utf8 name) =
      some { r with place := .endName (utf8 name) } := by
    refine run_collect (f := .endName) (p := fun b => Byte.isLetter b = true) ?_ r []
      (mem_of_isName hn)
    intro r name b hb
    exact if_pos hb
  have hleave : { r with place := .endName (utf8 name) }.step (ascii '>') =
      some (between (before ++ [.element (utf8 name) as (c ++ Content.ofText t)]) o) :=
    if_pos rfl
  rw [Markup.endTag, List.append_assoc, run_append_of hopened, run_append_of hname]
  exact run_cons_of hleave []

/-- An element around a text. -/
theorem run_textElement {name : String} {as : List (Bytes × Bytes)}
    (hn : IsName (utf8 name) = true) (ha : AreAttributes as) (s : Bytes) (c : List Content)
    (o : List (Tag × List Content)) :
    (between c o).run (Markup.textElement name (written as) s) =
      some (between (c ++ [.element (utf8 name) as (Content.ofText s)]) o) := by
  rw [Markup.textElement, List.append_assoc, run_append_of (run_startTag hn ha c o), between,
    run_append_of (run_escapeText [] s [] _)]
  exact run_endTag hn s [] c as o

/-! ### Pieces -/

/-- A reader takes pieces for some content, whatever is before and around it. -/
def Reads (pieces : List Bytes) (content : List Content) : Prop :=
  ∀ c o, (between c o).run pieces.flatten = some (between (c ++ content) o)

namespace Reads

/-- Only the text that the pieces make matters. -/
theorem congr {ps ps' : List Bytes} {cs : List Content} (h : ps.flatten = ps'.flatten)
    (hr : Reads ps cs) : Reads ps' cs := by
  intro c o
  rw [← h]
  exact hr c o

theorem nil : Reads [] [] := by
  intro c o
  rw [List.append_nil]
  rfl

theorem append {ps ps' : List Bytes} {cs cs' : List Content} (h : Reads ps cs)
    (h' : Reads ps' cs') : Reads (ps ++ ps') (cs ++ cs') := by
  intro c o
  rw [List.flatten_append, run_append_of (h c o), h' (c ++ cs) o, List.append_assoc]

theorem cons {p : Bytes} {ps : List Bytes} {e : Content} {cs : List Content} (h : Reads [p] [e])
    (h' : Reads ps cs) : Reads (p :: ps) (e :: cs) :=
  h.append h'

theorem flatMap {α : Type} {f : α → List Bytes} {g : α → List Content} {xs : List α}
    (h : ∀ x ∈ xs, Reads (f x) (g x)) : Reads (xs.flatMap f) (xs.flatMap g) := by
  induction xs with
  | nil => exact nil
  | cons x xs ih =>
    obtain ⟨hx, hxs⟩ := List.forall_mem_cons.mp h
    exact hx.append (ih hxs)

variable {name : String} {as : List (Bytes × Bytes)}

theorem text (hn : IsName (utf8 name) = true) (ha : AreAttributes as) (s : Bytes) :
    Reads [Markup.textElement name (written as) s]
      [.element (utf8 name) as (Content.ofText s)] := by
  intro c o
  rw [List.flatten_singleton]
  exact run_textElement hn ha s c o

theorem empty (hn : IsName (utf8 name) = true) (ha : AreAttributes as) :
    Reads [Markup.emptyTag name (written as)] [.element (utf8 name) as []] := by
  intro c o
  rw [List.flatten_singleton]
  exact run_emptyTag hn ha c o

/-- An element around pieces is an element around their content. -/
theorem wrap (hn : IsName (utf8 name) = true) (ha : AreAttributes as) {ps : List Bytes}
    {cs : List Content} (h : Reads ps cs) :
    Reads (Markup.wrap name (written as) ps) [.element (utf8 name) as cs] := by
  intro c o
  have hend := run_endTag hn [] cs c as o
  rw [show Content.ofText [] = [] from rfl, List.append_nil] at hend
  rw [Markup.wrap, List.flatten_cons, List.flatten_append, List.flatten_singleton,
    run_append_of (run_startTag hn ha c o), run_append_of (h [] _)]
  exact hend

/-- The operator that stands for the application of a function. -/
theorem applyFunction :
    Reads [Markup.applyFunction] [.element (utf8 "mo") [] [.text (utf8 "\u2061")]] := by
  intro c o
  have htags : Markup.applyFunction =
      Markup.startTag "mo" (written []) ++ (utf8 "&#x2061;" ++ Markup.endTag "mo") := by
    decide
  have hreference : (between [] ((⟨utf8 "mo", []⟩, c) :: o)).run (utf8 "&#x2061;") =
      some ⟨.content, utf8 "\u2061", [], (⟨utf8 "mo", []⟩, c) :: o⟩ := rfl
  have hmo : IsName (utf8 "mo") = true := by decide
  rw [List.flatten_singleton, htags, run_append_of (run_startTag hmo areAttributes_nil c o),
    run_append_of hreference]
  exact run_endTag hmo _ [] c [] o

/-- Pieces that stand for themselves are all there is to read. -/
theorem read_eq {ps : List Bytes} {cs : List Content} (h : Reads ps cs) :
    read ps.flatten = some cs := by
  rw [read, h [] []]
  exact congrArg some (List.append_nil cs)

end Reads

end Reader

end MathMarkup
