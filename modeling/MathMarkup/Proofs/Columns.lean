/-
MathMarkup/Proofs/Columns.lean

The columns of an array as they are written.  A column specification is read as math,
put together again as a text and then read byte by byte, where each letter looks at the
bytes beside it.  What comes of it can be said without any of that
(`compile_array_columns`): the alignments are the letters, in their order, and there is
a line between two neighbouring columns if a bar stands anywhere in the gap between
their letters.

The gaps are the stretches into which the letters split the specification
(`Column.gaps`).  Blanks in them make no difference (`Column.gaps_filter`), and without
blanks a gap has a bar exactly if a letter at its side has one next to it
(`Column.between_parseAfter`).

That the table has the columns of this specification and not of another one is a matter
of the environment that the source begins with, see `State.founded_of_outcome`.
-/
import MathMarkup.Proofs.EnvironmentCommands
import MathMarkup.Proofs.FirstEnvironment

namespace MathMarkup

open Lexer

namespace Column

/-! ### The plain reading -/

/-- What the column of a letter is called. -/
def name? (b : UInt8) : Option Bytes :=
  if b = ascii 'l' then some (utf8 "left")
  else if b = ascii 'c' then some (utf8 "center")
  else if b = ascii 'r' then some (utf8 "right")
  else none

/-- Whether a byte is a column. -/
def isLetter (b : UInt8) : Bool :=
  (name? b).isSome

/-- The columns of a specification, in their order. -/
def names (w : Bytes) : List Bytes :=
  w.filterMap name?

/-- What stands between neighbouring columns, from the first gap to the last. -/
def gaps (w : Bytes) : List Bytes :=
  (w.splitOnP isLetter).tail.dropLast

/-- What a gap between two columns is called. -/
def lineName (gap : Bytes) : Bytes :=
  if gap.contains bar then utf8 "solid" else utf8 "none"

theorem name?_eq (b : UInt8) : name? b = (Align.ofLetter? b).map Align.name := by
  unfold name? Align.ofLetter?
  simp only [beq_iff_eq]
  split
  · rfl
  split
  · rfl
  split <;> rfl

theorem isLetter_eq (b : UInt8) : isLetter b = (Align.ofLetter? b).isSome := by
  rw [isLetter, name?_eq, Option.isSome_map]

theorem not_isLetter_of_isSpace {b : UInt8} (h : Byte.isSpace b = true) : isLetter b = false := by
  simp only [Byte.isSpace, Bool.or_eq_true, beq_iff_eq] at h
  rcases h with ((rfl | rfl) | rfl) | rfl <;> rfl

/-! ### Alignments -/

theorem map_align_parseAfter (before : Option UInt8) (s : Bytes) :
    (parseAfter before s).map (fun c => c.align.name) = names s := by
  induction s generalizing before with
  | nil => rfl
  | cons b s ih =>
    rw [parseAfter, names, List.filterMap_cons, name?_eq]
    cases Align.ofLetter? b with
    | none => exact ih (some b)
    | some a => exact congrArg (a.name :: ·) (ih (some b))

theorem names_filter (w : Bytes) : names (w.filter (!Byte.isSpace ·)) = names w := by
  rw [names, List.filterMap_filter]
  refine List.filterMap_congr fun b _ => ?_
  cases hb : Byte.isSpace b with
  | false => rfl
  | true =>
    have hnone : name? b = none := by
      simpa [isLetter] using not_isLetter_of_isSpace hb
    simp [hnone]

theorem alignment_parse (w : Bytes) :
    alignment (parse w) = Bytes.joinWith (utf8 " ") (names w) := by
  rw [alignment, parse, map_align_parseAfter, names_filter]

theorem parse_eq_nil_iff (w : Bytes) : parse w = [] ↔ names w = [] := by
  rw [← names_filter, ← map_align_parseAfter none, List.map_eq_nil_iff, parse]

/-! ### Lines -/

/-- The letters split a specification into one stretch more than there are columns. -/
theorem length_splitOnP (w : Bytes) : (w.splitOnP isLetter).length = (names w).length + 1 := by
  induction w with
  | nil => rfl
  | cons b w ih =>
    rw [List.splitOnP_cons_eq_if_modifyHead, names, List.filterMap_cons, ← names]
    cases hb : name? b with
    | none => simp [isLetter, hb, ih]
    | some s => simp [isLetter, hb, ih]

theorem length_gaps (w : Bytes) : (gaps w).length = (names w).length - 1 := by
  rw [gaps, List.length_dropLast, List.length_tail, length_splitOnP]
  rfl

theorem gaps_cons_of_not_isLetter {b : UInt8} (hb : isLetter b = false) (w : Bytes) :
    gaps (b :: w) = gaps w := by
  rw [gaps, List.splitOnP_cons_eq_if_modifyHead, hb, gaps]
  cases w.splitOnP isLetter <;> rfl

theorem gaps_cons_of_isLetter {b : UInt8} (hb : isLetter b = true) (w : Bytes) :
    gaps (b :: w) = (w.splitOnP isLetter).dropLast := by
  rw [gaps, List.splitOnP_cons_eq_if_modifyHead, if_pos hb, List.tail_cons]

/-- Blanks in gaps do not matter. -/
theorem gaps_filter (w : Bytes) :
    gaps (w.filter (!Byte.isSpace ·)) = (gaps w).map (·.filter (!Byte.isSpace ·)) := by
  have hsplit : (w.filter (!Byte.isSpace ·)).splitOnP isLetter =
      (w.splitOnP isLetter).map (·.filter (!Byte.isSpace ·)) := by
    induction w with
    | nil => rfl
    | cons b w ih =>
      obtain ⟨gap, more, hmore⟩ := List.exists_cons_of_ne_nil (List.splitOnP_ne_nil isLetter w)
      rw [List.splitOnP_cons_eq_if_modifyHead, hmore]
      rw [hmore] at ih
      cases hspace : Byte.isSpace b with
      | true =>
        rw [not_isLetter_of_isSpace hspace]
        simp [hspace, ih]
      | false =>
        rw [List.filter_cons_of_pos (by simpa using hspace), List.splitOnP_cons_eq_if_modifyHead,
          ih]
        cases isLetter b <;> simp [hspace]
  rw [gaps, hsplit, gaps, ← List.map_tail, ← List.map_dropLast]

/-- Two neighbouring columns: one of them has a bar at the side of the other if there is a
bar between them. -/
theorem lineRight_or_lineLeft {b : UInt8} (hb : isLetter b = true) {s : Bytes}
    (hs : ∀ c ∈ s, isLetter c = true ∨ c = bar) {gap : Bytes} {more : List Bytes}
    (hgap : s.splitOnP isLetter = gap :: more) {d : Column} {ds : List Column}
    (hparse : parseAfter (some b) s = d :: ds) :
    (s.head? == some bar || d.lineLeft) = gap.contains bar := by
  cases s with
  | nil => cases hparse
  | cons c s =>
    rw [List.splitOnP_cons_eq_if_modifyHead] at hgap
    rcases hs c List.mem_cons_self with hc | rfl
    · -- The letters are next to each other.
      rw [if_pos hc] at hgap
      obtain ⟨rfl, -⟩ := List.cons.inj hgap
      have hbar : isLetter bar = false := rfl
      have hbefore : b ≠ bar := by
        rintro rfl
        cases hbar.symm.trans hb
      have hafter : c ≠ bar := by
        rintro rfl
        cases hbar.symm.trans hc
      rw [isLetter_eq, Option.isSome_iff_exists] at hc
      obtain ⟨a, ha⟩ := hc
      simp only [parseAfter, ha, List.cons.injEq] at hparse
      rw [← hparse.1]
      simp [hbefore, hafter]
    · obtain ⟨g, gs, hsplit⟩ := List.exists_cons_of_ne_nil (List.splitOnP_ne_nil isLetter s)
      have hbar : isLetter bar = false := rfl
      rw [hbar, hsplit] at hgap
      obtain ⟨rfl, -⟩ := List.cons.inj hgap
      simp

/-- **Between neighbouring columns of a specification without blanks there is a line if
there is a bar**; by induction on the specification. -/
theorem between_parseAfter (before : Option UInt8) {s : Bytes}
    (hs : ∀ c ∈ s, isLetter c = true ∨ c = bar) :
    between (parseAfter before s) = (gaps s).map (·.contains bar) := by
  induction s generalizing before with
  | nil => rfl
  | cons b s ih =>
    obtain ⟨-, hs⟩ := List.forall_mem_cons.mp hs
    cases hb : isLetter b with
    | false =>
      have hnone : Align.ofLetter? b = none := by
        rw [← Option.isNone_iff_eq_none, ← Option.not_isSome, ← isLetter_eq, hb]
        rfl
      rw [gaps_cons_of_not_isLetter hb, ← ih (some b) hs]
      simp only [parseAfter, hnone]
    | true =>
      have hsome := hb
      rw [isLetter_eq, Option.isSome_iff_exists] at hsome
      obtain ⟨a, ha⟩ := hsome
      obtain ⟨gap, more, hgap⟩ := List.exists_cons_of_ne_nil (List.splitOnP_ne_nil isLetter s)
      have ih := ih (some b) hs
      have hlength := length_splitOnP s
      rw [← map_align_parseAfter (some b), List.length_map, hgap] at hlength
      rw [gaps, hgap, List.tail_cons] at ih
      rw [gaps_cons_of_isLetter hb, hgap]
      simp only [parseAfter, ha]
      cases hparse : parseAfter (some b) s with
      | nil =>
        -- The last column has no gap behind it.
        rw [hparse] at hlength
        obtain rfl : more = [] := List.length_eq_zero_iff.mp (Nat.succ.inj hlength)
        rfl
      | cons d ds =>
        rw [hparse] at ih hlength
        obtain ⟨g, gs, rfl⟩ : ∃ g gs, more = g :: gs :=
          List.exists_cons_of_length_eq_add_one (Nat.succ.inj hlength)
        rw [List.dropLast_cons_cons, List.map_cons, ← ih, between]
        exact congrArg (· :: _) (lineRight_or_lineLeft hb hs hgap hparse)

/-- The lines of a specification of letters, bars and blanks. -/
theorem lines_parse {w : Bytes}
    (hw : ∀ b ∈ w, (isLetter b = true ∨ b = bar) ∨ Byte.isSpace b = true) :
    lines (parse w) =
      if (gaps w).any (·.contains bar) then Bytes.joinWith (utf8 " ") ((gaps w).map lineName)
      else [] := by
  have hfiltered : ∀ b ∈ w.filter (!Byte.isSpace ·), isLetter b = true ∨ b = bar := by
    intro b hb
    obtain ⟨hmem, hspace⟩ := List.mem_filter.mp hb
    refine (hw b hmem).resolve_right fun hblank => ?_
    rw [hblank] at hspace
    cases hspace
  have hcontains (gap : Bytes) :
      (gap.filter (!Byte.isSpace ·)).contains bar = gap.contains bar := by
    rw [Bool.eq_iff_iff, List.contains_iff_mem, List.contains_iff_mem, List.mem_filter]
    exact and_iff_left rfl
  have hbetween : between (parse w) = (gaps w).map (·.contains bar) := by
    rw [parse, between_parseAfter none hfiltered, gaps_filter, List.map_map]
    exact List.map_congr_left fun gap _ => hcontains gap
  have hname (gap : Bytes) :
      utf8 (if gap.contains bar = true then "solid" else "none") = lineName gap := by
    rw [lineName]
    cases gap.contains bar <;> rfl
  simp only [lines, hbetween, List.any_map, List.map_map, Function.comp_def, id_eq, hname]

/-! ### The specification in a source -/

/-- The token of a column or a bar. -/
def token (b : UInt8) : Token :=
  if b = bar then .delimiter [b] else .letter [b]

/-- The node of a column or a bar. -/
def node (b : UInt8) : Node :=
  if b = bar then .leaf .operator [b] (some (.delimiter [b])) else .leaf .letter [b] none

theorem finds_token {b : UInt8} (hb : isLetter b = true ∨ b = bar) (s : Bytes) :
    Finds .plain (b :: s) (token b) b s 1 := by
  rcases hb with hb | rfl
  · simp only [isLetter, name?] at hb
    split at hb
    · next h => exact h ▸ ⟨rfl, fun _ => rfl⟩
    split at hb
    · next h => exact h ▸ ⟨rfl, fun _ => rfl⟩
    split at hb
    · next h => exact h ▸ ⟨rfl, fun _ => rfl⟩
    · cases hb
  · exact ⟨rfl, fun _ => rfl⟩

theorem after_token (b : UInt8) : Mode.after (token b) = .plain := by
  unfold token
  split <;> rfl

/-- The tokens of a specification and of what follows its brace. -/
theorem scans_specification {w : Bytes}
    (hw : ∀ b ∈ w, (isLetter b = true ∨ b = bar) ∨ Byte.isSpace b = true) {rest : Bytes}
    {ts : List Token} (h : Scans .plain (w ++ ascii '\x7d' :: rest) ts) :
    ∃ us, ts = (w.filter (!Byte.isSpace ·)).map token ++ .groupEnd :: us := by
  induction w generalizing ts with
  | nil =>
    have hend : Finds .plain (ascii '\x7d' :: rest) .groupEnd (ascii '\x7d') rest 1 :=
      ⟨rfl, fun _ => rfl⟩
    obtain ⟨us, rfl, -⟩ := hend.scans_iff.mp h
    exact ⟨us, rfl⟩
  | cons b w ih =>
    obtain ⟨hb, hw⟩ := List.forall_mem_cons.mp hw
    cases hspace : Byte.isSpace b with
    | true =>
      have hlayout : layout false (b :: (w ++ ascii '\x7d' :: rest)) =
          layout false (w ++ ascii '\x7d' :: rest) + 1 := by
        rw [layout, if_pos hspace]
      rw [List.filter_cons_of_neg (by simp [hspace])]
      refine ih hw (h.of_drop ?_)
      rw [List.cons_append, hlayout, List.drop_succ_cons]
    | false =>
      have hb : isLetter b = true ∨ b = bar := hb.resolve_right (by simp [hspace])
      rw [List.filter_cons_of_pos (by simp [hspace]), List.map_cons]
      obtain ⟨us, rfl, hus⟩ := (finds_token hb _).scans_iff.mp h
      rw [after_token] at hus
      obtain ⟨vs, rfl⟩ := ih hw hus
      exact ⟨vs, rfl⟩

theorem reads_tokens (s : Bytes) : Reads (s.map token) (s.map node) := by
  induction s with
  | nil => rfl
  | cons b s ih =>
    have hreads : Reads [token b] [node b] := by
      unfold token node
      split <;> rfl
    have hsupplied : (node b).Supplied := by
      unfold node
      split <;> simp [Node.leaf, Node.HasArguments]
    have hfirst : ∀ t ∈ (s.map token).head?, t.continues = false := by
      intro t ht
      obtain ⟨c, -, rfl⟩ := List.mem_map.mp (List.mem_of_mem_head? ht)
      unfold token
      split <;> rfl
    exact hreads.append (List.forall_mem_singleton.mpr hsupplied) ih hfirst

theorem plainText?_collapse (ns : List Node) :
    (Node.collapse ns).plainText? = Node.plainTextAll? ns := by
  rcases ns with - | ⟨n, - | ⟨m, ns⟩⟩
  · rfl
  · simp only [Node.collapse, Node.plainTextAll?]
    cases n.plainText? with
    | none => rfl
    | some s => exact congrArg some (List.append_nil s).symm
  · rfl

theorem plainTextAll?_nodes (s : Bytes) : Node.plainTextAll? (s.map node) = some s := by
  induction s with
  | nil => rfl
  | cons b s ih =>
    have hb : (node b).plainText? = some [b] := by
      unfold node
      split <;> rfl
    simp only [List.map_cons, Node.plainTextAll?, hb, ih]
    rfl

/-- Behind a specification the content of an array begins that has it. -/
theorem outcome_specification (s : Bytes) (us : List Token) :
    State.start.outcome (.environmentBegin arrayName :: .groupBegin ::
        (s.map token ++ .groupEnd :: us)) =
      (State.mk .element []
        (.inner (.environment arrayName (some s)) [] [.prime, .scripts] (.root [])) []).outcome
          us := by
  have hcolumns : (Node.collapse (s.map node)).plainText? = some s := by
    rw [plainText?_collapse, plainTextAll?_nodes]
  have hopen : (Rows.inner (.columns arrayName) [] [.prime, .scripts] (.root [])).IsOpen := trivial
  have hcloser : Token.groupEnd.isCloser = true := rfl
  obtain ⟨u, hrun, hstep⟩ := (reads_tokens s).run_enclosed hopen hcloser rfl []
  have hclose : u.close (.columns arrayName) (s.map node) [.prime, .scripts] (.root [])
      .groupEnd 0 = .ok ⟨.element, [],
        .inner (.environment arrayName (some s)) [] [.prime, .scripts] (.root []), u.warnings⟩ := by
    simp only [State.close, hcolumns]
    rfl
  rw [State.outcome_of_step rfl, State.outcome_of_step rfl]
  refine (State.outcome_of_run hrun _).trans ?_
  rw [State.outcome_of_step (hstep.trans hclose)]
  refine State.outcome_congr ?_ ?_ ?_ us <;> rfl

/-- The array at the beginning of a source is the one with its specification. -/
theorem founded_of_parse {w rest : Bytes}
    (hw : ∀ b ∈ w, (isLetter b = true ∨ b = bar) ∨ Byte.isSpace b = true) {ns : List Node}
    (h : (MathMarkup.parse (named (utf8 "begin") arrayName ++
      ascii '\x7b' :: (w ++ ascii '\x7d' :: rest))).tree = .ok (.branch .root ns)) :
    ∃ content y more, ns = y :: more ∧
      Founded (environmentNode arrayName (some (w.filter (!Byte.isSpace ·))) content) y := by
  obtain ⟨ts, hts, ns', hns, hroot⟩ := parse_eq_ok_iff.mp h
  obtain rfl : ns = ns' := by simpa [Node.branch] using hroot
  have hname : IsName arrayName := by decide
  obtain ⟨ts, rfl, hbehind⟩ := hname.scans_begin_iff.mp (tokenizes_iff.mp hts)
  have hgroup : Finds .plain (ascii '\x7b' :: (w ++ ascii '\x7d' :: rest)) .groupBegin
      (ascii '\x7b') (w ++ ascii '\x7d' :: rest) 1 :=
    ⟨rfl, fun _ => rfl⟩
  obtain ⟨ts, rfl, hinside⟩ := hgroup.scans_iff.mp hbehind
  obtain ⟨us, rfl⟩ := scans_specification hw hinside
  rw [outcome_specification] at hns
  exact State.founded_of_outcome (.first []) hns

/-- White space has been taken out of the specification once before. -/
theorem parse_filter (w : Bytes) : parse (w.filter (!Byte.isSpace ·)) = parse w := by
  rw [parse, parse, List.filter_filter]
  simp only [Bool.and_self]

theorem eq_of_lower {table : Table} {v : Variant} {columns : Bytes} {content : List Node}
    {cells : List Markup} {align columnLines : Bytes}
    (h : Lowering.lower table v (environmentNode arrayName (some columns) content) =
      .ok (.table cells align columnLines)) :
    (parse columns = [] → align = utf8 "center" ∧ columnLines = []) ∧
      (parse columns ≠ [] →
        align = alignment (parse columns) ∧ columnLines = lines (parse columns)) := by
  have harray : Lowering.environment? arrayName = some .array := rfl
  rw [environmentNode, Lowering.lower, harray] at h
  obtain ⟨ms, -, h⟩ := Lowering.exists_of_bind_eq_ok h
  have h : Lowering.Environment.array.markup columns (Lowering.cells content ms) =
      .table cells align columnLines :=
    Except.ok.inj h
  cases hparse : parse columns with
  | nil =>
    simp only [Lowering.Environment.markup, hparse, Markup.table.injEq] at h
    exact ⟨fun _ => ⟨h.2.1.symm, h.2.2.symm⟩, fun hne => absurd rfl hne⟩
  | cons c cs =>
    simp only [Lowering.Environment.markup, hparse, Markup.table.injEq] at h
    exact ⟨fun hnil => absurd hnil (List.cons_ne_nil c cs), fun _ => ⟨h.2.1.symm, h.2.2.symm⟩⟩

end Column

/-- **The columns of an array are those that are written.**  For a specification of
column letters, bars and white space, whatever the content of the array is: the
alignments are those of the letters, and if there is a bar in a gap between two letters,
then every gap has its word, which tells whether it has a bar.  Without a letter the
columns are centred and there are no lines. -/
theorem compile_array_columns {table : Table} {w b : Bytes}
    (hw : ∀ c ∈ w, c ∈ utf8 "clr|" ∨ Byte.isSpace c = true) {display : Display}
    {cells : List Markup} {align lines : Bytes}
    (h : compile table (utf8 "\\begin\x7barray\x7d\x7b" ++ w ++ utf8 "\x7d" ++ b ++
      utf8 "\\end\x7barray\x7d") = .ok (.root display [.table cells align lines])) :
    (Column.names w = [] → align = utf8 "center" ∧ lines = []) ∧
      (Column.names w ≠ [] →
        align = Bytes.joinWith (utf8 " ") (Column.names w) ∧
        (Column.gaps w).length + 1 = (Column.names w).length ∧
        lines = if (Column.gaps w).any (·.contains Column.bar) then
          Bytes.joinWith (utf8 " ") ((Column.gaps w).map Column.lineName) else []) := by
  have hw : ∀ c ∈ w, (Column.isLetter c = true ∨ c = Column.bar) ∨ Byte.isSpace c = true := by
    intro c hc
    refine (hw c hc).imp_left fun hmem => ?_
    have hbytes : (utf8 "clr|").all (fun d => Column.isLetter d || d == Column.bar) = true := by
      decide
    exact (Bool.or_eq_true_iff.mp (List.all_eq_true.mp hbytes c hmem)).imp_right beq_iff_eq.mp
  obtain ⟨ns, ms, htree, hms, hm⟩ := compile_eq_ok_iff.mp h
  obtain ⟨-, rfl⟩ := Markup.root.inj hm
  have hsource : utf8 "\\begin\x7barray\x7d\x7b" ++ w ++ utf8 "\x7d" ++ b ++
      utf8 "\\end\x7barray\x7d" = named (utf8 "begin") arrayName ++
        ascii '\x7b' :: (w ++ ascii '\x7d' :: (b ++ utf8 "\\end\x7barray\x7d")) := by
    have hbegin : utf8 "\\begin\x7barray\x7d\x7b" =
        named (utf8 "begin") arrayName ++ [ascii '\x7b'] := by
      decide
    have hbrace : utf8 "\x7d" = [ascii '\x7d'] := rfl
    simp only [hbegin, hbrace, List.append_assoc, List.cons_append, List.nil_append]
  rw [hsource] at htree
  obtain ⟨content, y, more, rfl, hfounded⟩ := Column.founded_of_parse hw htree
  obtain ⟨m, ms, hy, -, heq⟩ := Lowering.lowerAll_cons_eq_ok.mp hms
  obtain ⟨rfl, -⟩ := List.cons.inj heq
  cases hfounded with
  | on => exact absurd hy not_table_of_branch
  | self =>
    obtain ⟨hnone, hsome⟩ := Column.eq_of_lower hy
    rw [Column.parse_filter, Column.parse_eq_nil_iff] at hnone
    rw [Column.parse_filter, Ne, Column.parse_eq_nil_iff, Column.alignment_parse,
      Column.lines_parse hw] at hsome
    refine ⟨hnone, fun hne => ?_⟩
    have hpos : 0 < (Column.names w).length := List.length_pos_iff.mpr hne
    refine ⟨(hsome hne).1, ?_, (hsome hne).2⟩
    rw [Column.length_gaps]
    omega

/-- Bars at both ends, a gap with blanks around its bars, one without bars and one with a
single bar. -/
theorem compile_array_columns_bars :
    let w := utf8 "| l | |\tc\nr|c|"
    (∀ c ∈ w, c ∈ utf8 "clr|" ∨ Byte.isSpace c = true) ∧
      ∃ cells align lines,
        compile Table.empty (utf8 "\\begin\x7barray\x7d\x7b" ++ w ++ utf8 "\x7d" ++ utf8 "a&b" ++
            utf8 "\\end\x7barray\x7d") = .ok (.root .inline [.table cells align lines]) ∧
          align = utf8 "left center right center" ∧ lines = utf8 "solid none solid" := by
  intro w
  have hw : ∀ c ∈ w, c ∈ utf8 "clr|" ∨ Byte.isSpace c = true := by
    have hall : w.all (fun c => (utf8 "clr|").contains c || Byte.isSpace c) = true := by
      decide
    exact fun c hc =>
      (Bool.or_eq_true_iff.mp (List.all_eq_true.mp hall c hc)).imp_left List.contains_iff_mem.mp
  have htokens : Tokenizes (utf8 "\\begin\x7barray\x7d\x7b" ++ w ++ utf8 "\x7d" ++ utf8 "a&b" ++
      utf8 "\\end\x7barray\x7d")
      (.environmentBegin arrayName :: .groupBegin ::
        ((utf8 "|l||cr|c|").map Column.token ++ .groupEnd ::
          [.letter (utf8 "a"), .cellBreak, .letter (utf8 "b"), .environmentEnd arrayName])) := by
    decide +kernel
  obtain ⟨cells, align, lines, h⟩ : ∃ cells align lines,
      compile Table.empty (utf8 "\\begin\x7barray\x7d\x7b" ++ w ++ utf8 "\x7d" ++ utf8 "a&b" ++
        utf8 "\\end\x7barray\x7d") = .ok (.root .inline [.table cells align lines]) := by
    let content : List Node :=
      [.leaf .letter (utf8 "a") none, .leaf .cellBreak [] none, .leaf .letter (utf8 "b") none]
    let node := environmentNode arrayName (some (utf8 "|l||cr|c|")) content
    have htree : (parse _).tree = .ok (.branch .root [node]) :=
      htokens.parse_eq ((Column.outcome_specification _ _).trans rfl)
    have hparse : Column.parse (utf8 "|l||cr|c|") =
        [⟨.left, true, true⟩, ⟨.center, true, false⟩, ⟨.right, false, true⟩,
          ⟨.center, true, true⟩] := by
      decide
    have hlower : ∃ cells align lines,
        Lowering.lower Table.empty .italic node = .ok (.table cells align lines) := by
      have harray : Lowering.environment? arrayName = some .array := rfl
      simp only [node, environmentNode, Lowering.lower, harray, Lowering.Environment.markup,
        Option.getD_some, hparse]
      exact ⟨_, _, _, rfl⟩
    obtain ⟨cells, align, lines, hlower⟩ := hlower
    have hall := Lowering.lowerAll_singleton_eq_ok.mpr ⟨_, hlower, rfl⟩
    exact ⟨cells, align, lines, compile_eq_ok_iff.mpr ⟨_, _, htree, hall, rfl⟩⟩
  obtain ⟨halign, -, hlines⟩ := (compile_array_columns hw h).2 (by decide)
  exact ⟨hw, cells, align, lines, h, halign.trans (by decide), hlines.trans (by decide)⟩

end MathMarkup
