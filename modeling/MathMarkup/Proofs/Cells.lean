/-
MathMarkup/Proofs/Cells.lean

The cells of an environment.  To parsing a separator is an element like any
other, and whatever can take an element can take a separator: a script, a
command that waits for an argument, a prime behind it.  It is lost then.  In
braces by itself it is not even nested, since a group of one element is that
element.  So it is not true that the separators outside of all brackets are the
breaks of the table (`not_separators_kept`).

It is true whenever each cell stands by itself (`IsCell`): the tokens between two
separators can be compiled without the others, no command among them lacks an
argument and no break comes out, and no cell behind a separator begins with a
prime or a script.  The table then has these very cells, row by row, each with
the markup it has by itself (`separators_kept`).

Which tokens are outside of all brackets is read off the tokens (`levels`), and
rows and cells are what is left when these are split at the separators
(`splitRows`).  Markup is split in the same way, so that one count holds of
both.
-/
import Mathlib.Data.List.Forall2
import MathMarkup.Proofs.Conservation
import MathMarkup.Proofs.Embedding
import MathMarkup.Proofs.Nesting
import MathMarkup.Proofs.ReadBack

namespace MathMarkup

/-! ### Splitting into rows and cells -/

/-- The two separators. -/
inductive Break
  | cell
  | line
  deriving DecidableEq, Repr

section

variable {α : Type} (break? : α → Option Break)

/-- Splits at line breaks into rows, and these at cell breaks into cells. -/
def splitRows : List α → List (List (List α))
  | [] => [[[]]]
  | a :: as =>
    match break? a with
    | some .line => [[]] :: splitRows as
    | some .cell => (splitRows as).modifyHead ([] :: ·)
    | none => (splitRows as).modifyHead (List.modifyHead (a :: ·))

variable {break?}

theorem splitRows_line {a : α} (h : break? a = some .line) (as : List α) :
    splitRows break? (a :: as) = [[]] :: splitRows break? as := by
  rw [splitRows, h]

theorem splitRows_cell {a : α} (h : break? a = some .cell) {as : List α} {row : List (List α)}
    {more : List (List (List α))} (has : splitRows break? as = row :: more) :
    splitRows break? (a :: as) = ([] :: row) :: more := by
  rw [splitRows, h, has]
  rfl

theorem splitRows_none {a : α} (h : break? a = none) {as cell : List α} {row : List (List α)}
    {more : List (List (List α))} (has : splitRows break? as = (cell :: row) :: more) :
    splitRows break? (a :: as) = ((a :: cell) :: row) :: more := by
  rw [splitRows, h, has]
  rfl

/-- Goes through a list with its rows: at each place there is a line break, a
cell break or content, and what follows has a first row with a first cell. -/
theorem splitRows_induct {p : List α → List (List (List α)) → Prop} (nil : p [] [[[]]])
    (line : ∀ a as cell row more, break? a = some .line → p as ((cell :: row) :: more) →
      p (a :: as) ([[]] :: (cell :: row) :: more))
    (cell : ∀ a as cell row more, break? a = some .cell → p as ((cell :: row) :: more) →
      p (a :: as) (([] :: cell :: row) :: more))
    (content : ∀ a as cell row more, break? a = none → p as ((cell :: row) :: more) →
      p (a :: as) (((a :: cell) :: row) :: more)) (as : List α) :
    p as (splitRows break? as) := by
  have both : p as (splitRows break? as) ∧
      ∃ cell row more, splitRows break? as = (cell :: row) :: more := by
    induction as with
    | nil => exact ⟨nil, [], [], [], rfl⟩
    | cons a as ih =>
      obtain ⟨hp, first, row, more, h⟩ := ih
      rw [h] at hp
      cases ha : break? a with
      | none =>
        rw [splitRows_none ha h]
        exact ⟨content a as first row more ha hp, _, _, _, rfl⟩
      | some br =>
        cases br with
        | line =>
          rw [splitRows_line ha, h]
          exact ⟨line a as first row more ha hp, _, _, _, rfl⟩
        | cell =>
          rw [splitRows_cell ha h]
          exact ⟨cell a as first row more ha hp, _, _, _, rfl⟩
  exact both.1

theorem exists_splitRows_eq (as : List α) : ∃ row more, splitRows break? as = row :: more := by
  refine splitRows_induct (p := fun _ rows => ∃ row more, rows = row :: more) ?_ ?_ ?_ ?_ as
  · exact ⟨_, _, rfl⟩
  all_goals exact fun _ _ _ _ _ _ _ => ⟨_, _, rfl⟩

/-- Every row has a cell. -/
theorem ne_nil_of_mem_splitRows (as : List α) : ∀ row ∈ splitRows break? as, row ≠ [] := by
  refine splitRows_induct (p := fun _ rows => ∀ row ∈ rows, row ≠ []) ?_ ?_ ?_ ?_ as
  · simp
  · intro a as cell row more _ ih
    exact List.forall_mem_cons.mpr ⟨List.cons_ne_nil _ _, ih⟩
  all_goals
    intro a as cell row more _ ih
    exact List.forall_mem_cons.mpr ⟨List.cons_ne_nil _ _, (List.forall_mem_cons.mp ih).2⟩

/-- There is one row more than line breaks, and in each row one cell more than
cell breaks. -/
theorem length_splitRows (as : List α) :
    (splitRows break? as).length = as.countP (break? · == some .line) + 1 ∧
      (splitRows break? as).flatten.length =
        as.countP (break? · == some .cell) + (splitRows break? as).length := by
  have counted {a : α} {br : Break} (h : break? a = some br) (as : List α) :
      (a :: as).countP (break? · == some br) = as.countP (break? · == some br) + 1 :=
    List.countP_cons_of_pos (by simp [h])
  have passed {a : α} {br : Break} (h : break? a ≠ some br) (as : List α) :
      (a :: as).countP (break? · == some br) = as.countP (break? · == some br) :=
    List.countP_cons_of_neg (by simp [h])
  refine splitRows_induct (p := fun as rows =>
    rows.length = as.countP (break? · == some .line) + 1 ∧
      rows.flatten.length = as.countP (break? · == some .cell) + rows.length) ?_ ?_ ?_ ?_ as
  · exact ⟨rfl, rfl⟩
  · intro a as cell row more ha ih
    rw [counted ha, passed (by simp [ha]), List.flatten_cons, List.length_append, ih.2,
      List.length_cons, List.length_singleton, ih.1]
    omega
  · intro a as cell row more ha ih
    simp only [List.flatten_cons, List.length_append, List.length_cons] at ih ⊢
    rw [counted ha, passed (by simp [ha])]
    omega
  · intro a as cell row more ha ih
    simp only [List.flatten_cons, List.length_append, List.length_cons] at ih ⊢
    rw [passed (by simp [ha]), passed (by simp [ha])]
    omega

/-- Without separators there is one cell. -/
theorem splitRows_of_forall_none {as : List α} (h : ∀ a ∈ as, break? a = none) :
    splitRows break? as = [[as]] := by
  induction as with
  | nil => rfl
  | cons a as ih =>
    obtain ⟨ha, has⟩ := List.forall_mem_cons.mp h
    exact splitRows_none ha (ih has)

theorem splitRows_append_cell {as bs : List α} {a : α} (has : ∀ a ∈ as, break? a = none)
    (ha : break? a = some .cell) {row : List (List α)} {more : List (List (List α))}
    (hbs : splitRows break? bs = row :: more) :
    splitRows break? (as ++ a :: bs) = (as :: row) :: more := by
  induction as with
  | nil => exact splitRows_cell ha hbs
  | cons b as ih =>
    obtain ⟨hb, has⟩ := List.forall_mem_cons.mp has
    exact splitRows_none hb (ih has)

theorem splitRows_append_line {a : α} (ha : break? a = some .line) (as bs : List α) :
    splitRows break? (as ++ a :: bs) = splitRows break? as ++ splitRows break? bs := by
  refine splitRows_induct (p := fun as rows =>
    splitRows break? (as ++ a :: bs) = rows ++ splitRows break? bs) ?_ ?_ ?_ ?_ as
  · exact splitRows_line ha bs
  · intro b as cell row more hb ih
    rw [List.cons_append, splitRows_line hb, ih]
    rfl
  · intro b as cell row more hb ih
    rw [List.cons_append, splitRows_cell hb ih]
    rfl
  · intro b as cell row more hb ih
    rw [List.cons_append, splitRows_none hb ih]
    rfl

/-- Only behind a line break at the very end is the last of several rows empty. -/
theorem getLast?_of_splitRows {as : List α} {rows : List (List (List α))} (hne : rows ≠ [])
    (h : splitRows break? as = rows ++ [[[]]]) : ∃ a ∈ as.getLast?, break? a = some .line := by
  have later {a : α} {as : List α} (h : ∃ a ∈ as.getLast?, break? a = some .line) :
      ∃ b ∈ (a :: as).getLast?, break? b = some .line := by
    obtain ⟨b, hb, hline⟩ := h
    refine ⟨b, ?_, hline⟩
    rw [List.getLast?_cons, Option.mem_def.mp hb]
    rfl
  -- The list may also be empty, and then there is a single row.
  have hall : ∀ rows, splitRows break? as = rows ++ [[[]]] →
      (as = [] ∧ rows = []) ∨ ∃ a ∈ as.getLast?, break? a = some .line := by
    refine splitRows_induct (p := fun as all => ∀ rows, all = rows ++ [[[]]] →
      (as = [] ∧ rows = []) ∨ ∃ a ∈ as.getLast?, break? a = some .line) ?_ ?_ ?_ ?_ as
    · intro rows h
      exact .inl ⟨rfl, List.append_left_eq_self.mp h.symm⟩
    · rintro a as cell first more ha ih (- | ⟨row, rows⟩) h
      · cases h
      · rcases ih rows (List.cons.inj h).2 with ⟨rfl, -⟩ | hlast
        · exact .inr ⟨a, rfl, ha⟩
        · exact .inr (later hlast)
    -- Otherwise the first row changes, but it is not the last one.
    all_goals
      rintro a as cell first more ha ih (- | ⟨row, rows⟩) h
      · cases h
      · rcases ih ((cell :: first) :: rows) (congrArg (_ :: ·) (List.cons.inj h).2) with
          ⟨-, ⟨⟩⟩ | hlast
        exact .inr (later hlast)
  rcases hall rows h with ⟨-, hnil⟩ | hlast
  · exact absurd hnil hne
  · exact hlast

end

/-! ### Tokens outside of all brackets -/

/-- Whether the delimiter behind a token belongs to it. -/
def Token.ownsDelimiter : Token → Bool
  | .big _ => true
  | t => t.takesDelimiter

/-- What is open behind a token, the innermost opener first, with the token
before it and what is open in front of it.  A bracket right behind `\sqrt` opens
an index, which the next bracket of the other kind in it closes unless it is the
delimiter of a fence or of a sizing command. -/
def openBehind (before : Option Token) (stack : List Token) (t : Token) : List Token :=
  if t.isOpener then t :: stack
  else if t.isCloser then stack.tail
  else if t = .delimiter (utf8 "[") ∧ before = some .radical then t :: stack
  else if t = .delimiter (utf8 "]") ∧ stack.head? = some (.delimiter (utf8 "[")) ∧
      before.any Token.ownsDelimiter = false then stack.tail
  else stack

/-- Tokens with whether nothing is open in front of them. -/
def levelsFrom : (before : Option Token) → (stack : List Token) → List Token → List (Token × Bool)
  | _, _, [] => []
  | before, stack, t :: ts =>
    (t, stack.isEmpty) :: levelsFrom (some t) (openBehind before stack t) ts

/-- Tokens with whether they are at nesting depth zero. -/
def levels (ts : List Token) : List (Token × Bool) :=
  levelsFrom none [] ts

theorem map_fst_levelsFrom (before : Option Token) (stack ts : List Token) :
    (levelsFrom before stack ts).map Prod.fst = ts := by
  induction ts generalizing before stack with
  | nil => rfl
  | cons t ts ih => rw [levelsFrom, List.map_cons, ih]

/-- The separators at depth zero. -/
def levelBreak? : Token × Bool → Option Break
  | (.cellBreak, true) => some .cell
  | (.lineBreak, true) => some .line
  | _ => none

theorem levelBreak?_eq_line {l : Token × Bool} :
    levelBreak? l = some .line ↔ l = (.lineBreak, true) := by
  rcases l with ⟨t, isZero⟩
  cases t <;> cases isZero <;> simp [levelBreak?]

theorem levelBreak?_eq_cell {l : Token × Bool} :
    levelBreak? l = some .cell ↔ l = (.cellBreak, true) := by
  rcases l with ⟨t, isZero⟩
  cases t <;> cases isZero <;> simp [levelBreak?]

/-- The levels that make up rows and cells: a line break at the very end starts no
row. -/
def contentLevels (ts : List Token) : List (Token × Bool) :=
  if (levels ts).getLast? = some (.lineBreak, true) then (levels ts).dropLast else levels ts

/-- The rows and cells of tokens. -/
def tokenRows (ts : List Token) : List (List (List Token)) :=
  (splitRows levelBreak? (contentLevels ts)).map (List.map (List.map Prod.fst))

theorem length_tokenRows (ts : List Token) :
    (tokenRows ts).length = (contentLevels ts).countP (levelBreak? · == some .line) + 1 ∧
      (tokenRows ts).flatten.length =
        (contentLevels ts).countP (levelBreak? · == some .cell) + (tokenRows ts).length := by
  rw [tokenRows, ← List.map_flatten, List.length_map, List.length_map]
  exact length_splitRows _

/-- Rows of cells as tokens again. -/
def joinTokens (rows : List (List (List Token))) : List Token :=
  [Token.lineBreak].intercalate (rows.map [Token.cellBreak].intercalate)

theorem intercalate_cons_of_ne_nil {α : Type} (a : α) (as : List α) {rest : List (List α)}
    (h : rest ≠ []) : [a].intercalate (as :: rest) = as ++ a :: [a].intercalate rest := by
  cases rest with
  | nil => exact absurd rfl h
  | cons bs rest => simp [List.intercalate]

theorem intercalate_cons_cons {α : Type} (a b : α) (as : List α) (rest : List (List α)) :
    [a].intercalate ((b :: as) :: rest) = b :: [a].intercalate (as :: rest) := by
  cases rest with
  | nil => simp [List.intercalate]
  | cons bs rest => simp [List.intercalate]

theorem intercalate_singleton {α : Type} (sep as : List α) : sep.intercalate [as] = as := by
  simp [List.intercalate]

theorem joinTokens_cons {row : List (List Token)} {rows : List (List (List Token))}
    (h : rows ≠ []) :
    joinTokens (row :: rows) = [.cellBreak].intercalate row ++ .lineBreak :: joinTokens rows :=
  intercalate_cons_of_ne_nil _ _ (by simpa using h)

theorem joinTokens_singleton (row : List (List Token)) :
    joinTokens [row] = [.cellBreak].intercalate row :=
  intercalate_singleton _ _

/-- What comes first in the first row comes first. -/
theorem joinTokens_of_row {t : Token} {row row' : List (List Token)}
    (more : List (List (List Token)))
    (h : [.cellBreak].intercalate row = t :: [.cellBreak].intercalate row') :
    joinTokens (row :: more) = t :: joinTokens (row' :: more) := by
  by_cases hmore : more = []
  · rw [hmore, joinTokens_singleton, joinTokens_singleton, h]
  · rw [joinTokens_cons hmore, joinTokens_cons hmore, h, List.cons_append]

/-- Tokens that are split and joined again. -/
theorem joinTokens_splitRows (ls : List (Token × Bool)) :
    joinTokens ((splitRows levelBreak? ls).map (List.map (List.map Prod.fst))) =
      ls.map Prod.fst := by
  refine splitRows_induct (p := fun ls rows =>
    joinTokens (rows.map (List.map (List.map Prod.fst))) = ls.map Prod.fst) ?_ ?_ ?_ ?_ ls
  · exact (joinTokens_singleton _).trans (intercalate_singleton _ _)
  · intro l ls cell row more hl ih
    obtain rfl := levelBreak?_eq_line.mp hl
    rw [List.map_cons, joinTokens_cons (by simp), ih]
    rfl
  · intro l ls cell row more hl ih
    obtain rfl := levelBreak?_eq_cell.mp hl
    rw [List.map_cons] at ih ⊢
    have hne : (cell :: row).map (List.map Prod.fst) ≠ [] := by simp
    have hfirst := intercalate_cons_of_ne_nil Token.cellBreak [] hne
    exact (joinTokens_of_row _ hfirst).trans (congrArg (Token.cellBreak :: ·) ih)
  · intro l ls cell row more hl ih
    rw [List.map_cons] at ih ⊢
    have hfirst := intercalate_cons_cons Token.cellBreak l.1 (cell.map Prod.fst)
      (row.map (List.map Prod.fst))
    exact (joinTokens_of_row _ hfirst).trans (congrArg (l.1 :: ·) ih)

/-! ### Markup in rows and cells -/

namespace Markup

/-- The separators of markup. -/
def break? : Markup → Option Break
  | .cellBreak => some .cell
  | .lineBreak => some .line
  | _ => none

theorem break?_eq_none {m : Markup} (hc : m ≠ .cellBreak) (hl : m ≠ .lineBreak) :
    m.break? = none := by
  cases m <;> first | rfl | exact absurd rfl hc | exact absurd rfl hl

/-- The rows of a table are those of its cells split at the separators. -/
theorem rows_eq_splitRows (ms : List Markup) : rows ms = splitRows break? ms := by
  have hcell : break? .cellBreak = some .cell := rfl
  have hline : break? .lineBreak = some .line := rfl
  induction ms using cells_induct with
  | nil => rfl
  | cellBreak ms ih =>
    obtain ⟨cell, row, more, h⟩ := exists_rows_eq ms
    rw [rows_cellBreak h, splitRows_cell hcell (ih.symm.trans h)]
  | lineBreak ms ih => rw [rows_lineBreak, splitRows_line hline, ih]
  | content m ms hc hl ih =>
    obtain ⟨cell, row, more, h⟩ := exists_rows_eq ms
    rw [rows_cons hc hl h, splitRows_none (break?_eq_none hc hl) (ih.symm.trans h)]

theorem rows_append_lineBreak (ms ls : List Markup) :
    rows (ms ++ .lineBreak :: ls) = rows ms ++ rows ls := by
  have hline : break? .lineBreak = some .line := rfl
  simp only [rows_eq_splitRows]
  exact splitRows_append_line hline ms ls

theorem length_rows (ms : List Markup) :
    (rows ms).length = ms.countP (break? · == some .line) + 1 ∧
      (rows ms).flatten.length = ms.countP (break? · == some .cell) + (rows ms).length := by
  rw [rows_eq_splitRows]
  exact length_splitRows ms

end Markup

/-! ### Tokens that compile by themselves -/

/-- Whether a token goes on with any node. -/
def Token.attaches : Token → Bool
  | .prime _ | .script _ => true
  | _ => false

/-- Tokens that do not go on with what is before them. -/
def Loose (ts : List Token) : Prop :=
  ∀ t ∈ ts.head?, t.attaches = false

/-- Tokens that compile by themselves, as nodes and as markup, without a command
that lacks an argument. -/
structure Compiles (table : Table) (ts : List Token) (ns : List Node) (ms : List Markup) :
    Prop where
  reads : Reads ts ns
  supplied : ∀ n ∈ ns, n.Supplied
  lowered : Lowering.lowerAll table .italic ns = .ok ms

/-- A separator as token, node and markup. -/
inductive Separator : Token → Node → Markup → Prop
  | cell : Separator .cellBreak (.leaf .cellBreak [] none) .cellBreak
  | line : Separator .lineBreak (.leaf .lineBreak [] none) .lineBreak

namespace Separator

variable {t : Token} {n : Node} {m : Markup}

theorem continues (h : Separator t n m) : t.continues = false := by
  cases h <;> rfl

theorem reads (h : Separator t n m) : Reads [t] [n] := by
  cases h <;> rfl

theorem supplied (h : Separator t n m) : n.Supplied := by
  cases h <;> exact Node.supplied_iff.mpr ⟨trivial, List.forall_mem_nil _⟩

theorem lowered (h : Separator t n m) (table : Table) (v : Variant) :
    Lowering.lower table v n = .ok m := by
  cases h <;> rfl

/-- Only a prime or a script goes on with a separator. -/
theorem settles (h : Separator t n m) {u : Token} (hu : u.attaches = false) :
    Settles [t] [n] u := by
  have hfeed : feed [.prime, .scripts] n u = .element n := by
    cases u <;> first | rfl | cases hu
  let s : State := ⟨.value n, [.prime, .scripts], .root [], []⟩
  have hrun : State.start.run (Lexemes.ofTokens [t]).list = (s, none) := by
    cases h <;> rfl
  have hrests : s.Rests ([] ++ [n]) := .node rfl rfl
  have hsettled : s.Settled ([] ++ [n]) u := by
    refine State.settled_of_node rfl rfl ?_ ?_ hfeed
    · rintro (hf | ⟨a, hf⟩)
      · cases hf
      · cases hf
    · intro l hf
      cases hf
  exact ⟨s, hrun, hrests, hsettled⟩

/-- A separator in front of tokens that do not go on with it. -/
theorem reads_cons (h : Separator t n m) {ts : List Token} {ns : List Node} (hts : Reads ts ns)
    (hloose : Loose ts) : Reads (t :: ts) (n :: ns) := by
  cases ts with
  | nil =>
    have hnil : ns = [] := by
      cases hts
      rfl
    rw [hnil]
    exact h.reads
  | cons u ts => exact (h.settles (hloose u rfl)).append hts

end Separator

/-- Two parts with a separator between them. -/
theorem Compiles.join {table : Table} {ts us : List Token} {ns ks : List Node}
    {ms ls : List Markup} {t : Token} {n : Node} {m : Markup} (hts : Compiles table ts ns ms)
    (h : Separator t n m) (hus : Compiles table us ks ls) (hloose : Loose us) :
    Compiles table (ts ++ t :: us) (ns ++ n :: ks) (ms ++ m :: ls) := by
  refine ⟨?_, ?_, ?_⟩
  · exact (hts.reads.settles_supplied hts.supplied h.continues).append
      (h.reads_cons hus.reads hloose)
  · rw [List.forall_mem_append, List.forall_mem_cons]
    exact ⟨hts.supplied, h.supplied, hus.supplied⟩
  · refine Lowering.lowerAll_append_eq_ok.mpr ⟨ms, m :: ls, hts.lowered, ?_, rfl⟩
    exact Lowering.lowerAll_cons_eq_ok.mpr ⟨m, ls, h.lowered table .italic, hus.lowered, rfl⟩

/-- Tokens that compile by themselves to something without separators. -/
def IsCell (table : Table) (ts : List Token) (ms : List Markup) : Prop :=
  ∃ ns, Compiles table ts ns ms ∧ ∀ m ∈ ms, m.break? = none

theorem IsCell.eq_nil {table : Table} {ts : List Token} (h : IsCell table ts []) : ts = [] := by
  obtain ⟨ns, hts, -⟩ := h
  have hns : ns = [] := by
    have hlen := Lowering.length_of_lowerAll hts.lowered
    exact List.eq_nil_of_length_eq_zero hlen.symm
  have hspelled := hts.reads.spelled
  rw [hns] at hspelled
  exact hspelled.eq_nil

/-! ### Rows and tables -/

section

variable {table : Table}

/-- With a separator behind it, only the first cell says how a row begins. -/
theorem Loose.join {cell : List Token} (h : Loose cell) (cells : List (List Token)) :
    Loose ([.cellBreak].intercalate (cell :: cells)) := by
  cases cell with
  | nil =>
    cases cells with
    | nil =>
      rw [intercalate_singleton]
      exact h
    | cons next cells =>
      rw [intercalate_cons_of_ne_nil _ _ (List.cons_ne_nil _ _)]
      rintro t ⟨⟩
      rfl
  | cons t cell =>
    rw [intercalate_cons_cons]
    exact h

/-- A row of cells compiles to one row with these cells; by induction on them. -/
theorem exists_compiles_row {cell : List Token} {cells : List (List Token)}
    (hcells : ∀ c ∈ cell :: cells, ∃ ms, IsCell table c ms) (hloose : ∀ c ∈ cells, Loose c) :
    ∃ ns ms row, Compiles table ([.cellBreak].intercalate (cell :: cells)) ns ms ∧
      Markup.rows ms = [row] ∧ List.Forall₂ (IsCell table) (cell :: cells) row := by
  induction cells generalizing cell with
  | nil =>
    obtain ⟨ms, hcell⟩ := hcells cell List.mem_cons_self
    obtain ⟨ns, hcompiles, hnone⟩ := id hcell
    refine ⟨ns, ms, [ms], ?_, ?_, .cons hcell .nil⟩
    · rw [intercalate_singleton]
      exact hcompiles
    · rw [Markup.rows_eq_splitRows, splitRows_of_forall_none hnone]
  | cons next cells ih =>
    obtain ⟨hfirst, hrest⟩ := List.forall_mem_cons.mp hcells
    obtain ⟨hnext, hlater⟩ := List.forall_mem_cons.mp hloose
    obtain ⟨ms, hcell⟩ := hfirst
    obtain ⟨ns, hcompiles, hnone⟩ := id hcell
    obtain ⟨ks, ls, row, hothers, hrow, hall⟩ := ih hrest hlater
    have hjoined := hcompiles.join .cell hothers (hnext.join cells)
    rw [← intercalate_cons_of_ne_nil _ _ (List.cons_ne_nil _ _)] at hjoined
    refine ⟨_, _, ms :: row, hjoined, ?_, .cons hcell hall⟩
    rw [Markup.rows_eq_splitRows] at hrow ⊢
    exact splitRows_append_cell hnone rfl hrow

/-- With a separator behind it, only the first row says how a table begins. -/
theorem Loose.joinTokens {row : List (List Token)} (h : Loose ([.cellBreak].intercalate row))
    (rows : List (List (List Token))) : Loose (joinTokens (row :: rows)) := by
  by_cases hrows : rows = []
  · rw [hrows, joinTokens_singleton]
    exact h
  · rw [joinTokens_cons hrows]
    cases hrow : [Token.cellBreak].intercalate row with
    | nil =>
      rintro t ⟨⟩
      rfl
    | cons t ts =>
      rw [hrow] at h
      exact h

/-- A single row has no line break. -/
theorem getLast?_ne_of_rows {ms : List Markup} {row : List (List Markup)}
    (h : Markup.rows ms = [row]) : ms.getLast? ≠ some .lineBreak := by
  intro hlast
  have hpos : 0 < ms.countP (Markup.break? · == some .line) :=
    List.countP_pos_iff.mpr ⟨.lineBreak, List.mem_of_getLast? hlast, rfl⟩
  have hlen := (Markup.length_rows ms).1
  rw [h, List.length_singleton] at hlen
  omega

/-- Rows of cells compile to the rows with these cells; by induction on them.
The markup ends in a line break only if the last row is empty. -/
theorem exists_compiles_rows {first : List (List Token)} {rows : List (List (List Token))}
    (hne : ∀ row ∈ first :: rows, row ≠ [])
    (hcells : ∀ row ∈ first :: rows, ∀ c ∈ row, ∃ ms, IsCell table c ms)
    (hloose : ∀ c ∈ (first :: rows).flatten.tail, Loose c) :
    ∃ ns ms, Compiles table (joinTokens (first :: rows)) ns ms ∧
      List.Forall₂ (List.Forall₂ (IsCell table)) (first :: rows) (Markup.rows ms) ∧
      (ms.getLast? = some .lineBreak →
        ∃ before, before ≠ [] ∧ first :: rows = before ++ [[[]]]) := by
  induction rows generalizing first with
  | nil =>
    rcases first with - | ⟨cell, cells⟩
    · exact absurd rfl (hne _ List.mem_cons_self)
    have hloose' : ∀ c ∈ cells, Loose c := by simpa using hloose
    obtain ⟨ns, ms, row, hcompiles, hrow, hall⟩ :=
      exists_compiles_row (hcells _ List.mem_cons_self) hloose'
    refine ⟨ns, ms, ?_, ?_, fun hlast => absurd hlast (getLast?_ne_of_rows hrow)⟩
    · rw [joinTokens_singleton]
      exact hcompiles
    · rw [hrow]
      exact .cons hall .nil
  | cons next rows ih =>
    rcases first with - | ⟨cell, cells⟩
    · exact absurd rfl (hne _ List.mem_cons_self)
    obtain ⟨hfirst, hcells⟩ := List.forall_mem_cons.mp hcells
    obtain ⟨-, hne⟩ := List.forall_mem_cons.mp hne
    have hloose' : ∀ c ∈ cells ++ (next :: rows).flatten, Loose c := hloose
    obtain ⟨hrowLoose, hrest⟩ := List.forall_mem_append.mp hloose'
    obtain ⟨ns, ms, row, hcompiles, hrow, hall⟩ := exists_compiles_row hfirst hrowLoose
    obtain ⟨ks, ls, hothers, hrows, hlast⟩ :=
      ih hne hcells fun c hc => hrest c (List.mem_of_mem_tail hc)
    -- The rows below begin with the first cell of the next row.
    have hbegin : Loose (joinTokens (next :: rows)) := by
      rcases next with - | ⟨cell', cells'⟩
      · exact absurd rfl (hne _ List.mem_cons_self)
      · have hcell' : Loose cell' := hrest cell' (by simp)
        exact (hcell'.join cells').joinTokens rows
    have hjoined := hcompiles.join .line hothers hbegin
    rw [← joinTokens_cons (List.cons_ne_nil _ _)] at hjoined
    refine ⟨_, _, hjoined, ?_, ?_⟩
    · rw [Markup.rows_append_lineBreak, hrow]
      exact .cons hall hrows
    · intro hend
      rcases ls with - | ⟨l, ls⟩
      · -- Nothing comes out of the rows below, so they are one empty cell.
        refine ⟨[cell :: cells], List.cons_ne_nil _ _, ?_⟩
        rcases hrows with - | ⟨hnext, hnone⟩
        rcases hnext with - | ⟨hcell, hnil⟩
        cases hnone
        cases hnil
        rw [hcell.eq_nil]
        rfl
      · have hsame : (ms ++ .lineBreak :: l :: ls).getLast? = (l :: ls).getLast? := by
          simp [List.getLast?_cons]
        obtain ⟨before, -, hbefore⟩ := hlast (hsame.symm.trans hend)
        exact ⟨(cell :: cells) :: before, List.cons_ne_nil _ _, congrArg (_ :: ·) hbefore⟩

/-- What an environment compiles to whose content compiles by itself. -/
theorem Compiles.environment {source name endName : Bytes} {e : Lowering.Environment}
    {ts : List Token} {ns : List Node} {ms : List Markup} (h : Compiles table ts ns ms)
    (he : Lowering.environment? name = some e) (hname : name ≠ arrayName)
    (hsource : (Lexemes.ofSource source).tokens =
      .environmentBegin name :: (ts ++ [.environmentEnd endName]))
    (hfault : (Lexemes.ofSource source).fault = none) :
    compile table source = .ok (.root .inline [e.markup [] (Lowering.cells ns ms)]) := by
  have hreads := h.reads.environment hname endName
  rw [← hsource] at hreads
  have htree := hreads.parse hfault
  have hlower : Lowering.lower table .italic
      (.mk .environment name (some (.environmentBegin name)) {} ns) =
        .ok (e.markup [] (Lowering.cells ns ms)) := by
    rw [Lowering.lower, he, h.lowered]
    rfl
  have hall := Lowering.lowerAll_singleton_eq_ok.mpr ⟨_, hlower, rfl⟩
  rw [compile, MathMarkup.parse, htree]
  show lowerTree table (.branch .root _) = _
  rw [Node.branch, lowerTree, hall]
  rfl

end

/-- The line break at the very end of an environment is left out. -/
theorem cells_concat (ns : List Node) (ms : List Markup) :
    Lowering.cells (ns ++ [.leaf .lineBreak [] none]) (ms ++ [.lineBreak]) = ms := by
  unfold Lowering.cells
  rw [List.getLast?_concat]
  exact List.dropLast_concat

/-- Nothing else is left out. -/
theorem Compiles.cells_eq {table : Table} {ts : List Token} {ns : List Node} {ms : List Markup}
    (h : Compiles table ts ns ms) (hlast : ms.getLast? ≠ some .lineBreak) :
    Lowering.cells ns ms = ms := by
  rcases ns.eq_nil_or_concat' with rfl | ⟨ns, n, rfl⟩
  · rfl
  · obtain ⟨as, bs, -, hn, rfl⟩ := Lowering.lowerAll_append_eq_ok.mp h.lowered
    obtain ⟨m, hm, rfl⟩ := Lowering.lowerAll_singleton_eq_ok.mp hn
    unfold Lowering.cells
    rw [List.getLast?_concat]
    dsimp only
    split
    · next hbreak =>
      rw [Lowering.eq_lineBreak_of_isLineBreak hbreak hm, List.getLast?_concat] at hlast
      exact absurd rfl hlast
    · rfl

/-- An empty row at the end comes from a line break at the end. -/
theorem getLast?_of_tokenRows {ts : List Token} {rows : List (List (List Token))} (hne : rows ≠ [])
    (h : tokenRows ts = rows ++ [[[]]]) :
    (contentLevels ts).getLast? = some (.lineBreak, true) := by
  obtain ⟨before, last, hsplit, rfl, hlast⟩ := List.map_eq_append_iff.mp h
  obtain ⟨row, rfl, hrow⟩ := List.map_eq_singleton_iff.mp hlast
  obtain ⟨cell, rfl, hcell⟩ := List.map_eq_singleton_iff.mp hrow
  obtain rfl := List.map_eq_nil_iff.mp hcell
  obtain ⟨l, hl, hline⟩ := getLast?_of_splitRows (by simpa using hne) hsplit
  rw [Option.mem_def.mp hl, levelBreak?_eq_line.mp hline]

/-- Content whose cells stand by themselves compiles by itself, to these cells. -/
theorem exists_compiles_content {table : Table} {ts : List Token}
    (hcells : ∀ row ∈ tokenRows ts, ∀ c ∈ row, ∃ ms, IsCell table c ms)
    (hloose : ∀ c ∈ (tokenRows ts).flatten.tail, Loose c) :
    ∃ ns ms, Compiles table ts ns ms ∧
      List.Forall₂ (List.Forall₂ (IsCell table)) (tokenRows ts)
        (Markup.rows (Lowering.cells ns ms)) := by
  have hjoin : joinTokens (tokenRows ts) = (contentLevels ts).map Prod.fst :=
    joinTokens_splitRows _
  have htokens : (levels ts).map Prod.fst = ts := map_fst_levelsFrom none [] ts
  have hne : ∀ row ∈ tokenRows ts, row ≠ [] := by
    intro row hrow
    obtain ⟨row', hrow', rfl⟩ := List.mem_map.mp hrow
    simpa using ne_nil_of_mem_splitRows _ row' hrow'
  obtain ⟨first, rows, hrows⟩ : ∃ first rows, tokenRows ts = first :: rows := by
    obtain ⟨first, rows, hsplit⟩ := exists_splitRows_eq (contentLevels ts)
    exact ⟨_, _, congrArg (List.map (List.map (List.map Prod.fst))) hsplit⟩
  have hall := exists_compiles_rows (hrows ▸ hne) (hrows ▸ hcells) (hrows ▸ hloose)
  rw [← hrows, hjoin] at hall
  obtain ⟨ns, ms, hcompiles, hgrid, hlast⟩ := hall
  by_cases hend : (levels ts).getLast? = some (.lineBreak, true)
  · -- The line break at the end is one more separator, with nothing behind it.
    obtain ⟨ls, hls⟩ := List.getLast?_eq_some_iff.mp hend
    have hcontent : contentLevels ts = ls := by
      rw [contentLevels, if_pos hend, hls, List.dropLast_concat]
    have hempty : Compiles table [] [] [] := ⟨rfl, List.forall_mem_nil _, rfl⟩
    have hjoined := hcompiles.join .line hempty (fun _ h => nomatch h)
    have hts : (contentLevels ts).map Prod.fst ++ [.lineBreak] = ts := by
      rw [hls, List.map_append] at htokens
      rw [hcontent]
      exact htokens
    rw [hts] at hjoined
    refine ⟨_, _, hjoined, ?_⟩
    rw [cells_concat]
    exact hgrid
  · have hcontent : contentLevels ts = levels ts := if_neg hend
    rw [hcontent, htokens] at hcompiles
    refine ⟨ns, ms, hcompiles, ?_⟩
    rw [hcompiles.cells_eq]
    · exact hgrid
    · intro hbreak
      obtain ⟨before, hbefore, heq⟩ := hlast hbreak
      have hline := getLast?_of_tokenRows hbefore heq
      rw [hcontent] at hline
      exact hend hline

/-- The separators at depth zero, with the line break at the very end. -/
theorem count_levels (ts : List Token) :
    (levels ts).count (.cellBreak, true) =
        (contentLevels ts).countP (levelBreak? · == some .cell) ∧
      (levels ts).count (.lineBreak, true) =
        (contentLevels ts).countP (levelBreak? · == some .line) +
          if (levels ts).getLast? = some (.lineBreak, true) then 1 else 0 := by
  have hcell (ls : List (Token × Bool)) :
      ls.count (.cellBreak, true) = ls.countP (levelBreak? · == some .cell) :=
    List.countP_congr fun l _ => by simp [levelBreak?_eq_cell]
  have hline (ls : List (Token × Bool)) :
      ls.count (.lineBreak, true) = ls.countP (levelBreak? · == some .line) :=
    List.countP_congr fun l _ => by simp [levelBreak?_eq_line]
  unfold contentLevels
  split
  · next hlast =>
    obtain ⟨ls, hls⟩ := List.getLast?_eq_some_iff.mp hlast
    rw [hls, List.dropLast_concat, List.count_append, List.count_append, hcell, hline]
    exact ⟨rfl, rfl⟩
  · exact ⟨hcell _, hline _⟩

/-- **Separators at depth zero are the breaks of the table**, if every cell stands
by itself and no cell behind a separator begins with a prime or script.  The
source of an environment then compiles to it; the table has as many cell breaks
as there are cell breaks at depth zero, and as many line breaks as there are
line breaks, without one at the very end; and its rows are the rows of tokens,
cell by cell. -/
theorem separators_kept {table : Table} {source name endName : Bytes}
    {e : Lowering.Environment} {body : List Token}
    (he : Lowering.environment? name = some e) (hname : name ≠ utf8 "array")
    (hsource : (Lexemes.ofSource source).tokens =
      .environmentBegin name :: (body ++ [.environmentEnd endName]))
    (hfault : (Lexemes.ofSource source).fault = none)
    (hcells : ∀ row ∈ tokenRows body, ∀ c ∈ row, ∃ ms, IsCell table c ms)
    (hloose : ∀ c ∈ (tokenRows body).flatten.tail, Loose c) :
    ∃ cells, compile table source = .ok (.root .inline [e.markup [] cells]) ∧
      cells.countP (Markup.break? · == some .cell) = (levels body).count (.cellBreak, true) ∧
      (cells.countP (Markup.break? · == some .line) +
        if (levels body).getLast? = some (.lineBreak, true) then 1 else 0) =
          (levels body).count (.lineBreak, true) ∧
      List.Forall₂ (List.Forall₂ (IsCell table)) (tokenRows body) (Markup.rows cells) := by
  obtain ⟨ns, ms, hcompiles, hgrid⟩ := exists_compiles_content hcells hloose
  generalize hcontent : Lowering.cells ns ms = cells at hgrid
  have hcompile := hcompiles.environment he hname hsource hfault
  rw [hcontent] at hcompile
  -- Rows and cells are as many on both sides.
  obtain ⟨hrows, hflat⟩ := Markup.length_rows cells
  obtain ⟨hrows', hflat'⟩ := length_tokenRows body
  have hlen : (tokenRows body).length = (Markup.rows cells).length := hgrid.length_eq
  have hlen' : (tokenRows body).flatten.length = (Markup.rows cells).flatten.length :=
    (List.rel_flatten hgrid).length_eq
  obtain ⟨hcount, hcount'⟩ := count_levels body
  refine ⟨cells, hcompile, ?_, ?_, hgrid⟩
  · rw [hcount]
    omega
  · rw [hcount']
    omega

/-- Separators in a group and in the index of a root, and a line break at the end. -/
theorem separators_kept_nested :
    ∃ cells, compile Table.empty (utf8
        "\\begin\x7bpmatrix\x7d\x7ba&b\x7d&\\sqrt[3&]x\\\\\\frac12&y'\\\\\\end\x7bpmatrix\x7d") =
          .ok (.root .inline [.fenced (utf8 "(") (utf8 ")") (.table cells (utf8 "center") [])]) ∧
      cells.countP (Markup.break? · == some .cell) = 2 ∧
      cells.countP (Markup.break? · == some .line) + 1 = 2 ∧ (Markup.rows cells).length = 2 := by
  generalize hsource :
    utf8 "\\begin\x7bpmatrix\x7d\x7ba&b\x7d&\\sqrt[3&]x\\\\\\frac12&y'\\\\\\end\x7bpmatrix\x7d" =
      source
  let group : List Token :=
    [.groupBegin, .letter (utf8 "a"), .cellBreak, .letter (utf8 "b"), .groupEnd]
  let root : List Token := [.radical, .delimiter (utf8 "["), .number (utf8 "3"), .cellBreak,
    .delimiter (utf8 "]"), .letter (utf8 "x")]
  let half : List Token := [.fraction (utf8 "frac"), .number (utf8 "1"), .number (utf8 "2")]
  let primed : List Token := [.letter (utf8 "y"), .prime 1]
  let body : List Token :=
    group ++ .cellBreak :: root ++ .lineBreak :: half ++ .cellBreak :: primed ++ [.lineBreak]
  have htokens : (Lexemes.ofSource source).tokens =
      .environmentBegin (utf8 "pmatrix") :: (body ++ [.environmentEnd (utf8 "pmatrix")]) := by
    rw [← hsource]
    decide +kernel
  have hfault : (Lexemes.ofSource source).fault = none := by
    rw [← hsource, ← Option.isNone_iff_eq_none]
    decide +kernel
  have hrows : tokenRows body = [[group, root], [half, primed]] := by decide +kernel
  have hgroup : ∃ ms, IsCell Table.empty group ms := by
    refine ⟨_, [.group [.leaf .letter (utf8 "a") none, .leaf .cellBreak [] none,
      .leaf .letter (utf8 "b") none]], ⟨rfl, ?_, rfl⟩, ?_⟩
    · simp [Node.HasArguments, Node.group, Node.leaf]
    · exact List.forall_mem_cons.mpr ⟨rfl, List.forall_mem_nil _⟩
  have hroot : ∃ ms, IsCell Table.empty root ms := by
    refine ⟨_, [.command .radical [.leaf .letter (utf8 "x") none,
      .group [.leaf .number (utf8 "3") none, .leaf .cellBreak [] none]]], ⟨rfl, ?_, rfl⟩, ?_⟩
    · simp [Node.HasArguments, Node.command, Node.group, Node.leaf, Token.arity]
    · exact List.forall_mem_cons.mpr ⟨rfl, List.forall_mem_nil _⟩
  have hhalf : ∃ ms, IsCell Table.empty half ms := by
    refine ⟨_, [.command (.fraction (utf8 "frac")) [.leaf .number (utf8 "1") none,
      .leaf .number (utf8 "2") none]], ⟨rfl, ?_, rfl⟩, ?_⟩
    · simp [Node.HasArguments, Node.command, Node.leaf, Token.arity]
    · exact List.forall_mem_cons.mpr ⟨rfl, List.forall_mem_nil _⟩
  have hprimed : ∃ ms, IsCell Table.empty primed ms := by
    refine ⟨_, [.branch .superscript [.leaf .letter (utf8 "y") none, .prime 1]],
      ⟨rfl, ?_, rfl⟩, ?_⟩
    · simp [Node.HasArguments, Node.branch, Node.prime, Node.leaf]
    · exact List.forall_mem_cons.mpr ⟨rfl, List.forall_mem_nil _⟩
  have hcells : ∀ row ∈ tokenRows body, ∀ c ∈ row, ∃ ms, IsCell Table.empty c ms := by
    rw [hrows]
    simp only [List.mem_cons, List.not_mem_nil, or_false, forall_eq_or_imp, forall_eq]
    exact ⟨⟨hgroup, hroot⟩, hhalf, hprimed⟩
  have hloose : ∀ c ∈ (tokenRows body).flatten.tail, Loose c := by
    rw [hrows]
    unfold Loose
    decide
  have henvironment : Lowering.environment? (utf8 "pmatrix") =
      some (.fenced (utf8 "(") (utf8 ")")) := rfl
  have hname : utf8 "pmatrix" ≠ utf8 "array" := by decide
  obtain ⟨cells, hcompile, hcell, hline, hgrid⟩ :=
    separators_kept henvironment hname htokens hfault hcells hloose
  refine ⟨cells, hcompile, ?_, ?_, ?_⟩
  · rw [hcell]
    decide +kernel
  · have hlast : (levels body).getLast? = some (.lineBreak, true) := by decide +kernel
    rw [if_pos hlast] at hline
    rw [hline]
    decide +kernel
  · rw [← hgrid.length_eq, hrows]
    rfl

/-- A prime takes the separator before it, so that a table of one cell is left, and
a separator in braces by itself makes a second cell. -/
theorem not_separators_kept :
    (∃ body, (Lexemes.ofSource (utf8 "\\begin\x7bmatrix\x7da&'b\\end\x7bmatrix\x7d")).tokens =
        .environmentBegin (utf8 "matrix") :: (body ++ [.environmentEnd (utf8 "matrix")]) ∧
      (levels body).count (.cellBreak, true) = 1 ∧
      ∀ table, ∃ cells, compile table (utf8 "\\begin\x7bmatrix\x7da&'b\\end\x7bmatrix\x7d") =
          .ok (.root .inline [.table cells (utf8 "center") []]) ∧
        cells.countP (Markup.break? · == some .cell) = 0) ∧
    ∃ body, (Lexemes.ofSource (utf8 "\\begin\x7bmatrix\x7da\x7b&\x7db\\end\x7bmatrix\x7d")).tokens =
        .environmentBegin (utf8 "matrix") :: (body ++ [.environmentEnd (utf8 "matrix")]) ∧
      (levels body).count (.cellBreak, true) = 0 ∧
      ∀ table, ∃ cells,
        compile table (utf8 "\\begin\x7bmatrix\x7da\x7b&\x7db\\end\x7bmatrix\x7d") =
          .ok (.root .inline [.table cells (utf8 "center") []]) ∧
        cells.countP (Markup.break? · == some .cell) = 1 := by
  let a : Node := .leaf .letter (utf8 "a") none
  let b : Node := .leaf .letter (utf8 "b") none
  let separator : Node := .leaf .cellBreak [] none
  have hmatrix : Lowering.environment? (utf8 "matrix") = some .plain := rfl
  have hname : utf8 "matrix" ≠ utf8 "array" := by decide
  constructor
  · have htokens : (Lexemes.ofSource (utf8 "\\begin\x7bmatrix\x7da&'b\\end\x7bmatrix\x7d")).tokens =
        .environmentBegin (utf8 "matrix") ::
          ([.letter (utf8 "a"), .cellBreak, .prime 1, .letter (utf8 "b")] ++
            [.environmentEnd (utf8 "matrix")]) := by
      decide +kernel
    have hfault :
        (Lexemes.ofSource (utf8 "\\begin\x7bmatrix\x7da&'b\\end\x7bmatrix\x7d")).fault = none := by
      rw [← Option.isNone_iff_eq_none]
      decide +kernel
    refine ⟨_, htokens, by decide, fun table => ?_⟩
    have hbody : Compiles table [.letter (utf8 "a"), .cellBreak, .prime 1, .letter (utf8 "b")]
        [a, .branch .superscript [separator, .prime 1], b]
        [.identifier (utf8 "a") .italic,
          .superscript .cellBreak (.operator (Node.primeGlyph 1) {}),
          .identifier (utf8 "b") .italic] := by
      refine ⟨rfl, ?_, rfl⟩
      simp [a, b, separator, Node.HasArguments, Node.branch, Node.prime, Node.leaf]
    exact ⟨_, hbody.environment hmatrix hname htokens hfault, rfl⟩
  · have htokens : (Lexemes.ofSource
        (utf8 "\\begin\x7bmatrix\x7da\x7b&\x7db\\end\x7bmatrix\x7d")).tokens =
        .environmentBegin (utf8 "matrix") ::
          ([.letter (utf8 "a"), .groupBegin, .cellBreak, .groupEnd, .letter (utf8 "b")] ++
            [.environmentEnd (utf8 "matrix")]) := by
      decide +kernel
    have hfault :
        (Lexemes.ofSource (utf8 "\\begin\x7bmatrix\x7da\x7b&\x7db\\end\x7bmatrix\x7d")).fault =
          none := by
      rw [← Option.isNone_iff_eq_none]
      decide +kernel
    refine ⟨_, htokens, by decide, fun table => ?_⟩
    have hbody : Compiles table
        [.letter (utf8 "a"), .groupBegin, .cellBreak, .groupEnd, .letter (utf8 "b")]
        [a, separator, b]
        [.identifier (utf8 "a") .italic, .cellBreak, .identifier (utf8 "b") .italic] := by
      refine ⟨rfl, ?_, rfl⟩
      simp [a, b, separator, Node.HasArguments, Node.leaf]
    exact ⟨_, hbody.environment hmatrix hname htokens hfault, rfl⟩

end MathMarkup
