/-
MathMarkup/Proofs/Rows.lean

Rows of cells and the stream they are written as.  A stream may be anything; the
rows that it is split into are a grid: there is a row, every row has a cell, and
no cell holds a break (`Markup.IsGrid`).  Joining a grid with breaks is the
inverse of splitting, in both directions (`Markup.rows_eq_iff`), so that a table
can be given as a stream or as a grid, and no grid is the result of two streams.

The two directions go through the data in different ways.  A stream is gone
through from its front, where each break opens a cell or a row
(`joinRows_rows`).  A grid is gone through row by row and each row cell by cell,
and the content of a cell is put in front of whatever follows it at once
(`rows_append`).

A stream can also be split in one pass with two accumulators, the row and the cell that are
not complete yet (`Splitting`).  The rows are the same (`rows_eq_foldl`).
-/
import MathMarkup.Proofs.Cells

namespace MathMarkup

namespace Markup

/-- What a cell may hold: no break. -/
def IsContent (m : Markup) : Prop :=
  m ≠ .cellBreak ∧ m ≠ .lineBreak

/-- Rows as a table has them. -/
structure IsGrid (rs : List (List (List Markup))) : Prop where
  rows : rs ≠ []
  cells : ∀ row ∈ rs, row ≠ []
  content : ∀ row ∈ rs, ∀ cell ∈ row, ∀ m ∈ cell, m.IsContent

/-! ### From a stream to a grid -/

theorem ne_nil_of_mem_rows (ms : List Markup) : ∀ row ∈ rows ms, row ≠ [] := by
  induction ms using cells_induct with
  | nil => simp [rows]
  | cellBreak ms ih =>
    obtain ⟨cell, cells, more, h⟩ := exists_rows_eq ms
    rw [h] at ih
    rw [rows_cellBreak h]
    exact List.forall_mem_cons.mpr ⟨List.cons_ne_nil _ _, (List.forall_mem_cons.mp ih).2⟩
  | lineBreak ms ih =>
    rw [rows_lineBreak]
    exact List.forall_mem_cons.mpr ⟨List.cons_ne_nil _ _, ih⟩
  | content m ms hc hl ih =>
    obtain ⟨cell, cells, more, h⟩ := exists_rows_eq ms
    rw [h] at ih
    rw [rows_cons hc hl h]
    exact List.forall_mem_cons.mpr ⟨List.cons_ne_nil _ _, (List.forall_mem_cons.mp ih).2⟩

theorem isGrid_rows (ms : List Markup) : IsGrid (rows ms) where
  rows := by
    obtain ⟨cell, cells, more, h⟩ := exists_rows_eq ms
    rw [h]
    exact List.cons_ne_nil _ _
  cells := ne_nil_of_mem_rows ms
  content := forall_mem_rows_iff.mpr fun _ _ hc hl => ⟨hc, hl⟩

/-! ### Splitting in one pass -/

/-- A stream that is split up to some place: the rows that are complete, the complete cells of
the row at that place, and what there is of the cell at that place. -/
structure Splitting where
  rows : List (List (List Markup)) := []
  row : List (List Markup) := []
  cell : List Markup := []

namespace Splitting

/-- One more element of the stream. -/
def step (s : Splitting) : Markup → Splitting
  | .cellBreak => { s with row := s.row ++ [s.cell], cell := [] }
  | .lineBreak => { rows := s.rows ++ [s.row ++ [s.cell]] }
  | m => { s with cell := s.cell ++ [m] }

/-- All rows, when the stream ends. -/
def finish (s : Splitting) : List (List (List Markup)) :=
  s.rows ++ [s.row ++ [s.cell]]

theorem step_content {m : Markup} (s : Splitting) (hc : m ≠ .cellBreak) (hl : m ≠ .lineBreak) :
    s.step m = { s with cell := s.cell ++ [m] } := by
  cases m with
  | cellBreak => exact absurd rfl hc
  | lineBreak => exact absurd rfl hl
  | _ => rfl

/-- What is split already stays in front of the rows of what follows: the cell is continued by
their first cell, and the row by their first row.  By induction on what follows. -/
theorem finish_foldl {ms cell : List Markup} {cells : List (List Markup)}
    {more : List (List (List Markup))} (h : Markup.rows ms = (cell :: cells) :: more)
    (s : Splitting) :
    (ms.foldl step s).finish = s.rows ++ (s.row ++ (s.cell ++ cell) :: cells) :: more := by
  induction ms using cells_induct generalizing s cell cells more with
  | nil =>
    obtain ⟨⟨rfl, rfl⟩, rfl⟩ : ([] = cell ∧ [] = cells) ∧ [] = more := by
      simpa [Markup.rows] using h
    simp [finish]
  | cellBreak ms ih =>
    obtain ⟨cell', cells', more', h'⟩ := exists_rows_eq ms
    obtain ⟨⟨rfl, rfl⟩, rfl⟩ : ([] = cell ∧ cell' :: cells' = cells) ∧ more' = more := by
      simpa using (rows_cellBreak h').symm.trans h
    rw [List.foldl_cons, ih h']
    simp [step]
  | lineBreak ms ih =>
    obtain ⟨cell', cells', more', h'⟩ := exists_rows_eq ms
    obtain ⟨⟨rfl, rfl⟩, rfl⟩ : ([] = cell ∧ [] = cells) ∧ (cell' :: cells') :: more' = more := by
      simpa [h'] using (rows_lineBreak ms).symm.trans h
    rw [List.foldl_cons, ih h']
    simp [step]
  | content m ms hc hl ih =>
    obtain ⟨cell', cells', more', h'⟩ := exists_rows_eq ms
    obtain ⟨⟨rfl, rfl⟩, rfl⟩ : (m :: cell' = cell ∧ cells' = cells) ∧ more' = more := by
      simpa using (rows_cons hc hl h').symm.trans h
    rw [List.foldl_cons, ih h', step_content s hc hl]
    simp

end Splitting

/-- **Rows are what one pass over the stream finds.** -/
theorem rows_eq_foldl (ms : List Markup) : rows ms = (ms.foldl Splitting.step {}).finish := by
  obtain ⟨cell, cells, more, h⟩ := exists_rows_eq ms
  rw [Splitting.finish_foldl h, h]
  rfl

/-! ### Joining -/

theorem joinCells_cons (cell : List Markup) {cells : List (List Markup)} (h : cells ≠ []) :
    joinCells (cell :: cells) = cell ++ .cellBreak :: joinCells cells := by
  rw [joinCells]
  exact h

theorem joinRows_cons (row : List (List Markup)) {more : List (List (List Markup))}
    (h : more ≠ []) : joinRows (row :: more) = joinCells row ++ .lineBreak :: joinRows more := by
  rw [joinRows]
  exact h

/-- What comes first in the first row comes first. -/
theorem joinRows_of_row {m : Markup} {row row' : List (List Markup)}
    (h : joinCells row = m :: joinCells row') (more : List (List (List Markup))) :
    joinRows (row :: more) = m :: joinRows (row' :: more) := by
  by_cases hmore : more = []
  · rw [hmore]
    exact h
  · rw [joinRows_cons row hmore, joinRows_cons row' hmore, h, List.cons_append]

theorem joinCells_content (m : Markup) (cell : List Markup) (cells : List (List Markup)) :
    joinCells ((m :: cell) :: cells) = m :: joinCells (cell :: cells) := by
  by_cases hcells : cells = []
  · rw [hcells]
    rfl
  · rw [joinCells_cons _ hcells, joinCells_cons _ hcells, List.cons_append]

/-- A stream that is split and joined again; by induction on the stream. -/
theorem joinRows_rows (ms : List Markup) : joinRows (rows ms) = ms := by
  induction ms using cells_induct with
  | nil => rfl
  | cellBreak ms ih =>
    obtain ⟨cell, cells, more, h⟩ := exists_rows_eq ms
    have hfirst : joinCells ([] :: cell :: cells) = .cellBreak :: joinCells (cell :: cells) :=
      joinCells_cons [] (List.cons_ne_nil _ _)
    rw [rows_cellBreak h, joinRows_of_row hfirst, ← h, ih]
  | lineBreak ms ih =>
    rw [rows_lineBreak, joinRows_cons _ (isGrid_rows ms).rows, ih]
    rfl
  | content m ms hc hl ih =>
    obtain ⟨cell, cells, more, h⟩ := exists_rows_eq ms
    rw [rows_cons hc hl h, joinRows_of_row (joinCells_content m cell cells), ← h, ih]

/-! ### From a grid to a stream -/

/-- Content in front of a stream belongs to its first cell. -/
theorem rows_append {cell : List Markup} (hcell : ∀ m ∈ cell, m.IsContent)
    {ms first : List Markup} {cells : List (List Markup)} {more : List (List (List Markup))}
    (h : rows ms = (first :: cells) :: more) :
    rows (cell ++ ms) = ((cell ++ first) :: cells) :: more := by
  induction cell with
  | nil => exact h
  | cons m cell ih =>
    obtain ⟨hm, hcell⟩ := List.forall_mem_cons.mp hcell
    exact rows_cons hm.1 hm.2 (ih hcell)

/-- The stream of one row has that row only; by induction on its cells. -/
theorem rows_joinCells {row : List (List Markup)} (hrow : row ≠ [])
    (hcontent : ∀ cell ∈ row, ∀ m ∈ cell, m.IsContent) : rows (joinCells row) = [row] := by
  induction row with
  | nil => exact absurd rfl hrow
  | cons cell cells ih =>
    obtain ⟨hcell, hcells⟩ := List.forall_mem_cons.mp hcontent
    by_cases hne : cells = []
    · have hlast : rows (cell ++ []) = [[cell ++ []]] := rows_append hcell rfl
      rw [List.append_nil] at hlast
      rw [hne]
      exact hlast
    · have hrest := rows_cellBreak (ih hne hcells)
      rw [joinCells_cons cell hne, rows_append hcell hrest, List.append_nil]

/-- A grid that is joined and split again; by induction on its rows. -/
theorem rows_joinRows {rs : List (List (List Markup))} (h : IsGrid rs) :
    rows (joinRows rs) = rs := by
  obtain ⟨hne, hcells, hcontent⟩ := h
  induction rs with
  | nil => exact absurd rfl hne
  | cons row more ih =>
    obtain ⟨hrow, hrows⟩ := List.forall_mem_cons.mp hcells
    obtain ⟨hin, hcontent⟩ := List.forall_mem_cons.mp hcontent
    by_cases hmore : more = []
    · rw [hmore]
      exact rows_joinCells hrow hin
    · rw [joinRows_cons row hmore, rows_append_lineBreak, rows_joinCells hrow hin,
        ih hmore hrows hcontent]
      rfl

/-- **Splitting a table into rows is invertible.**  The rows of a stream are the one
grid that gives the stream back when its cells are joined with cell breaks and its
rows with line breaks. -/
theorem rows_eq_iff (cells : List Markup) (rs : List (List (List Markup))) :
    rows cells = rs ↔ IsGrid rs ∧ joinRows rs = cells := by
  constructor
  · rintro rfl
    exact ⟨isGrid_rows cells, joinRows_rows cells⟩
  · rintro ⟨hgrid, rfl⟩
    exact rows_joinRows hgrid

/-- Breaks at both ends and next to each other: every cell between them is
empty. -/
example : rows [.cellBreak, .lineBreak, .lineBreak, .missing, .cellBreak] =
    [[[], []], [[]], [[.missing], []]] :=
  rfl

end Markup

end MathMarkup
