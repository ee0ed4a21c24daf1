/-
MathMarkup/Proofs/Writing.lean

Rendering to a writer.  `writeTo` renders a tree in one pass: element by element it
hands over tags and texts, each with one write, in any monad that writes go on in.
With errors in the monad, the first write that fails ends it, at whatever depth of the
tree.  What is handed over are the pieces of the tree in their order (`writeTo_eq`), so
that what is known of pieces is known of writers.

Of any writer at all it holds that a rendering either makes all its writes or ends with
the first one that fails, with the error of this write and in the state it leaves
(`runFrom_cases`).  Of a writer with limited room it is known in addition which
writes fail, and what has been accepted before.
-/
import MathMarkup.Proofs.ReadBack

namespace MathMarkup

namespace Markup

/-! ### Rendering in one pass -/

section WriteTo

variable {μ : Type → Type} [Monad μ]

/-- Writes pieces one by one. -/
def writePieces (put : Bytes → μ Unit) : List Bytes → μ Unit
  | [] => pure ()
  | p :: ps => do
    put p
    writePieces put ps

/-- Writes an element around its content. -/
def writeElement (put : Bytes → μ Unit) (name : String) (attributes : Bytes) (content : μ Unit) :
    μ Unit := do
  put (startTag name attributes)
  content
  put (endTag name)

mutual

/-- Writes a tree. -/
def writeTo (put : Bytes → μ Unit) : Markup → μ Unit
  | .missing | .cellBreak => pure ()
  | .root display children =>
    writeElement put "math" (rootAttributes display) (writeAll put children)
  | .row children _ => writeElement put "mrow" [] (writeAll put children)
  | .identifier s v => put (textElement "mi" (variantAttribute s v) s)
  | .number s => put (textElement "mn" [] s)
  | .operator s form => put (textElement "mo" (operatorAttributes form) s)
  | .text s => put (textElement "mtext" [] s)
  | .space width => put (emptyTag "mspace" (attr "width" (width.text ++ utf8 "em")))
  | .lineBreak => put (emptyTag "mspace" (attr "linebreak" (utf8 "newline")))
  | .function name args => do
    put (textElement "mi" [] name)
    writeArguments put args
  | .superscript base sup =>
    writeElement put "msup" [] do
      base.writeTo put
      sup.writeTo put
  | .subscript base sub =>
    writeElement put "msub" [] do
      base.writeTo put
      sub.writeTo put
  | .subSup base sub sup =>
    writeElement put "msubsup" [] do
      base.writeTo put
      sub.writeTo put
      sup.writeTo put
  | .overscript base above accent =>
    writeElement put "mover" (flag "accent" accent) do
      base.writeTo put
      above.writeTo put
  | .underscript base below accent =>
    writeElement put "munder" (flag "accentunder" accent) do
      base.writeTo put
      below.writeTo put
  | .underOverscript base below above accentUnder accentOver =>
    writeElement put "munderover" (flag "accentunder" accentUnder ++ flag "accent" accentOver) do
      base.writeTo put
      below.writeTo put
      above.writeTo put
  | .radical base .missing => writeElement put "msqrt" [] (base.writeTo put)
  | .radical base index =>
    writeElement put "mroot" [] do
      base.writeTo put
      index.writeTo put
  | .fraction numerator denominator thickness =>
    writeElement put "mfrac" (thicknessAttribute thickness) do
      numerator.writeTo put
      denominator.writeTo put
  | .fenced opening closing content => do
    put (startTag "mrow" [] ++ fenceOperator "prefix" opening)
    content.writeTo put
    put (fenceOperator "postfix" closing ++ endTag "mrow")
  | .table cells align columnLines =>
    writeElement put "mtable" (tableAttributes align columnLines) do
      writeElement put "mtr" [] (writeElement put "mtd" [] (writeCells put cells))
  | .styled display content =>
    writeElement put "mstyle"
      (attr "displaystyle" (utf8 (if display = .block then "true" else "false")))
      (content.writeTo put)

/-- Writes several trees. -/
def writeAll (put : Bytes → μ Unit) : List Markup → μ Unit
  | [] => pure ()
  | n :: ns => do
    n.writeTo put
    writeAll put ns

/-- Writes the arguments of a function. -/
def writeArguments (put : Bytes → μ Unit) : List Markup → μ Unit
  | [] => pure ()
  | [arg] => do
    put applyFunction
    arg.writeTo put
  | arg :: args => do
    put applyFunction
    writeElement put "mrow" [] do
      arg.writeTo put
      writeAll put args

/-- Writes a stream of cells from inside its first cell to inside its last one. -/
def writeCells (put : Bytes → μ Unit) : List Markup → μ Unit
  | [] => pure ()
  | .cellBreak :: ns => do
    put (endTag "mtd")
    put (startTag "mtd" [])
    writeCells put ns
  | .lineBreak :: ns => do
    put (endTag "mtd")
    put (endTag "mtr")
    put (startTag "mtr" [])
    put (startTag "mtd" [])
    writeCells put ns
  | n :: ns => do
    n.writeTo put
    writeCells put ns

end

/-! ### Pieces -/

/-- What is written are these pieces. -/
def Writes (put : Bytes → μ Unit) (act : μ Unit) (ps : List Bytes) : Prop :=
  act = writePieces put ps

namespace Writes

variable {put : Bytes → μ Unit} {act act' : μ Unit} {ps qs : List Bytes}

theorem nil : Writes put (pure ()) [] :=
  rfl

variable [LawfulMonad μ]

theorem piece (p : Bytes) : Writes put (put p) [p] := by
  rw [Writes, writePieces, writePieces, bind_pure_unit]

/-- One after the other. -/
theorem seq (h : Writes put act ps) (h' : Writes put act' qs) :
    Writes put (do act; act') (ps ++ qs) := by
  rw [Writes] at h h' ⊢
  subst h h'
  induction ps with
  | nil => rw [writePieces, pure_bind, List.nil_append]
  | cons p ps ih => rw [writePieces, bind_assoc, ih, List.cons_append, writePieces]

theorem cons (p : Bytes) (h : Writes put act ps) : Writes put (do put p; act) (p :: ps) :=
  (piece p).seq h

theorem element (name : String) (attributes : Bytes) (h : Writes put act ps) :
    Writes put (writeElement put name attributes act) (wrap name attributes ps) :=
  (h.seq (piece (endTag name))).cons (startTag name attributes)

end Writes

variable [LawfulMonad μ] {put : Bytes → μ Unit}

theorem writes_all {ms : List Markup} (h : ∀ m ∈ ms, Writes put (m.writeTo put) m.pieces) :
    Writes put (writeAll put ms) (piecesAll ms) := by
  induction ms with
  | nil => exact .nil
  | cons m ms ih =>
    obtain ⟨hm, hms⟩ := List.forall_mem_cons.mp h
    rw [writeAll, piecesAll]
    exact hm.seq (ih hms)

theorem writes_pair {m n : Markup} (h : ∀ c ∈ [m, n], Writes put (c.writeTo put) c.pieces) :
    Writes put (do m.writeTo put; n.writeTo put) (m.pieces ++ n.pieces) :=
  (h m (by simp)).seq (h n (by simp))

theorem writes_triple {m n k : Markup}
    (h : ∀ c ∈ [m, n, k], Writes put (c.writeTo put) c.pieces) :
    Writes put (do m.writeTo put; n.writeTo put; k.writeTo put)
      (m.pieces ++ n.pieces ++ k.pieces) := by
  rw [List.append_assoc]
  exact (h m (by simp)).seq ((h n (by simp)).seq (h k (by simp)))

theorem writes_function {name : Bytes} {args : List Markup}
    (h : ∀ m ∈ args, Writes put (m.writeTo put) m.pieces) :
    Writes put (writeTo put (.function name args)) (pieces (.function name args)) := by
  rcases args with - | ⟨arg, - | ⟨arg', args⟩⟩
  · rw [writeTo, pieces, writeArguments]
    exact .cons _ .nil
  · rw [writeTo, pieces, writeArguments]
    exact .cons _ (.cons _ (h arg (.head _)))
  · have hargs := writes_all h
    rw [writeAll] at hargs
    rw [writeTo, pieces, writeArguments]
    · exact .cons _ (.cons _ (.element _ _ hargs))
    all_goals simp

theorem writes_radical {base index : Markup}
    (h : ∀ c ∈ [base, index], Writes put (c.writeTo put) c.pieces) :
    Writes put (writeTo put (.radical base index)) (pieces (.radical base index)) := by
  by_cases hi : index = .missing
  · subst hi
    rw [writeTo, pieces]
    exact .element _ _ (h base (.head _))
  · rw [writeTo, pieces]
    · exact .element _ _ (writes_pair h)
    · exact hi
    · exact hi

theorem writes_cells {ns : List Markup} (h : ∀ n ∈ ns, Writes put (n.writeTo put) n.pieces) :
    Writes put (writeCells put ns) (piecesOfCells ns) := by
  induction ns using cells_induct with
  | nil =>
    rw [writeCells, piecesOfCells]
    exact .nil
  | cellBreak ns ih =>
    rw [writeCells, piecesOfCells]
    exact .cons _ (.cons _ (ih (List.forall_mem_cons.mp h).2))
  | lineBreak ns ih =>
    rw [writeCells, piecesOfCells]
    exact .cons _ (.cons _ (.cons _ (.cons _ (ih (List.forall_mem_cons.mp h).2))))
  | content n ns hc hl ih =>
    obtain ⟨hn, hns⟩ := List.forall_mem_cons.mp h
    rw [writeCells, piecesOfCells]
    · exact hn.seq (ih hns)
    · exact hc
    · exact hl
    · exact hc
    · exact hl

/-- A tree is written piece by piece, by induction on the tree. -/
theorem writes_pieces (m : Markup) : Writes put (m.writeTo put) m.pieces := by
  induction m using induct with
  | step m ih =>
    cases m with
    | missing | cellBreak =>
      rw [writeTo, pieces]
      exact .nil
    | root display children =>
      rw [writeTo, pieces]
      exact .element _ _ (writes_all ih)
    | row children bracket =>
      rw [writeTo, pieces]
      exact .element _ _ (writes_all ih)
    | identifier s v | number s | operator s form | text s | space width | lineBreak =>
      rw [writeTo, pieces]
      exact .piece _
    | function name args => exact writes_function ih
    | superscript base script | subscript base script | overscript base script accent
    | underscript base script accent | fraction base script thickness =>
      rw [writeTo, pieces]
      exact .element _ _ (writes_pair ih)
    | subSup base sub sup | underOverscript base below above accentUnder accentOver =>
      rw [writeTo, pieces]
      exact .element _ _ (writes_triple ih)
    | radical base index => exact writes_radical ih
    | fenced opening closing content =>
      rw [writeTo, pieces]
      exact .cons _ ((ih content (.head _)).seq (.piece _))
    | table cells align columnLines =>
      have hnested : pieces (.table cells align columnLines) =
          wrap "mtable" (tableAttributes align columnLines)
            (wrap "mtr" [] (wrap "mtd" [] (piecesOfCells cells))) := by
        simp [pieces, wrap]
      rw [writeTo, hnested]
      exact .element _ _ (.element _ _ (.element _ _ (writes_cells ih)))
    | styled display content =>
      rw [writeTo, pieces]
      exact .element _ _ (ih content (.head _))

theorem writeTo_eq (put : Bytes → μ Unit) (m : Markup) :
    m.writeTo put = writePieces put m.pieces :=
  writes_pieces m

end WriteTo

end Markup

/-! ### Writers -/

/-- What writes go on in: a write changes the state of a writer, also when it ends with
an error. -/
abbrev Writing (ε σ : Type) : Type → Type :=
  ExceptT ε (StateM σ)

namespace Writing

open Markup (writePieces writeTo_eq takeWithin renderWithin_of_le)

variable {ε σ : Type} {write : Bytes → Writing ε σ Unit}

/-- What happens from a state on: the result, and the state it ends in. -/
def runFrom (act : Writing ε σ Unit) (s : σ) : Except ε Unit × σ :=
  act.run.run s

theorem runFrom_cons_of_ok {p : Bytes} {ps : List Bytes} {s s' : σ}
    (h : runFrom (write p) s = (.ok (), s')) :
    runFrom (writePieces write (p :: ps)) s = runFrom (writePieces write ps) s' := by
  rw [runFrom] at h
  rw [runFrom, writePieces, ExceptT.run_bind, StateT.run_bind, h]
  rfl

theorem runFrom_cons_of_error {p : Bytes} {ps : List Bytes} {s s' : σ} {e : ε}
    (h : runFrom (write p) s = (.error e, s')) :
    runFrom (writePieces write (p :: ps)) s = (.error e, s') := by
  rw [runFrom] at h
  rw [runFrom, writePieces, ExceptT.run_bind, StateT.run_bind, h]
  rfl

/-- A run of writes makes all of them, or ends with the first that fails: with its error
and in the state that it leaves. -/
theorem runFrom_cases (write : Bytes → Writing ε σ Unit) (ps : List Bytes) (s : σ) :
    (∃ s', runFrom (writePieces write ps) s = (.ok (), s')) ∨
      ∃ done p rest s₁ e s', ps = done ++ p :: rest ∧
        runFrom (writePieces write done) s = (.ok (), s₁) ∧
        runFrom (write p) s₁ = (.error e, s') ∧
        runFrom (writePieces write ps) s = (.error e, s') := by
  induction ps generalizing s with
  | nil => exact .inl ⟨s, rfl⟩
  | cons p ps ih =>
    rcases hp : runFrom (write p) s with ⟨e | ⟨⟩, s₁⟩
    · exact .inr ⟨[], p, ps, s, e, s₁, rfl, rfl, hp, runFrom_cons_of_error hp⟩
    · rw [runFrom_cons_of_ok hp]
      rcases ih s₁ with hall | ⟨done, q, rest, s₂, e, s', rfl, hdone, hq, hps⟩
      · exact .inl hall
      · refine .inr ⟨p :: done, q, rest, s₂, e, s', rfl, ?_, hq, hps⟩
        rw [runFrom_cons_of_ok hp, hdone]

/-- A writer that accepts `limit` bytes in all, what has been accepted being seen from
its state.  A write that fits is accepted; one that does not fit fails, and of it some
bytes at the front may be accepted, or none. -/
structure Limited (limit : Nat) (write : Bytes → Writing ε σ Unit) (accepted : σ → Bytes) :
    Prop where
  fits : ∀ s p, (accepted s).length + p.length ≤ limit →
    ∃ s', runFrom (write p) s = (.ok (), s') ∧ accepted s' = accepted s ++ p
  fails : ∀ s p, limit < (accepted s).length + p.length →
    ∃ e s' q, runFrom (write p) s = (.error e, s') ∧ q <+: p ∧ accepted s' = accepted s ++ q

namespace Limited

variable {limit : Nat} {accepted : σ → Bytes} {s s' : σ} {p : Bytes} {ps : List Bytes}

theorem of_ok (h : Limited limit write accepted) (hp : runFrom (write p) s = (.ok (), s')) :
    (accepted s).length + p.length ≤ limit ∧ accepted s' = accepted s ++ p := by
  by_cases hfits : (accepted s).length + p.length ≤ limit
  · obtain ⟨s₁, hs₁, haccepted⟩ := h.fits s p hfits
    obtain ⟨-, rfl⟩ := Prod.mk.inj (hs₁.symm.trans hp)
    exact ⟨hfits, haccepted⟩
  · obtain ⟨e, s₁, q, hs₁, -⟩ := h.fails s p (Nat.lt_of_not_le hfits)
    rw [hs₁] at hp
    cases hp

theorem of_error (h : Limited limit write accepted) {e : ε}
    (hp : runFrom (write p) s = (.error e, s')) :
    limit < (accepted s).length + p.length ∧ ∃ q, q <+: p ∧ accepted s' = accepted s ++ q := by
  by_cases hfits : (accepted s).length + p.length ≤ limit
  · obtain ⟨s₁, hs₁, -⟩ := h.fits s p hfits
    rw [hs₁] at hp
    cases hp
  · obtain ⟨e', s₁, q, hs₁, hq, haccepted⟩ := h.fails s p (Nat.lt_of_not_le hfits)
    obtain ⟨-, rfl⟩ := Prod.mk.inj (hs₁.symm.trans hp)
    exact ⟨Nat.lt_of_not_le hfits, q, hq, haccepted⟩

/-- Writes that have all been made were accepted as they are. -/
theorem accepted_of_ok (h : Limited limit write accepted) (hs : (accepted s).length ≤ limit)
    (hps : runFrom (writePieces write ps) s = (.ok (), s')) :
    accepted s' = accepted s ++ ps.flatten ∧ (accepted s').length ≤ limit := by
  induction ps generalizing s with
  | nil =>
    obtain ⟨-, rfl⟩ := Prod.mk.inj hps
    simpa using hs
  | cons p ps ih =>
    rcases hp : runFrom (write p) s with ⟨e | ⟨⟩, s₁⟩
    · rw [runFrom_cons_of_error hp] at hps
      cases hps
    · rw [runFrom_cons_of_ok hp] at hps
      obtain ⟨hfits, haccepted⟩ := h.of_ok hp
      have hs₁ : (accepted s₁).length ≤ limit := by
        rw [haccepted, List.length_append]
        exact hfits
      have hrest := ih hs₁ hps
      rwa [haccepted, List.append_assoc] at hrest

end Limited

/-- With limited room, pieces are handed over up to the first that does not fit. -/
theorem takeWithin_append {done rest : List Bytes} {p : Bytes} {room : Nat}
    (hdone : done.flatten.length ≤ room) (hp : room < done.flatten.length + p.length) :
    takeWithin room (done ++ p :: rest) = (done.flatten, false) := by
  induction done generalizing room with
  | nil =>
    rw [List.flatten_nil, List.length_nil, Nat.zero_add] at hp
    rw [List.nil_append, takeWithin, if_neg (Nat.not_le_of_lt hp), List.flatten_nil]
  | cons d done ih =>
    rw [List.flatten_cons, List.length_append] at hdone hp
    rw [List.cons_append, takeWithin, if_pos (by omega), ih (by omega) (by omega),
      List.flatten_cons]

/-- A writer without a limit. -/
def buffer (p : Bytes) : Writing ε Bytes Unit :=
  modify (· ++ p)

theorem runFrom_buffer (ps : List Bytes) (b : Bytes) :
    runFrom (writePieces (buffer (ε := ε)) ps) b = (.ok (), b ++ ps.flatten) := by
  induction ps generalizing b with
  | nil =>
    rw [List.flatten_nil, List.append_nil]
    rfl
  | cons p ps ih =>
    have hp : runFrom (buffer (ε := ε) p) b = (.ok (), b ++ p) := rfl
    rw [runFrom_cons_of_ok hp, ih, List.flatten_cons, List.append_assoc]

/-- **Rendering to a limited writer.**  A buffer takes the whole rendering.  A writer
with a limit takes it if and only if it is not longer than the limit, and then nothing
else; otherwise what it has accepted is a beginning of it, and the rendering has ended
with the first write that failed, with the error of that write and in the state that
it left, so that nothing was written behind it. -/
theorem writeTo_limited {limit : Nat} {accepted : σ → Bytes} {s s' : σ} {result : Except ε Unit}
    (h : Limited limit write accepted) (hs : accepted s = []) (m : Markup)
    (hrun : runFrom (m.writeTo write) s = (result, s')) :
    runFrom (m.writeTo (buffer (ε := ε))) [] = (.ok (), m.render) ∧
      (result = .ok () ↔ m.render.length ≤ limit) ∧
      (result = .ok () → accepted s' = m.render ∧ m.renderWithin limit = (accepted s', true)) ∧
      ∀ e, result = .error e → accepted s' <+: m.render ∧
        ∃ done p rest s₁, m.pieces = done ++ p :: rest ∧
          runFrom (writePieces write done) s = (.ok (), s₁) ∧
          runFrom (write p) s₁ = (.error e, s') ∧
          m.renderWithin limit = (accepted s₁, false) := by
  have hempty : (accepted s).length ≤ limit := by
    rw [hs]
    exact Nat.zero_le _
  have hbuffer : runFrom (m.writeTo (buffer (ε := ε))) [] = (.ok (), m.render) := by
    rw [writeTo_eq, runFrom_buffer]
    rfl
  rw [writeTo_eq] at hrun
  refine ⟨hbuffer, ?_⟩
  rcases runFrom_cases write m.pieces s with
    ⟨s'', hall⟩ | ⟨done, p, rest, s₁, e, s'', hpieces, hdone, hp, hend⟩
  · -- All pieces were written.
    obtain ⟨rfl, rfl⟩ := Prod.mk.inj (hall.symm.trans hrun)
    obtain ⟨haccepted, hle⟩ := h.accepted_of_ok hempty hall
    rw [hs, List.nil_append] at haccepted
    have hwhole : accepted s'' = m.render := haccepted
    rw [hwhole] at hle ⊢
    refine ⟨iff_of_true rfl hle, fun _ => ⟨rfl, renderWithin_of_le hle⟩, ?_⟩
    rintro e ⟨⟩
  · -- The piece `p` was the first that failed, since there was no room for it.
    obtain ⟨rfl, rfl⟩ := Prod.mk.inj (hend.symm.trans hrun)
    obtain ⟨haccepted, hle⟩ := h.accepted_of_ok hempty hdone
    rw [hs, List.nil_append] at haccepted
    obtain ⟨hlt, q, hq, hlast⟩ := h.of_error hp
    have hrender : m.render = done.flatten ++ (p ++ rest.flatten) := by
      rw [Markup.render, hpieces, List.flatten_append, List.flatten_cons]
    have hlong : ¬ m.render.length ≤ limit := by
      rw [hrender, List.length_append, List.length_append]
      rw [haccepted] at hlt
      omega
    refine ⟨iff_of_false (by simp) hlong, by simp, ?_⟩
    rintro e' ⟨⟩
    refine ⟨?_, done, p, rest, s₁, hpieces, hdone, hp, ?_⟩
    · rw [hlast, haccepted, hrender]
      exact (List.prefix_append_right_inj _).mpr (hq.trans (List.prefix_append p _))
    · rw [haccepted] at hle hlt ⊢
      rw [Markup.renderWithin, hpieces]
      exact takeWithin_append hle hlt

/-- A writer that takes as many bytes as there is room for. -/
def capped (limit : Nat) (p : Bytes) : Writing Bytes Bytes Unit :=
  ExceptT.mk fun taken =>
    (if taken.length + p.length ≤ limit then .ok () else .error (utf8 "write limit exceeded"),
      taken ++ p.take (limit - taken.length))

theorem runFrom_capped (limit : Nat) (p s : Bytes) :
    runFrom (capped limit p) s =
      (if s.length + p.length ≤ limit then .ok () else .error (utf8 "write limit exceeded"),
        s ++ p.take (limit - s.length)) :=
  rfl

theorem limited_capped (limit : Nat) : Limited limit (capped limit) id where
  fits s p h := by
    have hle : s.length + p.length ≤ limit := h
    refine ⟨s ++ p, ?_, rfl⟩
    rw [runFrom_capped, if_pos hle, List.take_of_length_le (by omega)]
  fails s p h := by
    have hlt : limit < s.length + p.length := h
    refine ⟨utf8 "write limit exceeded", s ++ p.take (limit - s.length), _, ?_,
      List.take_prefix (limit - s.length) p, rfl⟩
    rw [runFrom_capped, if_neg (Nat.not_le_of_lt hlt)]

/-- A table whose room ends inside a text in its second cell. -/
theorem writeTo_limited_table :
    let m : Markup := .table [.number (utf8 "1"), .cellBreak, .row [.text (utf8 "<")] false] [] []
    let taken := utf8 "<mtable><mtr><mtd><mn>1</mn></mtd><mtd><mrow><mtext>&lt;</mt"
    Limited 60 (capped 60) id ∧
      runFrom (m.writeTo (capped 60)) [] = (.error (utf8 "write limit exceeded"), taken) ∧
      60 < m.render.length ∧ taken <+: m.render ∧ (m.renderWithin 60).2 = false := by
  intro m taken
  have hlong : ¬ m.render.length ≤ 60 := by decide +kernel
  have htaken : (runFrom (m.writeTo (capped 60)) []).2 = taken := by decide +kernel
  rcases hrun : runFrom (m.writeTo (capped 60)) [] with ⟨result, s'⟩
  obtain ⟨-, hok, -, herror⟩ := writeTo_limited (limited_capped 60) rfl m hrun
  rw [hrun] at htaken
  obtain rfl : s' = taken := htaken
  cases result with
  | ok => exact absurd (hok.mp rfl) hlong
  | error e =>
    obtain ⟨hstart, done, p, rest, s₁, -, -, hp, hwithin⟩ := herror e rfl
    -- The error is the one that the writer gives.
    obtain ⟨he, -⟩ := Prod.mk.inj hp
    split at he
    · cases he
    · obtain rfl := Except.error.inj he
      refine ⟨limited_capped 60, rfl, Nat.lt_of_not_le hlong, hstart, ?_⟩
      rw [hwithin]

end Writing

end MathMarkup
