/-
MathMarkup/Proofs/Layout.lean

Layout between tokens does not matter.  Scanning is told as a relation that
knows of no offsets: `Scans mode s ts` says that the text `s` is read to its end
as the tokens `ts`.  A token that is found behind layout is found again behind
other layout, with its own bytes in front of the end of a line (`Finds.recut`,
which is where `Lexer.read_recut` comes in), so the texts of the tokens can be
set with any gaps between them (`Scans.weave`).

Every gap begins with the end of a line.  It is what keeps two texts apart:
behind a comment that the next line would be part of, between two words or two
numbers, and between a cluster and a mark that would join it.
-/
import MathMarkup.Proofs.Lookahead
import MathMarkup.Proofs.Places

namespace MathMarkup

namespace Lexer

/-! ### Layout -/

/-- White space and complete comments. -/
inductive IsLayout : Bytes → Prop
  | nil : IsLayout []
  | space {b : UInt8} {s : Bytes} : Byte.isSpace b = true → IsLayout s → IsLayout (b :: s)
  | comment {c s : Bytes} : ascii '\n' ∉ c → IsLayout s →
      IsLayout (ascii '%' :: (c ++ ascii '\n' :: s))

/-- Layout that begins with the end of a line. -/
def IsGap (s : Bytes) : Prop :=
  s.head? = some (ascii '\n') ∧ IsLayout s

theorem IsGap.lineEnd {g : Bytes} (hg : IsGap g) (s : Bytes) : LineEnd (g ++ s) := by
  obtain ⟨g', rfl⟩ := List.head?_eq_some_iff.mp hg.1
  exact lineEnd_lineFeed (g' ++ s)

/-- A comment up to the end of its line. -/
theorem layout_comment {c : Bytes} (hc : ascii '\n' ∉ c) (s : Bytes) :
    layout true (c ++ ascii '\n' :: s) = c.length + 1 + layout false s := by
  induction c with
  | nil =>
    show layout false s + 1 = 0 + 1 + layout false s
    omega
  | cons b c ih =>
    obtain ⟨hb, hc⟩ := not_or.mp fun h => hc (List.mem_cons.mpr h)
    have hmore : (b != ascii '\n') = true := bne_iff_ne.mpr (Ne.symm hb)
    rw [List.cons_append, layout, hmore, ih hc, List.length_cons]
    omega

/-- Layout in front of a text is passed over. -/
theorem IsLayout.layout_append {g : Bytes} (hg : IsLayout g) (s : Bytes) :
    layout false (g ++ s) = g.length + layout false s := by
  induction hg with
  | nil => exact (Nat.zero_add _).symm
  | space hb _ ih =>
    rw [List.cons_append, layout, if_pos hb, ih, List.length_cons]
    omega
  | @comment c g hc _ ih =>
    have hpercent : layout false (ascii '%' :: (c ++ ascii '\n' :: (g ++ s))) =
        layout true (c ++ ascii '\n' :: (g ++ s)) + 1 := rfl
    rw [List.cons_append, List.append_assoc, List.cons_append, hpercent, layout_comment hc, ih]
    simp only [List.length_cons, List.length_append]
    omega

/-- Behind layout there is none. -/
theorem layout_eq_zero {comment : Bool} {s rest : Bytes} {a : UInt8}
    (h : s.drop (layout comment s) = a :: rest) (rest' : Bytes) :
    layout false (a :: rest') = 0 := by
  induction s generalizing comment with
  | nil =>
    rw [List.drop_nil] at h
    cases h
  | cons b s ih =>
    cases comment with
    | true =>
      simp only [layout, List.drop_succ_cons] at h
      exact ih h
    | false =>
      simp only [layout] at h ⊢
      split at h
      · exact ih h
      next hb =>
      split at h
      · exact ih h
      next hc =>
      -- The byte itself is neither white space nor the start of a comment.
      rw [List.drop_zero] at h
      obtain ⟨rfl, -⟩ := List.cons.inj h
      rw [if_neg hb, if_neg hc]

/-! ### Scanning as a relation -/

/-- A token of `width` bytes behind layout; it begins with `a`. -/
structure Finds (mode : Mode) (s : Bytes) (t : Token) (a : UInt8) (rest : Bytes) (width : Nat) :
    Prop where
  text : s.drop (layout false s) = a :: rest
  read : ∀ offset, read mode offset a rest = ⟨.ok t, width⟩

namespace Finds

variable {mode : Mode} {s : Bytes} {t : Token} {a : UInt8} {rest : Bytes} {width : Nat}

theorem width_le (h : Finds mode s t a rest width) : width ≤ rest.length + 1 := by
  have hread := h.read 0
  have hle := (read_recut (congrArg Reading.result hread)).1
  rwa [hread] at hle

theorem width_pos (h : Finds mode s t a rest width) : 0 < width := by
  have hpos := read_width_pos mode 0 a rest
  rwa [h.read] at hpos

/-- The same token in another text, which has its bytes. -/
theorem recut {s' rest' : Bytes} (h : Finds mode s t a rest width)
    (htext : s'.drop (layout false s') = a :: rest') (hr : Recut (width - 1) rest rest') :
    Finds mode s' t a rest' width := by
  refine ⟨htext, fun offset => ?_⟩
  have hread := h.read 0
  have hsame := (read_recut (congrArg Reading.result hread)).2 (by rwa [hread]) offset
  rw [hsame, hread]

/-- The bytes of the token behind other layout and in front of the end of a line
are the same token, and what is behind it is left. -/
theorem between (h : Finds mode s t a rest width) {gap behind : Bytes} (hgap : IsLayout gap)
    (hbehind : LineEnd behind) :
    ∃ rest', Finds mode (gap ++ ((a :: rest).take width ++ behind)) t a rest' width ∧
      (a :: rest').drop width = behind := by
  obtain ⟨n, rfl⟩ : ∃ n, width = n + 1 := ⟨width - 1, by have := h.width_pos; omega⟩
  have hlength : (rest.take n).length = n :=
    List.length_take_of_le (Nat.le_of_succ_le_succ h.width_le)
  refine ⟨rest.take n ++ behind, h.recut ?_ (.cut hbehind), ?_⟩
  · show (gap ++ a :: (rest.take n ++ behind)).drop
      (layout false (gap ++ a :: (rest.take n ++ behind))) = _
    rw [hgap.layout_append, layout_eq_zero h.text, Nat.add_zero, List.drop_left]
  · show (rest.take n ++ behind).drop n = behind
    exact List.drop_left' hlength

end Finds

/-- A text that is read to its end, and its tokens. -/
inductive Scans : Mode → Bytes → List Token → Prop
  | done {mode : Mode} {s : Bytes} : s.drop (layout false s) = [] → Scans mode s []
  | token {mode : Mode} {s rest : Bytes} {t : Token} {a : UInt8} {width : Nat} {ts : List Token} :
      Finds mode s t a rest width → Scans (.after t) ((a :: rest).drop width) ts →
        Scans mode s (t :: ts)

end Lexer

open Lexer

/-- The tokens with one more in front, or none when reading ends. -/
def Lexemes.behind (later : Lexemes) (found : Found) (offset : Nat) : Lexemes :=
  match found with
  | .token t => { later with list := ⟨t, offset⟩ :: later.list }
  | .finished => ⟨[], none, offset⟩
  | .fault e => ⟨[], some e, offset⟩

namespace Scanner

variable {s s' : Scanner} {t : Token} {a : UInt8} {rest : Bytes} {width offset : Nat}

/-- What is next behind layout. -/
theorem next_of_finds (h : Finds s.mode s.rest t a rest width) :
    s.next = (.token t, s.offset + layout false s.rest,
      ⟨s.offset + layout false s.rest + width, (a :: rest).drop width, .after t⟩) := by
  simp only [next, h.text, h.read]

theorem exists_finds (h : s.next = (.token t, offset, s')) :
    ∃ a rest width, Finds s.mode s.rest t a rest width := by
  simp only [next] at h
  split at h
  · cases h
  next a rest htext =>
  split at h
  · next u hread =>
    obtain ⟨hfound, -⟩ := Prod.mk.inj h
    obtain rfl := Found.token.inj hfound
    refine ⟨a, rest, (read s.mode (s.offset + layout false s.rest) a rest).width, htext, ?_⟩
    intro offset'
    -- A token that was read at one offset is read at every other one.
    have hsame := (read_recut hread).2 (.whole lineEnd_nil) offset'
    rw [List.append_nil] at hsame
    rw [hsame, ← hread]
  · cases h

theorem next_of_layout (h : s.rest.drop (layout false s.rest) = []) :
    s.next = (.finished, s.offset + layout false s.rest,
      ⟨s.offset + layout false s.rest, [], .plain⟩) := by
  simp only [next, h]

theorem layout_of_finished (h : s.next = (.finished, offset, s')) :
    s.rest.drop (layout false s.rest) = [] := by
  simp only [next] at h
  split at h
  · next hnone => exact hnone
  · split at h <;> cases h

/-- The tokens from a place on, by what is next there. -/
theorem lexemes_eq (s : Scanner) :
    s.lexemes = s.next.2.2.lexemes.behind s.next.1 s.next.2.1 := by
  rw [lexemes]
  split <;> next h => rw [h]; rfl

/-- Reading to the end without a fault is scanning. -/
theorem scans_of_lexemes (s : Scanner) (h : s.lexemes.fault = none) :
    Scans s.mode s.rest s.lexemes.tokens := by
  rcases hnext : s.next with ⟨found, offset, s'⟩
  rw [lexemes_eq, hnext] at h ⊢
  cases found with
  | token t =>
    obtain ⟨a, rest, width, hfinds⟩ := exists_finds hnext
    have hsame := hnext.symm.trans (next_of_finds hfinds)
    have ih := scans_of_lexemes s' h
    -- The place behind the token is known from what the token was read from.
    cases hsame
    exact .token hfinds ih
  | finished => exact .done (layout_of_finished hnext)
  | fault e => cases h
termination_by s.rest.length
decreasing_by exact next_shorter hnext

/-- Scanning is reading to the end without a fault; by induction on the tokens. -/
theorem lexemes_of_scans {ts : List Token} (h : Scans s.mode s.rest ts) :
    s.lexemes.fault = none ∧ s.lexemes.tokens = ts := by
  generalize hmode : s.mode = mode at h
  generalize hrest : s.rest = r at h
  induction h generalizing s with
  | done hlayout =>
    subst hrest
    rw [lexemes_eq, next_of_layout hlayout]
    exact ⟨rfl, rfl⟩
  | token hfinds _ ih =>
    subst hmode hrest
    obtain ⟨hfault, htokens⟩ := ih (s := s.next.2.2) (by rw [next_of_finds hfinds])
      (by rw [next_of_finds hfinds])
    rw [lexemes_eq, next_of_finds hfinds]
    rw [next_of_finds hfinds] at hfault htokens
    exact ⟨hfault, congrArg (_ :: ·) htokens⟩

end Scanner

/-- Scanning a source is reading it to its end. -/
theorem Lexemes.scans_iff {source : Bytes} {ts : List Token} :
    Scans .plain source ts ↔
      (Lexemes.ofSource source).fault = none ∧ (Lexemes.ofSource source).tokens = ts := by
  refine ⟨Scanner.lexemes_of_scans (s := Scanner.start source), ?_⟩
  rintro ⟨hfault, rfl⟩
  exact Scanner.scans_of_lexemes (Scanner.start source) hfault

namespace Scanner

/-! ### The texts of tokens -/

variable {s s' : Scanner} {t : Token} {a : UInt8} {rest : Bytes} {width : Nat}

/-- The texts of the tokens from a place on: from the offset of each to the place
behind it. -/
def texts (source : Bytes) (s : Scanner) : List Bytes :=
  match _h : s.next with
  | (.token _, offset, s') => source.extract offset s'.offset :: texts source s'
  | _ => []
termination_by s.rest.length
decreasing_by exact next_shorter _h

theorem texts_of_layout {source : Bytes} (h : s.rest.drop (layout false s.rest) = []) :
    s.texts source = [] := by
  rw [texts]
  split
  · next h' =>
    rw [next_of_layout h] at h'
    cases h'
  · rfl

/-- The text of a token is what it was read from. -/
theorem texts_of_finds {source : Bytes} (h : Finds s.mode s.rest t a rest width)
    (hs : s.rest = source.drop s.offset) :
    s.texts source = (a :: rest).take width :: s.next.2.2.texts source ∧
      s.next.2.2.rest = source.drop s.next.2.2.offset := by
  have hsource : source.drop (s.offset + layout false s.rest) = a :: rest := by
    rw [← List.drop_drop, ← hs, h.text]
  refine ⟨?_, ?_⟩
  · rw [texts]
    split
    · next h' =>
      rw [next_of_finds h] at h' ⊢
      cases h'
      rw [List.extract_eq_take_drop, hsource, Nat.add_sub_cancel_left]
    · next hnone => exact absurd (next_of_finds h) (hnone _ _ _)
  · rw [next_of_finds h, ← List.drop_drop, hsource]

end Scanner

/-- Texts with gaps between them. -/
def weave : List Bytes → List Bytes → Bytes
  | x :: xs, g :: gaps => x ++ (g ++ weave xs gaps)
  | x :: _, [] => x
  | [], _ => []

/-- Behind the first text there is a gap, or nothing. -/
theorem exists_weave_cons (x : Bytes) {xs gaps : List Bytes} (hgaps : ∀ g ∈ gaps, IsGap g)
    (hlength : gaps.length = xs.length) :
    ∃ gap gaps', weave (x :: xs) gaps = x ++ (gap ++ weave xs gaps') ∧ IsLayout gap ∧
      LineEnd (gap ++ weave xs gaps') ∧ (∀ g ∈ gaps', IsGap g) ∧
      gaps'.length = xs.length - 1 := by
  cases xs with
  | nil =>
    obtain rfl := List.length_eq_zero_iff.mp hlength
    exact ⟨[], [], (List.append_nil x).symm, .nil, lineEnd_nil, hgaps, rfl⟩
  | cons y xs =>
    rcases gaps with - | ⟨gap, gaps⟩
    · cases hlength
    have hgap : IsGap gap := hgaps gap List.mem_cons_self
    refine ⟨gap, gaps, rfl, hgap.2, hgap.lineEnd _, ?_, Nat.succ.inj hlength⟩
    exact fun g hg => hgaps g (List.mem_cons_of_mem gap hg)

/-- The texts of the tokens, with layout in front and gaps between them, are read
as the same tokens; by induction on these. -/
theorem Lexer.Scans.weave {source : Bytes} {s : Scanner} {ts : List Token}
    (h : Scans s.mode s.rest ts) (hs : s.rest = source.drop s.offset) {gap : Bytes}
    {gaps : List Bytes} (hgap : IsLayout gap) (hgaps : ∀ g ∈ gaps, IsGap g)
    (hlength : gaps.length = (s.texts source).length - 1) :
    Scans s.mode (gap ++ weave (s.texts source) gaps) ts := by
  generalize hmode : s.mode = mode at h ⊢
  generalize hrest : s.rest = r at h
  induction h generalizing s gap gaps with
  | done hlayout =>
    subst hrest
    rw [Scanner.texts_of_layout hlayout]
    have hall : layout false (gap ++ []) = gap.length := hgap.layout_append []
    refine .done ?_
    show (gap ++ []).drop (layout false (gap ++ [])) = []
    rw [hall, List.append_nil, List.drop_length]
  | @token mode r rest t a width ts hfinds _ ih =>
    subst hmode hrest
    obtain ⟨htexts, hs'⟩ := Scanner.texts_of_finds hfinds hs
    rw [htexts] at hlength ⊢
    -- What follows the first text is a gap with the other texts, or nothing at all.
    obtain ⟨gap', gaps', hweave, hgap', hend, hgaps', hlength'⟩ :=
      exists_weave_cons ((a :: rest).take width) hgaps hlength
    have hlater := ih hs' hgap' hgaps' hlength' (by rw [Scanner.next_of_finds hfinds])
      (by rw [Scanner.next_of_finds hfinds])
    rw [hweave]
    obtain ⟨rest', hfinds', hbehind⟩ := hfinds.between hgap hend
    refine .token hfinds' ?_
    rw [hbehind]
    exact hlater

/-! ### Sources -/

/-- **Layout between tokens does not matter.**  Take the texts of the tokens of a
source that is read to its end, and set them with gaps of any kind between them.
The new source is read to its end too, it has the same tokens, and so the same
tree or, but for its place, the same error; warnings differ in places only. -/
theorem parse_weave {source : Bytes} (hsource : (Lexemes.ofSource source).fault = none)
    {gaps : List Bytes} (hlength : gaps.length = ((Scanner.start source).texts source).length - 1)
    (hgaps : ∀ g ∈ gaps, IsGap g) :
    let source' := weave ((Scanner.start source).texts source) gaps
    (Lexemes.ofSource source').fault = none ∧
      (Lexemes.ofSource source').tokens = (Lexemes.ofSource source).tokens ∧
      (parse source').tree.mapError Error.unplaced = (parse source).tree.mapError Error.unplaced ∧
      (parse source').warnings.map Warning.names = (parse source).warnings.map Warning.names := by
  intro source'
  have hscans : Scans .plain source (Lexemes.ofSource source).tokens :=
    Lexemes.scans_iff.mpr ⟨hsource, rfl⟩
  have hscans' : Scans .plain source' (Lexemes.ofSource source).tokens :=
    Scans.weave (s := Scanner.start source) hscans rfl .nil hgaps hlength
  obtain ⟨hfault, htokens⟩ := Lexemes.scans_iff.mp hscans'
  exact ⟨hfault, htokens, Lexemes.parse_alike htokens hsource hfault⟩

/-- Two digits that are a token each because of the command, a point that is a
delimiter, and a number behind it; without a gap `.5` would be one as well. -/
theorem parse_weave_fence :
    let source := utf8 "\\frac12\\left. 5''\\right)"
    let gap := utf8 "\n\t%\\\n"
    let gaps := List.replicate 8 gap
    let source' := utf8 "\\frac\n\t%\\\n1\n\t%\\\n2\n\t%\\\n\\left\n\t%\\\n.\n\t%\\\n" ++
      utf8 "5\n\t%\\\n''\n\t%\\\n\\right\n\t%\\\n)"
    IsGap gap ∧ (Lexemes.ofSource source).fault = none ∧
      weave ((Scanner.start source).texts source) gaps = source' ∧
      (Lexemes.ofSource source').tokens = (Lexemes.ofSource source).tokens ∧
      (parse source').tree.mapError Error.unplaced =
        (parse source).tree.mapError Error.unplaced := by
  intro source gap gaps source'
  have hgap : IsGap gap :=
    ⟨rfl, .space rfl (.space rfl (.comment (c := utf8 "\\") (by decide) .nil))⟩
  have hsource : (Lexemes.ofSource source).fault = none :=
    Option.isNone_iff_eq_none.mp (by decide +kernel)
  have htexts : (Scanner.start source).texts source = [utf8 "\\frac", utf8 "1", utf8 "2",
      utf8 "\\left", utf8 ".", utf8 "5", utf8 "''", utf8 "\\right", utf8 ")"] := by
    decide +kernel
  have hgaps : ∀ g ∈ gaps, IsGap g := fun g hg => List.eq_of_mem_replicate hg ▸ hgap
  have hlength : gaps.length = ((Scanner.start source).texts source).length - 1 := by
    rw [htexts]
    rfl
  have hweave : weave ((Scanner.start source).texts source) gaps = source' := by
    rw [htexts]
    rfl
  obtain ⟨-, htokens, htree, -⟩ := parse_weave hsource hlength hgaps
  rw [hweave] at htokens htree
  exact ⟨hgap, hsource, hweave, htokens, htree⟩

end MathMarkup
