/-
MathMarkup/Proofs/Tiling.lean

Tokens tile a source, and reading it comes to an end.  A scanner knows the rest
of its source and the offset where this starts, and the two always fit together
(`Scanner.On`); only behind an error may the offset be beyond the end of the
source, where the rest is empty.  What a scanner does next is said once
(`Scanner.On.next_cases`): it passes over layout, and behind it is at the end of
the source for good, or reads at least one byte, and of a token no more than
there is.

A run of takes repeats this.  Each take that finds something moves on, so there
are no more of them than bytes, and what was found lies, from its offset to the
place behind it, in front of everything found later.
-/
import Mathlib.Data.Nat.Find
import Mathlib.Order.Monotone.Basic
import MathMarkup.Proofs.Layout
import MathMarkup.Token.Cursor

namespace MathMarkup

namespace Lexer

/-! ### Layout -/

theorem layout_le (comment : Bool) (s : Bytes) : layout comment s ≤ s.length := by
  fun_induction layout comment s with
  | case1 => exact Nat.le_refl _
  | case2 _ _ ih | case3 _ _ _ ih | case4 _ _ _ _ ih => exact Nat.succ_le_succ ih
  | case5 => exact Nat.zero_le _

/-- Bytes that are passed over: layout, or from inside a comment its last line and
then layout. -/
def IsPassed : (comment : Bool) → Bytes → Prop
  | false, s => IsLayout s
  | true, s => ∃ c g, s = c ++ ascii '\n' :: g ∧ ascii '\n' ∉ c ∧ IsLayout g

/-- What is passed over is layout; at the end of the text a line feed may be
missing.  By induction on the text, inside and outside of comments. -/
theorem isPassed_take {comment : Bool} {s lineEnd : Bytes}
    (h : s.drop (layout comment s) = [] ∧ lineEnd = [ascii '\n'] ∨
      s.drop (layout comment s) ≠ [] ∧ lineEnd = []) :
    IsPassed comment (s.take (layout comment s) ++ lineEnd) := by
  induction s generalizing comment with
  | nil =>
    obtain ⟨-, rfl⟩ | ⟨hne, -⟩ := h
    · cases comment with
      | true => exact ⟨[], [], rfl, List.not_mem_nil, .nil⟩
      | false => exact .space rfl .nil
    · exact absurd List.drop_nil hne
  | cons b s ih =>
    cases comment with
    | true =>
      simp only [layout, List.drop_succ_cons, List.take_succ_cons, List.cons_append] at h ⊢
      have hrest := ih h
      -- A line feed ends the comment, anything else belongs to it.
      by_cases hb : b = ascii '\n'
      · subst hb
        exact ⟨[], _, rfl, List.not_mem_nil, hrest⟩
      · have hmore : (b != ascii '\n') = true := bne_iff_ne.mpr hb
        rw [hmore] at hrest ⊢
        obtain ⟨c, g, hcg, hc, hg⟩ := hrest
        refine ⟨b :: c, g, congrArg (b :: ·) hcg, ?_, hg⟩
        exact fun hmem => (List.mem_cons.mp hmem).elim (fun heq => hb heq.symm) hc
    | false =>
      simp only [layout] at h ⊢
      split at h
      · next hb =>
        rw [if_pos hb]
        exact .space hb (ih h)
      next hb =>
      rw [if_neg hb]
      split at h
      · next hc =>
        rw [if_pos hc]
        obtain ⟨c, g, hcg, hc', hg⟩ := ih h
        obtain rfl : b = ascii '%' := eq_of_beq hc
        rw [List.take_succ_cons, List.cons_append, hcg]
        exact .comment hc' hg
      next hc =>
      rw [if_neg hc]
      obtain ⟨hnil, -⟩ | ⟨-, rfl⟩ := h
      · cases hnil
      · exact .nil

end Lexer

open Lexer

namespace Scanner

/-! ### One step -/

variable {source : Bytes} {s : Scanner} {t : Token}

/-- A place in a source. -/
def On (source : Bytes) (s : Scanner) : Prop :=
  s.rest = source.drop s.offset

theorem on_start (source : Bytes) : (start source).On source :=
  rfl

theorem next_offset (s : Scanner) : s.next.2.1 = s.offset + layout false s.rest := by
  simp only [next]
  split
  · rfl
  · split <;> rfl

/-- Behind layout something is read, from its first byte on. -/
theorem next_of_cons {a : UInt8} {rest : Bytes}
    (h : s.rest.drop (layout false s.rest) = a :: rest) :
    s.next.1 ≠ .finished ∧
      s.next.2.2.offset = s.next.2.1 + (read s.mode s.next.2.1 a rest).width ∧
      s.next.2.2.rest = (a :: rest).drop (read s.mode s.next.2.1 a rest).width := by
  rw [next_offset]
  simp only [next, h]
  split <;> exact ⟨by simp, rfl, rfl⟩

namespace On

theorem drop_next (h : s.On source) :
    source.drop s.next.2.1 = s.rest.drop (layout false s.rest) := by
  rw [next_offset, ← List.drop_drop, ← h]

theorem next (h : s.On source) : s.next.2.2.On source := by
  cases hrest : s.rest.drop (layout false s.rest) with
  | nil =>
    rw [next_of_layout hrest]
    show [] = source.drop (s.offset + layout false s.rest)
    rw [← next_offset, h.drop_next, hrest]
  | cons a rest =>
    obtain ⟨-, hoffset, hbehind⟩ := next_of_cons hrest
    rw [On, hoffset, hbehind, ← List.drop_drop, h.drop_next, hrest]

/-- What is next in a source: behind layout its end, at which the scanner stays, or
something that it passes over. -/
theorem next_cases (h : s.On source) :
    (s.next.1 = .finished ∧ s.next.2.1 = s.offset + s.rest.length ∧
        s.next.2.2 = ⟨s.next.2.1, [], .plain⟩ ∧ IsLayout (s.rest ++ [ascii '\n'])) ∨
      (s.next.1 ≠ .finished ∧ s.next.2.1 < source.length ∧ s.next.2.1 < s.next.2.2.offset ∧
        IsLayout (source.extract s.offset s.next.2.1)) := by
  cases hrest : s.rest.drop (layout false s.rest) with
  | nil =>
    left
    have hlength : layout false s.rest = s.rest.length :=
      Nat.le_antisymm (layout_le false s.rest) (List.drop_eq_nil_iff.mp hrest)
    have hlayout : IsPassed false (s.rest.take (layout false s.rest) ++ [ascii '\n']) :=
      isPassed_take (.inl ⟨hrest, rfl⟩)
    rw [hlength, List.take_length] at hlayout
    rw [next_of_layout hrest, hlength]
    exact ⟨rfl, rfl, rfl, hlayout⟩
  | cons a rest =>
    right
    obtain ⟨hfound, hoffset, -⟩ := next_of_cons hrest
    have hpos := read_width_pos s.mode s.next.2.1 a rest
    have hlayout : IsPassed false (s.rest.take (layout false s.rest) ++ []) :=
      isPassed_take (.inr ⟨by rw [hrest]; exact List.cons_ne_nil _ _, rfl⟩)
    refine ⟨hfound, ?_, by omega, ?_⟩
    -- There is a byte left at the offset, so this is in the source.
    · have hlength := congrArg List.length (h.drop_next.trans hrest)
      rw [List.length_drop, List.length_cons] at hlength
      omega
    · rw [List.extract_eq_take_drop, ← h, next_offset, Nat.add_sub_cancel_left]
      rwa [List.append_nil] at hlayout

/-- Within the source, the rest is what is left of it. -/
theorem offset_add_length (h : s.On source) (hle : s.offset ≤ source.length) :
    s.offset + s.rest.length = source.length := by
  rw [h, List.length_drop]
  omega

/-- A token ends within the source. -/
theorem offset_le_of_token (h : s.On source) (ht : s.next.1 = .token t) :
    s.next.2.2.offset ≤ source.length := by
  have hnext : s.next = (.token t, s.next.2.1, s.next.2.2) := by rw [← ht]
  obtain ⟨a, rest, width, hfinds⟩ := exists_finds hnext
  have hlength := congrArg List.length (h.drop_next.trans hfinds.text)
  have hwidth := hfinds.width_le
  rw [next_offset, List.length_drop, List.length_cons] at hlength
  rw [next_of_finds hfinds]
  show s.offset + layout false s.rest + width ≤ source.length
  omega

end On

end Scanner

namespace Cursor

/-! ### Runs of takes -/

/-- The cursor after so many takes. -/
def after (c : Cursor) : Nat → Cursor
  | 0 => c
  | n + 1 => (c.after n).take.2

/-- What is found by take number `n`, counted from zero. -/
def foundAt (c : Cursor) (n : Nat) : Found :=
  (c.after n).take.1

/-- The offset that take number `n` leaves the cursor at, where what it found
starts. -/
def offsetAt (c : Cursor) (n : Nat) : Nat :=
  (c.after (n + 1)).offset

/-- How far the source has been read before take number `n`. -/
def placeAt (c : Cursor) (n : Nat) : Nat :=
  (c.after n).scanner.offset

/-- What a cursor takes that has not been asked to peek. -/
theorem take_of_peeked_eq_none {c : Cursor} (h : c.peeked = none) :
    c.take = (c.scanner.next.1, ⟨c.scanner.next.2.2, c.scanner.next.2.1, none⟩) := by
  simp only [take, h]

/-- The scanner of a run of takes is in the source, and nothing has been peeked
at. -/
theorem on_after (source : Bytes) (n : Nat) :
    ((start source).after n).peeked = none ∧ ((start source).after n).scanner.On source := by
  induction n with
  | zero => exact ⟨rfl, Scanner.on_start source⟩
  | succ n ih =>
    obtain ⟨hpeeked, hon⟩ := ih
    rw [after, take_of_peeked_eq_none hpeeked]
    exact ⟨rfl, hon.next⟩

/-- A take is a step of the scanner. -/
theorem exists_step (source : Bytes) (n : Nat) :
    ∃ s : Scanner, s.On source ∧ (start source).placeAt n = s.offset ∧
      (start source).foundAt n = s.next.1 ∧ (start source).offsetAt n = s.next.2.1 ∧
      ((start source).after (n + 1)).scanner = s.next.2.2 := by
  obtain ⟨hpeeked, hon⟩ := on_after source n
  refine ⟨((start source).after n).scanner, hon, rfl, ?_, ?_, ?_⟩
  · rw [foundAt, take_of_peeked_eq_none hpeeked]
  · rw [offsetAt, after, take_of_peeked_eq_none hpeeked]
  · rw [after, take_of_peeked_eq_none hpeeked]

section Source

variable {source : Bytes} {i n : Nat} {t : Token}

theorem placeAt_le_offsetAt (source : Bytes) (n : Nat) :
    (start source).placeAt n ≤ (start source).offsetAt n := by
  obtain ⟨s, -, hplace, -, hoffset, -⟩ := exists_step source n
  rw [hplace, hoffset, Scanner.next_offset]
  exact Nat.le_add_right _ _

/-- Whatever is found has at least one byte, and starts in the source. -/
theorem offsetAt_lt (h : (start source).foundAt n ≠ .finished) :
    (start source).offsetAt n < (start source).placeAt (n + 1) ∧
      (start source).offsetAt n < source.length := by
  obtain ⟨s, hon, -, hfound, hoffset, hbehind⟩ := exists_step source n
  rw [hfound] at h
  obtain ⟨hfinished, -⟩ | ⟨-, hlength, hlt, -⟩ := hon.next_cases
  · exact absurd hfinished h
  · rw [placeAt, hbehind, hoffset]
    exact ⟨hlt, hlength⟩

/-- The place behind a take is not in front of what it found. -/
theorem offsetAt_le_placeAt (source : Bytes) (n : Nat) :
    (start source).offsetAt n ≤ (start source).placeAt (n + 1) := by
  obtain ⟨s, hon, -, -, hoffset, hbehind⟩ := exists_step source n
  rw [placeAt, hbehind, hoffset]
  obtain ⟨-, -, hstay, -⟩ | ⟨-, -, hlt, -⟩ := hon.next_cases
  · rw [hstay]
  · exact Nat.le_of_lt hlt

theorem placeAt_mono (source : Bytes) : Monotone (start source).placeAt :=
  monotone_nat_of_le_succ fun n =>
    (placeAt_le_offsetAt source n).trans (offsetAt_le_placeAt source n)

/-- Behind the end there is nothing. -/
theorem foundAt_succ (h : (start source).foundAt n = .finished) :
    (start source).foundAt (n + 1) = .finished := by
  obtain ⟨s, hon, -, hfound, -, hbehind⟩ := exists_step source n
  obtain ⟨-, -, hstay, -⟩ | ⟨hne, -⟩ := hon.next_cases
  · rw [foundAt, take_of_peeked_eq_none (on_after source (n + 1)).1, hbehind, hstay]
    rfl
  · exact absurd (hfound.symm.trans h) hne

theorem foundAt_of_le (h : (start source).foundAt i = .finished) (hle : i ≤ n) :
    (start source).foundAt n = .finished := by
  induction hle with
  | refl => exact h
  | step _ ih => exact foundAt_succ ih

/-- As many bytes have been read as there were takes, as long as something is
found. -/
theorem le_placeAt (h : (start source).foundAt n ≠ .finished) : n ≤ (start source).placeAt n := by
  induction n with
  | zero => exact Nat.zero_le _
  | succ n ih =>
    have hn : (start source).foundAt n ≠ .finished := mt foundAt_succ h
    have hle := placeAt_le_offsetAt source n
    have hlt := (offsetAt_lt hn).1
    have hplace := ih hn
    omega

/-- The end is found for the first time after no more takes than there are
bytes. -/
theorem exists_finished_iff (source : Bytes) :
    ∃ k ≤ source.length, ∀ n, (start source).foundAt n = .finished ↔ k ≤ n := by
  classical
  -- Something found by this take would start behind as many bytes as there are.
  have hlast : (start source).foundAt source.length = .finished := by
    by_contra h
    have hplace := le_placeAt h
    have hle := placeAt_le_offsetAt source source.length
    have hlt := (offsetAt_lt h).2
    omega
  have hexists : ∃ k, (start source).foundAt k = .finished := ⟨_, hlast⟩
  refine ⟨Nat.find hexists, Nat.find_min' hexists hlast, fun n => ⟨Nat.find_min' hexists, ?_⟩⟩
  exact foundAt_of_le (Nat.find_spec hexists)

/-- Without errors reading stays in the source; by induction on the takes. -/
theorem placeAt_le_length (h : ∀ i < n, ∀ e, (start source).foundAt i ≠ .fault e) :
    (start source).placeAt n ≤ source.length := by
  induction n with
  | zero => exact Nat.zero_le _
  | succ n ih =>
    have hplace := ih fun i hi => h i (Nat.lt_succ_of_lt hi)
    obtain ⟨s, hon, hoffset, hfound, -, hbehind⟩ := exists_step source n
    rw [hoffset] at hplace
    rw [placeAt, hbehind]
    cases hn : (start source).foundAt n with
    | token t => exact hon.offset_le_of_token (hfound.symm.trans hn)
    | fault e => exact absurd hn (h n (Nat.lt_succ_self n) e)
    | finished =>
      obtain ⟨-, hend, hstay, -⟩ | ⟨hne, -⟩ := hon.next_cases
      · rw [hstay, hend, hon.offset_add_length hplace]
      · exact absurd (hfound.symm.trans hn) hne

end Source

/-- **Tokens tile the source, and reading comes to an end.**  In a run of takes, a
take that does not find the end of the source moves on, also if it finds an error.
So the end is found after no more takes than there are bytes, and by every later
take.  Layout alone lies between the place behind one token and the offset of the
next.  A token has at least one byte and ends within the source, and it lies behind
anything found before.  If there was no error, what is left behind the last token
is layout too, up to a line feed that may be missing. -/
theorem takes_tile (source : Bytes) :
    let c := start source
    (∀ n, c.foundAt n ≠ .finished → c.placeAt n < c.placeAt (n + 1)) ∧
      (∃ k ≤ source.length, ∀ n, c.foundAt n = .finished ↔ k ≤ n) ∧
      (∀ n t, c.foundAt n = .token t →
        c.placeAt n ≤ c.offsetAt n ∧
          IsLayout (source.extract (c.placeAt n) (c.offsetAt n)) ∧
          c.offsetAt n < c.placeAt (n + 1) ∧ c.placeAt (n + 1) ≤ source.length ∧
          ∀ i < n, c.offsetAt i < c.offsetAt n ∧ c.placeAt (i + 1) ≤ c.offsetAt n) ∧
      ∀ n, c.foundAt n = .finished → (∀ i < n, ∀ e, c.foundAt i ≠ .fault e) →
        c.offsetAt n = source.length ∧
          IsLayout (source.extract (c.placeAt n) source.length ++ [ascii '\n']) := by
  intro c
  refine ⟨?_, exists_finished_iff source, ?_, ?_⟩
  · intro n hn
    exact Nat.lt_of_le_of_lt (placeAt_le_offsetAt source n) (offsetAt_lt hn).1
  · intro n t hn
    have hne : c.foundAt n ≠ .finished := by
      rw [hn]
      simp
    obtain ⟨s, hon, hplace, hfound, hoffset, hbehind⟩ := exists_step source n
    refine ⟨placeAt_le_offsetAt source n, ?_, (offsetAt_lt hne).1, ?_, ?_⟩
    · obtain ⟨hfinished, -⟩ | ⟨-, -, -, hlayout⟩ := hon.next_cases
      · exact absurd (hfound.trans hfinished) hne
      · rw [hplace, hoffset]
        exact hlayout
    · rw [placeAt, hbehind]
      exact hon.offset_le_of_token (hfound.symm.trans hn)
    · intro i hi
      -- What was found before is over before this begins.
      have hbefore : c.foundAt i ≠ .finished := fun h => hne (foundAt_of_le h (Nat.le_of_lt hi))
      have hle : c.placeAt (i + 1) ≤ c.offsetAt n :=
        (placeAt_mono source hi).trans (placeAt_le_offsetAt source n)
      exact ⟨Nat.lt_of_lt_of_le (offsetAt_lt hbefore).1 hle, hle⟩
  · intro n hn herrors
    -- Only now it matters that there was no error: what is left is the rest of the source.
    have hle := placeAt_le_length herrors
    obtain ⟨s, hon, hplace, hfound, hoffset, -⟩ := exists_step source n
    rw [hplace] at hle ⊢
    obtain ⟨-, hend, -, hlayout⟩ | ⟨hne, -⟩ := hon.next_cases
    · refine ⟨by rw [hoffset, hend, hon.offset_add_length hle], ?_⟩
      rw [List.extract_eq_take_drop, ← hon, ← hon.offset_add_length hle, Nat.add_sub_cancel_left,
        List.take_length]
      exact hlayout
    · exact absurd (hfound.symm.trans hn) hne

/-- A comment between two tokens, and a backslash at the end, which is an error that
is passed over like a token. -/
theorem takes_tile_backslash :
    let source := utf8 "a %b\n2\\"
    let c := start source
    c.foundAt 1 = .token (.number (utf8 "2")) ∧
      source.extract (c.placeAt 1) (c.offsetAt 1) = utf8 " %b\n" ∧
      IsLayout (source.extract (c.placeAt 1) (c.offsetAt 1)) ∧ c.offsetAt 0 < c.offsetAt 1 ∧
      c.foundAt 2 = .fault (.unexpected (utf8 "command name") endOfInput 6) ∧
      c.placeAt 2 < c.placeAt 3 := by
  intro source c
  have htoken : c.foundAt 1 = .token (.number (utf8 "2")) := by with_unfolding_all rfl
  have hgap : source.extract (c.placeAt 1) (c.offsetAt 1) = utf8 " %b\n" := by
    with_unfolding_all rfl
  have hfault : c.foundAt 2 = .fault (.unexpected (utf8 "command name") endOfInput 6) := by
    with_unfolding_all rfl
  have hne : c.foundAt 2 ≠ .finished := by
    rw [hfault]
    simp
  obtain ⟨hmove, -, htokens, -⟩ := takes_tile source
  obtain ⟨-, hlayout, -, -, hbefore⟩ := htokens 1 _ htoken
  exact ⟨htoken, hgap, hlayout, (hbefore 0 Nat.zero_lt_one).1, hfault, hmove 2 hne⟩

end Cursor

end MathMarkup
