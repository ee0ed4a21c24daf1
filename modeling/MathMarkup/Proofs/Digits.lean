/-
MathMarkup/Proofs/Digits.lean

Digits as arguments.  Behind a fraction, a binomial, a style or a root one digit is
an argument: `\frac12` has the two arguments `1` and `2`, and `\frac123` the
arguments `1` and `23`.  Such a digit means the same in braces, whatever is in front
of the command and whatever follows the digit (`parse_digit`).

For the tokens this is a matter of lookahead.  The text in front is read up to a
backslash, so that its tokens do not depend on what comes after the backslash
(`Scanner.scans_front`, by induction along the scanner).  Behind the digit and behind
the brace reading goes on in the same mode, from the same place.

For the tree it is enough to look at the state behind the command, where an argument
may stand (`State.AwaitsArgument`): there the digit and the group of the digit lead to
the same outcomes (`State.outcome_digit`).
-/
import MathMarkup.Proofs.Outcome

namespace MathMarkup

open Lexer

/-! ### The text in front -/

namespace Lexer

/-- Layout in front of a backslash. -/
theorem layout_append_backslash {comment : Bool} {q x : Bytes}
    (h : layout comment (q ++ ascii '\\' :: x) = q.length) (y : Bytes) :
    layout comment (q ++ ascii '\\' :: y) = q.length := by
  induction q generalizing comment with
  | nil =>
    cases comment with
    | true => cases h
    | false => rfl
  | cons b q ih =>
    cases comment with
    | true =>
      simp only [List.cons_append, layout, List.length_cons, Nat.add_right_cancel_iff] at h ⊢
      exact ih h
    | false =>
      simp only [List.cons_append, layout, List.length_cons] at h ⊢
      split
      · next hb =>
        rw [if_pos hb] at h
        rw [ih (Nat.succ.inj h)]
      next hb =>
      rw [if_neg hb] at h
      split
      · next hc =>
        rw [if_pos hc] at h
        rw [ih (Nat.succ.inj h)]
      · next hc =>
        rw [if_neg hc] at h
        cases h

/-- A token in front of a backslash does not depend on what follows it. -/
theorem Finds.escape {mode : Mode} {q x rest : Bytes} {t : Token} {a : UInt8} {width : Nat}
    (h : Finds mode (q ++ ascii '\\' :: x) t a rest width)
    (hq : layout false (q ++ ascii '\\' :: x) + width ≤ q.length) :
    ∃ q', q.drop (layout false (q ++ ascii '\\' :: x)) = a :: q' ∧ rest = q' ++ ascii '\\' :: x ∧
      ∀ y, Finds mode (q ++ ascii '\\' :: y) t a (q' ++ ascii '\\' :: y) width := by
  have hpos := h.width_pos
  generalize hskip : layout false (q ++ ascii '\\' :: x) = skip at hq ⊢
  have htext := h.text
  rw [hskip, List.drop_append_of_le_length (by omega)] at htext
  cases hdrop : q.drop skip with
  | nil =>
    have hlength := congrArg List.length hdrop
    simp only [List.length_drop, List.length_nil] at hlength
    omega
  | cons b q' =>
    rw [hdrop] at htext
    obtain ⟨rfl, rfl⟩ := List.cons.inj htext
    have hlength := congrArg List.length hdrop
    simp only [List.length_drop, List.length_cons] at hlength
    refine ⟨q', rfl, rfl, fun y => h.recut ?_ (.escape rfl (by omega))⟩
    have hlayout : layout false (q ++ ascii '\\' :: y) = skip := by
      rw [← hskip]
      refine layout_recut (n := q.length) (.escape rfl (Nat.le_refl _)) (by omega) ?_
      rw [hskip, List.length_append]
      omega
    rw [hlayout, List.drop_append_of_le_length (by omega), hdrop]
    rfl

/-- Behind such a token reading goes on in what is left in front of the backslash. -/
theorem Finds.scans_escape {mode : Mode} {q x rest : Bytes} {t : Token} {a : UInt8} {width : Nat}
    (h : Finds mode (q ++ ascii '\\' :: x) t a rest width)
    (hq : layout false (q ++ ascii '\\' :: x) + width ≤ q.length) :
    ∃ q', q' = q.drop (layout false (q ++ ascii '\\' :: x) + width) ∧
      (a :: rest).drop width = q' ++ ascii '\\' :: x ∧
      ∀ y ts, Scans mode (q ++ ascii '\\' :: y) ts ↔
        ∃ us, ts = t :: us ∧ Scans (.after t) (q' ++ ascii '\\' :: y) us := by
  obtain ⟨q', hdrop, rfl, hescape⟩ := h.escape hq
  have hlength := congrArg List.length hdrop
  rw [List.length_drop] at hlength
  have hwidth (y : Bytes) : (a :: (q' ++ ascii '\\' :: y)).drop width =
      (a :: q').drop width ++ ascii '\\' :: y := by
    rw [← List.cons_append, List.drop_append_of_le_length]
    omega
  refine ⟨(a :: q').drop width, by rw [← hdrop, List.drop_drop], hwidth x, fun y ts => ?_⟩
  rw [(hescape y).scans_iff, hwidth]

/-- Where there is only layout in front of a backslash, reading begins with it. -/
theorem scans_layout_iff {mode : Mode} {q x : Bytes}
    (hlayout : layout false (q ++ ascii '\\' :: x) = q.length) (y : Bytes) (ts : List Token) :
    Scans mode (q ++ ascii '\\' :: y) ts ↔ Scans mode (ascii '\\' :: y) ts := by
  have hdrop : (q ++ ascii '\\' :: y).drop (layout false (q ++ ascii '\\' :: y)) =
      (ascii '\\' :: y).drop (layout false (ascii '\\' :: y)) := by
    rw [layout_append_backslash hlayout, List.drop_left]
    rfl
  exact ⟨fun h => h.of_drop hdrop.symm, fun h => h.of_drop hdrop⟩

end Lexer

namespace Scanner

/-- Tokens are not in front of the place from which they are read. -/
theorem offset_le_of_mem (s : Scanner) {l : Lexeme} (h : l ∈ s.lexemes.list) :
    s.offset ≤ l.offset := by
  rcases hnext : s.next with ⟨found, offset, s'⟩
  rw [lexemes_eq, hnext] at h
  cases found with
  | finished => cases h
  | fault e => cases h
  | token t =>
    obtain ⟨a, rest, width, hfinds⟩ := exists_finds hnext
    have hsame := hnext.symm.trans (next_of_finds hfinds)
    rcases List.mem_cons.mp h with rfl | h
    · cases hsame
      exact Nat.le_add_right _ _
    · have ih := offset_le_of_mem s' h
      cases hsame
      exact Nat.le_trans (Nat.le_trans (Nat.le_add_right _ _) (Nat.le_add_right _ _)) ih
termination_by s.rest.length
decreasing_by exact next_shorter hnext

/-- **The tokens in front of a backslash, at which one is read, do not depend on what
follows it**; by induction along the scanner. -/
theorem scans_front (s : Scanner) {q x : Bytes} {l : Lexeme}
    (hrest : s.rest = q ++ ascii '\\' :: x) (hl : l ∈ s.lexemes.list)
    (hoffset : l.offset = s.offset + q.length) :
    ∃ ps mode, ∀ y ts, Scans s.mode (q ++ ascii '\\' :: y) ts ↔
      ∃ us, ts = ps ++ us ∧ Scans mode (ascii '\\' :: y) us := by
  rcases hnext : s.next with ⟨found, offset, s'⟩
  rw [lexemes_eq, hnext] at hl
  cases found with
  | finished => cases hl
  | fault e => cases hl
  | token t =>
    obtain ⟨a, rest, width, hfinds⟩ := exists_finds hnext
    have hsame := hnext.symm.trans (next_of_finds hfinds)
    rw [hrest] at hfinds hsame
    rcases List.mem_cons.mp hl with rfl | hl
    · -- There is only layout in front of the backslash.
      have hlayout : layout false (q ++ ascii '\\' :: x) = q.length := by
        cases hsame
        exact Nat.add_left_cancel hoffset
      refine ⟨[], s.mode, fun y ts => ?_⟩
      rw [scans_layout_iff hlayout]
      simp
    · -- The token is in front of the backslash, since others are read behind it.
      have hle := offset_le_of_mem s' hl
      have hs' := (Prod.mk.inj (Prod.mk.inj hsame).2).2
      have hmode : s'.mode = .after t := congrArg Scanner.mode hs'
      have hbehind : s'.rest = (a :: rest).drop width := congrArg Scanner.rest hs'
      have hplace : s'.offset = s.offset + layout false (q ++ ascii '\\' :: x) + width :=
        congrArg Scanner.offset hs'
      obtain ⟨q', hq', hdrop, hscans⟩ := hfinds.scans_escape (by omega)
      obtain ⟨ps, mode, ih⟩ := scans_front s' (hbehind.trans hdrop) hl (by
        rw [hq', List.length_drop]
        omega)
      refine ⟨t :: ps, mode, fun y ts => ?_⟩
      rw [hscans, ← hmode]
      constructor
      · rintro ⟨_, rfl, h⟩
        obtain ⟨us, rfl, hus⟩ := (ih y _).mp h
        exact ⟨us, rfl, hus⟩
      · rintro ⟨us, rfl, hus⟩
        exact ⟨ps ++ us, rfl, (ih y _).mpr ⟨us, rfl, hus⟩⟩
termination_by s.rest.length
decreasing_by exact next_shorter hnext

end Scanner

/-! ### The command and its digit -/

namespace Byte

theorem isLetter_of_isDigit {d : UInt8} (h : isDigit d = true) : isLetter d = false := by
  have hlower : (ascii 'a').toNat = 97 := rfl
  have hupper : (ascii 'A').toNat = 65 := rfl
  have hnine : (ascii '9').toNat = 57 := rfl
  simp only [isDigit, Bool.and_eq_true, decide_eq_true_eq, UInt8.le_iff_toNat_le] at h
  simp only [isLetter, Bool.or_eq_false_iff, Bool.and_eq_false_iff, decide_eq_false_iff_not,
    UInt8.le_iff_toNat_le]
  omega

theorem isSpace_of_isDigit {d : UInt8} (h : isDigit d = true) : isSpace d = false := by
  simp only [isSpace, Bool.or_eq_false_iff, beq_eq_false_iff_ne]
  refine ⟨⟨⟨?_, ?_⟩, ?_⟩, ?_⟩ <;> rintro rfl <;> cases h

theorem isLetter_of_isSpace {b : UInt8} (h : isSpace b = true) : isLetter b = false := by
  simp only [isSpace, Bool.or_eq_true, beq_iff_eq] at h
  rcases h with ((rfl | rfl) | rfl) | rfl <;> rfl

/-- A digit is none of the bytes that are not digits. -/
theorem ne_of_isDigit {d b : UInt8} (h : isDigit d = true) (hb : isDigit b = false) : d ≠ b := by
  rintro rfl
  rw [h] at hb
  cases hb

end Byte

/-- The commands that act on a digit are words, with nothing raw behind them. -/
theorem Vocabulary.word_of_actsOnDigit {name : Bytes} {t : Token} (h : command? name = some t)
    (ht : t.actsOnDigit = true) :
    name ≠ [] ∧ name.all Byte.isLetter = true ∧ name ≠ utf8 "begin" ∧ name ≠ utf8 "end" ∧
      isVerbatim name = false := by
  have hcommands : ∀ entry ∈ commands, entry.2.actsOnDigit = true →
      entry.1 ≠ [] ∧ entry.1.all Byte.isLetter = true ∧ entry.1 ≠ utf8 "begin" ∧
        entry.1 ≠ utf8 "end" ∧ isVerbatim entry.1 = false := by
    decide +kernel
  obtain ⟨before, after, hsplit, -⟩ := List.lookup_eq_some_iff.mp h
  refine hcommands (name, t) ?_ ht
  rw [hsplit]
  simp

namespace Lexer

/-- The star behind a name, or none. -/
def IsStar (star : Bytes) : Prop :=
  star = [] ∨ star = [ascii '*']

/-- A name and its star end in front of a byte that is neither a letter nor a star. -/
theorem word_append {name star y : Bytes} (hletters : name.all Byte.isLetter = true)
    (hstar : IsStar star) (hy : ∀ b ∈ y.head?, Byte.isLetter b = false ∧ b ≠ ascii '*') :
    (name ++ (star ++ y)).takeWhile Byte.isLetter = name ∧
      wordWidth (name ++ (star ++ y)) = name.length + star.length := by
  have hword : ∀ b ∈ name, Byte.isLetter b = true := List.all_eq_true.mp hletters
  have hname : (name ++ (star ++ y)).takeWhile Byte.isLetter = name := by
    rw [List.takeWhile_append_of_pos hword]
    rcases hstar with rfl | rfl
    · cases y with
      | nil => simp
      | cons b y =>
        rw [List.nil_append, List.takeWhile_cons_of_neg (by simp [(hy b rfl).1]), List.append_nil]
    · rw [List.cons_append, List.takeWhile_cons_of_neg (by decide), List.append_nil]
  refine ⟨hname, ?_⟩
  rw [wordWidth, hname, List.drop_left]
  rcases hstar with rfl | rfl
  · cases y with
    | nil => rfl
    | cons b y => simp [starWidth, startsWith, (hy b rfl).2]
  · rfl

/-- A word ends in front of a byte that is neither a letter nor a star. -/
theorem read_word {name y : Bytes} (hne : name ≠ []) (hletters : name.all Byte.isLetter = true)
    (hy : ∀ b ∈ y.head?, Byte.isLetter b = false ∧ b ≠ ascii '*') (mode : Mode) (offset : Nat) :
    read mode offset (ascii '\\') (name ++ y) =
      (readBehind name (offset + 1 + name.length) y).shift (1 + name.length) := by
  obtain ⟨hname, hwidth⟩ : (name ++ y).takeWhile Byte.isLetter = name ∧
      wordWidth (name ++ y) = name.length := word_append hletters (.inl rfl) hy
  obtain ⟨a, name', rfl⟩ := List.exists_cons_of_ne_nil hne
  have ha : Byte.isLetter a = true := List.all_eq_true.mp hletters a (List.mem_cons_self ..)
  have hbackslash : read mode offset (ascii '\\') (a :: name' ++ y) =
      (readBackslash offset (a :: name' ++ y)).shift 1 := by
    cases mode <;> rfl
  have hword : readBackslash offset (a :: name' ++ y) =
      readWord (offset + 1) (a :: name' ++ y) := by
    simp only [List.cons_append, readBackslash, ha, if_true]
  rw [hbackslash, hword, readWord_eq, hname, hwidth, List.drop_left]
  simp only [Reading.shift, Nat.add_assoc]

/-- The token of a word that acts on a digit. -/
theorem finds_word {name y : Bytes} {t : Token} (h : Vocabulary.command? name = some t)
    (ht : t.actsOnDigit = true)
    (hy : ∀ b ∈ y.head?, Byte.isLetter b = false ∧ b ≠ ascii '*') (mode : Mode) :
    Finds mode (ascii '\\' :: (name ++ y)) t (ascii '\\') (name ++ y) (1 + name.length) := by
  obtain ⟨hne, hletters, hbegin, hend, hraw⟩ := Vocabulary.word_of_actsOnDigit h ht
  refine ⟨rfl, fun offset => ?_⟩
  rw [read_word hne hletters hy]
  simp [readBehind, hbegin, hend, hraw, h, Reading.shift]

/-- Layout in front of a byte does not go on with a word, if this byte does not. -/
theorem IsLayout.head_append_of {gap r : Bytes} {d : UInt8} (hgap : IsLayout gap)
    (hd : Byte.isLetter d = false ∧ d ≠ ascii '*') :
    ∀ b ∈ (gap ++ d :: r).head?, Byte.isLetter b = false ∧ b ≠ ascii '*' := by
  cases hgap with
  | nil =>
    rintro b ⟨⟩
    exact hd
  | space hspace _ =>
    rintro b ⟨⟩
    refine ⟨Byte.isLetter_of_isSpace hspace, ?_⟩
    rintro rfl
    cases hspace
  | comment _ _ =>
    rintro b ⟨⟩
    exact ⟨rfl, by decide⟩

/-- Neither layout nor a digit goes on with a word. -/
theorem IsLayout.head_append {gap r : Bytes} {d : UInt8} (hgap : IsLayout gap)
    (hd : Byte.isDigit d = true) :
    ∀ b ∈ (gap ++ d :: r).head?, Byte.isLetter b = false ∧ b ≠ ascii '*' :=
  hgap.head_append_of ⟨Byte.isLetter_of_isDigit hd, Byte.ne_of_isDigit hd rfl⟩

theorem layout_digit {d : UInt8} (hd : Byte.isDigit d = true) (r : Bytes) :
    layout false (d :: r) = 0 := by
  have hpercent : ¬(d == ascii '%') = true := by
    simpa using Byte.ne_of_isDigit hd rfl
  rw [layout, if_neg (by simp [Byte.isSpace_of_isDigit hd]), if_neg hpercent]

/-- One digit is read behind a command that acts on it. -/
theorem finds_digit {gap : Bytes} (hgap : IsLayout gap) {d : UInt8} (hd : Byte.isDigit d = true)
    (r : Bytes) : Finds .digit (gap ++ d :: r) (.number [d]) d r 1 := by
  refine ⟨?_, fun offset => ?_⟩
  · rw [hgap.layout_append, layout_digit hd, Nat.add_zero, List.drop_left]
  · rw [read, if_pos (by simp [hd])]

/-- Elsewhere all digits are read. -/
theorem finds_number {d : UInt8} (hd : Byte.isDigit d = true) (r : Bytes) :
    Finds .plain (d :: r) (.number (d :: r.takeWhile isNumberByte)) d r
      ((r.takeWhile isNumberByte).length + 1) := by
  have hbackslash : ¬(d == ascii '\\') = true := by simpa using Byte.ne_of_isDigit hd rfl
  have hquote : ¬(d == ascii '\'') = true := by simpa using Byte.ne_of_isDigit hd rfl
  refine ⟨?_, fun offset => ?_⟩
  · rw [layout_digit hd]
    rfl
  · rw [read, if_neg (by simp), if_neg (by simp), if_neg hbackslash, if_neg hquote,
      if_pos (by simp [hd])]

/-- The digit and what follows it. -/
theorem scans_digit {gap r : Bytes} (hgap : IsLayout gap) {d : UInt8} (hd : Byte.isDigit d = true)
    {ts : List Token} :
    Scans .digit (gap ++ d :: r) ts ↔ ∃ us, ts = .number [d] :: us ∧ Scans .plain r us :=
  (finds_digit hgap hd r).scans_iff

/-- The digit in braces and what follows it. -/
theorem scans_braced_digit {r : Bytes} {d : UInt8} (hd : Byte.isDigit d = true) {ts : List Token} :
    Scans .digit (ascii '\x7b' :: d :: ascii '\x7d' :: r) ts ↔
      ∃ us, ts = .groupBegin :: .number [d] :: .groupEnd :: us ∧ Scans .plain r us := by
  have hbegin : Finds .digit (ascii '\x7b' :: d :: ascii '\x7d' :: r) .groupBegin (ascii '\x7b')
      (d :: ascii '\x7d' :: r) 1 := ⟨rfl, fun _ => rfl⟩
  have hdigit : Finds .plain (d :: ascii '\x7d' :: r) (.number [d]) d (ascii '\x7d' :: r) 1 :=
    finds_number hd (ascii '\x7d' :: r)
  have hend : Finds .plain (ascii '\x7d' :: r) .groupEnd (ascii '\x7d') r 1 :=
    ⟨rfl, fun _ => rfl⟩
  rw [hbegin.scans_iff]
  constructor
  · rintro ⟨_, rfl, hbehind⟩
    obtain ⟨_, rfl, hclosed⟩ := hdigit.scans_iff.mp hbehind
    obtain ⟨us, rfl, hus⟩ := hend.scans_iff.mp hclosed
    exact ⟨us, rfl, hus⟩
  · rintro ⟨us, rfl, hus⟩
    exact ⟨_, rfl, hdigit.scans_iff.mpr ⟨_, rfl, hend.scans_iff.mpr ⟨us, rfl, hus⟩⟩⟩

end Lexer

/-! ### The state behind the command -/

/-- A token that goes on with nothing is the beginning of something, if a frame has a
use for it at all. -/
theorem Frame.shift_of_not_continues {t : Token} (ht : t.continues = false) (f : Frame) (n : Node)
    (waiting : List Frame) :
    (∃ w, f.shift n t waiting = t.begin? w) ∨ f.shift n t waiting = none := by
  cases f with
  | prime | scripts | first _ _ | second _ _ _ | chain _ | nest _ _ =>
    refine .inr ?_
    cases t with
    | prime _ | script _ => cases ht
    | _ => rfl
  | index => exact .inl ⟨_, rfl⟩
  | argument a =>
    by_cases hlength : (a.push n).args.length < (a.push n).tag.arity
    · exact .inl ⟨_, if_pos hlength⟩
    · refine .inr ((if_neg hlength).trans ?_)
      cases (a.push n).tag.extra with
      | none => rfl
      | groups | label _ =>
        cases t with
        | groupBegin | script _ => cases ht
        | _ => rfl
  | limit op l =>
    refine .inr ?_
    simp only [shift, Limits.move?_of_not_continues ht, ite_self]

/-- A move to a place where an argument may stand. -/
inductive Move.AwaitsArgument : Move → Prop
  | argument (a : Application) (waiting : List Frame) :
      AwaitsArgument (.focus (.argument a) waiting)
  | radical (waiting : List Frame) : AwaitsArgument (.focus .radical waiting)

/-- A state in which an argument may stand. -/
def State.AwaitsArgument (s : State) : Prop :=
  (∃ a, s.focus = .argument a) ∨ s.focus = .radical

theorem State.awaitsArgument_apply {s : State} {m : Move} (h : m.AwaitsArgument) :
    (s.apply m).AwaitsArgument := by
  cases h with
  | argument a waiting => exact .inl ⟨a, rfl⟩
  | radical waiting => exact .inr rfl

section Step

variable {t : Token} (ht : t.actsOnDigit = true)
include ht

theorem Token.continues_of_actsOnDigit : t.continues = false := by
  cases t with
  | fraction _ | binomial _ | style _ | radical => rfl
  | _ => cases ht

theorem Token.begin?_awaitsArgument {waiting : List Frame} {m : Move}
    (h : t.begin? waiting = some m) : m.AwaitsArgument := by
  cases t with
  | fraction _ | binomial _ | style _ =>
    obtain rfl := Option.some.inj h
    exact .argument _ _
  | radical =>
    obtain rfl := Option.some.inj h
    exact .radical _
  | _ => cases ht

theorem Frame.shift_awaitsArgument {f : Frame} {n : Node} {waiting : List Frame} {m : Move}
    (h : f.shift n t waiting = some m) : m.AwaitsArgument := by
  have hcontinues := Token.continues_of_actsOnDigit ht
  rcases f.shift_of_not_continues hcontinues n waiting with ⟨w, hbegin⟩ | hnone
  · exact Token.begin?_awaitsArgument ht (hbegin.symm.trans h)
  · rw [hnone] at h
    cases h

theorem feed_awaitsArgument {waiting : List Frame} {n : Node} {m : Move}
    (h : feed waiting n t = .move m) : m.AwaitsArgument := by
  induction waiting generalizing n with
  | nil => cases h
  | cons f waiting ih =>
    rw [feed] at h
    cases hshift : f.shift n t waiting with
    | some m' =>
      simp only [hshift, Fed.move.injEq] at h
      exact h ▸ Frame.shift_awaitsArgument ht hshift
    | none =>
      simp only [hshift] at h
      exact ih h

namespace State

theorem awaitsArgument_of_element {s s' : State} (h : s.element t 0 = .ok s') :
    s'.AwaitsArgument := by
  rcases element_ok h with ⟨m, hm, rfl⟩ | ⟨e, _, _, _, -, hcloses, -⟩
  · exact awaitsArgument_apply (Token.begin?_awaitsArgument ht hm)
  · cases t with
    | fraction _ | binomial _ | style _ | radical => cases e <;> cases hcloses
    | _ => cases ht

theorem awaitsArgument_of_value {s s' : State} {n : Node} (h : s.value n t 0 = .ok s') :
    s'.AwaitsArgument := by
  rw [State.value] at h
  cases hfeed : feed s.waiting n t with
  | move m =>
    simp only [hfeed, Except.ok.injEq] at h
    exact h ▸ awaitsArgument_apply (feed_awaitsArgument ht hfeed)
  | element k =>
    simp only [hfeed] at h
    exact awaitsArgument_of_element ht h

theorem awaitsArgument_of_argument {s s' : State} {a : Application}
    (h : s.argument a t 0 = .ok s') : s'.AwaitsArgument := by
  rw [State.argument] at h
  cases hbegin : t.begin? (.argument a :: s.waiting) with
  | some m =>
    simp only [hbegin, Except.ok.injEq] at h
    exact h ▸ awaitsArgument_apply (Token.begin?_awaitsArgument ht hbegin)
  | none =>
    simp only [hbegin] at h
    exact awaitsArgument_of_value ht h

/-- **Behind a command that acts on a digit an argument may stand.** -/
theorem awaitsArgument_of_step {s s' : State} (h : s.step t 0 = .ok s') : s'.AwaitsArgument := by
  have hglyph : fenceGlyph? t = none := by
    cases t with
    | fraction _ | binomial _ | style _ | radical => rfl
    | _ => cases ht
  cases hf : s.focus with
  | value n =>
    simp only [State.step, hf] at h
    exact awaitsArgument_of_value ht h
  | element =>
    simp only [State.step, hf] at h
    exact awaitsArgument_of_element ht h
  | argument a =>
    simp only [State.step, hf] at h
    exact awaitsArgument_of_argument ht h
  | operand op =>
    simp only [State.step, hf] at h
    cases hbegin : t.begin? (.prime :: s.waiting) with
    | some m =>
      simp only [hbegin, Except.ok.injEq] at h
      exact h ▸ awaitsArgument_apply (Token.begin?_awaitsArgument ht hbegin)
    | none => simp [hbegin] at h
  | radical =>
    simp only [State.step, hf] at h
    split at h
    · next hbracket =>
      rw [hbracket] at ht
      cases ht
    · exact awaitsArgument_of_argument ht h
  | limits l =>
    have hcontinues := Token.continues_of_actsOnDigit ht
    simp only [State.step, hf, Limits.move?_of_not_continues hcontinues] at h
    exact awaitsArgument_of_value ht h
  -- Where a brace or a delimiter is required the command is an error.
  | columns name =>
    simp only [State.step, hf] at h
    split at h
    · next hbrace =>
      rw [hbrace] at ht
      cases ht
    · cases h
  | sized tag =>
    simp only [State.step, hf] at h
    cases t with
    | delimiter glyph => cases ht
    | _ => cases h
  | opening | closing _ _ | middle => simp [State.step, hf, hglyph] at h

end State

end Step

namespace State

/-- A digit where an argument may stand, and the same digit in braces. -/
theorem outcome_digit {s : State} (h : s.AwaitsArgument) (text : Bytes) (ts : List Token) :
    s.outcome (.number text :: ts) =
      s.outcome (.groupBegin :: .number text :: .groupEnd :: ts) := by
  let g : BraceGroup := ⟨[.number text], [.leaf .number text none], rfl⟩
  obtain ⟨f, waiting, rows, ws⟩ := s
  rcases h with ⟨a, rfl : f = .argument a⟩ | (rfl : f = .radical)
  · rw [outcome_of_step rfl, outcome_of_step (t := .groupBegin) rfl]
    exact (g.outcome_content (.argument a :: waiting) rows ws ts).symm
  · rw [outcome_of_step rfl, outcome_of_step (t := .groupBegin) rfl]
    exact (g.outcome_content (.argument (.start .radical) :: waiting) rows ws ts).symm

/-- A digit behind a command, and the same digit in braces. -/
theorem outcome_command {t : Token} (ht : t.actsOnDigit = true) (s : State) (text : Bytes)
    (ts : List Token) :
    s.outcome (t :: .number text :: ts) =
      s.outcome (t :: .groupBegin :: .number text :: .groupEnd :: ts) := by
  cases hstep : s.step t 0 with
  | error e => rw [outcome_of_error hstep, outcome_of_error hstep]
  | ok s' =>
    rw [outcome_of_step hstep, outcome_of_step hstep]
    exact outcome_digit (awaitsArgument_of_step ht hstep) text ts

/-- Tokens that lead to the same outcomes everywhere do so behind others. -/
theorem outcome_append_congr {ts us : List Token} (h : ∀ s : State, s.outcome ts = s.outcome us)
    (ps : List Token) (s : State) : s.outcome (ps ++ ts) = s.outcome (ps ++ us) := by
  induction ps generalizing s with
  | nil => exact h s
  | cons t ps ih =>
    rw [List.cons_append, List.cons_append, outcome, outcome]
    congr 1
    funext s'
    exact ih s'

end State

/-! ### Sources -/

/-- The tokens of a source with a command in it, if those behind the command are known:
in front of them and of the command are always the same ones. -/
theorem exists_front {p name x : Bytes} {t : Token} (hname : Vocabulary.command? name = some t)
    (ht : t.actsOnDigit = true)
    (hread : ⟨t, p.length⟩ ∈ (Lexemes.ofSource (p ++ ascii '\\' :: x)).list) :
    ∃ ps, ∀ y qs r, (∀ b ∈ y.head?, Byte.isLetter b = false ∧ b ≠ ascii '*') →
      (∀ ts, Scans .digit y ts ↔ ∃ us, ts = qs ++ us ∧ Scans .plain r us) →
        ∀ ts, Tokenizes (p ++ ascii '\\' :: (name ++ y)) ts ↔
          ∃ us, ts = ps ++ t :: (qs ++ us) ∧ Tokenizes r us := by
  obtain ⟨ps, mode, hfront⟩ := Scanner.scans_front (Scanner.start (p ++ ascii '\\' :: x)) rfl hread
    (Nat.zero_add _).symm
  have hmode : Mode.after t = .digit := if_pos ht
  refine ⟨ps, fun y qs r hy hscans ts => ?_⟩
  have hbehind : (ascii '\\' :: (name ++ y)).drop (1 + name.length) = y := by
    rw [Nat.add_comm, List.drop_succ_cons, List.drop_left]
  have hword (us : List Token) : Scans mode (ascii '\\' :: (name ++ y)) us ↔
      ∃ vs, us = t :: vs ∧ Scans .digit y vs := by
    rw [(finds_word hname ht hy mode).scans_iff, hbehind, hmode]
  simp only [tokenizes_iff]
  refine (hfront (name ++ y) ts).trans ⟨?_, ?_⟩
  · rintro ⟨_, rfl, hcommand⟩
    obtain ⟨_, rfl, hdigit⟩ := (hword _).mp hcommand
    obtain ⟨us, rfl, hus⟩ := (hscans _).mp hdigit
    exact ⟨us, rfl, hus⟩
  · rintro ⟨us, rfl, hus⟩
    exact ⟨_, rfl, (hword _).mpr ⟨_, rfl, (hscans _).mpr ⟨us, rfl, hus⟩⟩⟩

/-- **A digit is the same argument with and without braces.**  Only one digit is an
argument; those behind it are a number of their own. -/
theorem parse_digit {p name gap r : Bytes} {d : UInt8} {t : Token}
    (hname : Vocabulary.command? name = some t) (ht : t.actsOnDigit = true)
    (hd : Byte.isDigit d = true) (hgap : IsLayout gap)
    (hread : ⟨t, p.length⟩ ∈
      (Lexemes.ofSource (p ++ ascii '\\' :: (name ++ (gap ++ d :: r)))).list) :
    (∀ tree, (parse (p ++ ascii '\\' :: (name ++ (gap ++ d :: r)))).tree = .ok tree ↔
      (parse (p ++ ascii '\\' :: (name ++ ascii '\x7b' :: d :: ascii '\x7d' :: r))).tree =
        .ok tree) ∧
    (∃ ps, ∀ ts, Tokenizes (p ++ ascii '\\' :: (name ++ (gap ++ d :: r))) ts ↔
      ∃ us, ts = ps ++ t :: .number [d] :: us ∧ Tokenizes r us) ∧
    ∀ e s us, r = e :: s → Byte.isDigit e = true → Tokenizes r us →
      us.head? = some (.number (e :: s.takeWhile isNumberByte)) := by
  obtain ⟨ps, hfront⟩ := exists_front hname ht hread
  have hbare : ∀ ts, Tokenizes (p ++ ascii '\\' :: (name ++ (gap ++ d :: r))) ts ↔
      ∃ us, ts = ps ++ t :: .number [d] :: us ∧ Tokenizes r us :=
    hfront _ [.number [d]] r (hgap.head_append hd) fun _ => scans_digit hgap hd
  have hbraced : ∀ ts,
      Tokenizes (p ++ ascii '\\' :: (name ++ ascii '\x7b' :: d :: ascii '\x7d' :: r)) ts ↔
        ∃ us, ts = ps ++ t :: .groupBegin :: .number [d] :: .groupEnd :: us ∧ Tokenizes r us :=
    hfront _ [.groupBegin, .number [d], .groupEnd] r (by rintro b ⟨⟩; decide) fun _ =>
      scans_braced_digit hd
  refine ⟨fun tree => ?_, ⟨ps, hbare⟩, ?_⟩
  · -- Both sources have tokens for the same texts `r`, and these have the same outcomes.
    have houtcome (us : List Token) := State.outcome_append_congr
      (fun s => State.outcome_command ht s [d] us) ps State.start
    rw [parse_eq_ok_iff, parse_eq_ok_iff]
    constructor
    · rintro ⟨_, hts, ns, hns, htree⟩
      obtain ⟨us, rfl, hus⟩ := (hbare _).mp hts
      exact ⟨_, (hbraced _).mpr ⟨us, rfl, hus⟩, ns, (houtcome us).symm.trans hns, htree⟩
    · rintro ⟨_, hts, ns, hns, htree⟩
      obtain ⟨us, rfl, hus⟩ := (hbraced _).mp hts
      exact ⟨_, (hbare _).mpr ⟨us, rfl, hus⟩, ns, (houtcome us).trans hns, htree⟩
  · rintro e s us rfl he hus
    obtain ⟨_, rfl, -⟩ := (finds_number he s).scans_iff.mp (tokenizes_iff.mp hus)
    rfl

/-- A fraction as an exponent, with a space in front of the first of three digits. -/
theorem parse_digit_fraction :
    let tag := Token.fraction (utf8 "frac")
    let bare := utf8 "x^" ++ ascii '\\' :: (utf8 "frac" ++ (utf8 " " ++ ascii '1' :: utf8 "23"))
    let braced := utf8 "x^" ++
      ascii '\\' :: (utf8 "frac" ++ ascii '\x7b' :: ascii '1' :: ascii '\x7d' :: utf8 "23")
    let tree := Node.branch .root [(Node.leaf .letter (utf8 "x") none).attach .sup
      (.command tag [.leaf .number (utf8 "1") none, .leaf .number (utf8 "23") none])]
    Vocabulary.command? (utf8 "frac") = some tag ∧ tag.actsOnDigit = true ∧
      Byte.isDigit (ascii '1') = true ∧ IsLayout (utf8 " ") ∧
      ⟨tag, (utf8 "x^").length⟩ ∈ (Lexemes.ofSource bare).list ∧
      (parse bare).tree = .ok tree ∧ (parse braced).tree = .ok tree := by
  intro tag bare braced tree
  have htokens : Tokenizes bare
      [.letter (utf8 "x"), .script .sup, tag, .number (utf8 "1"), .number (utf8 "23")] := by
    decide +kernel
  have hread : ⟨tag, (utf8 "x^").length⟩ ∈ (Lexemes.ofSource bare).list := by
    decide +kernel
  have hbare : (parse bare).tree = .ok tree := htokens.parse_eq rfl
  obtain ⟨hsame, -⟩ := parse_digit (t := tag) rfl rfl rfl (.space rfl .nil) hread
  exact ⟨rfl, rfl, rfl, .space rfl .nil, hread, hbare, (hsame tree).mp hbare⟩

end MathMarkup
