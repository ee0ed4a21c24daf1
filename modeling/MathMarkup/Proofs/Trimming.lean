/-
MathMarkup/Proofs/Trimming.lean

White space around a text.  A byte of ASCII is a rune of its own wherever it stands:
whatever is in front of it, even the beginning of a longer sequence, is read as if the
text ended there (`Utf8.runes_append_of_lt`).  So the blanks of the notation can be
added on both sides of a text without changing the runes in between, and `trim` takes
them off again (`trim_pad`).  A text that has no white space around it therefore
starts with no blank (`isSpace_of_trim`).
-/
import Mathlib.Data.List.Flatten
import MathMarkup.Proofs.Lookahead
import MathMarkup.Text.Blank

namespace MathMarkup

namespace Byte

theorem lt_of_isSpace {b : UInt8} (h : isSpace b = true) : b < 0x80 := by
  simp only [isSpace, Bool.or_eq_true, beq_iff_eq] at h
  rcases h with ((rfl | rfl) | rfl) | rfl <;> decide

theorem isBlank_of_isSpace {b : UInt8} (h : isSpace b = true) : isBlank b.toNat = true := by
  simp only [isSpace, Bool.or_eq_true, beq_iff_eq] at h
  rcases h with ((rfl | rfl) | rfl) | rfl <;> decide

end Byte

namespace Utf8

theorem runes_cons_of_lt {b : UInt8} (hb : b < 0x80) (s : Bytes) :
    runes (b :: s) = ⟨b.toNat, [b]⟩ :: runes s := by
  have hdecode : decode b s = (b.toNat, 0) := by
    simp only [decode, hb, if_true]
  rw [runes, first, hdecode]
  rfl

/-- No character goes on behind a byte of ASCII. -/
theorem decode_append_of_lt {b : UInt8} (hb : b < 0x80) (a : UInt8) (s t : Bytes) :
    decode a (s ++ b :: t) = decode a s := by
  have hsecond : follows (secondRange a).1 (secondRange a).2 b = false :=
    Lexer.follows_of_lt hb (Lexer.le_secondRange a)
  have hlater : follows 0x80 0xBF b = false := Lexer.follows_of_lt hb (UInt8.le_refl _)
  unfold decode
  rcases s with - | ⟨c, - | ⟨d, - | ⟨e, s⟩⟩⟩ <;> grind

/-- Reading starts anew at a byte of ASCII. -/
theorem runes_append_of_lt {b : UInt8} (hb : b < 0x80) (s t : Bytes) :
    runes (s ++ b :: t) = runes s ++ runes (b :: t) := by
  fun_induction runes s with
  | case1 => rfl
  | case2 a s ih =>
    have hwidth := Lexer.decode_width_le a s
    have hfirst : first a (s ++ b :: t) = first a s := by
      simp only [first, decode_append_of_lt hb, List.take_append_of_le_length hwidth]
    rw [List.cons_append, runes, hfirst, decode_append_of_lt hb,
      List.drop_append_of_le_length hwidth, ih]
    rfl

/-- Blanks as runes. -/
def blankRunes (blanks : Bytes) : List Rune :=
  blanks.map fun b => ⟨b.toNat, [b]⟩

theorem isBlank_of_mem_blankRunes {blanks : Bytes} (h : ∀ b ∈ blanks, Byte.isSpace b = true) :
    ∀ r ∈ blankRunes blanks, isBlank r.code = true := by
  intro r hr
  obtain ⟨b, hb, rfl⟩ := List.mem_map.mp hr
  exact Byte.isBlank_of_isSpace (h b hb)

theorem runes_blanks_append {blanks : Bytes} (h : ∀ b ∈ blanks, Byte.isSpace b = true)
    (s : Bytes) : runes (blanks ++ s) = blankRunes blanks ++ runes s := by
  induction blanks with
  | nil => rfl
  | cons b blanks ih =>
    obtain ⟨hb, hblanks⟩ := List.forall_mem_cons.mp h
    rw [List.cons_append, runes_cons_of_lt (Byte.lt_of_isSpace hb), ih hblanks]
    rfl

theorem runes_append_blanks {blanks : Bytes} (h : ∀ b ∈ blanks, Byte.isSpace b = true)
    (s : Bytes) : runes (s ++ blanks) = runes s ++ blankRunes blanks := by
  cases blanks with
  | nil =>
    rw [List.append_nil]
    exact (List.append_nil _).symm
  | cons b blanks =>
    obtain ⟨hb, -⟩ := List.forall_mem_cons.mp h
    have hread := runes_blanks_append h []
    rw [List.append_nil, runes, List.append_nil] at hread
    rw [runes_append_of_lt (Byte.lt_of_isSpace hb), hread]

end Utf8

namespace Bytes

theorem trimRunes_append {front : List Rune} (h : ∀ r ∈ front, isBlank r.code = true)
    (rs : List Rune) : trimRunes (front ++ rs) = trimRunes rs :=
  List.dropWhile_append_of_pos h

/-- Blanks at the end are gone when the runes are trimmed from both ends. -/
theorem trimRunes_reverse_append {back : List Rune} (h : ∀ r ∈ back, isBlank r.code = true)
    (rs : List Rune) :
    trimRunes (trimRunes (rs ++ back)).reverse = trimRunes (trimRunes rs).reverse := by
  have hback : ∀ r ∈ back.reverse, isBlank r.code = true := by
    simpa only [List.mem_reverse] using h
  have hcut : trimRunes (rs ++ back) =
      if (trimRunes rs).isEmpty then trimRunes back else trimRunes rs ++ back :=
    List.dropWhile_append
  rw [hcut]
  split
  · next hempty =>
    have hnothing : trimRunes back = [] := by
      rw [← List.append_nil back, trimRunes_append h]
      rfl
    rw [hnothing, List.isEmpty_iff.mp hempty]
  · rw [List.reverse_append, trimRunes_append hback]

/-- **Blanks around a text make no difference to what is left of it.** -/
theorem trim_pad {front back : Bytes} (hfront : ∀ b ∈ front, Byte.isSpace b = true)
    (hback : ∀ b ∈ back, Byte.isSpace b = true) (s : Bytes) :
    trim (front ++ (s ++ back)) = trim s := by
  rw [trim, Utf8.runes_blanks_append hfront, Utf8.runes_append_blanks hback,
    trimRunes_append (Utf8.isBlank_of_mem_blankRunes hfront),
    trimRunes_reverse_append (Utf8.isBlank_of_mem_blankRunes hback)]
  rfl

theorem trim_length_le (s : Bytes) : (trim s).length ≤ s.length := by
  have hfront : (trimRunes (Utf8.runes s)).Sublist (Utf8.runes s) := List.dropWhile_sublist _
  have hback : (trimRunes (trimRunes (Utf8.runes s)).reverse).Sublist
      (trimRunes (Utf8.runes s)).reverse := List.dropWhile_sublist _
  have hrunes : (trimRunes (trimRunes (Utf8.runes s)).reverse).reverse.Sublist (Utf8.runes s) := by
    have hreverse := hback.reverse
    rw [List.reverse_reverse] at hreverse
    exact hreverse.trans hfront
  calc (trim s).length
      ≤ (Utf8.flatten (Utf8.runes s)).length := (hrunes.flatMap Rune.bytes).length_le
    _ = s.length := by rw [Utf8.flatten_runes]

/-- A text without white space around it starts with no blank. -/
theorem isSpace_of_trim {b : UInt8} {s : Bytes} (h : trim (b :: s) = b :: s) :
    Byte.isSpace b = false := by
  cases hb : Byte.isSpace b with
  | false => rfl
  | true =>
    have hblank : ∀ c ∈ [b], Byte.isSpace c = true := by simpa using hb
    have hpad := trim_pad hblank (List.forall_mem_nil _) s
    rw [List.append_nil, List.singleton_append, h] at hpad
    have hlength := trim_length_le s
    rw [← hpad, List.length_cons] at hlength
    omega

end Bytes

end MathMarkup
