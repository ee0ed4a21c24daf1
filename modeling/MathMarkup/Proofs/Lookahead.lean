/-
MathMarkup/Proofs/Lookahead.lean

How far reading looks ahead.  A token is read from its own bytes; behind them
only the place where it ends is looked for, and the end of a line ends every
token.  So the text behind a token can be exchanged: a token that was read from
some text is also read, with the same number of bytes, when a line ends right
behind it, and when the text goes on after the end of a line.  A backslash ends
every token too, so that what follows a later backslash can be exchanged.

All these exchanges are `Recut n s s'`, where `n` is the number of bytes that have
to stay.  They cannot be mixed: a text cut in the middle of a later character may
be read differently, since half a character is one of its own and may join the
cluster before it.

A way of reading that depends on its own bytes in this sense is `Local`.  Names
and raw arguments have a closing brace and are local because of it; words,
numbers, primes and clusters are local because neither a line feed nor a backslash
continues them.
Main result: `Lexer.read_recut`.
-/
import MathMarkup.Token.Lexer

namespace MathMarkup

namespace Lexer

open Cluster

/-! ### Cutting a text -/

/-- The text ends here, or a line of it does. -/
def LineEnd (s : Bytes) : Prop :=
  ∀ b ∈ s.head?, b = ascii '\n'

theorem lineEnd_nil : LineEnd [] := by
  rintro b ⟨⟩

theorem lineEnd_lineFeed (s : Bytes) : LineEnd (ascii '\n' :: s) := by
  rintro b ⟨⟩
  rfl

theorem LineEnd.eq_nil_or_cons {s : Bytes} (h : LineEnd s) : s = [] ∨ ∃ r, s = ascii '\n' :: r := by
  cases s with
  | nil => exact .inl rfl
  | cons b r => exact .inr ⟨r, congrArg (· :: r) (h b rfl)⟩

/-- `Recut n s s'`: the text `s` up to the end of a line, which comes right behind
the first `n` bytes or behind all of them; or up to a backslash that is not among
the first `n` bytes. -/
inductive Recut (n : Nat) (s : Bytes) : Bytes → Prop
  | cut {g : Bytes} : LineEnd g → Recut n s (s.take n ++ g)
  | whole {g : Bytes} : LineEnd g → Recut n s (s ++ g)
  | escape {x y y' : Bytes} : s = x ++ ascii '\\' :: y → n ≤ x.length →
      Recut n s (x ++ ascii '\\' :: y')

namespace Recut

variable {n : Nat} {b : UInt8} {s s' : Bytes}

theorem lineEnd (h : Recut n [] s') : LineEnd s' := by
  cases h with
  | cut hg =>
    rw [List.take_nil]
    exact hg
  | whole hg => exact hg
  | @escape x => cases x <;> contradiction

/-- In the place of a byte there is the end of the line, or that byte; if it is the
backslash, anything may follow. -/
theorem cons_cases (h : Recut n (b :: s) s') :
    (n = 0 ∧ LineEnd s') ∨ (n = 0 ∧ b = ascii '\\' ∧ ∃ y', s' = b :: y') ∨
      ∃ s₁, s' = b :: s₁ ∧ Recut (n - 1) s s₁ := by
  cases h with
  | cut hg =>
    cases n with
    | zero => exact .inl ⟨rfl, hg⟩
    | succ n => exact .inr (.inr ⟨_, rfl, .cut hg⟩)
  | whole hg => exact .inr (.inr ⟨_, rfl, .whole hg⟩)
  | @escape x y y' hs hn =>
    cases x with
    | nil =>
      obtain ⟨rfl, rfl⟩ := List.cons.inj hs
      exact .inr (.inl ⟨Nat.le_zero.mp hn, rfl, y', rfl⟩)
    | cons b' x =>
      obtain ⟨rfl, rfl⟩ := List.cons.inj hs
      exact .inr (.inr ⟨_, rfl, .escape rfl (Nat.sub_le_of_le_add hn)⟩)

theorem cons (h : Recut (n + 1) (b :: s) s') : ∃ s₁, s' = b :: s₁ ∧ Recut n s s₁ := by
  rcases h.cons_cases with ⟨hzero, -⟩ | ⟨hzero, -⟩ | h
  · cases hzero
  · cases hzero
  · exact h

theorem drop (h : Recut n s s') {k : Nat} (hn : k ≤ n) (hs : k ≤ s.length) :
    Recut (n - k) (s.drop k) (s'.drop k) := by
  cases h with
  | cut hg =>
    have hlen : k ≤ (s.take n).length := by
      rw [List.length_take]
      omega
    rw [List.drop_append_of_le_length hlen, List.drop_take]
    exact .cut hg
  | whole hg =>
    rw [List.drop_append_of_le_length hs]
    exact .whole hg
  | @escape x _ _ htext hx =>
    rw [htext, List.drop_append_of_le_length (Nat.le_trans hn hx),
      List.drop_append_of_le_length (Nat.le_trans hn hx)]
    refine .escape rfl ?_
    rw [List.length_drop]
    omega

theorem take (h : Recut n s s') {k : Nat} (hn : k ≤ n) (hs : k ≤ s.length) :
    s'.take k = s.take k := by
  cases h with
  | cut hg =>
    have hlen : k ≤ (s.take n).length := by
      rw [List.length_take]
      omega
    rw [List.take_append_of_le_length hlen, List.take_take, Nat.min_eq_left hn]
  | whole hg => rw [List.take_append_of_le_length hs]
  | escape htext hx =>
    rw [htext, List.take_append_of_le_length (Nat.le_trans hn hx),
      List.take_append_of_le_length (Nat.le_trans hn hx)]

/-- A test of the first byte that a line feed fails has the same outcome, provided
that a byte which passes has to stay. -/
theorem head?_any (h : Recut n s s') {p : UInt8 → Bool} (hp : p (ascii '\n') = false)
    (hn : s.head?.any p = true → 0 < n) : s'.head?.any p = s.head?.any p := by
  have stop {g : Bytes} (hg : LineEnd g) : g.head?.any p = false := by
    rcases hg.eq_nil_or_cons with rfl | ⟨r, rfl⟩
    · rfl
    · exact hp
  cases s with
  | nil => exact stop h.lineEnd
  | cons b s =>
    rcases h.cons_cases with ⟨rfl, hend⟩ | ⟨-, -, y', rfl⟩ | ⟨s₁, rfl, -⟩
    · rw [stop hend]
      cases hb : (b :: s).head?.any p with
      | true => exact absurd (hn hb) (Nat.lt_irrefl 0)
      | false => rfl
    · rfl
    · rfl

/-- A run of bytes that does not go on with a line feed. -/
theorem takeWhile (h : Recut n s s') {p : UInt8 → Bool} (hp : p (ascii '\n') = false)
    (hn : (s.takeWhile p).length ≤ n) : s'.takeWhile p = s.takeWhile p := by
  have stop {g : Bytes} (hg : LineEnd g) : g.takeWhile p = [] := by
    rcases hg.eq_nil_or_cons with rfl | ⟨r, rfl⟩
    · rfl
    · exact List.takeWhile_cons_of_neg (by simp [hp])
  induction s generalizing n s' with
  | nil => exact stop h.lineEnd
  | cons b s ih =>
    cases hb : p b with
    | true =>
      rw [List.takeWhile_cons_of_pos hb, List.length_cons] at hn
      obtain ⟨m, rfl⟩ : ∃ m, n = m + 1 := ⟨n - 1, by omega⟩
      obtain ⟨s₁, rfl, h₁⟩ := h.cons
      rw [List.takeWhile_cons_of_pos hb, List.takeWhile_cons_of_pos hb, ih h₁ (by omega)]
    | false =>
      have hneg : ¬p b = true := by simp [hb]
      rw [List.takeWhile_cons_of_neg hneg]
      rcases h.cons_cases with ⟨-, hend⟩ | ⟨-, -, y', rfl⟩ | ⟨s₁, rfl, -⟩
      · exact stop hend
      · exact List.takeWhile_cons_of_neg hneg
      · exact List.takeWhile_cons_of_neg hneg

end Recut

theorem takeWhile_length_le (p : UInt8 → Bool) (s : Bytes) : (s.takeWhile p).length ≤ s.length :=
  (List.takeWhile_sublist p).length_le

/-! ### Marks, words and layout -/

theorem startsWith_eq (b : UInt8) (s : Bytes) : startsWith b s = s.head?.any (· == b) := by
  cases s <;> rfl

theorem exists_cons_of_startsWith {b : UInt8} {s : Bytes} (h : startsWith b s = true) :
    ∃ r, s = b :: r := by
  cases s with
  | nil => cases h
  | cons a r =>
    obtain rfl : a = b := by simpa [startsWith] using h
    exact ⟨r, rfl⟩

theorem startsWith_self (b : UInt8) (s : Bytes) : startsWith b (b :: s) = true :=
  beq_self_eq_true _

theorem startsWith_recut {b : UInt8} (hb : (ascii '\n' == b) = false) {n : Nat} {s s' : Bytes}
    (h : Recut n s s') (hn : startsWith b s = true → 0 < n) :
    startsWith b s' = startsWith b s := by
  rw [startsWith_eq] at hn
  rw [startsWith_eq, startsWith_eq, h.head?_any hb hn]

theorem starWidth_le (s : Bytes) : starWidth s ≤ s.length := by
  unfold starWidth
  split
  · next h =>
    obtain ⟨r, rfl⟩ := exists_cons_of_startsWith h
    exact Nat.le_add_left _ _
  · exact Nat.zero_le _

theorem starWidth_recut {n : Nat} {s s' : Bytes} (h : Recut n s s') (hn : starWidth s ≤ n) :
    starWidth s' = starWidth s := by
  have hstar : startsWith (ascii '*') s' = startsWith (ascii '*') s := by
    refine startsWith_recut rfl h fun hs => ?_
    rw [starWidth, if_pos hs] at hn
    exact hn
  rw [starWidth, starWidth, hstar]

/-- The length of a name with its star. -/
def wordWidth (s : Bytes) : Nat :=
  (s.takeWhile Byte.isLetter).length + starWidth (s.drop (s.takeWhile Byte.isLetter).length)

theorem wordWidth_le (s : Bytes) : wordWidth s ≤ s.length := by
  have hword := takeWhile_length_le Byte.isLetter s
  have hstar := starWidth_le (s.drop (s.takeWhile Byte.isLetter).length)
  rw [List.length_drop] at hstar
  unfold wordWidth
  omega

theorem word_recut {n : Nat} {s s' : Bytes} (h : Recut n s s') (hn : wordWidth s ≤ n) :
    s'.takeWhile Byte.isLetter = s.takeWhile Byte.isLetter ∧ wordWidth s' = wordWidth s := by
  unfold wordWidth at hn ⊢
  have hlen := takeWhile_length_le Byte.isLetter s
  have hname : s'.takeWhile Byte.isLetter = s.takeWhile Byte.isLetter :=
    h.takeWhile rfl (by omega)
  have hafter := h.drop (k := (s.takeWhile Byte.isLetter).length) (by omega) hlen
  refine ⟨hname, ?_⟩
  rw [hname, starWidth_recut hafter (by omega)]

/-- Layout in front of a byte that stays. -/
theorem layout_recut {comment : Bool} {n : Nat} {s s' : Bytes} (h : Recut n s s')
    (hn : layout comment s < n) (hs : layout comment s < s.length) :
    layout comment s' = layout comment s := by
  induction s generalizing comment n s' with
  | nil => cases hs
  | cons b s ih =>
    obtain ⟨m, rfl⟩ : ∃ m, n = m + 1 := ⟨n - 1, by omega⟩
    obtain ⟨s₁, rfl, h₁⟩ := h.cons
    rw [List.length_cons] at hs
    cases comment with
    | true =>
      simp only [layout] at hn hs ⊢
      rw [ih h₁ (by omega) (by omega)]
    | false =>
      simp only [layout] at hn hs ⊢
      split
      · next hb =>
        rw [if_pos hb] at hn hs
        rw [ih h₁ (by omega) (by omega)]
      · next hb =>
        rw [if_neg hb] at hn hs
        split
        · next hc =>
          rw [if_pos hc] at hn hs
          rw [ih h₁ (by omega) (by omega)]
        · rfl

/-- The byte behind layout, and what follows it. -/
theorem behind_layout_recut {s s' rest : Bytes} {b : UInt8} {n : Nat}
    (h : s.drop (layout false s) = b :: rest) (hs : Recut (layout false s + 1 + n) s s') :
    layout false s' = layout false s ∧
      ∃ rest', s'.drop (layout false s') = b :: rest' ∧ Recut n rest rest' := by
  have hlen := congrArg List.length h
  simp only [List.length_drop, List.length_cons] at hlen
  have hlayout : layout false s' = layout false s := layout_recut hs (by omega) (by omega)
  have hdrop := hs.drop (k := layout false s) (by omega) (by omega)
  rw [h, Nat.add_assoc, Nat.add_sub_cancel_left, Nat.add_comm] at hdrop
  rw [hlayout]
  exact ⟨rfl, hdrop.cons⟩

/-! ### Raw arguments -/

theorem exists_of_addLength {m k : Nat} {r : Except Nat Nat} (h : addLength m r = .ok k) :
    ∃ j, r = .ok j ∧ k = m + j := by
  cases r with
  | ok j => exact ⟨j, rfl, (Except.ok.inj h).symm⟩
  | error j => cases h

/-- The closing brace of a raw argument is part of the text. -/
theorem rawLength_lt {depth k : Nat} {s : Bytes} (h : rawLength depth s = .ok k) :
    k < s.length := by
  fun_induction rawLength depth s generalizing k with
  | case1 | case2 => cases h
  | case5 =>
    obtain rfl := Except.ok.inj h
    exact Nat.succ_pos _
  | case3 _ _ _ _ _ ih | case4 _ _ _ _ _ ih | case6 _ _ _ _ _ _ ih | case7 _ _ _ _ _ _ ih =>
    obtain ⟨j, hj, rfl⟩ := exists_of_addLength h
    have hlt := ih hj
    simp only [List.length_cons]
    omega

/-- A raw argument whose closing brace stays. -/
theorem rawLength_recut {depth n k : Nat} {s s' : Bytes} (h : Recut (n + 1) s s')
    (hk : rawLength depth s = .ok k) (hn : k ≤ n) : rawLength depth s' = .ok k := by
  fun_induction rawLength depth s generalizing n k s' with
  | case1 | case2 => cases hk
  | case3 depth b hb a rest ih =>
    obtain ⟨j, hj, rfl⟩ := exists_of_addLength hk
    obtain ⟨n, rfl⟩ : ∃ i, n = i + 2 := ⟨n - 2, by omega⟩
    obtain ⟨s₁, rfl, h₁⟩ := h.cons
    obtain ⟨s₂, rfl, h₂⟩ := h₁.cons
    simp only [rawLength, if_pos hb, ih h₂ hj (by omega), addLength]
  | case4 depth b rest hb hopen ih =>
    obtain ⟨j, hj, rfl⟩ := exists_of_addLength hk
    obtain ⟨n, rfl⟩ : ∃ i, n = i + 1 := ⟨n - 1, by omega⟩
    obtain ⟨s₁, rfl, h₁⟩ := h.cons
    rw [rawLength.eq_def]
    simp only [if_neg hb, if_pos hopen, ih h₁ hj (by omega), addLength]
  | case5 b rest hb hopen hclose =>
    obtain ⟨s₁, rfl, -⟩ := h.cons
    rw [rawLength.eq_def]
    simp only [if_neg hb, if_neg hopen, if_pos hclose]
    exact hk
  | case6 b rest hb hopen hclose depth ih =>
    obtain ⟨j, hj, rfl⟩ := exists_of_addLength hk
    obtain ⟨n, rfl⟩ : ∃ i, n = i + 1 := ⟨n - 1, by omega⟩
    obtain ⟨s₁, rfl, h₁⟩ := h.cons
    rw [rawLength.eq_def]
    simp only [if_neg hb, if_neg hopen, if_pos hclose, ih h₁ hj (by omega), addLength]
  | case7 depth b rest hb hopen hclose ih =>
    obtain ⟨j, hj, rfl⟩ := exists_of_addLength hk
    obtain ⟨n, rfl⟩ : ∃ i, n = i + 1 := ⟨n - 1, by omega⟩
    obtain ⟨s₁, rfl, h₁⟩ := h.cons
    rw [rawLength.eq_def]
    simp only [if_neg hb, if_neg hopen, if_neg hclose, ih h₁ hj (by omega), addLength]

/-! ### Characters -/

/-- No byte of ASCII goes on with a character. -/
theorem follows_of_lt {low high b : UInt8} (hb : b < 0x80) (h : 0x80 ≤ low) :
    Utf8.follows low high b = false := by
  simp only [Utf8.follows, Bool.and_eq_false_iff, decide_eq_false_iff_not]
  exact .inl (UInt8.not_le.mpr (UInt8.lt_of_lt_of_le hb h))

theorem le_secondRange (a : UInt8) : 0x80 ≤ (Utf8.secondRange a).1 := by
  unfold Utf8.secondRange
  repeat' split
  all_goals decide

theorem decode_width_le (a : UInt8) (s : Bytes) : (Utf8.decode a s).2 ≤ s.length := by
  unfold Utf8.decode
  grind

/-- A character whose bytes stay. -/
theorem decode_recut {a : UInt8} {n : Nat} {s s' : Bytes} (h : Recut n s s')
    (hn : (Utf8.decode a s).2 ≤ n) : Utf8.decode a s' = Utf8.decode a s := by
  have hsecond {b : UInt8} (hb : b < 0x80) :
      Utf8.follows (Utf8.secondRange a).1 (Utf8.secondRange a).2 b = false :=
    follows_of_lt hb (le_secondRange a)
  have hthird {b : UInt8} (hb : b < 0x80) : Utf8.follows 0x80 0xBF b = false :=
    follows_of_lt hb (UInt8.le_refl _)
  have hlineFeed : ascii '\n' < 0x80 := by decide
  have hbackslash : ascii '\\' < 0x80 := by decide
  -- At most three bytes matter, and before each of them the line may end or a backslash stand.
  rcases s with - | ⟨b, s⟩
  · unfold Utf8.decode
    rcases h.lineEnd.eq_nil_or_cons with rfl | ⟨r, rfl⟩ <;> grind
  rcases h.cons_cases with ⟨rfl, hend⟩ | ⟨-, rfl, y', rfl⟩ | ⟨s₁, rfl, h₁⟩
  · unfold Utf8.decode at hn ⊢
    rcases hend.eq_nil_or_cons with rfl | ⟨r, rfl⟩ <;> grind
  · unfold Utf8.decode
    grind
  rcases s with - | ⟨c, s⟩
  · unfold Utf8.decode
    rcases h₁.lineEnd.eq_nil_or_cons with rfl | ⟨r, rfl⟩ <;> grind
  rcases h₁.cons_cases with ⟨hzero, hend⟩ | ⟨-, rfl, y', rfl⟩ | ⟨s₂, rfl, h₂⟩
  · unfold Utf8.decode at hn ⊢
    rcases hend.eq_nil_or_cons with rfl | ⟨r, rfl⟩ <;> grind
  · unfold Utf8.decode
    grind
  rcases s with - | ⟨d, s⟩
  · unfold Utf8.decode
    rcases h₂.lineEnd.eq_nil_or_cons with rfl | ⟨r, rfl⟩ <;> grind
  rcases h₂.cons_cases with ⟨hzero, hend⟩ | ⟨-, rfl, y', rfl⟩ | ⟨s₃, rfl, -⟩
  · unfold Utf8.decode at hn ⊢
    rcases hend.eq_nil_or_cons with rfl | ⟨r, rfl⟩ <;> grind
  · rfl
  · rfl

/-- A character ends in front of a backslash. -/
theorem decode_width_le_of_backslash (a : UInt8) (x y : Bytes) :
    (Utf8.decode a (x ++ ascii '\\' :: y)).2 ≤ x.length := by
  have hbackslash : ascii '\\' < 0x80 := by decide
  have hsecond : Utf8.follows (Utf8.secondRange a).1 (Utf8.secondRange a).2 (ascii '\\') = false :=
    follows_of_lt hbackslash (le_secondRange a)
  have hthird : Utf8.follows 0x80 0xBF (ascii '\\') = false := rfl
  unfold Utf8.decode
  rcases x with - | ⟨b, - | ⟨c, - | ⟨d, x⟩⟩⟩ <;> grind

/-- Behind a first byte without payload the second one has a large payload. -/
theorem payload_of_follows {a b : UInt8}
    (h : Utf8.follows (Utf8.secondRange a).1 (Utf8.secondRange a).2 b = true) :
    (a = 0xE0 → 0x20 ≤ Utf8.payload b) ∧ (a = 0xF0 → 0x10 ≤ Utf8.payload b) := by
  simp only [Utf8.follows, Bool.and_eq_true, decide_eq_true_eq, UInt8.le_iff_toNat_le] at h
  unfold Utf8.payload
  constructor
  · rintro rfl
    have hrange : Utf8.secondRange 0xE0 = (0xA0, 0xBF) := rfl
    simp only [hrange, UInt8.reduceToNat] at h
    omega
  · rintro rfl
    have hrange : Utf8.secondRange 0xF0 = (0x90, 0xBF) := rfl
    simp only [hrange, UInt8.reduceToNat] at h
    omega

/-- A character outside of ASCII has no code of ASCII. -/
theorem le_decode {a : UInt8} (ha : ¬a < 0x80) (s : Bytes) : 0x80 ≤ (Utf8.decode a s).1 := by
  have htwo (h : (0xC2 ≤ a && a ≤ 0xDF) = true) : 2 ≤ a.toNat % 0x20 := by
    simp only [Bool.and_eq_true, decide_eq_true_eq, UInt8.le_iff_toNat_le, UInt8.reduceToNat] at h
    omega
  have hthree (h : (0xE0 ≤ a && a ≤ 0xEF) = true) : a = 0xE0 ∨ 1 ≤ a.toNat % 0x10 := by
    simp only [Bool.and_eq_true, decide_eq_true_eq, UInt8.le_iff_toNat_le, UInt8.reduceToNat] at h
    simp only [← UInt8.toNat_inj, UInt8.reduceToNat]
    omega
  have hfour (h : (0xF0 ≤ a && a ≤ 0xF4) = true) : a = 0xF0 ∨ 1 ≤ a.toNat % 0x08 := by
    simp only [Bool.and_eq_true, decide_eq_true_eq, UInt8.le_iff_toNat_le, UInt8.reduceToNat] at h
    simp only [← UInt8.toNat_inj, UInt8.reduceToNat]
    omega
  unfold Utf8.decode
  grind [payload_of_follows, Utf8.replacement]

/-! ### Clusters -/

theorem ofCode_ne_carriageReturn {code : Nat} (h : 0x80 ≤ code) :
    ClusterClass.ofCode code ≠ .carriageReturn := by
  have ite_ne {p : Prop} [Decidable p] {c d : ClusterClass} (hc : c ≠ .carriageReturn)
      (hd : d ≠ .carriageReturn) : (if p then c else d) ≠ .carriageReturn := by
    split
    · exact hc
    · exact hd
  have hcode : ¬(code == 0x0D) = true := by
    rw [beq_iff_eq]
    omega
  unfold ClusterClass.ofCode
  rw [if_neg hcode]
  repeat' apply ite_ne
  all_goals exact nofun

/-- Only a carriage return is continued by a line feed. -/
theorem joins_lineFeed {t : Tail} (ht : t.last ≠ .carriageReturn) : t.joins .lineFeed = false := by
  obtain ⟨last, pictograph, tied, halfFlag⟩ := t
  cases last with
  | carriageReturn => exact absurd rfl ht
  | _ => rfl

theorem push_ne_carriageReturn {t : Tail} {c : ClusterClass} (h : t.joins c = true) :
    (t.push c).last ≠ .carriageReturn := by
  rintro rfl
  obtain ⟨last, pictograph, tied, halfFlag⟩ := t
  cases last <;> cases h

theorem continuation_lineEnd {t : Tail} (ht : t.last ≠ .carriageReturn) {g : Bytes}
    (hg : LineEnd g) : continuation t g = 0 := by
  rcases hg.eq_nil_or_cons with rfl | ⟨r, rfl⟩
  · rw [continuation]
  · have hclass : ClusterClass.ofCode (Utf8.decode (ascii '\n') r).1 = .lineFeed := rfl
    rw [continuation]
    simp only [hclass, joins_lineFeed ht, Bool.false_eq_true, if_false]

theorem continuation_le (t : Tail) (s : Bytes) : continuation t s ≤ s.length := by
  fun_induction continuation t s with
  | case1 t => exact Nat.le_refl _
  | case2 t a rest c hjoins ih =>
    have hwidth := decode_width_le a rest
    rw [List.length_drop] at ih
    rw [List.length_cons]
    omega
  | case3 t a rest c hjoins => exact Nat.zero_le _

/-- The rest of a cluster.  It has to be cut exactly behind it: the character after
the cluster must be there as a whole or not at all. -/
theorem continuation_recut {t : Tail} {s s' : Bytes} (ht : t.last ≠ .carriageReturn)
    (h : Recut (continuation t s) s s') : continuation t s' = continuation t s := by
  revert s'
  fun_induction continuation t s with
  | case1 t =>
    intro s' h
    exact continuation_lineEnd ht h.lineEnd
  | case2 t a rest c hjoins ih =>
    intro s' h
    rw [Nat.add_right_comm] at h
    obtain ⟨s₁, rfl, h₁⟩ := h.cons
    have hdecode : Utf8.decode a s₁ = Utf8.decode a rest := decode_recut h₁ (Nat.le_add_right _ _)
    have h₂ := h₁.drop (Nat.le_add_right _ _) (decode_width_le a rest)
    rw [Nat.add_sub_cancel_left] at h₂
    rw [continuation, hdecode, if_pos hjoins, ih (push_ne_carriageReturn hjoins) h₂]
  | case3 t a rest c hjoins =>
    intro s' h
    cases h with
    | cut hg => exact continuation_lineEnd ht hg
    | @whole g hg =>
      have hdecode : Utf8.decode a (rest ++ g) = Utf8.decode a rest :=
        decode_recut (.whole hg) (Nat.le_refl _)
      rw [List.cons_append, continuation, hdecode, if_neg hjoins]
    | @escape x y y' hs _ =>
      cases x with
      | nil =>
        obtain ⟨rfl, rfl⟩ := List.cons.inj hs
        have hdecode : Utf8.decode (ascii '\\') y' = Utf8.decode (ascii '\\') rest := rfl
        rw [List.nil_append, continuation, hdecode, if_neg hjoins]
      | cons _ x =>
        obtain ⟨rfl, hrest⟩ := List.cons.inj hs
        have hwidth : (Utf8.decode a rest).2 ≤ x.length := by
          rw [hrest]
          exact decode_width_le_of_backslash a x y
        have hdecode : Utf8.decode a (x ++ ascii '\\' :: y') = Utf8.decode a rest :=
          decode_recut (.escape hrest hwidth) (Nat.le_refl _)
        rw [List.cons_append, continuation, hdecode, if_neg hjoins]

theorem firstLength_eq (a : UInt8) (rest : Bytes) : firstLength a rest =
    (Utf8.decode a rest).2 +
      continuation (.start (.ofCode (Utf8.decode a rest).1)) (rest.drop (Utf8.decode a rest).2) +
      1 := by
  rw [Nat.add_right_comm]
  rfl

theorem firstLength_le (a : UInt8) (rest : Bytes) : firstLength a rest ≤ rest.length + 1 := by
  have hwidth := decode_width_le a rest
  have hmore := continuation_le (.start (.ofCode (Utf8.decode a rest).1))
    (rest.drop (Utf8.decode a rest).2)
  rw [List.length_drop] at hmore
  rw [firstLength_eq]
  omega

theorem readCluster_recut {a : UInt8} (ha : ¬a < 0x80) {rest rest' : Bytes}
    (h : Recut (firstLength a rest - 1) rest rest') :
    readCluster a rest' = readCluster a rest := by
  have hle := firstLength_le a rest
  have htext : (a :: rest').take (firstLength a rest) = (a :: rest).take (firstLength a rest) := by
    rw [firstLength_eq] at h hle ⊢
    rw [List.take_succ_cons, List.take_succ_cons]
    exact congrArg (a :: ·) (h.take (Nat.le_refl _) (Nat.le_of_succ_le_succ hle))
  rw [firstLength_eq, Nat.add_sub_cancel] at h
  have hdecode := decode_recut h (Nat.le_add_right _ _)
  have hdrop := h.drop (Nat.le_add_right _ _) (decode_width_le a rest)
  rw [Nat.add_sub_cancel_left] at hdrop
  have hmore := continuation_recut (ofCode_ne_carriageReturn (le_decode ha rest)) hdrop
  have hlength : firstLength a rest' = firstLength a rest := by
    rw [firstLength_eq, firstLength_eq, hdecode, hmore]
  simp only [readCluster, hdecode, hlength, htext]

/-! ### Commands -/

/-- A way of reading that depends on the bytes it uses up and, behind them, only on
where the line ends or a backslash stands; the offset matters for errors alone. -/
def Local (f : Nat → Bytes → Reading) : Prop :=
  ∀ ⦃offset s t⦄, (f offset s).result = .ok t →
    (f offset s).width ≤ s.length ∧
      ∀ ⦃s'⦄, Recut (f offset s).width s s' → ∀ offset', f offset' s' = f offset s

/-- Bytes in front that have been read before. -/
theorem Local.shift {f : Nat → Bytes → Reading} (hf : Local f) {offset k : Nat} {s : Bytes}
    {t : Token} (hk : k ≤ s.length) (h : (f offset (s.drop k)).result = .ok t) :
    ((f offset (s.drop k)).shift k).width ≤ s.length ∧
      ∀ ⦃s'⦄, Recut ((f offset (s.drop k)).shift k).width s s' → ∀ offset',
        (f offset' (s'.drop k)).shift k = (f offset (s.drop k)).shift k := by
  obtain ⟨hle, hsame⟩ := hf h
  rw [List.length_drop] at hle
  simp only [Reading.shift]
  refine ⟨by omega, fun s' hs offset' => ?_⟩
  have hdrop := hs.drop (Nat.le_add_right _ _) hk
  rw [Nat.add_sub_cancel_left] at hdrop
  rw [hsame hdrop]

/-- A name in braces, behind layout, with what follows the first brace. -/
structure NameAt (s rest : Bytes) : Prop where
  opened : s.drop (layout false s) = ascii '\x7b' :: rest
  name : rest.takeWhile Byte.isLetter ≠ []
  closed : startsWith (ascii '\x7d') (rest.drop (wordWidth rest)) = true

namespace NameAt

variable {s s' rest : Bytes}

theorem width_le (h : NameAt s rest) : layout false s + 1 + wordWidth rest + 1 ≤ s.length := by
  obtain ⟨r, hr⟩ := exists_cons_of_startsWith h.closed
  have hrest := congrArg List.length hr
  have hs := congrArg List.length h.opened
  simp only [List.length_drop, List.length_cons] at hrest hs
  omega

theorem readEnvironment (h : NameAt s rest) (token : Bytes → Token) (offset : Nat) :
    readEnvironment token offset s =
      ⟨.ok (token (rest.take (wordWidth rest))), layout false s + 1 + wordWidth rest + 1⟩ := by
  have hlen : (rest.take (wordWidth rest)).length = wordWidth rest :=
    List.length_take_of_le (wordWidth_le rest)
  have hname : (rest.takeWhile Byte.isLetter).isEmpty = false := by simpa using h.name
  have hclosed := h.closed
  unfold wordWidth at hlen hclosed ⊢
  simp only [Lexer.readEnvironment, h.opened, startsWith_self, hname, List.drop_succ_cons,
    List.drop_zero, hlen, hclosed, Bool.not_true, Bool.false_eq_true, if_false]

theorem recut (h : NameAt s rest) (hs : Recut (layout false s + 1 + wordWidth rest + 1) s s') :
    layout false s' = layout false s ∧ ∃ rest', NameAt s' rest' ∧
      wordWidth rest' = wordWidth rest ∧
      rest'.take (wordWidth rest) = rest.take (wordWidth rest) := by
  obtain ⟨hlayout, rest', hopened, hrest⟩ :=
    behind_layout_recut (n := wordWidth rest + 1) h.opened hs
  have hle := wordWidth_le rest
  obtain ⟨hname, hwidth⟩ := word_recut hrest (Nat.le_succ _)
  have hend := hrest.drop (Nat.le_succ _) hle
  refine ⟨hlayout, rest', ⟨hopened, ?_, ?_⟩, hwidth, hrest.take (Nat.le_succ _) hle⟩
  · rw [hname]
    exact h.name
  · rw [hwidth, startsWith_recut rfl hend (fun _ => by omega)]
    exact h.closed

end NameAt

theorem exists_nameAt {token : Bytes → Token} {offset : Nat} {s : Bytes} {t : Token}
    (h : (readEnvironment token offset s).result = .ok t) : ∃ rest, NameAt s rest := by
  simp only [readEnvironment] at h
  split at h
  · cases h
  next hopen =>
  split at h
  · cases h
  next hname =>
  split at h
  · cases h
  next hclose =>
  obtain ⟨rest, hrest⟩ := exists_cons_of_startsWith (by simpa using hopen)
  rw [hrest] at hname hclose
  refine ⟨rest, hrest, by simpa using hname, ?_⟩
  have hlen : (rest.take (wordWidth rest)).length = wordWidth rest :=
    List.length_take_of_le (wordWidth_le rest)
  have hclose : startsWith (ascii '\x7d') (rest.drop (rest.take (wordWidth rest)).length) = true :=
    Decidable.not_not.mp fun h => hclose (by simpa [wordWidth] using h)
  rwa [hlen] at hclose

theorem readEnvironment_local (token : Bytes → Token) : Local (readEnvironment token) := by
  intro offset s t h
  obtain ⟨rest, hname⟩ := exists_nameAt h
  rw [hname.readEnvironment]
  refine ⟨hname.width_le, fun s' hs offset' => ?_⟩
  obtain ⟨hlayout, rest', hname', hwidth, htake⟩ := hname.recut hs
  rw [hname'.readEnvironment, hlayout, hwidth, htake]

theorem readVerbatim_eq {s data : Bytes} {n : Nat}
    (hopen : s.drop (layout false s) = ascii '\x7b' :: data) (hraw : rawLength 0 data = .ok n)
    (kind : Bytes) (offset : Nat) : readVerbatim kind offset s =
      ⟨.ok (.verbatim kind (data.take n)), layout false s + 1 + n + 1⟩ := by
  have hdata : s.drop (layout false s + 1) = data := by
    rw [← List.drop_drop, hopen]
    rfl
  simp only [readVerbatim, hopen, startsWith_self, hdata, hraw, Bool.not_true, Bool.false_eq_true,
    if_false]

theorem exists_of_readVerbatim {kind : Bytes} {offset : Nat} {s : Bytes} {t : Token}
    (h : (readVerbatim kind offset s).result = .ok t) :
    ∃ data n, s.drop (layout false s) = ascii '\x7b' :: data ∧ rawLength 0 data = .ok n := by
  simp only [readVerbatim] at h
  split at h
  · cases h
  next hopen =>
  obtain ⟨data, hdata⟩ := exists_cons_of_startsWith (by simpa using hopen)
  rw [← List.drop_drop, hdata] at h
  cases hraw : rawLength 0 data with
  | ok n => exact ⟨data, n, hdata, hraw⟩
  | error n => simp [hraw] at h

theorem readVerbatim_local (kind : Bytes) : Local (readVerbatim kind) := by
  intro offset s t h
  obtain ⟨data, n, hopen, hraw⟩ := exists_of_readVerbatim h
  have hlen := congrArg List.length hopen
  have hlt := rawLength_lt hraw
  simp only [List.length_drop, List.length_cons] at hlen
  have hwidth : layout false s + 1 + n + 1 ≤ s.length := by omega
  rw [readVerbatim_eq hopen hraw]
  refine ⟨hwidth, fun s' hs offset' => ?_⟩
  obtain ⟨hlayout, data', hopen', hdata⟩ := behind_layout_recut (n := n + 1) hopen hs
  rw [readVerbatim_eq hopen' (rawLength_recut hdata hraw (Nat.le_refl n)), hlayout,
    hdata.take (Nat.le_succ n) (Nat.le_of_lt hlt)]

/-- What a command reads behind its name. -/
def readBehind (name : Bytes) (offset : Nat) (s : Bytes) : Reading :=
  if name == utf8 "begin" then readEnvironment .environmentBegin offset s
  else if name == utf8 "end" then readEnvironment .environmentEnd offset s
  else if Vocabulary.isVerbatim name then readVerbatim name offset s
  else ⟨.ok ((Vocabulary.command? name).getD (.command name)), 0⟩

theorem readBehind_local (name : Bytes) : Local (readBehind name) := by
  unfold readBehind
  split
  · exact readEnvironment_local _
  split
  · exact readEnvironment_local _
  split
  · exact readVerbatim_local name
  · intro offset s t _
    exact ⟨Nat.zero_le _, fun _ _ _ => rfl⟩

theorem readWord_eq (offset : Nat) (s : Bytes) : readWord offset s =
    (readBehind (s.takeWhile Byte.isLetter) (offset + wordWidth s) (s.drop (wordWidth s))).shift
      (wordWidth s) :=
  rfl

theorem readWord_local : Local readWord := by
  intro offset s t h
  rw [readWord_eq] at h ⊢
  obtain ⟨hle, hsame⟩ := (readBehind_local _).shift (wordWidth_le s) h
  refine ⟨hle, fun s' hs offset' => ?_⟩
  obtain ⟨hname, hwidth⟩ := word_recut hs (Nat.le_add_right _ _)
  rw [readWord_eq, hname, hwidth]
  exact hsame hs _

/-- A word has at least its first letter. -/
theorem readWord_width_pos {a : UInt8} (ha : Byte.isLetter a = true) (offset : Nat) (rest : Bytes) :
    0 < (readWord offset (a :: rest)).width := by
  have hword : 0 < wordWidth (a :: rest) := by
    rw [wordWidth, List.takeWhile_cons_of_pos ha, List.length_cons]
    omega
  exact Nat.add_pos_left hword _

theorem readBackslash_local : Local readBackslash := by
  intro offset s t h
  rcases s with - | ⟨a, rest⟩
  · cases h
  cases ha : Byte.isLetter a with
  | true =>
    simp only [readBackslash, ha, if_true] at h ⊢
    obtain ⟨hle, hsame⟩ := readWord_local h
    refine ⟨hle, fun s' hs offset' => ?_⟩
    rcases hs.cons_cases with ⟨hzero, -⟩ | ⟨hzero, -⟩ | ⟨rest', rfl, -⟩
    · exact absurd hzero (Nat.ne_of_gt (readWord_width_pos ha _ _))
    · exact absurd hzero (Nat.ne_of_gt (readWord_width_pos ha _ _))
    · simp only [ha, if_true]
      exact hsame hs _
  | false =>
    simp only [readBackslash, ha, Bool.false_eq_true, if_false]
    refine ⟨Nat.succ_le_succ (decode_width_le a rest), fun s' hs offset' => ?_⟩
    obtain ⟨rest', rfl, hrest⟩ := hs.cons
    simp only [ha, Bool.false_eq_true, if_false, decode_recut hrest (Nat.le_refl _)]

/-! ### Tokens -/

/-- Whether a number begins; a point does it only with a digit behind it, which is
then part of the number. -/
theorem number_recut {a : UInt8} {n : Nat} {rest rest' : Bytes} (h : Recut n rest rest')
    (hn : (rest.takeWhile isNumberByte).length ≤ n ∨
      (Byte.isDigit a || (a == ascii '.' && rest.head?.any Byte.isDigit)) = false) :
    (Byte.isDigit a || (a == ascii '.' && rest'.head?.any Byte.isDigit)) =
      (Byte.isDigit a || (a == ascii '.' && rest.head?.any Byte.isDigit)) := by
  cases ha : Byte.isDigit a with
  | true => rfl
  | false =>
    cases hpoint : a == ascii '.' with
    | false => rfl
    | true =>
      refine h.head?_any rfl fun hdigit => ?_
      rcases hn with hn | hn
      · cases rest with
        | nil => cases hdigit
        | cons b rest =>
          have hb : isNumberByte b = true := Bool.or_eq_true_iff.mpr (.inl hdigit)
          rw [List.takeWhile_cons_of_pos hb, List.length_cons] at hn
          omega
      · simp [ha, hpoint, hdigit] at hn

/-- **A token depends on its own bytes.**  It is read alike, in the same mode, when
the text is cut at the end of a line right behind it, when the text goes on behind
its own end with the end of a line, and when something else follows a backslash
behind it. -/
theorem read_recut {mode : Mode} {offset : Nat} {a : UInt8} {rest : Bytes} {t : Token}
    (h : (read mode offset a rest).result = .ok t) :
    (read mode offset a rest).width ≤ rest.length + 1 ∧
      ∀ ⦃rest'⦄, Recut ((read mode offset a rest).width - 1) rest rest' → ∀ offset',
        read mode offset' a rest' = read mode offset a rest := by
  -- What kind of token begins is told by its first byte, but for a point.
  unfold read at h ⊢
  by_cases hdigit : (mode == .digit && Byte.isDigit a) = true
  · simp only [if_pos hdigit]
    exact ⟨Nat.le_add_left _ _, fun _ _ _ => trivial⟩
  simp only [if_neg hdigit] at h ⊢
  by_cases hfence : (mode == .fence && a == ascii '.') = true
  · simp only [if_pos hfence]
    exact ⟨Nat.le_add_left _ _, fun _ _ _ => trivial⟩
  simp only [if_neg hfence] at h ⊢
  by_cases hbackslash : (a == ascii '\\') = true
  · simp only [if_pos hbackslash] at h ⊢
    obtain ⟨hle, hsame⟩ := readBackslash_local h
    simp only [Reading.shift, Nat.add_sub_cancel_left]
    refine ⟨by omega, fun rest' hr offset' => ?_⟩
    rw [hsame hr]
  simp only [if_neg hbackslash]
  by_cases hprime : (a == ascii '\'') = true
  · simp only [if_pos hprime]
    refine ⟨Nat.succ_le_succ (takeWhile_length_le _ _), fun rest' hr offset' => ?_⟩
    rw [hr.takeWhile rfl (Nat.le_refl _)]
  simp only [if_neg hprime]
  cases hnumber : Byte.isDigit a || (a == ascii '.' && rest.head?.any Byte.isDigit) with
  | true =>
    simp only [if_true]
    refine ⟨Nat.succ_le_succ (takeWhile_length_le _ _), fun rest' hr offset' => ?_⟩
    rw [number_recut hr (.inl (Nat.le_refl _)), hnumber, hr.takeWhile rfl (Nat.le_refl _)]
    rfl
  | false =>
    simp only [Bool.false_eq_true, if_false]
    by_cases hletter : Byte.isLetter a = true
    · simp only [if_pos hletter]
      refine ⟨Nat.le_add_left _ _, fun rest' hr offset' => ?_⟩
      rw [number_recut hr (.inr hnumber), hnumber]
      rfl
    simp only [if_neg hletter]
    by_cases hascii : Byte.isAscii a = true
    · simp only [if_pos hascii]
      refine ⟨Nat.le_add_left _ _, fun rest' hr offset' => ?_⟩
      rw [number_recut hr (.inr hnumber), hnumber]
      rfl
    · have ha : ¬a < 0x80 := by simpa [Byte.isAscii] using hascii
      simp only [if_neg hascii]
      refine ⟨firstLength_le a rest, fun rest' hr offset' => ?_⟩
      rw [number_recut hr (.inr hnumber), hnumber, readCluster_recut ha hr]
      rfl

end Lexer

end MathMarkup
