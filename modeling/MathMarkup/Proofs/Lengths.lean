/-
MathMarkup/Proofs/Lengths.lean

How lengths are written.  A `Length` is a number with a unit as it stands in a source: the
number is a `Numeral`, with at least one digit and with one behind every point, and
between it and the unit there may be a gap.  Reading accepts exactly the texts of lengths
(`exists_of_read?`), and reads each of them in the only way there is (`read?_text`), since
the number, the gap and the unit are made of different bytes.

A length is then refused only because its number is out of the range of single precision,
which is a matter of its size (`Binary32.ofDecimal?_eq_none_iff`) and not of its digits.
-/
import Mathlib.Tactic.FieldSimp
import MathMarkup.Measure
import MathMarkup.Proofs.Range

namespace MathMarkup

namespace Measure

/-! ### Numerals and lengths -/

/-- A decimal number as it is written: digits, or a point and digits, or one behind the
other, and in front of them possibly a minus sign. -/
structure Numeral where
  negative : Bool
  whole : Bytes
  fraction : Bytes
  wholeDigits : ∀ b ∈ whole, Byte.isDigit b = true
  fractionDigits : ∀ b ∈ fraction, Byte.isDigit b = true
  nonempty : whole ≠ [] ∨ fraction ≠ []

namespace Numeral

/-- The point and the digits behind it, if there are any. -/
def fractionText (n : Numeral) : Bytes :=
  if n.fraction.isEmpty then [] else ascii '.' :: n.fraction

/-- The digits and the point. -/
def unsigned (n : Numeral) : Bytes :=
  n.whole ++ n.fractionText

/-- The number as it is written. -/
def text (n : Numeral) : Bytes :=
  (if n.negative then utf8 "-" else []) ++ n.unsigned

/-- The number without its sign. -/
def magnitude (n : Numeral) : ℚ :=
  Bytes.digitsValue n.whole + Bytes.digitsValue n.fraction / 10 ^ n.fraction.length

end Numeral

/-- A length as it is written: a number, a gap, and a unit of small letters. -/
structure Length where
  number : Numeral
  gap : Bytes
  unit : Bytes
  gapBytes : ∀ b ∈ gap, isGap b = true
  unitLetters : ∀ b ∈ unit, Byte.isLower b = true

namespace Length

/-- What stands behind the number. -/
def tail (l : Length) : Bytes :=
  l.gap ++ l.unit

/-- The length as it is written. -/
def text (l : Length) : Bytes :=
  l.number.text ++ l.tail

/-- What is to be read of a length. -/
def parts (l : Length) : Parts :=
  ⟨l.number.negative, l.number.whole, l.number.fraction, l.unit⟩

end Length

/-! ### Runs of bytes -/

section Runs

variable {p : UInt8 → Bool} {run rest : Bytes}

/-- A run ends in front of a byte of another kind. -/
theorem takeWhile_run (hrun : ∀ b ∈ run, p b = true) (hrest : ∀ b ∈ rest.head?, p b = false) :
    (run ++ rest).takeWhile p = run := by
  rw [List.takeWhile_append_of_pos hrun]
  cases rest with
  | nil => exact List.append_nil run
  | cons b rest => simp [hrest b rfl]

theorem dropWhile_run (hrun : ∀ b ∈ run, p b = true) (hrest : ∀ b ∈ rest.head?, p b = false) :
    (run ++ rest).dropWhile p = rest := by
  rw [List.dropWhile_append_of_pos hrun]
  cases rest with
  | nil => rfl
  | cons b rest => simp [hrest b rfl]

end Runs

theorem isDigit_of_isGap {b : UInt8} (h : isGap b = true) : Byte.isDigit b = false := by
  simp only [isGap, Bool.or_eq_true, beq_iff_eq] at h
  rcases h with (((rfl | rfl) | rfl) | rfl) | rfl <;> rfl

theorem isDigit_of_isLower {b : UInt8} (h : Byte.isLower b = true) : Byte.isDigit b = false := by
  have ha : (ascii 'a').toNat = 97 := rfl
  have hnine : (ascii '9').toNat = 57 := rfl
  simp only [Byte.isLower, Bool.and_eq_true, decide_eq_true_eq, UInt8.le_iff_toNat_le] at h
  simp only [Byte.isDigit, Bool.and_eq_false_iff, decide_eq_false_iff_not, UInt8.le_iff_toNat_le]
  omega

theorem isGap_of_isLower {b : UInt8} (h : Byte.isLower b = true) : isGap b = false := by
  simp only [isGap, Bool.or_eq_false_iff, beq_eq_false_iff_ne]
  refine ⟨⟨⟨⟨?_, ?_⟩, ?_⟩, ?_⟩, ?_⟩ <;> rintro rfl <;> cases h

namespace Length

/-- Behind the number there is neither a digit nor a point. -/
theorem head?_tail (l : Length) :
    ∀ b ∈ l.tail.head?, Byte.isDigit b = false ∧ b ≠ ascii '.' := by
  have hgap {b : UInt8} (h : isGap b = true) : Byte.isDigit b = false ∧ b ≠ ascii '.' := by
    refine ⟨isDigit_of_isGap h, ?_⟩
    rintro rfl
    cases h
  have hlower {b : UInt8} (h : Byte.isLower b = true) :
      Byte.isDigit b = false ∧ b ≠ ascii '.' := by
    refine ⟨isDigit_of_isLower h, ?_⟩
    rintro rfl
    cases h
  intro b hb
  rcases List.mem_append.mp (List.mem_of_mem_head? hb) with hb | hb
  · exact hgap (l.gapBytes b hb)
  · exact hlower (l.unitLetters b hb)

theorem dropWhile_tail (l : Length) : l.tail.dropWhile isGap = l.unit := by
  refine dropWhile_run l.gapBytes ?_
  intro b hb
  exact isGap_of_isLower (l.unitLetters b (List.mem_of_mem_head? hb))

end Length

/-! ### Reading -/

/-- What is read behind the sign. -/
def readUnsigned (negative : Bool) (s : Bytes) : Option Parts :=
  let (fraction, t) := readFraction (s.dropWhile Byte.isDigit)
  if (s.takeWhile Byte.isDigit).isEmpty && fraction.isEmpty || !(t.dropWhile isGap).all Byte.isLower
  then none
  else some ⟨negative, s.takeWhile Byte.isDigit, fraction, t.dropWhile isGap⟩

theorem read?_minus (s : Bytes) : read? (ascii '-' :: s) = readUnsigned true s :=
  rfl

theorem read?_of_head? {s : Bytes} (h : s.head? ≠ some (ascii '-')) :
    read? s = readUnsigned false s := by
  unfold read?
  split
  next negative t heq =>
  split at heq
  · exact absurd rfl h
  · obtain ⟨rfl, rfl⟩ := Prod.mk.inj heq
    rfl

/-- The digits behind a point are read up to the gap, and none without a point. -/
theorem readFraction_append (n : Numeral) {rest : Bytes}
    (hrest : ∀ b ∈ rest.head?, Byte.isDigit b = false ∧ b ≠ ascii '.') :
    readFraction (n.fractionText ++ rest) = (n.fraction, rest) := by
  cases hfraction : n.fraction with
  | nil =>
    have htext : n.fractionText = [] := by rw [Numeral.fractionText, hfraction]; rfl
    rw [htext, List.nil_append]
    unfold readFraction
    split
    · exact absurd rfl (hrest _ rfl).2
    · rfl
  | cons d ds =>
    have htext : n.fractionText = ascii '.' :: d :: ds := by
      rw [Numeral.fractionText, hfraction]
      rfl
    have hdigits : ∀ b ∈ d :: ds, Byte.isDigit b = true := hfraction ▸ n.fractionDigits
    have hstop : ∀ b ∈ rest.head?, Byte.isDigit b = false := fun b hb => (hrest b hb).1
    have hread : readFraction (ascii '.' :: (d :: ds ++ rest)) =
        ((d :: ds ++ rest).takeWhile Byte.isDigit, (d :: ds ++ rest).dropWhile Byte.isDigit) :=
      if_pos (hdigits d List.mem_cons_self)
    rw [htext, List.cons_append, hread, takeWhile_run hdigits hstop, dropWhile_run hdigits hstop]

/-- The part behind the sign of a length. -/
theorem readUnsigned_text (l : Length) :
    readUnsigned l.number.negative (l.number.unsigned ++ l.tail) = some l.parts := by
  have hstop : ∀ b ∈ (l.number.fractionText ++ l.tail).head?, Byte.isDigit b = false := by
    intro b hb
    cases hfraction : l.number.fraction with
    | nil =>
      rw [Numeral.fractionText, hfraction] at hb
      exact (l.head?_tail b hb).1
    | cons d ds =>
      rw [Numeral.fractionText, hfraction] at hb
      obtain rfl := Option.some.inj hb
      rfl
  have hwhole : (l.number.unsigned ++ l.tail).takeWhile Byte.isDigit = l.number.whole := by
    rw [Numeral.unsigned, List.append_assoc, takeWhile_run l.number.wholeDigits hstop]
  have hrest : readFraction ((l.number.unsigned ++ l.tail).dropWhile Byte.isDigit) =
      (l.number.fraction, l.tail) := by
    rw [Numeral.unsigned, List.append_assoc, dropWhile_run l.number.wholeDigits hstop,
      readFraction_append l.number l.head?_tail]
  have hdigits : (l.number.whole.isEmpty && l.number.fraction.isEmpty) = false := by
    rcases l.number.nonempty with h | h <;> simp [h]
  have hunit : l.unit.all Byte.isLower = true := List.all_eq_true.mpr l.unitLetters
  simp [readUnsigned, hwhole, hrest, hdigits, l.dropWhile_tail, hunit, Length.parts]

/-- A number starts with a digit or a point. -/
theorem Numeral.head?_unsigned (n : Numeral) :
    ∃ b rest, n.unsigned = b :: rest ∧ (Byte.isDigit b = true ∨ b = ascii '.') := by
  cases hwhole : n.whole with
  | cons d ds =>
    exact ⟨d, ds ++ n.fractionText, by rw [unsigned, hwhole]; rfl,
      .inl (n.wholeDigits d (by rw [hwhole]; exact List.mem_cons_self))⟩
  | nil =>
    have hfraction : n.fraction.isEmpty = false := by
      simpa [hwhole] using n.nonempty
    exact ⟨ascii '.', n.fraction, by simp [unsigned, fractionText, hwhole, hfraction], .inr rfl⟩

/-- **A length is read as it was written**, and so it can be split in one way only. -/
theorem read?_text (l : Length) : read? l.text = some l.parts := by
  rw [← readUnsigned_text]
  cases hnegative : l.number.negative with
  | true =>
    have htext : l.text = ascii '-' :: (l.number.unsigned ++ l.tail) := by
      rw [Length.text, Numeral.text, hnegative]
      rfl
    rw [htext, read?_minus]
  | false =>
    have htext : l.text = l.number.unsigned ++ l.tail := by
      rw [Length.text, Numeral.text, hnegative]
      rfl
    obtain ⟨b, rest, hunsigned, hb⟩ := l.number.head?_unsigned
    rw [htext, read?_of_head?]
    rw [hunsigned]
    rintro ⟨⟩
    rcases hb with hb | hb <;> cases hb

/-- The text of a length tells all of it. -/
theorem Length.text_injective {l l' : Length} (h : l.text = l'.text) : l = l' := by
  have hparts : l.parts = l'.parts :=
    Option.some.inj ((read?_text l).symm.trans ((congrArg read? h).trans (read?_text l')))
  obtain ⟨⟨negative, whole, fraction, _, _, _⟩, gap, unit, _, _⟩ := l
  obtain ⟨⟨negative', whole', fraction', _, _, _⟩, gap', unit', _, _⟩ := l'
  obtain ⟨rfl, rfl, rfl, rfl⟩ := Parts.mk.inj hparts
  obtain rfl : gap = gap' := List.append_cancel_right (List.append_cancel_left h)
  rfl

/-- What is read of a fraction stood there. -/
theorem readFraction_spec {s fraction t : Bytes} (h : readFraction s = (fraction, t)) :
    s = (if fraction.isEmpty then [] else ascii '.' :: fraction) ++ t ∧
      ∀ b ∈ fraction, Byte.isDigit b = true := by
  have hnothing (h : (([], s) : Bytes × Bytes) = (fraction, t)) :
      s = (if fraction.isEmpty then [] else ascii '.' :: fraction) ++ t ∧
        ∀ b ∈ fraction, Byte.isDigit b = true := by
    obtain ⟨rfl, rfl⟩ := Prod.mk.inj h
    exact ⟨rfl, List.forall_mem_nil _⟩
  unfold readFraction at h
  split at h
  · next d t' =>
    split at h
    · next hd =>
      obtain ⟨rfl, rfl⟩ := Prod.mk.inj h
      have hempty : ((d :: t').takeWhile Byte.isDigit).isEmpty = false := by
        rw [List.takeWhile_cons_of_pos hd]
        rfl
      refine ⟨?_, List.all_eq_true.mp List.all_takeWhile⟩
      rw [hempty, if_neg Bool.false_ne_true, List.cons_append, List.takeWhile_append_dropWhile]
      rfl
    · exact hnothing h
  · exact hnothing h

/-- What is read of a length behind its sign stood there. -/
theorem exists_of_readUnsigned {negative : Bool} {s : Bytes} {p : Parts}
    (h : readUnsigned negative s = some p) :
    ∃ l : Length, l.number.negative = negative ∧ l.number.unsigned ++ l.tail = s ∧
      l.parts = p := by
  unfold readUnsigned at h
  obtain ⟨fraction, t, hfraction⟩ : ∃ fraction t,
      readFraction (s.dropWhile Byte.isDigit) = (fraction, t) := ⟨_, _, rfl⟩
  obtain ⟨hrest, hdigits⟩ := readFraction_spec hfraction
  rw [hfraction] at h
  dsimp only at h
  split at h
  · cases h
  · next hfine =>
    obtain rfl := Option.some.inj h
    simp only [Bool.or_eq_true, Bool.and_eq_true, List.isEmpty_iff, Bool.not_eq_true', not_or,
      not_and_or, Bool.not_eq_false, List.all_eq_true] at hfine
    refine ⟨⟨⟨negative, s.takeWhile Byte.isDigit, fraction, List.all_eq_true.mp List.all_takeWhile,
      hdigits, hfine.1⟩, t.takeWhile isGap, t.dropWhile isGap,
      List.all_eq_true.mp List.all_takeWhile, hfine.2⟩, rfl, ?_, rfl⟩
    simp only [Length.tail, List.takeWhile_append_dropWhile, Numeral.unsigned, Numeral.fractionText,
      List.append_assoc, ← hrest]

/-- **Only lengths are read.** -/
theorem exists_of_read? {s : Bytes} {p : Parts} (h : read? s = some p) :
    ∃ l : Length, l.text = s ∧ l.parts = p := by
  by_cases hs : s.head? = some (ascii '-')
  · obtain ⟨t, rfl⟩ := List.head?_eq_some_iff.mp hs
    rw [read?_minus] at h
    obtain ⟨l, hnegative, htext, hparts⟩ := exists_of_readUnsigned h
    refine ⟨l, ?_, hparts⟩
    rw [Length.text, Numeral.text, hnegative, ← htext]
    rfl
  · rw [read?_of_head? hs] at h
    obtain ⟨l, hnegative, htext, hparts⟩ := exists_of_readUnsigned h
    refine ⟨l, ?_, hparts⟩
    rw [Length.text, Numeral.text, hnegative, ← htext]
    rfl

/-! ### Values -/

/-- The number of digits in a row. -/
theorem digitsValue_append (s t : Bytes) :
    Bytes.digitsValue (s ++ t) = Bytes.digitsValue s * 10 ^ t.length + Bytes.digitsValue t := by
  have hfrom (n : Nat) (t : Bytes) :
      t.foldl (fun n b => n * 10 + Byte.digitValue b) n =
        n * 10 ^ t.length + Bytes.digitsValue t := by
    induction t generalizing n with
    | nil => simp [Bytes.digitsValue]
    | cons b t ih =>
      simp only [Bytes.digitsValue, List.foldl_cons, List.length_cons]
      rw [ih, ih (0 * 10 + _), Nat.pow_succ]
      ring
  rw [Bytes.digitsValue, List.foldl_append, hfrom]
  rfl

namespace Numeral

/-- The decimal of a number. -/
def decimal (n : Numeral) : Decimal :=
  .ofParts n.whole n.fraction

theorem value_decimal (n : Numeral) : n.decimal.value = n.magnitude := by
  simp only [decimal, Decimal.ofParts, Decimal.value, magnitude, digitsValue_append, zpow_neg,
    zpow_natCast]
  push_cast
  field_simp

/-- A number is read by itself as what it is. -/
theorem parse?_unsigned (n : Numeral) : Decimal.parse? n.unsigned = some n.decimal := by
  have hstop : ∀ b ∈ n.fractionText.head?, Byte.isDigit b = false := by
    intro b hb
    unfold fractionText at hb
    split at hb
    · cases hb
    · obtain rfl := Option.some.inj hb
      rfl
  have hwhole : n.unsigned.takeWhile Byte.isDigit = n.whole := takeWhile_run n.wholeDigits hstop
  have hdrop : n.unsigned.drop n.whole.length = n.fractionText := List.drop_left
  have hdigits : (n.whole.isEmpty && n.fraction.isEmpty) = false := by
    rcases n.nonempty with h | h <;> simp [h]
  simp only [Decimal.parse?, hwhole, hdrop]
  cases hfraction : n.fraction with
  | nil =>
    have hempty : n.whole.isEmpty = false := by simpa [hfraction] using n.nonempty
    simp only [fractionText, hfraction, List.isEmpty_nil, if_true, hempty, Bool.false_and,
      Bool.false_eq_true, if_false, decimal]
  | cons d ds =>
    have hdigits : ∀ b ∈ d :: ds, Byte.isDigit b = true := hfraction ▸ n.fractionDigits
    have htext : n.fractionText = 0x2E :: (d :: ds) := by simp [fractionText, hfraction, ascii]
    have hend : ∀ b ∈ ([] : Bytes).head?, Byte.isDigit b = false := by
      rintro _ ⟨⟩
    have htake := takeWhile_run hdigits hend
    have hdropped := dropWhile_run hdigits hend
    rw [List.append_nil] at htake hdropped
    simp only [htext, htake, hdropped, List.isEmpty_cons, Bool.and_false, Bool.false_eq_true,
      if_false, decimal, hfraction]

theorem parse?_text (n : Numeral) :
    Binary32.parse? n.text = some (Binary32.ofDecimal n.negative n.decimal) := by
  obtain ⟨b, rest, hunsigned, hb⟩ := n.head?_unsigned
  have hnan : (n.unsigned == utf8 "NaN") = false := by
    rw [hunsigned, beq_eq_false_iff_ne]
    rintro ⟨⟩
    rcases hb with hb | hb <;> cases hb
  have hinf : (n.unsigned == utf8 "Inf") = false := by
    rw [hunsigned, beq_eq_false_iff_ne]
    rintro ⟨⟩
    rcases hb with hb | hb <;> cases hb
  have hunsignedText (negative : Bool) :
      (if n.unsigned == utf8 "NaN" then some Binary32.nan
        else if n.unsigned == utf8 "Inf" then some (.infinite negative)
        else (Decimal.parse? n.unsigned).map (Binary32.ofDecimal negative)) =
      some (Binary32.ofDecimal negative n.decimal) := by
    simp only [hnan, hinf, Bool.false_eq_true, if_false, parse?_unsigned, Option.map_some]
  unfold Binary32.parse? text
  cases n.negative with
  | true => exact hunsignedText true
  | false =>
    rw [← hunsignedText false]
    rw [if_neg Bool.false_ne_true, List.nil_append]
    split
    next negative t heq =>
    split at heq
    · next u hu =>
      rw [hunsigned] at hu
      obtain ⟨rfl, -⟩ := List.cons.inj hu
      rcases hb with hb | hb <;> cases hb
    · next u hu =>
      rw [hunsigned] at hu
      obtain ⟨rfl, -⟩ := List.cons.inj hu
      rcases hb with hb | hb <;> cases hb
    · obtain ⟨rfl, rfl⟩ := Prod.mk.inj heq
      rfl

end Numeral

theorem Length.number_parts (l : Length) : l.parts.number = l.number.text := by
  rw [Parts.number, List.append_assoc]
  rfl

/-- A length whose number is in the range. -/
theorem parse_eq_ok {raw : Bytes} {l : Length} (h : l.text = raw.trim) {x : Binary32}
    (hx : Binary32.ofDecimal? l.number.negative l.number.decimal = some x) :
    parse raw = .ok (x, l.unit) := by
  rw [Numeral.decimal] at hx
  simp only [parse, ← h, read?_text, Length.parts, hx]

/-- A length whose number is out of the range. -/
theorem parse_eq_outOfRange {raw : Bytes} {l : Length} (h : l.text = raw.trim)
    (hx : Binary32.ofDecimal? l.number.negative l.number.decimal = none) :
    parse raw = .error (.outOfRange l.number.text) := by
  rw [Numeral.decimal] at hx
  simp only [parse, ← h, read?_text, ← l.number_parts, Length.parts, hx]

/-- **Lengths are what can be read.**  A text is refused as no length exactly if it is none
without the white space around it.  A length is refused only if its number is out of the
range of single precision, which begins half way between the greatest number and
`2 ^ 128`.  Otherwise its number is the part in front of the gap, its unit the letters at
the end, and there is only one way to split it so. -/
theorem parse_lengths (raw : Bytes) :
    (parse raw = .error .unreadable ↔ ¬∃ l : Length, l.text = raw.trim) ∧
      Fault.unreadable.message = utf8 "unable to parse measurement" ∧
      ∀ l : Length, l.text = raw.trim →
        ((2 ^ 128 - 2 ^ 103 : ℚ) ≤ l.number.magnitude →
          parse raw = .error (.outOfRange l.number.text)) ∧
        (l.number.magnitude < 2 ^ 128 - 2 ^ 103 →
          ∃ x, parse raw = .ok (x, l.unit) ∧ Binary32.parse? l.number.text = some x) ∧
        ∀ l' : Length, l'.text = raw.trim → l' = l := by
  have hdecimal (l : Length) := Binary32.ofDecimal?_eq_none_iff l.number.negative l.number.decimal
  simp only [Numeral.value_decimal] at hdecimal
  refine ⟨⟨?_, ?_⟩, rfl, fun l hl => ⟨?_, ?_, ?_⟩⟩
  · rintro herror ⟨l, hl⟩
    cases hx : Binary32.ofDecimal? l.number.negative l.number.decimal with
    | none => rw [parse_eq_outOfRange hl hx] at herror; cases herror
    | some x => rw [parse_eq_ok hl hx] at herror; cases herror
  · intro hnone
    cases hread : read? raw.trim with
    | none => rw [parse, hread]
    | some p =>
      obtain ⟨l, hl, -⟩ := exists_of_read? hread
      exact absurd ⟨l, hl⟩ hnone
  · intro hrange
    exact parse_eq_outOfRange hl ((hdecimal l).mpr hrange)
  · intro hrange
    obtain ⟨x, hx⟩ := Option.ne_none_iff_exists'.mp (mt (hdecimal l).mp (not_le.mpr hrange))
    refine ⟨x, parse_eq_ok hl hx, ?_⟩
    rw [l.number.parse?_text, Binary32.ofDecimal, hx]
    rfl
  · intro l' hl'
    exact Length.text_injective (hl'.trans hl.symm)

/-- A number without a whole part, and the least number that is out of the range. -/
theorem parse_lengths_limit :
    let least := utf8 "340282356779733661637539395458142568448"
    (∃ x, parse (utf8 " -.5\t em\n") = .ok (x, utf8 "em") ∧
      Binary32.parse? (utf8 "-.5") = some x) ∧
    parse (least ++ utf8 "pt") = .error (.outOfRange least) := by
  intro least
  let half : Length :=
    { number :=
        { negative := true, whole := [], fraction := utf8 "5"
          wholeDigits := List.forall_mem_nil _
          fractionDigits := List.all_eq_true.mp (by decide), nonempty := .inr (by decide) }
      gap := utf8 "\t ", unit := utf8 "em", gapBytes := List.all_eq_true.mp (by decide)
      unitLetters := List.all_eq_true.mp (by decide) }
  let huge : Length :=
    { number :=
        { negative := false, whole := least, fraction := []
          wholeDigits := List.all_eq_true.mp (by decide +kernel)
          fractionDigits := List.forall_mem_nil _, nonempty := .inl (by decide) }
      gap := [], unit := utf8 "pt", gapBytes := List.forall_mem_nil _
      unitLetters := List.all_eq_true.mp (by decide) }
  have hhalf : half.number.magnitude < 2 ^ 128 - 2 ^ 103 := by
    have hvalue : half.number.magnitude = (0 : Nat) + (5 : Nat) / 10 ^ 1 := rfl
    rw [hvalue]
    norm_num
  have hhuge : (2 ^ 128 - 2 ^ 103 : ℚ) ≤ huge.number.magnitude := by
    have hwhole : Bytes.digitsValue least = 2 ^ 128 - 2 ^ 103 := by decide +kernel
    have hvalue : huge.number.magnitude = (Bytes.digitsValue least : ℚ) + (0 : Nat) / 10 ^ 0 := rfl
    rw [hvalue, hwhole]
    norm_num
  obtain ⟨-, -, hlength⟩ := parse_lengths (utf8 " -.5\t em\n")
  obtain ⟨-, -, hlength'⟩ := parse_lengths (least ++ utf8 "pt")
  exact ⟨(hlength half (by decide +kernel)).2.1 hhalf, (hlength' huge (by decide +kernel)).1 hhuge⟩

end Measure

end MathMarkup
