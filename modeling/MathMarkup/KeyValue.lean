/-
MathMarkup/KeyValue.lean

Definitions written as `key=value, key=value`.  White space around keys and
bare values is dropped.  A value in double or single quotes may hold commas and
white space; in it a backslash lets the quote and the backslash itself stand for
themselves, and what follows the closing quote up to the next comma is ignored.
Parts without `=` or without a key mean nothing, and of two values for one key
the later counts.  The only thing that can be wrong is a quote that is never
closed.
-/
import MathMarkup.Dictionary
import MathMarkup.Text.Blank

namespace MathMarkup

namespace KeyValue

/-- The value up to the closing quote and the text behind it; `none` if there is
no closing quote. -/
def readQuoted (quote : UInt8) : Bytes → Option (Bytes × Bytes)
  | [] => none
  | [c] => if c == quote then some ([], []) else none
  | c :: d :: rest =>
    if c == quote then some ([], d :: rest)
    else if c == ascii '\\' && (d == quote || d == ascii '\\') then
      (readQuoted quote rest).map fun (value, behind) => (d :: value, behind)
    else (readQuoted quote (d :: rest)).map fun (value, behind) => (c :: value, behind)

/-- The text behind the next comma. -/
def behindComma (s : Bytes) : Bytes :=
  (s.dropWhile (· != ascii ',')).drop 1

/-- Whether a byte is a quote. -/
def isQuote (b : UInt8) : Bool :=
  b == ascii '"' || b == ascii '\''

/-- A value and the text behind the comma after it. -/
def readValue (s : Bytes) : Option (Bytes × Bytes) :=
  let bare (s : Bytes) : Option (Bytes × Bytes) :=
    some (Bytes.trim (s.takeWhile (· != ascii ',')), behindComma s)
  match s.dropWhile Byte.isSpace with
  | [] => bare []
  | q :: rest =>
    if isQuote q then (readQuoted q rest).map fun (value, behind) => (value, behindComma behind)
    else bare (q :: rest)

theorem readQuoted_length {quote : UInt8} {s value behind : Bytes}
    (h : readQuoted quote s = some (value, behind)) : behind.length ≤ s.length := by
  fun_induction readQuoted quote s generalizing value behind with
  | case1 => simp at h
  | case2 c =>
    obtain ⟨-, rfl⟩ := by simpa using h
    simp
  | case3 => simp at h
  | case4 c d rest =>
    obtain ⟨-, rfl⟩ := by simpa using h
    simp
  | case5 c d rest _ _ ih =>
    obtain ⟨⟨v, b⟩, hv, he⟩ := Option.map_eq_some_iff.mp h
    obtain ⟨-, rfl⟩ := by simpa using he
    have := ih hv
    simp only [List.length_cons]
    omega
  | case6 c d rest _ _ ih =>
    obtain ⟨⟨v, b⟩, hv, he⟩ := Option.map_eq_some_iff.mp h
    obtain ⟨-, rfl⟩ := by simpa using he
    have := ih hv
    simp only [List.length_cons] at this ⊢
    omega

theorem behindComma_length (s : Bytes) : (behindComma s).length ≤ s.length := by
  have := (List.dropWhile_sublist (l := s) (p := (· != ascii ','))).length_le
  simp only [behindComma, List.length_drop]
  omega

theorem readValue_length {s value behind : Bytes} (h : readValue s = some (value, behind)) :
    behind.length ≤ s.length := by
  have hsub := (List.dropWhile_sublist (l := s) (p := Byte.isSpace)).length_le
  simp only [readValue] at h
  split at h
  · obtain ⟨-, rfl⟩ := by simpa using h
    simp [behindComma]
  · next q rest heq =>
    rw [heq] at hsub
    split at h
    · obtain ⟨⟨v, b⟩, hv, he⟩ := Option.map_eq_some_iff.mp h
      obtain ⟨-, rfl⟩ := by simpa using he
      have h1 := readQuoted_length hv
      have h2 := behindComma_length b
      simp only [List.length_cons] at hsub
      omega
    · obtain ⟨-, rfl⟩ := by simpa using h
      exact Nat.le_trans (behindComma_length _) hsub

/-- A byte that ends a key. -/
def endsKey (b : UInt8) : Bool :=
  b == ascii '=' || b == ascii ','

/-- The definitions of a text in order, `none` if a quote is never closed. -/
def pairs (s : Bytes) : Option (List (Bytes × Bytes)) :=
  let key := s.takeWhile (!endsKey ·)
  match _hs : s.drop key.length with
  | [] => some []
  | c :: rest =>
    if c == ascii ',' then pairs rest
    else
      match _hv : readValue rest with
      | none => none
      | some (value, behind) =>
        let key := Bytes.trim key
        (pairs behind).map fun more => if key.isEmpty then more else (key, value) :: more
termination_by s.length
decreasing_by
  · have := congrArg List.length _hs
    simp only [List.length_drop, List.length_cons] at this
    omega
  · have := congrArg List.length _hs
    have := readValue_length _hv
    simp only [List.length_drop, List.length_cons] at *
    omega

/-- What is said about a quote that is never closed. -/
def unterminated : Bytes :=
  utf8 "quoted value is not terminated"

/-- The definitions of a text, `none` if a quote is never closed. -/
def parse? (s : Bytes) : Option (Dictionary Bytes) :=
  (pairs s).map Dictionary.empty.insertAll

end KeyValue

end MathMarkup
