/-
MathMarkup/Proofs/Entries.lean

Definitions that are read back as they were written.  An `Entry` is a key with a value
and the way in which the two are written down: the value in one of the two quotes, with
a backslash in front of what would end or escape it, or bare where it can stand for
itself, and blanks around all of it.  Reading the entries of a list, one behind the other
with commas between them, always succeeds and gives each key the value of its last entry
(`parse?_written`).

Reading goes from comma to comma.  What has to be shown of one entry is therefore that
reading it leaves off right behind its own comma, whatever its value holds
(`pairs_text`); a list is then an induction.
-/
import MathMarkup.KeyValue
import MathMarkup.Proofs.Trimming
import MathMarkup.Proofs.Writes

namespace MathMarkup

namespace KeyValue

/-! ### Entries -/

/-- The quotes that a value may stand in. -/
inductive Quote
  | double
  | single
  deriving DecidableEq, Repr

/-- The byte of a quote. -/
def Quote.byte : Quote → UInt8
  | .double => ascii '"'
  | .single => ascii '\''

/-- A value as it stands in quotes. -/
def escape (quote : UInt8) (value : Bytes) : Bytes :=
  value.flatMap fun b => if b = quote ∨ b = ascii '\\' then [ascii '\\', b] else [b]

/-- A text that can be a key. -/
structure IsKey (key : Bytes) : Prop where
  nonempty : key ≠ []
  noEquals : ascii '=' ∉ key
  noComma : ascii ',' ∉ key
  trimmed : key.trim = key

/-- A value that can stand without quotes. -/
structure IsBare (value : Bytes) : Prop where
  noComma : ascii ',' ∉ value
  trimmed : value.trim = value
  noQuote : ∀ q : Quote, value.head? ≠ some q.byte

/-- A run of blanks: spaces, line feeds, tabs and carriage returns. -/
def AreBlanks (s : Bytes) : Prop :=
  ∀ b ∈ s, Byte.isSpace b = true

instance (s : Bytes) : Decidable (AreBlanks s) :=
  List.decidableBAll (fun b => Byte.isSpace b = true) s

/-- A key and a value with the way in which they are written. -/
structure Entry where
  key : Bytes
  value : Bytes
  /-- The quotes around the value, if it stands in any. -/
  quote : Option Quote
  beforeKey : Bytes
  afterKey : Bytes
  beforeValue : Bytes
  afterValue : Bytes
  isKey : IsKey key
  isBare : quote = none → IsBare value
  blanksBeforeKey : AreBlanks beforeKey
  blanksAfterKey : AreBlanks afterKey
  blanksBeforeValue : AreBlanks beforeValue
  blanksAfterValue : AreBlanks afterValue

namespace Entry

/-- The value as it is written. -/
def valueText (e : Entry) : Bytes :=
  match e.quote with
  | none => e.value
  | some q => q.byte :: (escape q.byte e.value ++ [q.byte])

/-- The key as it is written, up to the equals sign. -/
def keyText (e : Entry) : Bytes :=
  e.beforeKey ++ (e.key ++ e.afterKey)

/-- The whole entry as it is written. -/
def text (e : Entry) : Bytes :=
  e.keyText ++ ascii '=' :: (e.beforeValue ++ (e.valueText ++ e.afterValue))

/-- What an entry says. -/
def pair (e : Entry) : Bytes × Bytes :=
  (e.key, e.value)

end Entry

/-- Entries as they are written, with commas between them. -/
def written (es : List Entry) : Bytes :=
  Bytes.joinWith (utf8 ",") (es.map Entry.text)

/-! ### Values -/

/-- A value in quotes is read up to the quote that closes it. -/
theorem readQuoted_escape (q : Quote) (value behind : Bytes) :
    readQuoted q.byte (escape q.byte value ++ q.byte :: behind) = some (value, behind) := by
  have hslash : (ascii '\\' == q.byte) = false := by cases q <;> rfl
  induction value with
  | nil => cases behind <;> simp [escape, readQuoted]
  | cons b value ih =>
    obtain ⟨d, rest, hrest⟩ :=
      List.exists_cons_of_ne_nil (List.append_ne_nil_of_right_ne_nil (escape q.byte value)
        (List.cons_ne_nil q.byte behind))
    have hescape : escape q.byte (b :: value) =
        (if b = q.byte ∨ b = ascii '\\' then [ascii '\\', b] else [b]) ++ escape q.byte value :=
      List.flatMap_cons
    rw [hescape, List.append_assoc]
    split
    · next hb =>
      have htaken : (b == q.byte || b == ascii '\\') = true := by simpa using hb
      simp only [List.cons_append, List.nil_append, readQuoted, hslash, htaken, ih, Option.map_some,
        beq_self_eq_true, Bool.and_self, if_true, Bool.false_eq_true, if_false]
    · next hb =>
      obtain ⟨hquote, hbackslash⟩ := not_or.mp hb
      rw [List.singleton_append, hrest, readQuoted, ← hrest, ih]
      simp [hquote, hbackslash]

/-- What stands behind an entry: nothing, or a comma. -/
def EndsEntry (s : Bytes) : Prop :=
  ∀ b ∈ s.head?, b = ascii ','

theorem takeWhile_append_of_endsEntry {s behind : Bytes} (hs : ascii ',' ∉ s)
    (hbehind : EndsEntry behind) : (s ++ behind).takeWhile (· != ascii ',') = s := by
  have hall : ∀ b ∈ s, (b != ascii ',') = true := by
    intro b hb
    simpa using ne_of_mem_of_not_mem hb hs
  rw [List.takeWhile_append_of_pos hall]
  cases behind with
  | nil => exact List.append_nil s
  | cons b behind =>
    obtain rfl := hbehind b rfl
    exact List.append_nil s

theorem behindComma_append {s behind : Bytes} (hs : ascii ',' ∉ s) (hbehind : EndsEntry behind) :
    behindComma (s ++ behind) = behind.drop 1 := by
  have hall : ∀ b ∈ s, (b != ascii ',') = true := by
    intro b hb
    simpa using ne_of_mem_of_not_mem hb hs
  rw [behindComma, List.dropWhile_append_of_pos hall]
  cases behind with
  | nil => rfl
  | cons b behind =>
    obtain rfl := hbehind b rfl
    rfl

theorem AreBlanks.noComma {s : Bytes} (h : AreBlanks s) : ascii ',' ∉ s := by
  intro hmem
  cases h _ hmem

theorem dropWhile_blanks_append {blanks s : Bytes} (h : AreBlanks blanks)
    (hs : ∀ b ∈ s.head?, Byte.isSpace b = false) :
    (blanks ++ s).dropWhile Byte.isSpace = s := by
  rw [List.dropWhile_append_of_pos h]
  cases s with
  | nil => rfl
  | cons b s => rw [List.dropWhile_cons_of_neg (by simp [hs b rfl])]

theorem EndsEntry.not_isSpace {s : Bytes} (h : EndsEntry s) :
    ∀ b ∈ s.head?, Byte.isSpace b = false := by
  intro b hb
  obtain rfl := h b hb
  rfl

theorem readValue_of_quote {s rest : Bytes} (q : Quote)
    (h : s.dropWhile Byte.isSpace = q.byte :: rest) :
    readValue s = (readQuoted q.byte rest).map fun (value, behind) =>
      (value, behindComma behind) := by
  have hq : isQuote q.byte = true := by cases q <;> rfl
  simp only [readValue, h, hq, if_true]

theorem readValue_of_bare {s : Bytes}
    (h : ∀ q : Quote, (s.dropWhile Byte.isSpace).head? ≠ some q.byte) :
    readValue s = some (Bytes.trim ((s.dropWhile Byte.isSpace).takeWhile (· != ascii ',')),
      behindComma (s.dropWhile Byte.isSpace)) := by
  rw [readValue]
  cases hs : s.dropWhile Byte.isSpace with
  | nil => rfl
  | cons b rest =>
    have hb : isQuote b = false := by
      have hdouble : b ≠ ascii '"' := fun hb => h .double (by rw [hs, hb]; rfl)
      have hsingle : b ≠ ascii '\'' := fun hb => h .single (by rw [hs, hb]; rfl)
      simp [isQuote, hdouble, hsingle]
    simp only [hb, Bool.false_eq_true, if_false]

/-- A bare value with blanks around it. -/
theorem readValue_bare {value before after behind : Bytes} (hvalue : IsBare value)
    (hbefore : AreBlanks before) (hafter : AreBlanks after) (hbehind : EndsEntry behind) :
    readValue (before ++ (value ++ (after ++ behind))) = some (value, behind.drop 1) := by
  cases value with
  | nil =>
    -- Without a value all blanks are passed over at once, up to the comma.
    have hdrop : (before ++ ([] ++ (after ++ behind))).dropWhile Byte.isSpace = behind := by
      rw [List.nil_append, ← List.append_assoc]
      refine dropWhile_blanks_append ?_ hbehind.not_isSpace
      exact List.forall_mem_append.mpr ⟨hbefore, hafter⟩
    have hquote (q : Quote) : behind.head? ≠ some q.byte := by
      intro hq
      have hcomma := hbehind _ hq
      cases q <;> cases hcomma
    rw [readValue_of_bare (by simpa only [hdrop] using hquote), hdrop]
    have htake := takeWhile_append_of_endsEntry List.not_mem_nil hbehind
    have hdropped := behindComma_append List.not_mem_nil hbehind
    rw [List.nil_append] at htake hdropped
    rw [htake, hdropped, hvalue.trimmed]
  | cons b value =>
    have hdrop : (before ++ (b :: value ++ (after ++ behind))).dropWhile Byte.isSpace =
        b :: value ++ after ++ behind := by
      rw [List.append_assoc]
      refine dropWhile_blanks_append hbefore ?_
      rintro _ ⟨⟩
      exact Bytes.isSpace_of_trim hvalue.trimmed
    have hcomma : ascii ',' ∉ b :: value ++ after := by
      simp only [List.mem_append, not_or]
      exact ⟨hvalue.noComma, hafter.noComma⟩
    have hquote (q : Quote) : (b :: value ++ after ++ behind).head? ≠ some q.byte :=
      hvalue.noQuote q
    rw [readValue_of_bare (by simpa only [hdrop] using hquote), hdrop,
      takeWhile_append_of_endsEntry hcomma hbehind, behindComma_append hcomma hbehind]
    have htrim := Bytes.trim_pad (List.forall_mem_nil _) hafter (b :: value)
    rw [List.nil_append, hvalue.trimmed] at htrim
    rw [htrim]

/-- A value in quotes with blanks around it. -/
theorem readValue_quoted (q : Quote) (value : Bytes) {before after behind : Bytes}
    (hbefore : AreBlanks before) (hafter : AreBlanks after) (hbehind : EndsEntry behind) :
    readValue (before ++ (q.byte :: (escape q.byte value ++ q.byte :: (after ++ behind)))) =
      some (value, behind.drop 1) := by
  have hquote : Byte.isSpace q.byte = false := by cases q <;> rfl
  have hdrop := dropWhile_blanks_append hbefore
    (s := q.byte :: (escape q.byte value ++ q.byte :: (after ++ behind)))
    (by rintro _ ⟨⟩; exact hquote)
  rw [readValue_of_quote q hdrop, readQuoted_escape, ← behindComma_append hafter.noComma hbehind]
  rfl

/-- The value of an entry, read from behind the equals sign. -/
theorem Entry.readValue_eq (e : Entry) {behind : Bytes} (hbehind : EndsEntry behind) :
    readValue (e.beforeValue ++ (e.valueText ++ (e.afterValue ++ behind))) =
      some (e.value, behind.drop 1) := by
  cases hq : e.quote with
  | none =>
    simp only [valueText, hq]
    exact readValue_bare (e.isBare hq) e.blanksBeforeValue e.blanksAfterValue hbehind
  | some q =>
    simp only [valueText, hq, List.cons_append, List.append_assoc, List.nil_append]
    exact readValue_quoted q e.value e.blanksBeforeValue e.blanksAfterValue hbehind

/-! ### Lists of entries -/

theorem pairs_nil : pairs [] = some [] := by
  rw [pairs]
  rfl

/-- A key, the value behind it, and what follows the value. -/
theorem pairs_of_key {key rest value behind : Bytes} (hkey : ∀ b ∈ key, endsKey b = false)
    (hvalue : readValue rest = some (value, behind)) (htrim : key.trim ≠ []) :
    pairs (key ++ ascii '=' :: rest) = (pairs behind).map ((key.trim, value) :: ·) := by
  have htake : (key ++ ascii '=' :: rest).takeWhile (!endsKey ·) = key := by
    rw [List.takeWhile_append_of_pos (by simpa using hkey)]
    exact List.append_nil key
  have hdrop : (key ++ ascii '=' :: rest).drop key.length = ascii '=' :: rest := List.drop_left
  have hempty : key.trim.isEmpty = false := by simpa using htrim
  rw [pairs]
  simp only [htake]
  split
  · next hnil =>
    rw [htake, hdrop] at hnil
    cases hnil
  · next c later hcons =>
    rw [htake, hdrop] at hcons
    cases hcons
    have hequals : (ascii '=' == ascii ',') = false := rfl
    simp only [hequals, Bool.false_eq_true, if_false]
    split
    · next hnone =>
      rw [hvalue] at hnone
      cases hnone
    · next hsome =>
      rw [hvalue] at hsome
      cases hsome
      simp only [hempty, Bool.false_eq_true, if_false]

theorem Entry.trim_keyText (e : Entry) : e.keyText.trim = e.key := by
  rw [keyText, Bytes.trim_pad e.blanksBeforeKey e.blanksAfterKey, e.isKey.trimmed]

theorem Entry.not_endsKey_keyText (e : Entry) : ∀ b ∈ e.keyText, endsKey b = false := by
  have hblanks {s : Bytes} (h : AreBlanks s) : ∀ b ∈ s, endsKey b = false := by
    intro b hb
    have hspace := h b hb
    simp only [Byte.isSpace, Bool.or_eq_true, beq_iff_eq] at hspace
    rcases hspace with ((rfl | rfl) | rfl) | rfl <;> rfl
  have hkey : ∀ b ∈ e.key, endsKey b = false := by
    intro b hb
    have hequals := ne_of_mem_of_not_mem hb e.isKey.noEquals
    have hcomma := ne_of_mem_of_not_mem hb e.isKey.noComma
    simp [endsKey, hequals, hcomma]
  exact List.forall_mem_append.mpr ⟨hblanks e.blanksBeforeKey,
    List.forall_mem_append.mpr ⟨hkey, hblanks e.blanksAfterKey⟩⟩

/-- **One entry is read up to its own comma**, whatever its value holds. -/
theorem Entry.pairs_text (e : Entry) {behind : Bytes} (hbehind : EndsEntry behind) :
    pairs (e.text ++ behind) = (pairs (behind.drop 1)).map (e.pair :: ·) := by
  have htrim : e.keyText.trim ≠ [] := by
    rw [e.trim_keyText]
    exact e.isKey.nonempty
  have hread := pairs_of_key e.not_endsKey_keyText (e.readValue_eq hbehind) htrim
  rw [e.trim_keyText] at hread
  simpa only [text, pair, List.append_assoc, List.cons_append] using hread

/-- The entries of a list are read in their order; by induction on the list. -/
theorem pairs_written (es : List Entry) : pairs (written es) = some (es.map Entry.pair) := by
  induction es with
  | nil => exact pairs_nil
  | cons e es ih =>
    cases es with
    | nil =>
      have hnothing : EndsEntry [] := by
        rintro _ ⟨⟩
      have hlast := e.pairs_text hnothing
      rw [List.append_nil, List.drop_nil, pairs_nil] at hlast
      exact hlast
    | cons e' es =>
      have hjoin : written (e :: e' :: es) = e.text ++ ascii ',' :: written (e' :: es) := by
        simp only [written, List.map_cons, Bytes.joinWith, List.append_assoc]
        rfl
      rw [hjoin, e.pairs_text (by rintro _ ⟨⟩; rfl), List.drop_one, List.tail_cons, ih]
      rfl

/-- **Definitions are read back as they were written**, and of several values for one key
the last one counts.  No key is there that was not written. -/
theorem parse?_written (es : List Entry) :
    ∃ d, parse? (written es) = some d ∧
      ∀ k, d.find? k = Dictionary.lastWrite? k (es.map Entry.pair) := by
  refine ⟨Dictionary.empty.insertAll (es.map Entry.pair), ?_, fun k => ?_⟩
  · rw [parse?, pairs_written]
    rfl
  · rw [Dictionary.find?_insertAll, Dictionary.find?_empty, Option.or_none]

/-- A value that ends in a backslash behind a comma and a quote, one without a text, and a
bare one that replaces the first. -/
theorem parse?_written_replaced :
    let quoted : Entry :=
      { key := utf8 "a", value := utf8 "x, \"=\\", quote := some .double
        beforeKey := utf8 " ", afterKey := utf8 "\t", beforeValue := [], afterValue := utf8 "\n"
        isKey := ⟨by decide, by decide, by decide, by decide +kernel⟩
        isBare := by rintro ⟨⟩
        blanksBeforeKey := by decide, blanksAfterKey := by decide
        blanksBeforeValue := by decide, blanksAfterValue := by decide }
    let nothing : Entry :=
      { key := utf8 "b c", value := [], quote := none
        beforeKey := [], afterKey := [], beforeValue := utf8 " ", afterValue := utf8 " "
        isKey := ⟨by decide, by decide, by decide, by decide +kernel⟩
        isBare := fun _ => ⟨by decide, by decide +kernel, by rintro ⟨⟩ <;> decide⟩
        blanksBeforeKey := by decide, blanksAfterKey := by decide
        blanksBeforeValue := by decide, blanksAfterValue := by decide }
    let bare : Entry :=
      { quoted with
        value := utf8 "y=\"", quote := none
        isBare := fun _ => ⟨by decide, by decide +kernel, by rintro ⟨⟩ <;> decide⟩ }
    written [quoted, nothing, bare] = utf8 " a\t=\"x, \\\"=\\\\\"\n,b c=  , a\t=y=\"\n" ∧
      ∃ d, parse? (written [quoted, nothing, bare]) = some d ∧
        d.find? (utf8 "a") = some (utf8 "y=\"") ∧ d.find? (utf8 "b c") = some [] ∧
        d.find? (utf8 "x") = none := by
  intro quoted nothing bare
  obtain ⟨d, hparse, hfind⟩ := parse?_written [quoted, nothing, bare]
  refine ⟨by decide, d, hparse, ?_, ?_, ?_⟩ <;> rw [hfind] <;> decide

end KeyValue

end MathMarkup
