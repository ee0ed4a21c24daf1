/-
MathMarkup/Proofs/Compiled.lean

Compiled markup can be read back.  Of the three strings that are written as
attribute values as they stand, the alignment and the lines of a table come
from column specifications, of which only letters and bars survive.  The size
of an operator comes from a token, and the only tokens with a size are those of
the sizing commands; so the first part is about what a scanner can find.  It
never finds a command under a name that the vocabulary reserves.
-/
import MathMarkup.Proofs.Lowered

namespace MathMarkup

open Reader (IsValue)

/-! ### Reserved names -/

/-- The bytes of a character start with a byte of ASCII only if that is all of
them.  A code that is no character's counts as zero. -/
theorem Utf8.eq_nil_of_encode {code : Nat} {b : UInt8} {rest : Bytes}
    (h : encode code = b :: rest) (hb : b < 0x80) : rest = [] ∧ (code = b.toNat ∨ b = 0) := by
  have hlarge (n : Nat) (hn : 128 ≤ n % 256) : ¬ UInt8.ofNat n < 0x80 := by
    simpa [UInt8.lt_iff_toNat_lt] using hn
  simp only [encode, String.utf8EncodeChar] at h
  split at h
  · next hv =>
    obtain ⟨rfl, rfl⟩ := List.cons.inj h
    refine ⟨rfl, ?_⟩
    by_cases hvalid : code.isValidChar
    · left
      have hcode : (Char.ofNat code).val.toNat = code := by
        rw [Char.ofNat, dif_pos hvalid]
        rfl
      rw [hcode] at hv ⊢
      exact (UInt8.toNat_ofNat_of_lt' (Nat.lt_of_le_of_lt hv (by decide))).symm
    · right
      simp [Char.ofNat, hvalid]
  · -- A longer encoding starts with a byte that is not ASCII.
    exfalso
    split at h
    · obtain ⟨rfl, -⟩ := List.cons.inj h
      exact hlarge _ (by omega) hb
    split at h
    · obtain ⟨rfl, -⟩ := List.cons.inj h
      exact hlarge _ (by omega) hb
    · obtain ⟨rfl, -⟩ := List.cons.inj h
      exact hlarge _ (by omega) hb

namespace Vocabulary

/-- The commands with a raw argument, and those around environments. -/
def rawNames : List Bytes :=
  [utf8 "text", utf8 "mbox", utf8 "hspace", utf8 "begin", utf8 "end"]

/-- The characters that a backslash turns into an operator or a line break. -/
def specials : List Bytes :=
  [utf8 "\\", utf8 "#", utf8 "$", utf8 "%", utf8 "&", utf8 "_"]

/-- The names of commands that have a meaning whatever a table says. -/
def reserved : List Bytes :=
  commands.map Prod.fst ++ (rawNames ++ specials)

/-- A name is not reserved if it is neither in the vocabulary nor one of the
others. -/
theorem not_mem_reserved {name : Bytes} (hcommand : command? name = none)
    (hother : name ∉ rawNames ++ specials) : name ∉ reserved := by
  intro hmem
  rcases List.mem_append.mp hmem with hmem | hmem
  · obtain ⟨entry, hentry, rfl⟩ := List.mem_map.mp hmem
    have hne := List.lookup_eq_none_iff.mp hcommand entry hentry
    simp at hne
  · exact hother hmem

/-- The spaces written with other characters are left to a table. -/
theorem space_not_mem_reserved :
    ∀ name ∈ [utf8 " ", utf8 "nobreakspace"], name ∉ reserved := by
  decide +kernel

theorem not_mem_reserved_of_word {name : Bytes} (hletters : ∀ b ∈ name, Byte.isLetter b = true)
    (hbegin : name ≠ utf8 "begin") (hend : name ≠ utf8 "end") (hraw : isVerbatim name = false)
    (hcommand : command? name = none) : name ∉ reserved := by
  have hspecials : ∀ s ∈ specials, s.all Byte.isLetter = false := by decide
  refine not_mem_reserved hcommand fun hmem => ?_
  rcases List.mem_append.mp hmem with hmem | hmem
  · simp only [isVerbatim, Bool.or_eq_false_iff, beq_eq_false_iff_ne] at hraw
    simp only [rawNames, List.mem_cons, List.not_mem_nil, or_false] at hmem
    rcases hmem with h | h | h | h | h
    · exact hraw.1.1 h
    · exact hraw.1.2 h
    · exact hraw.2 h
    · exact hbegin h
    · exact hend h
  · have hall := hspecials name hmem
    rw [List.all_eq_true.mpr hletters] at hall
    cases hall

theorem not_mem_reserved_of_encode {code : Nat} (hbreak : code ≠ '\\'.toNat)
    (hoperator : isEscapedOperator code = false) (hcommand : command? (Utf8.encode code) = none) :
    Utf8.encode code ∉ reserved := by
  -- The other reserved names are in ASCII, and the short ones are what the tests are for.
  have hothers : ∀ s ∈ rawNames ++ specials, s.headD 0 < 0x80 ∧ s.headD 0 ≠ 0 ∧
      (s.length = 1 → (s.headD 0).toNat = '\\'.toNat ∨
        isEscapedOperator (s.headD 0).toNat = true) := by decide
  refine not_mem_reserved hcommand fun hmem => ?_
  obtain ⟨hascii, hzero, hshort⟩ := hothers _ hmem
  cases hname : Utf8.encode code with
  | nil => exact String.utf8EncodeChar_ne_nil hname
  | cons b rest =>
    rw [hname] at hascii hzero hshort
    obtain ⟨rfl, rfl | rfl⟩ := Utf8.eq_nil_of_encode hname hascii
    · rcases hshort rfl with h | h
      · exact hbreak h
      · rw [List.headD_cons, hoperator] at h
        cases h
    · exact hzero rfl

end Vocabulary

/-! ### Tokens of a source -/

/-- A token that a scanner finds was read. -/
theorem Scanner.exists_read_of_next {s s' : Scanner} {t : Token} {offset : Nat}
    (h : s.next = (.token t, offset, s')) :
    ∃ a rest, (Lexer.read s.mode offset a rest).result = .ok t := by
  simp only [Scanner.next] at h
  split at h
  · simp at h
  · next a rest _ =>
    split at h
    · next u hread =>
      simp only [Prod.mk.injEq, Found.token.injEq] at h
      obtain ⟨rfl, rfl, -⟩ := h
      exact ⟨a, rest, hread⟩
    · simp at h

/-- What is true of every token that can be read is true of all tokens of a
source. -/
theorem Scanner.forall_mem_lexemes {p : Token → Prop}
    (h : ∀ mode offset a rest t, (Lexer.read mode offset a rest).result = .ok t → p t)
    (s : Scanner) : ∀ l ∈ s.lexemes.list, p l.token := by
  fun_induction Scanner.lexemes s with
  | case1 s t offset s' hnext later ih =>
    obtain ⟨a, rest, hread⟩ := exists_read_of_next hnext
    exact List.forall_mem_cons.mpr ⟨h _ _ _ _ _ hread, ih⟩
  | case2 | case3 => exact List.forall_mem_nil _

/-- The tokens that can be read: those that characters stand for, and the
commands of the vocabulary. -/
inductive Token.Readable : Token → Prop
  | letter (text : Bytes) : Readable (.letter text)
  | number (text : Bytes) : Readable (.number text)
  | operator (text : Bytes) : Readable (.operator text)
  | delimiter (glyph : Bytes) : Readable (.delimiter glyph)
  | prime (count : Nat) : Readable (.prime count)
  | script (op : Script) : Readable (.script op)
  | command {name : Bytes} : name ∉ Vocabulary.reserved → Readable (.command name)
  | groupBegin : Readable .groupBegin
  | groupEnd : Readable .groupEnd
  | cellBreak : Readable .cellBreak
  | lineBreak : Readable .lineBreak
  | environmentBegin (name : Bytes) : Readable (.environmentBegin name)
  | environmentEnd (name : Bytes) : Readable (.environmentEnd name)
  | verbatim {kind : Bytes} (data : Bytes) : Vocabulary.isVerbatim kind = true →
      Readable (.verbatim kind data)
  | vocabulary {entry : Bytes × Token} : entry ∈ Vocabulary.commands → Readable entry.2

namespace Lexer

open Token (Readable)

theorem readable_of_ok {u t : Token} (hu : Readable u)
    (h : (Except.ok u : Except Error Token) = .ok t) : Readable t :=
  Except.ok.inj h ▸ hu

theorem readable_of_command? {name : Bytes} {t : Token}
    (h : Vocabulary.command? name = some t) : Readable t := by
  obtain ⟨before, after, hsplit, -⟩ := List.lookup_eq_some_iff.mp h
  have hmem : (name, t) ∈ Vocabulary.commands := by
    rw [hsplit]
    simp
  exact .vocabulary hmem

theorem readable_ite {c : Prop} [Decidable c] {t u : Token} (ht : Readable t) (hu : Readable u) :
    Readable (if c then t else u) := by
  split
  · exact ht
  · exact hu

theorem readable_symbol (b : UInt8) : Readable (Vocabulary.symbol b) := by
  have hspace := Vocabulary.space_not_mem_reserved (utf8 "nobreakspace") (by simp)
  unfold Vocabulary.symbol
  repeat' apply readable_ite
  all_goals constructor
  exact hspace

theorem readable_escaped (code : Nat) : Readable (escaped code) := by
  have hspace := Vocabulary.space_not_mem_reserved (utf8 " ") (by simp)
  unfold escaped
  dsimp only
  split
  · exact .lineBreak
  next hbreak =>
  split
  · exact .operator _
  next hoperator =>
  split
  · next t ht => exact readable_of_command? ht
  · next hname =>
    refine .command ?_
    split
    · exact hspace
    · exact Vocabulary.not_mem_reserved_of_encode (by simpa using hbreak)
        (Bool.not_eq_true _ ▸ hoperator) hname

theorem readable_of_readEnvironment {token : Bytes → Token} {offset : Nat} {s : Bytes}
    {t : Token} (htoken : ∀ name, Readable (token name))
    (h : (readEnvironment token offset s).result = .ok t) : Readable t := by
  simp only [readEnvironment] at h
  split at h
  · cases h
  split at h
  · cases h
  split at h
  · cases h
  · exact readable_of_ok (htoken _) h

theorem readable_of_readVerbatim {kind : Bytes} {offset : Nat} {s : Bytes} {t : Token}
    (hkind : Vocabulary.isVerbatim kind = true)
    (h : (readVerbatim kind offset s).result = .ok t) : Readable t := by
  simp only [readVerbatim] at h
  split at h
  · cases h
  split at h
  · exact readable_of_ok (.verbatim _ hkind) h
  · cases h

theorem readable_of_readWord {offset : Nat} {s : Bytes} {t : Token}
    (h : (readWord offset s).result = .ok t) : Readable t := by
  simp only [readWord, Reading.shift] at h
  split at h
  · exact readable_of_readEnvironment .environmentBegin h
  next hbegin =>
  split at h
  · exact readable_of_readEnvironment .environmentEnd h
  next hend =>
  split at h
  · next hkind => exact readable_of_readVerbatim hkind h
  next hkind =>
  obtain rfl := Except.ok.inj h
  cases hname : Vocabulary.command? (s.takeWhile Byte.isLetter) with
  | some t => exact readable_of_command? hname
  | none =>
    have hletters : ∀ b ∈ s.takeWhile Byte.isLetter, Byte.isLetter b = true :=
      List.all_eq_true.mp List.all_takeWhile
    exact .command (Vocabulary.not_mem_reserved_of_word hletters (by simpa using hbegin)
      (by simpa using hend) (by simpa using hkind) hname)

theorem readable_of_readBackslash {offset : Nat} {s : Bytes} {t : Token}
    (h : (readBackslash offset s).result = .ok t) : Readable t := by
  cases s with
  | nil => cases h
  | cons a rest =>
    simp only [readBackslash] at h
    split at h
    · exact readable_of_readWord h
    · exact readable_of_ok (readable_escaped _) h

/-- What is read is a token that can be read. -/
theorem readable_of_read {mode : Mode} {offset : Nat} {a : UInt8} {rest : Bytes} {t : Token}
    (h : (read mode offset a rest).result = .ok t) : Readable t := by
  unfold read at h
  -- The tests in the order in which reading makes them.
  split at h
  · exact readable_of_ok (.number _) h
  split at h
  · exact readable_of_ok (.operator _) h
  split at h
  · exact readable_of_readBackslash h
  split at h
  · exact readable_of_ok (.prime _) h
  split at h
  · exact readable_of_ok (.number _) h
  split at h
  · exact readable_of_ok (.letter _) h
  split at h
  · exact readable_of_ok (readable_symbol a) h
  · refine readable_of_ok ?_ h
    split
    · exact .letter _
    · exact .operator _

end Lexer

/-- All tokens of a source can be read. -/
theorem readable_of_mem_lexemes (source : Bytes) :
    ∀ l ∈ (Lexemes.ofSource source).list, l.token.Readable :=
  (Scanner.start source).forall_mem_lexemes fun _ _ _ _ _ => Lexer.readable_of_read

/-- Whether a token has a raw argument. -/
def Token.isRaw : Token → Bool
  | .verbatim _ _ => true
  | _ => false

/-- Raw arguments are those of a few commands only. -/
theorem Token.Readable.isVerbatim {kind data : Bytes} (h : (Token.verbatim kind data).Readable) :
    Vocabulary.isVerbatim kind = true := by
  have hall : ∀ entry ∈ Vocabulary.commands, entry.2.isRaw = false := by decide +kernel
  generalize ht : Token.verbatim kind data = t at h
  cases h with
  | verbatim _ hkind =>
    cases ht
    exact hkind
  | vocabulary hmem =>
    have hraw := hall _ hmem
    rw [← ht] at hraw
    cases hraw
  | _ => cases ht

/-- The name of a command that is left to a table. -/
def Token.commandName? : Token → Option Bytes
  | .command name => some name
  | _ => none

theorem Token.eq_of_commandName? {t : Token} {name : Bytes} (h : t.commandName? = some name) :
    t = .command name := by
  cases t with
  | command name' => rw [Option.some.inj h]
  | _ => cases h

/-- Reserved names are not left to a table. -/
theorem Token.Readable.not_mem_reserved {name : Bytes} (h : (Token.command name).Readable) :
    name ∉ Vocabulary.reserved := by
  have hall : ∀ entry ∈ Vocabulary.commands, entry.2.commandName? = none := by decide +kernel
  generalize ht : Token.command name = t at h
  cases h with
  | command hname =>
    cases ht
    exact hname
  | vocabulary hmem =>
    have hnone := hall _ hmem
    rw [← ht] at hnone
    cases hnone
  | _ => cases ht

/-- The size that a token sets, if any. -/
def Token.size : Token → Bytes
  | .big size => size
  | _ => []

/-- Only a command of the vocabulary has a size, and it can stand between
quotes. -/
theorem Token.Readable.isValue_size {t : Token} (h : t.Readable) : IsValue t.size := by
  have hall : ∀ entry ∈ Vocabulary.commands, IsValue entry.2.size := by decide +kernel
  cases h with
  | vocabulary hmem => exact hall _ hmem
  | _ => exact List.forall_mem_nil _

/-- The sizes in a source can stand between quotes. -/
theorem isValue_size_of_mem_lexemes (source : Bytes) :
    ∀ l ∈ (Lexemes.ofSource source).list, IsValue l.token.size :=
  fun l hl => (readable_of_mem_lexemes source l hl).isValue_size

/-! ### Compiled markup -/

namespace Markup

theorem hasPlainValues_missing : HasPlainValues .missing :=
  hasPlainValues_iff.mpr ⟨trivial, List.forall_mem_nil _⟩

/-- All constructions of lowering keep attribute values plain. -/
theorem keeps_hasPlainValues :
    Lowering.Keeps (fun t => IsValue t.size) HasPlainValues where
  identifier _ _ := hasPlainValues_iff.mpr ⟨trivial, List.forall_mem_nil _⟩
  number _ := hasPlainValues_iff.mpr ⟨trivial, List.forall_mem_nil _⟩
  text _ := hasPlainValues_iff.mpr ⟨trivial, List.forall_mem_nil _⟩
  space _ := hasPlainValues_iff.mpr ⟨trivial, List.forall_mem_nil _⟩
  operator _ form h := by
    refine hasPlainValues_iff.mpr ⟨?_, List.forall_mem_nil _⟩
    show IsValue form.size
    rcases h with h | h
    · rw [h]
      exact List.forall_mem_nil _
    · exact h
  respelled _ _ _ h :=
    hasPlainValues_iff.mpr ⟨(hasPlainValues_iff.mp h).1, List.forall_mem_nil _⟩
  lineBreak := hasPlainValues_iff.mpr ⟨trivial, List.forall_mem_nil _⟩
  cellBreak _ := hasPlainValues_iff.mpr ⟨trivial, List.forall_mem_nil _⟩
  name _ := hasPlainValues_iff.mpr ⟨trivial, List.forall_mem_nil _⟩
  function _ _ _ h := hasPlainValues_iff.mpr ⟨trivial, h⟩
  row _ _ h := hasPlainValues_iff.mpr ⟨trivial, h⟩
  superscript _ _ hb hs := hasPlainValues_iff.mpr ⟨trivial, by simp [children, hb, hs]⟩
  subscript _ _ hb hs := hasPlainValues_iff.mpr ⟨trivial, by simp [children, hb, hs]⟩
  subSup _ _ _ hb hs hs' := hasPlainValues_iff.mpr ⟨trivial, by simp [children, hb, hs, hs']⟩
  overscript _ _ _ hb ha := hasPlainValues_iff.mpr ⟨trivial, by simp [children, hb, ha]⟩
  underscript _ _ _ hb hu := hasPlainValues_iff.mpr ⟨trivial, by simp [children, hb, hu]⟩
  underOverscript _ _ _ _ _ hb hu ha :=
    hasPlainValues_iff.mpr ⟨trivial, by simp [children, hb, hu, ha]⟩
  squareRoot _ hb :=
    hasPlainValues_iff.mpr ⟨trivial, by simp [children, hb, hasPlainValues_missing]⟩
  radical _ _ hb hi := hasPlainValues_iff.mpr ⟨trivial, by simp [children, hb, hi]⟩
  fraction _ _ _ hn hd := hasPlainValues_iff.mpr ⟨trivial, by simp [children, hn, hd]⟩
  fenced _ _ _ h := hasPlainValues_iff.mpr ⟨trivial, by simp [children, h]⟩
  styled _ _ h := hasPlainValues_iff.mpr ⟨trivial, by simp [children, h]⟩
  table _ _ _ ha hl h := hasPlainValues_iff.mpr ⟨⟨ha, hl⟩, h⟩

theorem hasPlainValues_of_compile {table : Table} {source : Bytes} {m : Markup}
    (h : compile table source = .ok m) : m.HasPlainValues := by
  obtain ⟨ms, rfl, hms⟩ :=
    exists_root_of_compile keeps_hasPlainValues (isValue_size_of_mem_lexemes source) h
  exact hasPlainValues_iff.mpr ⟨trivial, hms⟩

/-- **Rendered markup can be read back.**  For every tree whose attribute values
can stand between quotes, whatever its texts are, rendering hands everything
over to whoever has the room, and a reader of what it wrote finds the elements
that the tree stands for.  All compiled markup is of this kind. -/
theorem rendered_reads_back :
    (∀ m : Markup, m.HasPlainValues →
      (∀ room, m.render.length ≤ room → m.renderWithin room = (m.render, true)) ∧
        Reader.read m.render = some m.elements) ∧
      ∀ table source m, compile table source = .ok m → m.HasPlainValues := by
  refine ⟨fun m hm => ⟨fun room hroom => renderWithin_of_le hroom, read_render_eq hm⟩, ?_⟩
  intro table source m h
  exact hasPlainValues_of_compile h

/-- Texts that look like tags and references: in a table between delimiters, and
from a source and a definition. -/
theorem rendered_reads_back_tags :
    (let m : Markup := .fenced (utf8 "<") (utf8 "\"")
      (.table [.text (utf8 "</mtext>&lt;"), .cellBreak,
          .operator (utf8 "&") { size := utf8 "1.2em" }]
        (utf8 "left") [])
    m.HasPlainValues ∧ Reader.read m.render = some m.elements) ∧
      ∃ m, compile (Table.empty.addOperator (utf8 "tag") (utf8 "</mo>"))
          (utf8 "\\text\x7b</mtext>\x7d\\tag\\big|") = .ok m ∧
        Reader.read m.render = some m.elements := by
  have keeps := keeps_hasPlainValues
  constructor
  · intro m
    have hm : m.HasPlainValues := by
      refine keeps.fenced _ _ _ (keeps.table _ _ _ (by decide) (by decide) ?_)
      rintro c (_ | ⟨_, _ | ⟨_, _ | ⟨_, ⟨⟩⟩⟩⟩)
      · exact keeps.text _
      · exact keeps.cellBreak (by decide)
      · exact keeps.operator _ _ (.inr (by decide))
    exact ⟨hm, (rendered_reads_back.1 m hm).2⟩
  · obtain ⟨m, hm⟩ := exists_ok_of_isOk
      (r := compile (Table.empty.addOperator (utf8 "tag") (utf8 "</mo>"))
        (utf8 "\\text\x7b</mtext>\x7d\\tag\\big|")) (by decide +kernel)
    have hplain : m.HasPlainValues := rendered_reads_back.2 _ _ m hm
    exact ⟨m, hm, (rendered_reads_back.1 m hplain).2⟩

end Markup

end MathMarkup
