/-
MathMarkup/Proofs/Prepended.lean

Which characters of ASCII are part of a token that begins outside of ASCII.  Such a
token is a cluster, and almost nothing of ASCII can join a cluster: a control character
is always one by itself, and any other character starts a new cluster, unless the
character in front of it is one that joins what follows it (`joins_of_lt`).  Behind a
character of ASCII only marks can follow.  So a cluster that begins outside of ASCII has
at most one byte of ASCII, and it has one exactly if it begins with nothing but
characters that join what follows them and such a byte comes next (`Hides`).

The cluster is followed rune by rune.  As long as all characters have been such that
join what follows, a byte of ASCII may still come (`countP_of_prepend`); from the first
other one on it may not (`countP_of_ne_prepend`).
-/
import MathMarkup.Proofs.Tiling
import MathMarkup.Proofs.Trimming

namespace MathMarkup

namespace Cluster

/-! ### Characters that join what follows -/

/-- A character of ASCII that is no control character. -/
abbrev IsPlain (code : Nat) : Prop :=
  0x20 ≤ code ∧ code < 0x7F

/-- The text begins with the characters `ps`, each of which joins what follows it, and
goes on with a character of ASCII that is no control character. -/
def Leads (ps : List Rune) (s : Bytes) : Prop :=
  (∀ p ∈ ps, ClusterClass.ofCode p.code = .prepend) ∧
    ∃ r rs, Utf8.runes s = ps ++ r :: rs ∧ IsPlain r.code

/-- The text begins with a character that joins what follows it, or several, and these
are followed by a character of ASCII that is no control character. -/
def Hides (s : Bytes) : Prop :=
  ∃ p ps, Leads (p :: ps) s

section

variable {a : UInt8} {rest : Bytes}

theorem leads_nil_iff : Leads [] (a :: rest) ↔ IsPlain (Utf8.decode a rest).1 := by
  rw [Leads, Utf8.runes]
  constructor
  · rintro ⟨-, r, rs, hrunes, hr⟩
    obtain ⟨rfl, -⟩ := List.cons.inj hrunes
    exact hr
  · intro hr
    exact ⟨List.forall_mem_nil _, _, _, rfl, hr⟩

theorem leads_cons_iff {p : Rune} {ps : List Rune} :
    Leads (p :: ps) (a :: rest) ↔ p = Utf8.first a rest ∧ ClusterClass.ofCode p.code = .prepend ∧
      Leads ps (rest.drop (Utf8.decode a rest).2) := by
  rw [Leads, Leads, Utf8.runes, List.forall_mem_cons]
  constructor
  · rintro ⟨⟨hp, hps⟩, r, rs, hrunes, hr⟩
    obtain ⟨rfl, hrest⟩ := List.cons.inj hrunes
    exact ⟨rfl, hp, hps, r, rs, hrest, hr⟩
  · rintro ⟨rfl, hp, hps, r, rs, hrest, hr⟩
    exact ⟨⟨hp, hps⟩, r, rs, congrArg _ hrest, hr⟩

theorem hides_cons_iff : Hides (a :: rest) ↔
    ClusterClass.ofCode (Utf8.decode a rest).1 = .prepend ∧
      ∃ ps, Leads ps (rest.drop (Utf8.decode a rest).2) := by
  constructor
  · rintro ⟨p, ps, h⟩
    obtain ⟨rfl, hp, hps⟩ := leads_cons_iff.mp h
    exact ⟨hp, ps, hps⟩
  · rintro ⟨hp, ps, hps⟩
    exact ⟨_, ps, leads_cons_iff.mpr ⟨rfl, hp, hps⟩⟩

theorem exists_leads_cons_iff : (∃ ps, Leads ps (a :: rest)) ↔
    IsPlain (Utf8.decode a rest).1 ∨ Hides (a :: rest) := by
  constructor
  · rintro ⟨- | ⟨p, ps⟩, h⟩
    · exact .inl (leads_nil_iff.mp h)
    · exact .inr ⟨p, ps, h⟩
  · rintro (h | ⟨p, ps, h⟩)
    · exact ⟨[], leads_nil_iff.mpr h⟩
    · exact ⟨p :: ps, h⟩

theorem not_exists_leads_nil : ¬ ∃ ps, Leads ps [] := by
  rintro ⟨ps, -, r, rs, hrunes, -⟩
  rw [Utf8.runes] at hrunes
  exact List.append_ne_nil_of_right_ne_nil _ (List.cons_ne_nil _ _) hrunes.symm

end

/-! ### Joining -/

/-- A number below all ranges is in none of them. -/
theorem contains_of_lt {rs : Ranges} {low n : Nat} (hrs : rs.all (low ≤ ·.1) = true)
    (hn : n < low) : rs.contains n = false := by
  rw [Ranges.contains, List.any_eq_false]
  intro range hrange
  have hlow : low ≤ range.1 := of_decide_eq_true (List.all_eq_true.mp hrs range hrange)
  simp only [Bool.and_eq_true, decide_eq_true_eq, not_and, Nat.not_le]
  omega

/-- Which characters of ASCII are control characters, line ends apart. -/
theorem controlRanges_contains {code : Nat} (h : code < 0x80) (hreturn : code ≠ 0x0D)
    (hfeed : code ≠ 0x0A) :
    ClusterClass.controlRanges.contains code = !decide (IsPlain code) := by
  revert code
  decide +kernel

/-- A character of ASCII is a control character, or it is of no special kind. -/
theorem ofCode_of_lt {code : Nat} (h : code < 0x80) :
    IsPlain code ∧ ClusterClass.ofCode code = .other ∨
      ¬ IsPlain code ∧ Tail.isBreak (ClusterClass.ofCode code) = true := by
  by_cases hreturn : code = 0x0D
  · subst hreturn
    exact .inr ⟨by decide, rfl⟩
  by_cases hfeed : code = 0x0A
  · subst hfeed
    exact .inr ⟨by decide, rfl⟩
  have hother {n : Nat} (hn : code ≠ n) : (code == n) = false := beq_eq_false_iff_ne.mpr hn
  have hbelow (low high : Nat) (hlow : 0x80 ≤ low) :
      (decide (low ≤ code) && decide (code ≤ high)) = false := by
    rw [decide_eq_false (by omega), Bool.false_and]
  have hnone (rs : Ranges) (hrs : rs.all (0x80 ≤ ·.1) = true) : rs.contains code = false :=
    contains_of_lt hrs h
  -- All tables but that of the control characters begin behind ASCII.
  have hclass : ClusterClass.ofCode code =
      if !decide (IsPlain code) then .control else .other := by
    simp only [ClusterClass.ofCode, hother hreturn, hother hfeed,
      hother (n := 0x200D) (by omega), hbelow 0x1F1E6 0x1F1FF (by decide),
      hbelow 0xAC00 0xD7A3 (by decide),
      hnone ClusterClass.hangulLRanges (by decide +kernel),
      hnone ClusterClass.hangulVRanges (by decide +kernel),
      hnone ClusterClass.hangulTRanges (by decide +kernel),
      hnone ClusterClass.extendRanges (by decide +kernel),
      hnone ClusterClass.prependRanges (by decide +kernel),
      hnone ClusterClass.spacingMarkRanges (by decide +kernel),
      hnone ClusterClass.pictographicRanges (by decide +kernel),
      controlRanges_contains h hreturn hfeed, Bool.false_eq_true, if_false]
  rw [hclass]
  by_cases hcode : IsPlain code
  · rw [decide_eq_true hcode]
    exact .inl ⟨hcode, rfl⟩
  · rw [decide_eq_false hcode]
    exact .inr ⟨hcode, rfl⟩

variable {t : Tail}

theorem joins_other (t : Tail) : t.joins .other = (t.last == .prepend) := by
  obtain ⟨last, pictograph, tied, halfFlag⟩ := t
  cases last <;> rfl

theorem joins_prepend (t : Tail) : t.joins .prepend = (t.last == .prepend) := by
  obtain ⟨last, pictograph, tied, halfFlag⟩ := t
  cases last <;> rfl

theorem joins_of_isBreak {c : ClusterClass} (ht : t.last ≠ .carriageReturn)
    (hc : Tail.isBreak c = true) : t.joins c = false := by
  obtain ⟨last, pictograph, tied, halfFlag⟩ := t
  cases c with
  | lineFeed => exact Lexer.joins_lineFeed ht
  | carriageReturn | control => cases last <;> rfl
  | _ => cases hc

/-- What of ASCII joins a cluster: all but control characters, behind a character that
joins what follows it. -/
theorem joins_of_lt {code : Nat} (h : code < 0x80) (ht : t.last ≠ .carriageReturn) :
    t.joins (.ofCode code) = true ↔ t.last = .prepend ∧ IsPlain code := by
  rcases ofCode_of_lt h with ⟨hcode, hclass⟩ | ⟨hcode, hclass⟩
  · rw [hclass, joins_other, beq_iff_eq]
    exact ⟨fun hlast => ⟨hlast, hcode⟩, fun h => h.1⟩
  · rw [joins_of_isBreak ht hclass]
    exact ⟨fun h => (Bool.false_ne_true h).elim, fun h => absurd h.2 hcode⟩

end Cluster

/-! ### Bytes of a character -/

/-- A character outside of ASCII has no byte of ASCII. -/
theorem Utf8.isAscii_of_mem_decode {a b : UInt8} {rest : Bytes}
    (h : b ∈ rest.take (decode a rest).2) : Byte.isAscii b = false := by
  by_contra hb
  have hb : b < 0x80 := by simpa [Byte.isAscii] using hb
  obtain ⟨x, y, hxy⟩ := List.append_of_mem h
  -- The character would end in front of the byte.
  have hrest : rest = x ++ b :: (y ++ rest.drop (decode a rest).2) := by
    rw [← List.cons_append, ← List.append_assoc, ← hxy, List.take_append_drop]
  have hwidth : (decode a rest).2 ≤ x.length := by
    rw [hrest, decode_append_of_lt hb]
    exact Lexer.decode_width_le a x
  have hlength := congrArg List.length hxy
  rw [List.length_take, List.length_append, List.length_cons] at hlength
  omega

namespace Cluster

/-- A cluster is its first rune and what joins this. -/
theorem take_rune (a : UInt8) (rest : Bytes) (extra n : Nat) :
    (a :: rest).take (extra + 1 + n) = (a :: rest.take extra) ++ (rest.drop extra).take n := by
  rw [List.take_add, List.take_succ_cons, List.drop_succ_cons]

/-- A rune has one byte of ASCII if it is a character of ASCII, and else none. -/
theorem countP_rune (a : UInt8) (rest : Bytes) :
    (a :: rest.take (Utf8.decode a rest).2).countP Byte.isAscii =
      if Byte.isAscii a then 1 else 0 := by
  have hlater : (rest.take (Utf8.decode a rest).2).countP Byte.isAscii = 0 :=
    List.countP_eq_zero.mpr fun b hb => by simp [Utf8.isAscii_of_mem_decode hb]
  rw [List.countP_cons, hlater, Nat.zero_add]

theorem decode_lt_iff (a : UInt8) (rest : Bytes) :
    (Utf8.decode a rest).1 < 0x80 ↔ Byte.isAscii a = true := by
  rw [Byte.isAscii, decide_eq_true_eq]
  constructor
  · intro h
    by_contra ha
    exact Nat.not_lt_of_le (Lexer.le_decode ha rest) h
  · intro ha
    simp only [Utf8.decode, ha, if_true]
    exact UInt8.lt_iff_toNat_lt.mp ha

/-- Behind any other character there is no more ASCII; by induction on the runes of the
cluster. -/
theorem countP_of_ne_prepend {t : Tail} {s : Bytes} (hprepend : t.last ≠ .prepend)
    (hreturn : t.last ≠ .carriageReturn) :
    (s.take (continuation t s)).countP Byte.isAscii = 0 := by
  fun_induction continuation t s with
  | case1 t => rfl
  | case2 t a rest c hjoins ih =>
    have hc : c ≠ .prepend := by
      intro hc
      rw [hc, joins_prepend, beq_iff_eq] at hjoins
      exact hprepend hjoins
    have ha : Byte.isAscii a = false := by
      rw [Bool.eq_false_iff, Ne, ← decode_lt_iff a rest]
      intro hlt
      exact hprepend ((joins_of_lt hlt hreturn).mp hjoins).1
    rw [take_rune, List.countP_append, countP_rune, ha,
      ih hc (Lexer.push_ne_carriageReturn hjoins)]
    rfl
  | case3 t a rest c hjoins => rfl

/-- Behind characters that join what follows them there may be one byte of ASCII; by
induction on the runes of the cluster. -/
theorem countP_of_prepend {t : Tail} {s : Bytes} (hprepend : t.last = .prepend) :
    (∃ ps, Leads ps s) ∧ (s.take (continuation t s)).countP Byte.isAscii = 1 ∨
      (¬ ∃ ps, Leads ps s) ∧ (s.take (continuation t s)).countP Byte.isAscii = 0 := by
  have hreturn : t.last ≠ .carriageReturn := by simp [hprepend]
  fun_induction continuation t s with
  | case1 t => exact .inr ⟨not_exists_leads_nil, rfl⟩
  | case2 t a rest c hjoins ih =>
    have hpush := Lexer.push_ne_carriageReturn hjoins
    rw [take_rune, List.countP_append, countP_rune, exists_leads_cons_iff, hides_cons_iff]
    cases ha : Byte.isAscii a with
    | true =>
      -- The byte joins, and behind it there is no other one.
      have hlt := (decode_lt_iff a rest).mpr ha
      have hcode := ((joins_of_lt hlt hreturn).mp hjoins).2
      have hc : c ≠ .prepend := by
        rcases ofCode_of_lt hlt with ⟨-, hother⟩ | ⟨hcontrol, -⟩
        · exact fun hc => by cases hc.symm.trans hother
        · exact absurd hcode hcontrol
      rw [countP_of_ne_prepend hc hpush]
      exact .inl ⟨.inl hcode, rfl⟩
    | false =>
      have hcode : ¬ IsPlain (Utf8.decode a rest).1 := by
        have hle := mt (decode_lt_iff a rest).mp (Bool.eq_false_iff.mp ha)
        omega
      -- Nothing has been decided as long as the characters join what follows them.
      by_cases hc : c = .prepend
      · rcases ih hc hpush with ⟨hleads, hcount⟩ | ⟨hleads, hcount⟩
        · rw [hcount]
          exact .inl ⟨.inr ⟨hc, hleads⟩, rfl⟩
        · rw [hcount]
          exact .inr ⟨fun h => h.elim hcode fun h => hleads h.2, rfl⟩
      · rw [countP_of_ne_prepend hc hpush]
        exact .inr ⟨fun h => h.elim hcode fun h => hc h.1, rfl⟩
  | case3 t a rest c hjoins =>
    -- The cluster is over, so what comes next is neither of the two that would join it.
    refine .inr ⟨fun h => hjoins ?_, rfl⟩
    rcases exists_leads_cons_iff.mp h with hcode | hhides
    · exact (joins_of_lt (by omega) hreturn).mpr ⟨hprepend, hcode⟩
    · have hc : c = .prepend := (hides_cons_iff.mp hhides).1
      rw [hc, joins_prepend, hprepend]
      rfl

/-- **The ASCII of a cluster that begins outside of it**: a single byte if the cluster
begins with characters that join what follows them and such a byte comes next, else
nothing. -/
theorem countP_first {a : UInt8} (ha : Byte.isAscii a = false) (rest : Bytes) :
    Hides (a :: rest) ∧ ((a :: rest).take (firstLength a rest)).countP Byte.isAscii = 1 ∨
      ¬ Hides (a :: rest) ∧ ((a :: rest).take (firstLength a rest)).countP Byte.isAscii = 0 := by
  have hreturn : ClusterClass.ofCode (Utf8.decode a rest).1 ≠ .carriageReturn :=
    Lexer.ofCode_ne_carriageReturn
      (Nat.le_of_not_lt (mt (decode_lt_iff a rest).mp (Bool.eq_false_iff.mp ha)))
  rw [firstLength, take_rune, List.countP_append, countP_rune, ha, hides_cons_iff]
  generalize ClusterClass.ofCode (Utf8.decode a rest).1 = c at hreturn ⊢
  generalize rest.drop (Utf8.decode a rest).2 = r
  by_cases hc : c = .prepend
  · rcases countP_of_prepend (t := .start c) (s := r) hc with ⟨hleads, hcount⟩ | ⟨hleads, hcount⟩
    · left
      rw [hcount]
      exact ⟨⟨hc, hleads⟩, rfl⟩
    · right
      rw [hcount]
      exact ⟨fun h => hleads h.2, rfl⟩
  · right
    rw [countP_of_ne_prepend (t := .start c) (s := r) hc hreturn]
    exact ⟨fun h => hc h.1, rfl⟩

end Cluster

open Lexer

/-! ### Tokens of a source -/

/-- What begins outside of ASCII is a cluster. -/
theorem Lexer.read_of_isAscii {a : UInt8} (ha : Byte.isAscii a = false) (mode : Mode)
    (offset : Nat) (rest : Bytes) : read mode offset a rest = readCluster a rest := by
  have hother {b : UInt8} (hb : Byte.isAscii b = true) : (a == b) = false := by
    rw [beq_eq_false_iff_ne]
    rintro rfl
    exact Bool.false_ne_true (ha.symm.trans hb)
  have hle : 0x80 ≤ a.toNat := by simpa [Byte.isAscii, UInt8.le_iff_toNat_le] using ha
  have hnine : (ascii '9').toNat = 57 := rfl
  have hlower : (ascii 'z').toNat = 122 := rfl
  have hupper : (ascii 'Z').toNat = 90 := rfl
  have hdigit : Byte.isDigit a = false := by
    simp only [Byte.isDigit, Bool.and_eq_false_iff, decide_eq_false_iff_not, UInt8.le_iff_toNat_le]
    omega
  have hletter : Byte.isLetter a = false := by
    simp only [Byte.isLetter, Bool.or_eq_false_iff, Bool.and_eq_false_iff, decide_eq_false_iff_not,
      UInt8.le_iff_toNat_le]
    omega
  simp only [read, hdigit, hletter, ha, hother (b := ascii '.') rfl, hother (b := ascii '\\') rfl,
    hother (b := ascii '\'') rfl, Bool.and_false, Bool.false_and, Bool.or_false, Bool.false_eq_true,
    if_false]

/-- The token that is found. -/
def Found.token? : Found → Option Token
  | .token t => some t
  | _ => none

theorem Found.eq_token_of_token? {found : Found} {t : Token} (h : found.token? = some t) :
    found = .token t := by
  cases found with
  | token u => exact congrArg _ (Option.some.inj h)
  | finished | fault e => cases h

namespace Cursor

/-- The bytes of what take number `n` finds, from its offset to the place behind it. -/
def textAt (source : Bytes) (n : Nat) : Bytes :=
  source.extract ((start source).offsetAt n) ((start source).placeAt (n + 1))

section

variable {source : Bytes} {n : Nat} {t : Token} {a : UInt8}

/-- The bytes of a token are what it was read from. -/
theorem exists_read_textAt (h : (start source).foundAt n = .token t) :
    ∃ mode a rest width, source.drop ((start source).offsetAt n) = a :: rest ∧
      (∀ offset, read mode offset a rest = ⟨.ok t, width + 1⟩) ∧
      textAt source n = a :: rest.take width := by
  obtain ⟨s, hon, -, hfound, hoffset, hbehind⟩ := exists_step source n
  have hnext : s.next = (.token t, s.next.2) := Prod.ext (hfound.symm.trans h) rfl
  obtain ⟨a, rest, width, hfinds⟩ := Scanner.exists_finds hnext
  obtain ⟨width, rfl⟩ : ∃ k, width = k + 1 := ⟨width - 1, by have := hfinds.width_pos; omega⟩
  have hdrop := hon.drop_next.trans hfinds.text
  refine ⟨s.mode, a, rest, width, hoffset ▸ hdrop, hfinds.read, ?_⟩
  have hwidth : s.next.2.2.offset - s.next.2.1 = width + 1 := by
    rw [Scanner.next_of_finds hfinds]
    exact Nat.add_sub_cancel_left ..
  rw [textAt, List.extract_eq_take_drop, placeAt, hbehind, hoffset, hdrop, hwidth,
    List.take_succ_cons]

/-- The bytes of a token that begins outside of ASCII are a cluster. -/
theorem exists_cluster_textAt (h : (start source).foundAt n = .token t)
    (hfirst : (textAt source n).head? = some a) (ha : Byte.isAscii a = false) :
    ∃ rest, source.drop ((start source).offsetAt n) = a :: rest ∧
      textAt source n = (a :: rest).take (Cluster.firstLength a rest) ∧
      (t = .letter (textAt source n) ∨ t = .operator (textAt source n)) := by
  obtain ⟨mode, b, rest, width, hdrop, hread, htext⟩ := exists_read_textAt h
  rw [htext] at hfirst
  obtain rfl := Option.some.inj hfirst
  have hcluster := (read_of_isAscii ha mode 0 rest).symm.trans (hread 0)
  have hwidth : Cluster.firstLength b rest = width + 1 := congrArg Reading.width hcluster
  have htake : textAt source n = (b :: rest).take (Cluster.firstLength b rest) := by
    rw [htext, hwidth, List.take_succ_cons]
  refine ⟨rest, hdrop, htake, ?_⟩
  have ht := Except.ok.inj (congrArg Reading.result hcluster)
  rw [← htake] at ht
  subst ht
  split
  · exact .inl rfl
  · exact .inr rfl

/-- **What of ASCII is hidden in a character.**  A token that begins with a byte outside
of ASCII is a letter or an operator, made of the very bytes it is read from.  It has at
most one byte of ASCII.  It has one if and only if it begins with a character that joins
what follows it, or several of them, and a character of ASCII comes next which is no
control character. -/
theorem ascii_of_character (h : (start source).foundAt n = .token t)
    (hfirst : (textAt source n).head? = some a) (ha : 0x80 ≤ a) :
    (t = .letter (textAt source n) ∨ t = .operator (textAt source n)) ∧
      (textAt source n).countP Byte.isAscii ≤ 1 ∧
      ((∃ b ∈ textAt source n, b < 0x80) ↔
        Cluster.Hides (source.drop ((start source).offsetAt n))) := by
  have hascii : Byte.isAscii a = false := by simpa [Byte.isAscii] using ha
  obtain ⟨rest, hdrop, htext, ht⟩ := exists_cluster_textAt h hfirst hascii
  have hexists : (∃ b ∈ textAt source n, b < 0x80) ↔
      0 < (textAt source n).countP Byte.isAscii := by
    simp [List.countP_pos_iff, Byte.isAscii]
  rw [hexists, hdrop]
  refine ⟨ht, ?_⟩
  rw [htext]
  rcases Cluster.countP_first hascii rest with ⟨hhides, hcount⟩ | ⟨hhides, hcount⟩
  · rw [hcount]
    exact ⟨Nat.le_refl 1, fun _ => hhides, fun _ => Nat.zero_lt_one⟩
  · rw [hcount]
    exact ⟨Nat.zero_le 1, fun hlt => absurd hlt (Nat.lt_irrefl 0), fun h => absurd h hhides⟩

end

/-- A letter with a mark hides nothing; two signs that join what follows them hide the
brace that was meant to close the group. -/
theorem ascii_of_character_brace :
    let source := utf8 "\x7b\u00e9\u0301\u0600\u0600\x7d"
    let c := start source
    c.foundAt 1 = .token (.letter (utf8 "\u00e9\u0301")) ∧
      ¬ Cluster.Hides (source.drop (c.offsetAt 1)) ∧
      c.foundAt 2 = .token (.operator (utf8 "\u0600\u0600\x7d")) ∧
      Cluster.Hides (source.drop (c.offsetAt 2)) := by
  intro source c
  have hletter : c.foundAt 1 = .token (.letter (utf8 "\u00e9\u0301")) :=
    Found.eq_token_of_token? (by decide +kernel)
  have hsign : c.foundAt 2 = .token (.operator (utf8 "\u0600\u0600\x7d")) :=
    Found.eq_token_of_token? (by decide +kernel)
  have htext : textAt source 1 = utf8 "\u00e9\u0301" := by decide +kernel
  have htext' : textAt source 2 = utf8 "\u0600\u0600\x7d" := by decide +kernel
  obtain ⟨-, -, hnone⟩ := ascii_of_character hletter (by rw [htext]; rfl) (by decide)
  obtain ⟨-, -, hsome⟩ := ascii_of_character hsign (by rw [htext']; rfl) (by decide)
  rw [htext] at hnone
  rw [htext'] at hsome
  refine ⟨hletter, ?_, hsign, ?_⟩
  · rw [← hnone]
    decide
  · rw [← hsome]
    decide

/-- A brace behind a sign that joins what follows it is part of the sign's token. -/
theorem not_ascii_free :
    ¬ ∀ source n t a, (start source).foundAt n = .token t →
      (∃ text, t = .letter text ∨ t = .operator text) →
      (textAt source n).head? = some a → 0x80 ≤ a → ∀ b ∈ textAt source n, 0x80 ≤ b := by
  intro h
  have htext : textAt (utf8 "\u0600\x7b") 0 = [0xD8, 0x80, ascii '\x7b'] := by decide +kernel
  have htoken : (start (utf8 "\u0600\x7b")).foundAt 0 =
      .token (.operator [0xD8, 0x80, ascii '\x7b']) :=
    Found.eq_token_of_token? (by decide +kernel)
  have hle := h (utf8 "\u0600\x7b") 0 _ 0xD8 htoken ⟨_, .inr rfl⟩ (by rw [htext]; rfl) (by decide)
  rw [htext] at hle
  exact absurd (hle (ascii '\x7b') (by simp)) (by decide)

end Cursor

end MathMarkup
