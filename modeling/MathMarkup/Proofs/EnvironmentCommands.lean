/-
MathMarkup/Proofs/EnvironmentCommands.lean

How the commands are read that begin and end an environment.  With its name such a
command is one token, and what is behind it is read by itself (`IsName.scans_iff`).

On a line of its own the end of an environment is a token whatever is in front of it
(`IsName.scans_lineBreak`), since no token reaches over the end of the line into it
(`read_width_le`).  Names and words end with the line.  A raw argument need not, but
what it would take along is a pair of braces, and a raw argument does not end inside of
one (`IsName.notClosed_named`).
-/
import MathMarkup.Proofs.Digits

namespace MathMarkup

namespace Lexer

/-! ### The name of an environment -/

/-- A name that can stand in the braces of an environment: letters, and then at most
one star. -/
def IsName (name : Bytes) : Prop :=
  name.takeWhile Byte.isLetter ≠ [] ∧ wordWidth name = name.length

instance (name : Bytes) : Decidable (IsName name) :=
  inferInstanceAs (Decidable (_ ∧ _))

/-- No name goes on behind a brace. -/
theorem takeWhile_append_brace (name y : Bytes) :
    (name ++ ascii '\x7d' :: y).takeWhile Byte.isLetter = name.takeWhile Byte.isLetter := by
  rw [List.takeWhile_append]
  split
  · next hall =>
    rw [List.takeWhile_cons_of_neg (by decide), List.append_nil]
    exact ((List.takeWhile_prefix Byte.isLetter).eq_of_length hall).symm
  · rfl

theorem wordWidth_append_brace (name y : Bytes) :
    wordWidth (name ++ ascii '\x7d' :: y) = wordWidth name := by
  have hle := takeWhile_length_le Byte.isLetter name
  rw [wordWidth, takeWhile_append_brace, List.drop_append_of_le_length hle, wordWidth]
  cases name.drop (name.takeWhile Byte.isLetter).length <;> rfl

theorem IsName.nameAt {name : Bytes} (h : IsName name) (y : Bytes) :
    NameAt (ascii '\x7b' :: (name ++ ascii '\x7d' :: y)) (name ++ ascii '\x7d' :: y) where
  opened := rfl
  name := takeWhile_append_brace name y ▸ h.1
  closed := by
    rw [wordWidth_append_brace, h.2, List.drop_left]
    exact startsWith_self _ _

/-- A command with a name in braces. -/
def named (word name : Bytes) : Bytes :=
  ascii '\\' :: (word ++ ascii '\x7b' :: (name ++ [ascii '\x7d']))

/-- A command that begins or ends an environment is read with the name, and what is
behind is read by itself. -/
theorem IsName.scans_iff {word name : Bytes} (h : IsName name) {token : Bytes → Token}
    (hne : word ≠ []) (hletters : word.all Byte.isLetter = true)
    (hword : readBehind word = readEnvironment token) (hafter : Mode.after (token name) = .plain)
    {mode : Mode} {y : Bytes} {ts : List Token} :
    Scans mode (named word name ++ y) ts ↔ ∃ us, ts = token name :: us ∧ Scans .plain y us := by
  have hbrace : ∀ b ∈ (ascii '\x7b' :: (name ++ ascii '\x7d' :: y)).head?,
      Byte.isLetter b = false ∧ b ≠ ascii '*' := by
    rintro b ⟨⟩
    decide
  have hlength : (named word name).length = 1 + word.length + (0 + 1 + name.length + 1) := by
    simp only [named, List.length_cons, List.length_append, List.length_nil]
    omega
  have htext : named word name ++ y =
      ascii '\\' :: (word ++ ascii '\x7b' :: (name ++ ascii '\x7d' :: y)) := by
    simp [named]
  have hlayout : layout false (ascii '\x7b' :: (name ++ ascii '\x7d' :: y)) = 0 := rfl
  have hfinds : Finds mode (named word name ++ y) (token name) (ascii '\\')
      (word ++ ascii '\x7b' :: (name ++ ascii '\x7d' :: y)) (named word name).length := by
    refine ⟨by rw [htext]; rfl, fun offset => ?_⟩
    rw [read_word hne hletters hbrace, hword, (h.nameAt y).readEnvironment, wordWidth_append_brace,
      h.2, List.take_left, hlayout, hlength]
    rfl
  rw [hfinds.scans_iff, ← htext, List.drop_left, hafter]

theorem IsName.scans_begin_iff {name : Bytes} (h : IsName name) {mode : Mode} {y : Bytes}
    {ts : List Token} :
    Scans mode (named (utf8 "begin") name ++ y) ts ↔
      ∃ us, ts = .environmentBegin name :: us ∧ Scans .plain y us := by
  have hword : readBehind (utf8 "begin") = readEnvironment .environmentBegin := by
    funext offset s
    exact if_pos (by decide)
  exact h.scans_iff (by decide) (by decide) hword rfl

theorem IsName.scans_end_iff {name : Bytes} (h : IsName name) {mode : Mode} {y : Bytes}
    {ts : List Token} :
    Scans mode (named (utf8 "end") name ++ y) ts ↔
      ∃ us, ts = .environmentEnd name :: us ∧ Scans .plain y us := by
  have hword : readBehind (utf8 "end") = readEnvironment .environmentEnd := by
    funext offset s
    exact (if_neg (by decide)).trans (if_pos (by decide))
  exact h.scans_iff (by decide) (by decide) hword rfl

/-! ### Up to the end of a line -/

theorem layout_le_lineEnd (comment : Bool) (r x : Bytes) :
    layout comment (r ++ ascii '\n' :: ascii '\\' :: x) ≤ r.length + 1 := by
  induction r generalizing comment with
  | nil => cases comment <;> exact Nat.le_refl 1
  | cons b r ih =>
    cases comment with
    | true => exact Nat.succ_le_succ (ih _)
    | false =>
      simp only [List.cons_append, layout]
      split
      · exact Nat.succ_le_succ (ih _)
      split
      · exact Nat.succ_le_succ (ih _)
      · exact Nat.zero_le _

/-- A brace behind layout is on the same line. -/
theorem exists_of_brace {r x rest : Bytes}
    (h : (r ++ ascii '\n' :: ascii '\\' :: x).drop
      (layout false (r ++ ascii '\n' :: ascii '\\' :: x)) = ascii '\x7b' :: rest) :
    ∃ r', rest = r' ++ ascii '\n' :: ascii '\\' :: x ∧
      r.length = layout false (r ++ ascii '\n' :: ascii '\\' :: x) + 1 + r'.length := by
  have hle := layout_le_lineEnd false r x
  generalize layout false (r ++ ascii '\n' :: ascii '\\' :: x) = skip at h hle ⊢
  rcases Nat.lt_trichotomy skip r.length with hlt | rfl | hgt
  · rw [List.drop_append_of_le_length (Nat.le_of_lt hlt)] at h
    cases hdrop : r.drop skip with
    | nil => exact absurd (List.drop_eq_nil_iff.mp hdrop) (Nat.not_le_of_lt hlt)
    | cons b r' =>
      rw [hdrop] at h
      have hlength := congrArg List.length hdrop
      simp only [List.length_drop, List.length_cons] at hlength
      exact ⟨r', (List.cons.inj h).2.symm, by omega⟩
  · rw [List.drop_left] at h
    exact absurd (List.cons.inj h).1 (by decide)
  · obtain rfl : skip = r.length + 1 := by omega
    rw [← List.drop_drop, List.drop_left] at h
    exact absurd (List.cons.inj h).1 (by decide)

theorem NameAt.width_le_lineEnd {r x rest : Bytes}
    (h : NameAt (r ++ ascii '\n' :: ascii '\\' :: x) rest) :
    layout false (r ++ ascii '\n' :: ascii '\\' :: x) + 1 + wordWidth rest + 1 ≤ r.length := by
  obtain ⟨r', rfl, hlength⟩ := exists_of_brace h.opened
  have hline := lineEnd_lineFeed (ascii '\\' :: x)
  have hword := (word_recut (.whole hline) (Nat.le_refl (wordWidth r'))).2
  have hle := wordWidth_le r'
  have hclosed := h.closed
  rw [hword, List.drop_append_of_le_length hle] at hclosed
  rw [hword]
  cases hdrop : r'.drop (wordWidth r') with
  | nil =>
    rw [hdrop] at hclosed
    cases hclosed
  | cons b s =>
    have hlength := congrArg List.length hdrop
    simp only [List.length_drop, List.length_cons] at hlength
    omega

/-- A raw argument with `least` braces or more open in it does not end in this text. -/
def NotClosed (least : Nat) (s : Bytes) : Prop :=
  ∀ ⦃depth⦄, least ≤ depth → ∀ n, rawLength depth s ≠ .ok n

/-- A raw argument ends in front of a text in which none does.  The text begins with the
end of a line, since the byte behind a backslash does not count. -/
theorem rawLength_lt_lineEnd {v : Bytes} (hline : NotClosed 0 (ascii '\n' :: v))
    (hv : NotClosed 0 v) {depth n : Nat} {r : Bytes}
    (h : rawLength depth (r ++ ascii '\n' :: v) = .ok n) : n < r.length := by
  induction hlength : r.length using Nat.strongRecOn generalizing r depth n with
  | ind length ih =>
    subst hlength
    rcases r with - | ⟨b, r⟩
    · exact absurd h (hline (Nat.zero_le _) n)
    have next {depth n : Nat} (h : addLength 1 (rawLength depth (r ++ ascii '\n' :: v)) = .ok n) :
        n < (b :: r).length := by
      obtain ⟨k, hk, rfl⟩ := exists_of_addLength h
      have hlt := ih r.length (Nat.lt_succ_self _) hk rfl
      rw [List.length_cons]
      omega
    rw [List.cons_append, rawLength.eq_def] at h
    simp only at h
    split at h
    · -- A backslash takes the next byte along, which may be the end of the line.
      rcases r with - | ⟨c, r⟩
      · obtain ⟨k, hk, -⟩ := exists_of_addLength h
        exact absurd hk (hv (Nat.zero_le _) k)
      · obtain ⟨k, hk, rfl⟩ := exists_of_addLength h
        have hlt := ih r.length (by simp only [List.length_cons]; omega) hk rfl
        simp only [List.length_cons]
        omega
    split at h
    · exact next h
    split at h
    · cases depth with
      | zero =>
        obtain rfl := Except.ok.inj h
        exact Nat.succ_pos _
      | succ depth => exact next h
    · exact next h

section

variable {x : Bytes} (hline : NotClosed 0 (ascii '\n' :: ascii '\\' :: x))
  (hx : NotClosed 0 (ascii '\\' :: x)) {t : Token} {offset : Nat}

include hline hx

/-- What a command reads behind its name ends with the line. -/
theorem readBehind_width_le {name r : Bytes}
    (h : (readBehind name offset (r ++ ascii '\n' :: ascii '\\' :: x)).result = .ok t) :
    (readBehind name offset (r ++ ascii '\n' :: ascii '\\' :: x)).width ≤ r.length := by
  have environment {token : Bytes → Token}
      (h : (readEnvironment token offset (r ++ ascii '\n' :: ascii '\\' :: x)).result = .ok t) :
      (readEnvironment token offset (r ++ ascii '\n' :: ascii '\\' :: x)).width ≤ r.length := by
    obtain ⟨rest, hname⟩ := exists_nameAt h
    rw [hname.readEnvironment]
    exact hname.width_le_lineEnd
  unfold readBehind at h ⊢
  split at h
  · next hbegin =>
    rw [if_pos hbegin]
    exact environment h
  next hbegin =>
  rw [if_neg hbegin]
  split at h
  · next hend =>
    rw [if_pos hend]
    exact environment h
  next hend =>
  rw [if_neg hend]
  split at h
  · next hraw =>
    rw [if_pos hraw]
    obtain ⟨data, n, hopen, hlength⟩ := exists_of_readVerbatim h
    rw [readVerbatim_eq hopen hlength]
    obtain ⟨r', rfl, hr⟩ := exists_of_brace hopen
    have hlt := rawLength_lt_lineEnd hline hx hlength
    show _ + 1 + n + 1 ≤ r.length
    omega
  · next hraw =>
    rw [if_neg hraw]
    exact Nat.zero_le _

theorem readWord_width_le {r : Bytes}
    (h : (readWord offset (r ++ ascii '\n' :: ascii '\\' :: x)).result = .ok t) :
    (readWord offset (r ++ ascii '\n' :: ascii '\\' :: x)).width ≤ r.length := by
  have hend := lineEnd_lineFeed (ascii '\\' :: x)
  have hword := (word_recut (.whole hend) (Nat.le_refl (wordWidth r))).2
  have hle := wordWidth_le r
  rw [readWord_eq, hword, List.drop_append_of_le_length hle] at h ⊢
  have hbehind := readBehind_width_le hline hx h
  rw [List.length_drop] at hbehind
  simp only [Reading.shift]
  omega

theorem readBackslash_width_le {r : Bytes}
    (h : (readBackslash offset (r ++ ascii '\n' :: ascii '\\' :: x)).result = .ok t) :
    (readBackslash offset (r ++ ascii '\n' :: ascii '\\' :: x)).width ≤ r.length + 1 := by
  cases r with
  | nil => exact Nat.le_refl 1
  | cons a r =>
    simp only [List.cons_append, readBackslash] at h ⊢
    cases ha : Byte.isLetter a with
    | true =>
      simp only [ha, if_true] at h ⊢
      exact Nat.le_succ_of_le (readWord_width_le hline hx (r := a :: r) h)
    | false =>
      have hle := decode_width_le a r
      have hsame : Utf8.decode a (r ++ ascii '\n' :: ascii '\\' :: x) = Utf8.decode a r :=
        decode_recut (.whole (lineEnd_lineFeed _)) (Nat.le_refl _)
      simp only [Bool.false_eq_true, if_false, hsame, List.length_cons]
      omega

end

/-- What does not begin with a backslash is always a token. -/
theorem exists_ok_of_ne_backslash {a : UInt8} (ha : a ≠ ascii '\\') (mode : Mode) (offset : Nat)
    (rest : Bytes) : ∃ t, (read mode offset a rest).result = .ok t := by
  have hbackslash : ¬(a == ascii '\\') = true := by simpa using ha
  unfold read
  rw [if_neg hbackslash]
  repeat' split
  all_goals exact ⟨_, rfl⟩

/-- **A token ends with the line if a backslash begins the next one**, behind which no raw
argument ends. -/
theorem read_width_le {x : Bytes} (hline : NotClosed 0 (ascii '\n' :: ascii '\\' :: x))
    (hx : NotClosed 0 (ascii '\\' :: x)) {mode : Mode} {offset : Nat} {a : UInt8} {r : Bytes}
    {t : Token}
    (h : (read mode offset a (r ++ ascii '\n' :: ascii '\\' :: x)).result = .ok t) :
    (read mode offset a (r ++ ascii '\n' :: ascii '\\' :: x)).width ≤ r.length + 2 := by
  by_cases ha : a = ascii '\\'
  · subst ha
    have hread : read mode offset (ascii '\\') (r ++ ascii '\n' :: ascii '\\' :: x) =
        (readBackslash offset (r ++ ascii '\n' :: ascii '\\' :: x)).shift 1 := by
      cases mode <;> rfl
    rw [hread] at h ⊢
    have hle := readBackslash_width_le hline hx h
    simp only [Reading.shift]
    omega
  · -- The token is also read when the text ends in front of the end of the line.
    obtain ⟨t', ht'⟩ := exists_ok_of_ne_backslash ha mode offset r
    obtain ⟨hle, hsame⟩ := read_recut ht'
    rw [hsame (.whole (lineEnd_lineFeed _))]
    omega

/-! ### The tokens in front -/

/-- Nothing, or lines that are complete. -/
def IsLines (q : Bytes) : Prop :=
  ∀ b ∈ q.getLast?, b = ascii '\n'

theorem IsLines.drop {q : Bytes} (h : IsLines q) (n : Nat) : IsLines (q.drop n) := by
  intro b hb
  rw [List.getLast?_drop] at hb
  split at hb
  · cases hb
  · exact h b hb

theorem IsLines.eq_nil_or_append {q : Bytes} (h : IsLines q) :
    q = [] ∨ ∃ r, q = r ++ [ascii '\n'] := by
  rcases q.eq_nil_or_concat with rfl | ⟨r, b, rfl⟩
  · exact .inl rfl
  · rw [List.concat_eq_append] at h ⊢
    exact .inr ⟨r, by rw [h b (by simp)]⟩

theorem IsLines.layout_le {q : Bytes} (h : IsLines q) (x : Bytes) :
    layout false (q ++ ascii '\\' :: x) ≤ q.length := by
  rcases h.eq_nil_or_append with rfl | ⟨r, rfl⟩
  · exact Nat.le_refl 0
  · have hle := layout_le_lineEnd false r x
    rw [List.append_assoc, List.length_append]
    exact hle

/-- A token that begins in complete lines ends in them. -/
theorem IsLines.width_le {q x rest : Bytes} (h : IsLines q)
    (hline : NotClosed 0 (ascii '\n' :: ascii '\\' :: x)) (hx : NotClosed 0 (ascii '\\' :: x))
    {mode : Mode} {t : Token} {a : UInt8} {width : Nat}
    (hfinds : Finds mode (q ++ ascii '\\' :: x) t a rest width)
    (hlt : layout false (q ++ ascii '\\' :: x) < q.length) :
    layout false (q ++ ascii '\\' :: x) + width ≤ q.length := by
  have htext := hfinds.text
  have hzero := layout_eq_zero htext
  generalize layout false (q ++ ascii '\\' :: x) = skip at hlt htext ⊢
  rw [List.drop_append_of_le_length (Nat.le_of_lt hlt)] at htext
  have hlength : (q.drop skip).length + skip = q.length := by
    rw [List.length_drop]
    omega
  rcases (h.drop skip).eq_nil_or_append with hnil | ⟨r, hr⟩
  · rw [hnil, List.length_nil] at hlength
    omega
  · rw [hr, List.append_assoc] at htext
    rw [hr, List.length_append] at hlength
    rcases r with - | ⟨b, r⟩
    · -- The end of a line would be layout.
      obtain ⟨rfl, -⟩ := List.cons.inj htext
      cases hzero []
    · obtain ⟨rfl, rfl⟩ := List.cons.inj htext
      have hread : read mode 0 b (r ++ ascii '\n' :: ascii '\\' :: x) = ⟨.ok t, width⟩ :=
        hfinds.read 0
      have hle := read_width_le hline hx (congrArg Reading.result hread)
      rw [hread] at hle
      simp only [List.length_cons, List.length_nil] at hlength hle
      omega

/-- **The tokens of complete lines in front of a backslash do not depend on what follows
it**; by induction along the text. -/
theorem IsLines.scans {q x : Bytes} (hq : IsLines q)
    (hline : NotClosed 0 (ascii '\n' :: ascii '\\' :: x)) (hx : NotClosed 0 (ascii '\\' :: x))
    {mode : Mode} {ts : List Token} (h : Scans mode (q ++ ascii '\\' :: x) ts) :
    ∃ ps mode', ∀ y vs, Scans mode (q ++ ascii '\\' :: y) vs ↔
      ∃ us, vs = ps ++ us ∧ Scans mode' (ascii '\\' :: y) us := by
  generalize hs : q ++ ascii '\\' :: x = s at h
  induction h generalizing q with
  | @done mode s hdone =>
    subst hs
    rw [List.drop_append_of_le_length (hq.layout_le x)] at hdone
    cases (List.append_eq_nil_iff.mp hdone).2
  | @token mode s rest t a width ts hfinds _ ih =>
    subst hs
    rcases Nat.lt_or_eq_of_le (hq.layout_le x) with hlt | hlayout
    · obtain ⟨q', hq', hdrop, hscans⟩ := hfinds.scans_escape (hq.width_le hline hx hfinds hlt)
      obtain ⟨ps, mode', ih⟩ := ih (hq' ▸ hq.drop _) hdrop.symm
      refine ⟨t :: ps, mode', fun y vs => ?_⟩
      simp only [hscans, ih, List.cons_append]
      constructor
      · rintro ⟨_, rfl, us, rfl, hus⟩
        exact ⟨us, rfl, hus⟩
      · rintro ⟨us, rfl, hus⟩
        exact ⟨_, rfl, us, rfl, hus⟩
    · refine ⟨[], mode, fun y vs => ?_⟩
      rw [scans_layout_iff hlayout]
      simp

/-! ### The end of an environment -/

namespace NotClosed

variable {least : Nat} {s : Bytes}

theorem nil : NotClosed least [] := by
  rintro depth - n ⟨⟩

theorem escape (h : NotClosed least s) (b : UInt8) :
    NotClosed least (ascii '\\' :: b :: s) := by
  intro depth hdepth n hn
  obtain ⟨k, hk, -⟩ := exists_of_addLength hn
  exact h hdepth k hk

theorem opened (h : NotClosed (least + 1) s) : NotClosed least (ascii '\x7b' :: s) := by
  intro depth hdepth n hn
  rw [rawLength.eq_def] at hn
  obtain ⟨k, hk, -⟩ := exists_of_addLength hn
  exact h (Nat.succ_le_succ hdepth) k hk

theorem closed (h : NotClosed least s) : NotClosed (least + 1) (ascii '\x7d' :: s) := by
  intro depth hdepth n hn
  obtain ⟨depth, rfl⟩ : ∃ d, depth = d + 1 := ⟨depth - 1, by omega⟩
  rw [rawLength.eq_def] at hn
  obtain ⟨k, hk, -⟩ := exists_of_addLength hn
  exact h (Nat.le_of_succ_le_succ hdepth) k hk

theorem cons (h : NotClosed least s) {b : UInt8} (hescape : b ≠ ascii '\\')
    (hopen : b ≠ ascii '\x7b') (hclose : b ≠ ascii '\x7d') : NotClosed least (b :: s) := by
  intro depth hdepth n hn
  rw [rawLength.eq_def] at hn
  simp only [beq_iff_eq, hescape, hopen, hclose, if_false] at hn
  obtain ⟨k, hk, -⟩ := exists_of_addLength hn
  exact h hdepth k hk

end NotClosed

/-- A name has letters in it, and no more than one star behind them. -/
theorem IsName.exists_eq {name : Bytes} (h : IsName name) :
    ∃ stars, name = name.takeWhile Byte.isLetter ++ stars ∧ ∀ b ∈ stars, b = ascii '*' := by
  have hwidth := h.2
  have htake := List.take_append_drop (name.takeWhile Byte.isLetter).length name
  rw [← List.prefix_iff_eq_take.mp (List.takeWhile_prefix Byte.isLetter)] at htake
  refine ⟨_, htake.symm, ?_⟩
  have hlength := congrArg List.length htake
  rw [List.length_append] at hlength
  rw [wordWidth] at hwidth
  generalize name.drop (name.takeWhile Byte.isLetter).length = stars at hwidth hlength ⊢
  have hstar : starWidth stars = stars.length := by omega
  rw [starWidth] at hstar
  split at hstar
  · next hstart =>
    obtain ⟨rest, rfl⟩ := exists_cons_of_startsWith hstart
    obtain rfl : rest = [] := List.length_eq_zero_iff.mp (Nat.succ.inj hstar.symm)
    simp
  · obtain rfl := List.length_eq_zero_iff.mp hstar.symm
    simp

theorem IsName.notClosed {name s : Bytes} (h : IsName name) {least : Nat} (hs : NotClosed least s) :
    NotClosed least (name ++ s) := by
  have plain {word : Bytes} (hword : ∀ b ∈ word, Byte.isLetter b = true ∨ b = ascii '*') :
      NotClosed least (word ++ s) := by
    induction word with
    | nil => exact hs
    | cons b word ih =>
      obtain ⟨hb, hword⟩ := List.forall_mem_cons.mp hword
      refine (ih hword).cons ?_ ?_ ?_ <;> rintro rfl <;> rcases hb with hb | hb <;> cases hb
  obtain ⟨stars, hname, hstars⟩ := h.exists_eq
  refine plain fun b hb => ?_
  rw [hname] at hb
  rcases List.mem_append.mp hb with hb | hb
  · exact .inl (List.all_eq_true.mp List.all_takeWhile b hb)
  · exact .inr (hstars b hb)

/-- The braces of a name are a pair. -/
theorem IsName.notClosed_named {name : Bytes} (h : IsName name) :
    NotClosed 0 (named (utf8 "end") name) := by
  have hname : NotClosed 0 (ascii '\x7b' :: (name ++ [ascii '\x7d'])) :=
    (h.notClosed (NotClosed.closed .nil)).opened
  have hletters : NotClosed 0
      (ascii 'n' :: ascii 'd' :: ascii '\x7b' :: (name ++ [ascii '\x7d'])) :=
    (hname.cons (by decide) (by decide) (by decide)).cons (by decide) (by decide) (by decide)
  exact hletters.escape (ascii 'e')

/-- **On a line of its own the end of an environment is a token**, and what is in front of
it is read in the same way if other tokens come first. -/
theorem IsName.scans_lineBreak {name : Bytes} (h : IsName name) {r : Bytes} {mode : Mode}
    {ts : List Token} (hs : Scans mode (r ++ ascii '\n' :: named (utf8 "end") name) ts) :
    ∃ ps, ts = ps ++ [.environmentEnd name] ∧
      Scans mode (r ++ ascii '\n' :: ascii '\\' :: ascii '\\' :: ascii '\n' ::
        named (utf8 "end") name) (ps ++ [.lineBreak, .environmentEnd name]) := by
  have hx := h.notClosed_named
  have hq : IsLines (r ++ [ascii '\n']) := by
    simp [IsLines]
  have happend (s : Bytes) : r ++ ascii '\n' :: s = r ++ [ascii '\n'] ++ s := by
    simp
  rw [happend] at hs
  obtain ⟨ps, mode', hscans⟩ := hq.scans (hx.cons (by decide) (by decide) (by decide)) hx hs
  obtain ⟨us, rfl, hus⟩ := (hscans _ _).mp hs
  have hend {mode : Mode} {us : List Token} :
      Scans mode (named (utf8 "end") name) us ↔ us = [.environmentEnd name] := by
    rw [← List.append_nil (named (utf8 "end") name), h.scans_end_iff]
    constructor
    · rintro ⟨us, rfl, hus⟩
      cases hus with
      | done => rfl
      | token hfinds _ => cases hfinds.text
    · rintro rfl
      exact ⟨[], rfl, .done rfl⟩
  obtain rfl := hend.mp hus
  refine ⟨ps, rfl, ?_⟩
  rw [happend]
  refine (hscans _ _).mpr ⟨_, rfl, ?_⟩
  have hbreak (s : Bytes) : Finds mode' (ascii '\\' :: ascii '\\' :: s) .lineBreak (ascii '\\')
      (ascii '\\' :: s) 2 :=
    ⟨rfl, fun _ => by cases mode' <;> rfl⟩
  refine (hbreak _).scans_iff.mpr ⟨_, rfl, ?_⟩
  exact (hend.mpr rfl).of_drop rfl

end Lexer

end MathMarkup
