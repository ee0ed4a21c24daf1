/-
MathMarkup/Proofs/Offsets.lean

Offsets only grow, and but for one case they stay in the source.  Whatever is read,
a token or an error, uses up no more bytes than there are.  The exception is a raw
argument that has no end and breaks off behind a backslash (`IsCutOff`): the backslash
takes a byte along that does not exist, so the error leaves the scanner one byte beyond
the end of the source, and there it stays.

That this is the only way out is said for each way of reading in turn
(`Reading.ExceedsIff`), up to `read_exceedsIff`.  A step of a scanner then leaves the
source exactly at such an argument, and a run of takes does so by induction.  Peeks do
not matter (`offset_asked`).
-/
import Mathlib.Data.List.Induction
import MathMarkup.Proofs.Peeking
import MathMarkup.Proofs.RawArguments

namespace MathMarkup

namespace Raw

/-! ### Arguments that break off -/

/-- Whole chunks and then a backslash with nothing behind it.  The chunks close no more
braces than are open, `depth` of them from before: some closing braces more would close
them all. -/
def Dangles (depth : Nat) (d : Bytes) : Prop :=
  ∃ us k, (∀ u ∈ us, IsChunk u) ∧ ClosesAll depth (us ++ List.replicate k closing) ∧
    d = us.flatten ++ [ascii '\\']

/-- Layout and a raw argument that breaks off behind a backslash. -/
def LacksEnd (s : Bytes) : Prop :=
  ∃ gap d, Lexer.IsLayout gap ∧ Dangles 0 d ∧ s = gap ++ ascii '\x7b' :: d

/-- A command with a raw argument that breaks off behind a backslash. -/
def IsCutOff (s : Bytes) : Prop :=
  ∃ kind star r, Vocabulary.isVerbatim kind = true ∧ Lexer.IsStar star ∧ LacksEnd r ∧
    s = ascii '\\' :: (kind ++ (star ++ r))

theorem closesAll_replicate (depth : Nat) : ClosesAll depth (List.replicate depth closing) := by
  induction depth with
  | zero => exact closesAll_nil.mpr rfl
  | succ depth ih => exact closesAll_closing.mpr ⟨depth, rfl, ih⟩

/-- Layout and a brace do not go on with a word. -/
theorem LacksEnd.head {s : Bytes} (h : LacksEnd s) :
    ∀ b ∈ s.head?, Byte.isLetter b = false ∧ b ≠ ascii '*' := by
  obtain ⟨gap, d, hgap, -, rfl⟩ := h
  exact hgap.head_append_of (by decide)

end Raw

open Raw

namespace Lexer

/-! ### Readings that use up too much -/

/-- The reading uses up at most one byte more than `n`, and so much exactly if `P`. -/
def Reading.ExceedsIff (r : Reading) (n : Nat) (P : Prop) : Prop :=
  r.width ≤ n + 1 ∧ (n < r.width ↔ P)

namespace Reading.ExceedsIff

variable {r : Reading} {n : Nat} {P Q : Prop}

theorem of_le (hle : r.width ≤ n) (hP : ¬P) : r.ExceedsIff n P :=
  ⟨Nat.le_succ_of_le hle, fun hlt => absurd hlt (Nat.not_lt_of_le hle), fun h => absurd h hP⟩

theorem shift (h : r.ExceedsIff n P) (k : Nat) : (r.shift k).ExceedsIff (k + n) P := by
  obtain ⟨hle, hiff⟩ := h
  refine ⟨Nat.add_le_add_left hle k, Iff.trans ?_ hiff⟩
  exact Nat.add_lt_add_iff_left

theorem congr (h : r.ExceedsIff n P) (hPQ : P ↔ Q) : r.ExceedsIff n Q :=
  ⟨h.1, h.2.trans hPQ⟩

end Reading.ExceedsIff

/-! ### Raw arguments -/

theorem rawLength_of_dangles {depth : Nat} {d : Bytes} (h : Dangles depth d) :
    rawLength depth d = .error (d.length + 1) := by
  obtain ⟨us, j, hus, hcloses, rfl⟩ := h
  obtain ⟨k, -, hraw⟩ := rawLength_append hus hcloses [ascii '\\']
  have hend : rawLength k [ascii '\\'] = .error 2 := by
    rw [rawLength.eq_def]
    rfl
  rw [hraw, hend, List.length_append]
  rfl

/-- A search for the closing brace that fails ends with the text, or one byte beyond it
if the text dangles. -/
theorem exceeds_of_rawLength {depth n : Nat} {d : Bytes} (h : rawLength depth d = .error n) :
    n ≤ d.length + 1 ∧ (d.length < n ↔ Dangles depth d) := by
  have hdangles (hd : Dangles depth d) : n = d.length + 1 :=
    Except.error.inj (h.symm.trans (rawLength_of_dangles hd))
  obtain ⟨us, k, t, rfl, hus, hcloses, ⟨rfl, hraw⟩ | ⟨rfl, hraw⟩ | ⟨-, r, -, hraw⟩⟩ :=
    ends_rawLength depth d
  · obtain rfl := Except.error.inj (h.symm.trans hraw)
    rw [List.append_nil] at hdangles ⊢
    exact ⟨Nat.le_succ _, fun hlt => absurd hlt (Nat.lt_irrefl _),
      fun hd => absurd (hdangles hd) (Nat.ne_of_lt (Nat.lt_succ_self _))⟩
  · obtain rfl := Except.error.inj (h.symm.trans hraw)
    rw [List.length_append]
    -- The braces that the chunks have left open could still be closed.
    have hd := hcloses _ (closesAll_replicate k)
    exact ⟨Nat.le_refl _, fun _ => ⟨us, k, hus, hd, rfl⟩, fun _ => Nat.lt_succ_self _⟩
  · cases h.symm.trans hraw

/-- A brace behind layout. -/
theorem drop_layout_eq_iff {s d : Bytes} :
    s.drop (layout false s) = ascii '\x7b' :: d ↔
      ∃ gap, IsLayout gap ∧ s = gap ++ ascii '\x7b' :: d := by
  constructor
  · intro h
    have hgap : IsPassed false (s.take (layout false s) ++ []) :=
      isPassed_take (.inr ⟨by rw [h]; exact List.cons_ne_nil _ _, rfl⟩)
    rw [List.append_nil] at hgap
    exact ⟨_, hgap, by rw [← h, List.take_append_drop]⟩
  · rintro ⟨gap, hgap, rfl⟩
    have hbrace : layout false (ascii '\x7b' :: d) = 0 := rfl
    rw [hgap.layout_append, hbrace, Nat.add_zero, List.drop_left]

theorem lacksEnd_iff {s d : Bytes} (h : s.drop (layout false s) = ascii '\x7b' :: d) :
    LacksEnd s ↔ Dangles 0 d := by
  constructor
  · rintro ⟨gap, d', hgap, hd', hs⟩
    obtain ⟨-, rfl⟩ := List.cons.inj (h.symm.trans (drop_layout_eq_iff.mpr ⟨gap, hgap, hs⟩))
    exact hd'
  · intro hd
    obtain ⟨gap, hgap, hs⟩ := drop_layout_eq_iff.mp h
    exact ⟨gap, d, hgap, hd, hs⟩

theorem readVerbatim_exceedsIff (kind : Bytes) (offset : Nat) (s : Bytes) :
    (readVerbatim kind offset s).ExceedsIff s.length (LacksEnd s) := by
  have hlayout := layout_le false s
  by_cases hopen : startsWith (ascii '\x7b') (s.drop (layout false s)) = true
  · obtain ⟨d, hd⟩ := exists_cons_of_startsWith hopen
    have hdata : s.drop (layout false s + 1) = d := by
      rw [← List.drop_drop, hd]
      rfl
    have hlength := congrArg List.length hd
    rw [List.length_drop, List.length_cons] at hlength
    -- Behind the brace it depends on where the search for the closing one comes to an end.
    refine Reading.ExceedsIff.congr ?_ (lacksEnd_iff hd).symm
    simp only [readVerbatim, hd, startsWith_self, hdata, Bool.not_true, Bool.false_eq_true,
      if_false]
    cases hraw : rawLength 0 d with
    | ok n =>
      have hlt := rawLength_lt hraw
      refine .of_le ?_ fun hdangles => ?_
      · show layout false s + 1 + n + 1 ≤ s.length
        omega
      · cases hraw.symm.trans (rawLength_of_dangles hdangles)
    | error n =>
      obtain ⟨hbound, hiff⟩ := exceeds_of_rawLength hraw
      rw [← hiff]
      show layout false s + 1 + n ≤ s.length + 1 ∧ (s.length < layout false s + 1 + n ↔ _)
      omega
  · have hreading : (readVerbatim kind offset s).width = layout false s := by
      simp only [readVerbatim, hopen, Bool.not_false, if_true]
    refine .of_le (hreading.trans_le hlayout) ?_
    rintro ⟨gap, d, hgap, -, hs⟩
    rw [drop_layout_eq_iff.mpr ⟨gap, hgap, hs⟩, startsWith_self] at hopen
    exact hopen rfl

/-! ### Everything else -/

theorem readEnvironment_width_le (token : Bytes → Token) (offset : Nat) (s : Bytes) :
    (readEnvironment token offset s).width ≤ s.length := by
  cases h : (readEnvironment token offset s).result with
  | ok t => exact (readEnvironment_local token h).1
  | error e =>
    have hlayout := layout_le false s
    simp only [readEnvironment] at h ⊢
    split
    · exact hlayout
    next hopen =>
    -- Behind the brace the rest is one byte shorter.
    obtain ⟨rest, hrest⟩ := exists_cons_of_startsWith (by simpa using hopen)
    have hlength := congrArg List.length hrest
    rw [List.length_drop, List.length_cons] at hlength
    simp only [hrest, List.drop_succ_cons, List.drop_zero, startsWith_self, Bool.not_true,
      Bool.false_eq_true, if_false] at h ⊢
    split
    · show layout false s + 1 ≤ s.length
      omega
    next hname =>
    rw [if_neg hname] at h
    split
    · have hname : (rest.take (wordWidth rest)).length ≤ rest.length := List.length_take_le' _ _
      unfold wordWidth at hname
      show layout false s + 1 + _ ≤ s.length
      omega
    next hclose =>
    rw [if_neg hclose] at h
    cases h

theorem readBehind_exceedsIff (name : Bytes) (offset : Nat) (s : Bytes) :
    (readBehind name offset s).ExceedsIff s.length
      (Vocabulary.isVerbatim name = true ∧ LacksEnd s) := by
  by_cases hraw : Vocabulary.isVerbatim name = true
  · obtain ⟨-, -, hbegin, hend⟩ := word_of_isVerbatim hraw
    simp only [readBehind, hbegin, hend, hraw, if_true, Bool.false_eq_true, if_false]
    exact (readVerbatim_exceedsIff name offset s).congr ⟨fun h => ⟨trivial, h⟩, fun h => h.2⟩
  · refine .of_le ?_ fun h => hraw h.1
    rw [readBehind, if_neg hraw]
    split
    · exact readEnvironment_width_le _ offset s
    split
    · exact readEnvironment_width_le _ offset s
    · exact Nat.zero_le _

/-- A name, its star and what is behind. -/
theorem exists_isStar (s : Bytes) :
    ∃ star, IsStar star ∧ s = s.takeWhile Byte.isLetter ++ (star ++ s.drop (wordWidth s)) := by
  have hsplit : s = s.takeWhile Byte.isLetter ++ s.drop (s.takeWhile Byte.isLetter).length := by
    conv => lhs; rw [← List.take_append_drop (s.takeWhile Byte.isLetter).length s]
    rw [← List.prefix_iff_eq_take.mp (List.takeWhile_prefix _)]
  rw [wordWidth, ← List.drop_drop, starWidth]
  generalize s.drop (s.takeWhile Byte.isLetter).length = r at hsplit ⊢
  split
  · next hstar =>
    obtain ⟨r, rfl⟩ := exists_cons_of_startsWith hstar
    exact ⟨_, .inr rfl, hsplit⟩
  · exact ⟨_, .inl rfl, hsplit⟩

theorem readWord_exceedsIff (offset : Nat) (s : Bytes) :
    (readWord offset s).ExceedsIff s.length (IsCutOff (ascii '\\' :: s)) := by
  have hword := (readBehind_exceedsIff (s.takeWhile Byte.isLetter) (offset + wordWidth s)
    (s.drop (wordWidth s))).shift (wordWidth s)
  rw [← readWord_eq, List.length_drop, Nat.add_sub_cancel' (wordWidth_le s)] at hword
  refine hword.congr ⟨?_, ?_⟩
  · rintro ⟨hraw, hlacks⟩
    obtain ⟨star, hstar, hs⟩ := exists_isStar s
    exact ⟨_, star, _, hraw, hstar, hlacks, congrArg _ hs⟩
  · rintro ⟨kind, star, r, hraw, hstar, hlacks, hs⟩
    obtain ⟨-, rfl⟩ := List.cons.inj hs
    -- The name ends where it should, since neither layout nor a brace goes on with it.
    obtain ⟨-, hletters, -⟩ := word_of_isVerbatim hraw
    obtain ⟨hname, hwidth⟩ := word_append hletters hstar (LacksEnd.head hlacks)
    rw [hname, hwidth, ← List.length_append, ← List.append_assoc, List.drop_left]
    exact ⟨hraw, hlacks⟩

/-- A letter stands behind the backslash of a command with a name. -/
theorem exists_letter_of_isCutOff {s : Bytes} (h : IsCutOff (ascii '\\' :: s)) :
    ∃ b r, s = b :: r ∧ Byte.isLetter b = true := by
  obtain ⟨kind, star, r, hraw, -, -, hs⟩ := h
  obtain ⟨hne, hletters, -⟩ := word_of_isVerbatim hraw
  obtain ⟨b, kind, rfl⟩ := List.exists_cons_of_ne_nil hne
  exact ⟨b, _, (List.cons.inj hs).2, List.all_eq_true.mp hletters b (List.mem_cons_self ..)⟩

/-- Nothing but a backslash begins what can fail. -/
theorem exists_ok_of_read {a : UInt8} (ha : a ≠ ascii '\\') (mode : Mode) (offset : Nat)
    (rest : Bytes) : ∃ t, (read mode offset a rest).result = .ok t := by
  unfold read
  rw [if_neg (c := (a == ascii '\\') = true) (by simpa using ha)]
  repeat' split
  all_goals exact ⟨_, rfl⟩

/-- **Only a raw argument that breaks off behind a backslash is longer than the text.** -/
theorem read_exceedsIff (mode : Mode) (offset : Nat) (a : UInt8) (rest : Bytes) :
    (read mode offset a rest).ExceedsIff (rest.length + 1) (IsCutOff (a :: rest)) := by
  by_cases ha : a = ascii '\\'
  · subst ha
    have hread : read mode offset (ascii '\\') rest = (readBackslash offset rest).shift 1 := by
      cases mode <;> rfl
    rw [hread, Nat.add_comm]
    refine Reading.ExceedsIff.shift ?_ 1
    cases rest with
    | nil =>
      refine .of_le (Nat.le_refl 0) fun h => ?_
      obtain ⟨b, r, hnil, -⟩ := exists_letter_of_isCutOff h
      cases hnil
    | cons b r =>
      simp only [readBackslash]
      split
      · exact readWord_exceedsIff _ _
      · next hb =>
        refine .of_le (Nat.succ_le_succ (decode_width_le b r)) fun h => ?_
        obtain ⟨b', r', hcons, hletter⟩ := exists_letter_of_isCutOff h
        obtain ⟨rfl, -⟩ := List.cons.inj hcons
        exact hb hletter
  · obtain ⟨t, ht⟩ := exists_ok_of_read ha mode offset rest
    refine .of_le (read_recut ht).1 ?_
    rintro ⟨kind, star, r, -, -, -, h⟩
    exact ha (List.cons.inj h).1

end Lexer

open Lexer

namespace Scanner

/-! ### One step -/

variable {source : Bytes} {s : Scanner}

/-- From a place in the source a step leaves it at a raw argument that breaks off. -/
theorem On.next_exceeds (h : s.On source) (hle : s.offset ≤ source.length) :
    s.next.2.1 ≤ source.length ∧ s.next.2.2.offset ≤ source.length + 1 ∧
      (source.length < s.next.2.2.offset ↔ IsCutOff (source.drop s.next.2.1)) := by
  have hlength := h.offset_add_length hle
  have hdrop := h.drop_next
  have hlayout := layout_le false s.rest
  cases hrest : s.rest.drop (layout false s.rest) with
  | nil =>
    rw [hrest] at hdrop
    have hoffset : s.next.2.2.offset = s.next.2.1 := by rw [next_of_layout hrest]
    have hend : s.next.2.1 ≤ source.length := by
      rw [next_offset]
      omega
    rw [hdrop, hoffset]
    refine ⟨hend, Nat.le_succ_of_le hend, fun hlt => absurd hlt (Nat.not_lt_of_le hend), ?_⟩
    rintro ⟨kind, star, r, -, -, -, hnil⟩
    cases hnil
  | cons a rest =>
    rw [hrest] at hdrop
    obtain ⟨-, hoffset, -⟩ := next_of_cons hrest
    have hread := read_exceedsIff s.mode s.next.2.1 a rest
    have hlength' := congrArg List.length hdrop
    rw [List.length_drop, List.length_cons] at hlength'
    obtain ⟨hwidth, hiff⟩ := hread
    rw [hdrop, hoffset, ← hiff]
    omega

/-- Beyond the source there is nothing, and a scanner stays there. -/
theorem On.next_beyond (h : s.On source) (hlt : source.length < s.offset) :
    s.next.2.1 = s.offset ∧ s.next.2.2.offset = s.offset := by
  have hrest : s.rest = [] := by
    rw [h]
    exact List.drop_eq_nil_of_le (Nat.le_of_lt hlt)
  rw [next_of_layout (by rw [hrest]; rfl), hrest]
  exact ⟨rfl, rfl⟩

end Scanner

namespace Cursor

/-! ### Runs of takes -/

/-- A run of takes leaves the source by at most one byte, and only behind a raw argument
that breaks off; by induction on the takes. -/
theorem placeAt_exceeds (source : Bytes) (n : Nat) :
    (start source).placeAt n ≤ source.length + 1 ∧
      (source.length < (start source).placeAt n ↔
        ∃ i < n, IsCutOff (source.drop ((start source).offsetAt i))) := by
  induction n with
  | zero =>
    refine ⟨Nat.zero_le _, fun hlt => absurd hlt (Nat.not_lt_zero _), ?_⟩
    rintro ⟨i, hi, -⟩
    exact absurd hi (Nat.not_lt_zero i)
  | succ n ih =>
    obtain ⟨hbound, hiff⟩ := ih
    obtain ⟨s, hon, hplace, -, hoffset, hbehind⟩ := exists_step source n
    have hnext : (start source).placeAt (n + 1) = s.next.2.2.offset := congrArg _ hbehind
    rw [hplace] at hbound hiff
    rw [hnext]
    by_cases hle : s.offset ≤ source.length
    · -- So far nothing has led out of the source, so this take is the one to ask.
      obtain ⟨-, hbound', hiff'⟩ := hon.next_exceeds hle
      refine ⟨hbound', hiff'.trans ⟨fun h => ⟨n, Nat.lt_succ_self n, hoffset ▸ h⟩, ?_⟩⟩
      rintro ⟨i, hi, h⟩
      obtain hlt | rfl := Nat.lt_succ_iff_lt_or_eq.mp hi
      · exact absurd (hiff.mpr ⟨i, hlt, h⟩) (Nat.not_lt_of_le hle)
      · exact hoffset ▸ h
    · -- An earlier take has led out of the source, and this one finds nothing there.
      have hlt := Nat.lt_of_not_le hle
      obtain ⟨i, hi, h⟩ := hiff.mp hlt
      rw [(hon.next_beyond hlt).2]
      exact ⟨hbound, fun _ => ⟨i, Nat.lt_succ_of_lt hi, h⟩, fun _ => hlt⟩

/-- The same of the offsets that are reported. -/
theorem offsetAt_exceeds (source : Bytes) (n : Nat) :
    (start source).offsetAt n ≤ source.length + 1 ∧
      (source.length < (start source).offsetAt n ↔
        ∃ i < n, IsCutOff (source.drop ((start source).offsetAt i))) := by
  obtain ⟨hbound, hiff⟩ := placeAt_exceeds source n
  obtain ⟨s, hon, hplace, -, hoffset, -⟩ := exists_step source n
  rw [← hiff, hoffset]
  rw [hplace] at hbound ⊢
  by_cases hle : s.offset ≤ source.length
  · obtain ⟨hnext, -⟩ := hon.next_exceeds hle
    omega
  · obtain ⟨hnext, -⟩ := hon.next_beyond (Nat.lt_of_not_le hle)
    omega

theorem offset_after_mono (source : Bytes) : Monotone fun n => ((start source).after n).offset := by
  refine monotone_nat_of_le_succ fun n => ?_
  cases n with
  | zero => exact Nat.zero_le _
  | succ n => exact (offsetAt_le_placeAt source n).trans (placeAt_le_offsetAt source (n + 1))

/-! ### Calls -/

/-- The cursor after calls that are made one after another. -/
def asked (c : Cursor) (calls : List Call) : Cursor :=
  calls.foldl (fun c call => (c.ask call).2) c

/-- After some calls a cursor is where it would be after the takes among them, or has
peeked there. -/
theorem ahead_asked (c : Cursor) (calls : List Call) :
    Ahead (c.after (calls.count .take)) (c.asked calls) := by
  induction calls using List.reverseRecOn with
  | nil => exact .same
  | append_singleton calls call ih =>
    have hlast : c.asked (calls ++ [call]) = ((c.asked calls).ask call).2 := List.foldl_append
    rw [hlast, List.count_append]
    cases call with
    | take =>
      have hsame : (c.asked calls).ask .take = (c.after (calls.count .take)).take := ih.take
      rw [hsame]
      exact .same
    | peek => exact ih.after_peek

theorem offset_asked (c : Cursor) (calls : List Call) :
    (c.asked calls).offset = (c.after (calls.count .take)).offset :=
  (c.ahead_asked calls).offset

/-- The take of a given number among some calls. -/
theorem exists_take {calls : List Call} {i : Nat} (h : i < calls.count .take) :
    ∃ before later, calls = before ++ .take :: later ∧ before.count .take = i := by
  induction calls generalizing i with
  | nil => cases h
  | cons call calls ih =>
    cases call with
    | take =>
      cases i with
      | zero => exact ⟨[], calls, rfl, rfl⟩
      | succ i =>
        rw [List.count_cons_self] at h
        obtain ⟨before, later, rfl, rfl⟩ := ih (Nat.lt_of_succ_lt_succ h)
        exact ⟨.take :: before, later, rfl, List.count_cons_self⟩
    | peek =>
      rw [List.count_cons_of_ne (by decide)] at h
      obtain ⟨before, later, rfl, rfl⟩ := ih h
      exact ⟨.peek :: before, later, rfl, List.count_cons_of_ne (by decide)⟩

/-- **Offsets only grow, and stay in the source but for one case.**  Whatever calls are
made on a source, in whatever order and after errors too, no later call leaves the
cursor at a smaller offset.  The offset is beyond the source if and only if a take came
upon a raw argument that breaks off behind a backslash and another take was made after
it, and then by one byte. -/
theorem offset_bounded (source : Bytes) (calls : List Call) :
    let c := start source
    (∀ more, (c.asked calls).offset ≤ (c.asked (calls ++ more)).offset) ∧
      (c.asked calls).offset ≤ source.length + 1 ∧
      (source.length < (c.asked calls).offset ↔
        ∃ before later, calls = before ++ .take :: later ∧ .take ∈ later ∧
          IsCutOff (source.drop (c.asked (before ++ [.take])).offset)) := by
  intro c
  have hfirst (before : List Call) :
      (c.asked (before ++ [.take])).offset = c.offsetAt (before.count .take) := by
    rw [offset_asked, List.count_append]
    rfl
  refine ⟨fun more => ?_, ?_⟩
  · rw [offset_asked, offset_asked, List.count_append]
    exact offset_after_mono source (Nat.le_add_right _ _)
  simp only [hfirst]
  rw [offset_asked]
  cases hcount : calls.count .take with
  | zero =>
    refine ⟨Nat.zero_le _, fun hlt => absurd hlt (Nat.not_lt_zero _), ?_⟩
    rintro ⟨before, later, rfl, -⟩
    rw [List.count_append, List.count_cons_self] at hcount
    omega
  | succ n =>
    obtain ⟨hbound, hiff⟩ := offsetAt_exceeds source n
    refine ⟨hbound, hiff.trans ⟨?_, ?_⟩⟩
    -- A take is told by its number, or by the calls before it and after it.
    · rintro ⟨i, hi, hcut⟩
      have htake : i < calls.count .take := by omega
      obtain ⟨before, later, rfl, rfl⟩ := exists_take htake
      rw [List.count_append, List.count_cons_self] at hcount
      exact ⟨before, later, rfl, List.count_pos_iff.mp (by omega), hcut⟩
    · rintro ⟨before, later, rfl, hlater, hcut⟩
      have hpos := List.count_pos_iff.mpr hlater
      rw [List.count_append, List.count_cons_self] at hcount
      exact ⟨_, by omega, hcut⟩

/-- A backslash that ends the source inside of an argument leads beyond it. -/
theorem not_offset_le_length :
    ¬ ∀ source calls, ((start source).asked calls).offset ≤ source.length := by
  intro h
  have hle := h (utf8 "\\text\x7b\\") [.take, .take]
  revert hle
  decide +kernel

end Cursor

end MathMarkup
