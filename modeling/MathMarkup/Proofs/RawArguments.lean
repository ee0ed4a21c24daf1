/-
MathMarkup/Proofs/RawArguments.lean

Raw arguments are read exactly.  The argument of `\text`, `\mbox` and `\hspace` is
taken as it stands, up to its closing brace.  For this its braces have to be
balanced, and a backslash takes the byte behind it along, so that a brace behind a
backslash does not count.  `IsBalanced` says so without a counter: the text falls into
single bytes and pairs with a backslash in front, no beginning of it closes more
braces than it opens, and all of it closes as many as it opens.

`Lexer.rawLength` counts the braces that are open.  What it stops at from some depth
on is what closes this depth (`rawLength_flatten`, `stopsAt_of_rawLength`), by induction
on the chunks of the text and on the bytes.  From this come both halves of the main
result, and that the argument comes out of compiling unchanged, for whatever follows.
-/
import MathMarkup.Proofs.Conservation
import MathMarkup.Proofs.Digits
import MathMarkup.Proofs.Tiling

namespace MathMarkup

/-! ### Texts whose braces are balanced -/

namespace Raw

/-- A brace that opens, by itself. -/
def opening : Bytes :=
  [ascii '\x7b']

/-- A brace that closes, by itself. -/
def closing : Bytes :=
  [ascii '\x7d']

/-- What is taken together: a backslash and the byte behind it; any other byte stands
by itself. -/
inductive IsChunk : Bytes → Prop
  | byte {b : UInt8} : b ≠ ascii '\\' → IsChunk [b]
  | escape (b : UInt8) : IsChunk [ascii '\\', b]

/-- Chunks that close all braces, `depth` of them having been opened before. -/
structure ClosesAll (depth : Nat) (us : List Bytes) : Prop where
  /-- No brace is closed that is not open. -/
  covered : ∀ vs, vs <+: us → vs.count closing ≤ depth + vs.count opening
  /-- None is left open. -/
  total : us.count closing = depth + us.count opening

/-- A text of which the first `n` bytes close all braces and a further closing brace
comes next. -/
def StopsAt (depth n : Nat) (s : Bytes) : Prop :=
  ∃ us r, s = us.flatten ++ ascii '\x7d' :: r ∧ us.flatten.length = n ∧
    (∀ u ∈ us, IsChunk u) ∧ ClosesAll depth us

/-- A text with balanced braces, if every backslash is taken together with the byte
behind it. -/
def IsBalanced (d : Bytes) : Prop :=
  ∃ us : List Bytes, us.flatten = d ∧ (∀ u ∈ us, IsChunk u) ∧ ClosesAll 0 us

section

variable {depth : Nat} {u : Bytes} {us : List Bytes}

theorem closesAll_nil : ClosesAll depth [] ↔ depth = 0 := by
  constructor
  · intro h
    exact h.total.symm
  · rintro rfl
    exact ⟨fun vs hvs => by simp [List.prefix_nil.mp hvs], rfl⟩

theorem closesAll_cons_iff : ClosesAll depth (u :: us) ↔
    (∀ vs, vs <+: us → (u :: vs).count closing ≤ depth + (u :: vs).count opening) ∧
      (u :: us).count closing = depth + (u :: us).count opening := by
  constructor
  · intro h
    exact ⟨fun vs hvs => h.covered _ (List.cons_prefix_cons.mpr ⟨rfl, hvs⟩), h.total⟩
  · rintro ⟨hcovered, htotal⟩
    refine ⟨fun vs hvs => ?_, htotal⟩
    rcases List.prefix_cons_iff.mp hvs with rfl | ⟨ws, rfl, hws⟩
    · exact Nat.zero_le _
    · exact hcovered ws hws

theorem closesAll_opening : ClosesAll depth (opening :: us) ↔ ClosesAll (depth + 1) us := by
  have hclosing (vs : List Bytes) : (opening :: vs).count closing = vs.count closing :=
    List.count_cons_of_ne (by decide)
  rw [closesAll_cons_iff]
  simp only [hclosing, List.count_cons_self, ← Nat.add_assoc, Nat.add_right_comm _ _ 1]
  exact ⟨fun h => ⟨h.1, h.2⟩, fun h => ⟨h.covered, h.total⟩⟩

theorem closesAll_closing :
    ClosesAll depth (closing :: us) ↔ ∃ k, depth = k + 1 ∧ ClosesAll k us := by
  have hopening (vs : List Bytes) : (closing :: vs).count opening = vs.count opening :=
    List.count_cons_of_ne (by decide)
  rw [closesAll_cons_iff]
  simp only [hopening, List.count_cons_self]
  constructor
  · rintro ⟨hcovered, htotal⟩
    have hpos : 0 + 1 ≤ depth + 0 := hcovered [] List.nil_prefix
    obtain ⟨k, rfl⟩ : ∃ k, depth = k + 1 := ⟨depth - 1, by omega⟩
    refine ⟨k, rfl, fun vs hvs => ?_, by omega⟩
    have := hcovered vs hvs
    omega
  · rintro ⟨k, rfl, h⟩
    refine ⟨fun vs hvs => ?_, ?_⟩
    · have := h.covered vs hvs
      omega
    · have := h.total
      omega

theorem closesAll_other (hopening : u ≠ opening) (hclosing : u ≠ closing) :
    ClosesAll depth (u :: us) ↔ ClosesAll depth us := by
  rw [closesAll_cons_iff]
  simp only [List.count_cons_of_ne hopening, List.count_cons_of_ne hclosing]
  exact ⟨fun h => ⟨h.1, h.2⟩, fun h => ⟨h.covered, h.total⟩⟩

end

end Raw

open Raw

namespace Lexer

/-! ### The counter -/

theorem rawLength_escape (depth : Nat) (b : UInt8) (s : Bytes) :
    rawLength depth (ascii '\\' :: b :: s) = addLength 2 (rawLength depth s) := by
  rw [rawLength.eq_def]
  rfl

theorem rawLength_opening (depth : Nat) (s : Bytes) :
    rawLength depth (ascii '\x7b' :: s) = addLength 1 (rawLength (depth + 1) s) := by
  rw [rawLength.eq_def]
  rfl

theorem rawLength_closing_zero (s : Bytes) : rawLength 0 (ascii '\x7d' :: s) = .ok 0 := by
  rw [rawLength.eq_def]
  rfl

theorem rawLength_closing_succ (depth : Nat) (s : Bytes) :
    rawLength (depth + 1) (ascii '\x7d' :: s) = addLength 1 (rawLength depth s) := by
  rw [rawLength.eq_def]
  rfl

theorem rawLength_other {b : UInt8} (hescape : b ≠ ascii '\\') (hopening : b ≠ ascii '\x7b')
    (hclosing : b ≠ ascii '\x7d') (depth : Nat) (s : Bytes) :
    rawLength depth (b :: s) = addLength 1 (rawLength depth s) := by
  rw [rawLength.eq_def]
  simp [hescape, hopening, hclosing]

theorem addLength_addLength (m n : Nat) (r : Except Nat Nat) :
    addLength m (addLength n r) = addLength (m + n) r := by
  cases r <;> simp [addLength, Nat.add_assoc]

/-- Chunks are passed over, and what closes the braces behind them is told by what
closes those in front. -/
theorem rawLength_append {depth : Nat} {us ws : List Bytes} (hus : ∀ u ∈ us, IsChunk u)
    (h : ClosesAll depth (us ++ ws)) (t : Bytes) :
    ∃ k, ClosesAll k ws ∧
      rawLength depth (us.flatten ++ t) = addLength us.flatten.length (rawLength k t) := by
  induction us generalizing depth with
  | nil =>
    refine ⟨depth, h, ?_⟩
    show rawLength depth t = addLength 0 (rawLength depth t)
    cases rawLength depth t <;> simp [addLength]
  | cons u us ih =>
    have ih {depth : Nat} (h : ClosesAll depth (us ++ ws)) := ih (fun v hv => hus v (.tail _ hv)) h
    simp only [List.flatten_cons, List.length_append, ← addLength_addLength, List.append_assoc]
    -- Only a brace that stands by itself changes the depth.
    cases hus u (.head _) with
    | escape b =>
      obtain ⟨k, hk, hraw⟩ := ih ((closesAll_other (by simp [opening]) (by simp [closing])).mp h)
      exact ⟨k, hk, (rawLength_escape depth b _).trans (congrArg (addLength 2) hraw)⟩
    | @byte b hb =>
      by_cases hopening : b = ascii '\x7b'
      · subst hopening
        obtain ⟨k, hk, hraw⟩ := ih (closesAll_opening.mp h)
        exact ⟨k, hk, (rawLength_opening depth _).trans (congrArg (addLength 1) hraw)⟩
      by_cases hclosing : b = ascii '\x7d'
      · subst hclosing
        obtain ⟨depth, rfl, hrest⟩ := closesAll_closing.mp h
        obtain ⟨k, hk, hraw⟩ := ih hrest
        exact ⟨k, hk, (rawLength_closing_succ depth _).trans (congrArg (addLength 1) hraw)⟩
      obtain ⟨k, hk, hraw⟩ :=
        ih ((closesAll_other (by simpa [opening]) (by simpa [closing])).mp h)
      exact ⟨k, hk, (rawLength_other hb hopening hclosing depth _).trans
        (congrArg (addLength 1) hraw)⟩

/-- What closes all open braces is passed over up to the next closing brace. -/
theorem rawLength_flatten {depth : Nat} {us : List Bytes} (hus : ∀ u ∈ us, IsChunk u)
    (h : ClosesAll depth us) (r : Bytes) :
    rawLength depth (us.flatten ++ ascii '\x7d' :: r) = .ok us.flatten.length := by
  have hall : ClosesAll depth (us ++ []) := by rwa [List.append_nil]
  obtain ⟨k, hk, hraw⟩ := rawLength_append hus hall (ascii '\x7d' :: r)
  obtain rfl := closesAll_nil.mp hk
  rw [hraw, rawLength_closing_zero]
  rfl

/-- Where the counter can come to an end.  It passes over chunks, behind which `k`
braces are open, and reaches the end of the text, a backslash with nothing behind it,
or the brace that closes the argument. -/
def Ends (depth : Nat) (s : Bytes) (length : Except Nat Nat) : Prop :=
  ∃ us k t, s = us.flatten ++ t ∧ (∀ u ∈ us, IsChunk u) ∧
    (∀ ws, ClosesAll k ws → ClosesAll depth (us ++ ws)) ∧
    ((t = [] ∧ length = .error us.flatten.length) ∨
      (t = [ascii '\\'] ∧ length = .error (us.flatten.length + 2)) ∨
      (k = 0 ∧ ∃ r, t = ascii '\x7d' :: r ∧ length = .ok us.flatten.length))

/-- One more chunk in front. -/
theorem Ends.cons {depth k : Nat} {u s : Bytes} {length : Except Nat Nat} (h : Ends k s length)
    (hu : IsChunk u) (hcloses : ∀ {us}, ClosesAll k us → ClosesAll depth (u :: us)) :
    Ends depth (u ++ s) (addLength u.length length) := by
  obtain ⟨us, j, t, rfl, hus, hj, hend⟩ := h
  refine ⟨u :: us, j, t, ?_, List.forall_mem_cons.mpr ⟨hu, hus⟩, fun ws hws => hcloses (hj ws hws),
    ?_⟩
  · rw [List.flatten_cons, List.append_assoc]
  · rw [List.flatten_cons, List.length_append]
    obtain ⟨rfl, rfl⟩ | ⟨rfl, rfl⟩ | ⟨rfl, r, rfl, rfl⟩ := hend
    · exact .inl ⟨rfl, rfl⟩
    · exact .inr (.inl ⟨rfl, rfl⟩)
    · exact .inr (.inr ⟨rfl, r, rfl, rfl⟩)

/-- The counter does nothing else; by induction on the bytes. -/
theorem ends_rawLength (depth : Nat) (s : Bytes) : Ends depth s (rawLength depth s) := by
  fun_induction rawLength depth s with
  | case1 depth =>
    exact ⟨[], depth, [], rfl, List.forall_mem_nil _, fun _ h => h, .inl ⟨rfl, rfl⟩⟩
  | case2 depth b hb =>
    obtain rfl := eq_of_beq hb
    exact ⟨[], depth, _, rfl, List.forall_mem_nil _, fun _ h => h, .inr (.inl ⟨rfl, rfl⟩)⟩
  | case3 depth b hb a rest ih =>
    obtain rfl := eq_of_beq hb
    exact ih.cons (.escape a) (closesAll_other (by simp [opening]) (by simp [closing])).mpr
  | case4 depth b rest hb hopen ih =>
    obtain rfl := eq_of_beq hopen
    exact ih.cons (.byte (by decide)) closesAll_opening.mpr
  | case5 b rest hb hopen hclose =>
    obtain rfl := eq_of_beq hclose
    exact ⟨[], 0, _, rfl, List.forall_mem_nil _, fun _ h => h, .inr (.inr ⟨rfl, rest, rfl, rfl⟩)⟩
  | case6 b rest hb hopen hclose depth ih =>
    obtain rfl := eq_of_beq hclose
    exact ih.cons (.byte (by decide)) fun hus => closesAll_closing.mpr ⟨depth, rfl, hus⟩
  | case7 depth b rest hb hopen hclose ih =>
    exact ih.cons (.byte (by simpa using hb))
      (closesAll_other (by simpa [opening] using hopen) (by simpa [closing] using hclose)).mpr

/-- The counter stops nowhere else. -/
theorem stopsAt_of_rawLength {depth n : Nat} {s : Bytes} (h : rawLength depth s = .ok n) :
    StopsAt depth n s := by
  obtain ⟨us, k, t, rfl, hus, hcloses, ⟨-, hraw⟩ | ⟨-, hraw⟩ | ⟨rfl, r, rfl, hraw⟩⟩ :=
    ends_rawLength depth s
  · cases h.symm.trans hraw
  · cases h.symm.trans hraw
  · obtain rfl := Except.ok.inj (h.symm.trans hraw)
    have hall := hcloses [] (closesAll_nil.mpr rfl)
    rw [List.append_nil] at hall
    exact ⟨us, r, rfl, rfl, hus, hall⟩

/-- Whether braces are balanced can be seen from where the counter stops. -/
theorem isBalanced_iff {d : Bytes} :
    IsBalanced d ↔ (rawLength 0 (d ++ [ascii '\x7d'])).toOption = some d.length := by
  constructor
  · rintro ⟨us, rfl, hus, hcloses⟩
    rw [rawLength_flatten hus hcloses []]
    rfl
  · intro h
    cases hraw : rawLength 0 (d ++ [ascii '\x7d']) with
    | error n =>
      rw [hraw] at h
      cases h
    | ok n =>
      rw [hraw] at h
      obtain rfl := Option.some.inj h
      obtain ⟨us, r, htext, hlength, hus, hcloses⟩ := stopsAt_of_rawLength hraw
      exact ⟨us, (List.append_inj_left htext hlength.symm).symm, hus, hcloses⟩

instance : DecidablePred IsBalanced :=
  fun _ => decidable_of_iff' _ isBalanced_iff

/-! ### Reading -/

/-- A command with its raw argument. -/
def rawCommand (kind d : Bytes) : Bytes :=
  ascii '\\' :: (kind ++ ascii '\x7b' :: (d ++ [ascii '\x7d']))

theorem word_of_isVerbatim {kind : Bytes} (h : Vocabulary.isVerbatim kind = true) :
    kind ≠ [] ∧ kind.all Byte.isLetter = true ∧ (kind == utf8 "begin") = false ∧
      (kind == utf8 "end") = false := by
  simp only [Vocabulary.isVerbatim, Bool.or_eq_true, beq_iff_eq] at h
  rcases h with (rfl | rfl) | rfl <;> decide

theorem drop_rawCommand (kind d r : Bytes) :
    (ascii '\\' :: (kind ++ ascii '\x7b' :: (d ++ ascii '\x7d' :: r))).drop
      (rawCommand kind d).length = r := by
  have hwhole : ascii '\\' :: (kind ++ ascii '\x7b' :: (d ++ ascii '\x7d' :: r)) =
      rawCommand kind d ++ r := by
    simp [rawCommand]
  rw [hwhole, List.drop_left]

/-- A balanced argument is read as it stands. -/
theorem finds_rawCommand {kind d : Bytes} (hkind : Vocabulary.isVerbatim kind = true)
    (hd : IsBalanced d) (mode : Mode) (r : Bytes) :
    Finds mode (rawCommand kind d ++ r) (.verbatim kind d) (ascii '\\')
      (kind ++ ascii '\x7b' :: (d ++ ascii '\x7d' :: r)) (rawCommand kind d).length := by
  obtain ⟨hne, hletters, hbegin, hend⟩ := word_of_isVerbatim hkind
  have hraw : rawLength 0 (d ++ ascii '\x7d' :: r) = .ok d.length := by
    obtain ⟨us, rfl, hus, hcloses⟩ := hd
    exact rawLength_flatten hus hcloses r
  refine ⟨?_, fun offset => ?_⟩
  · have hlayout : layout false (rawCommand kind d ++ r) = 0 := rfl
    rw [hlayout]
    simp [rawCommand]
  · rw [read_word hne hletters (by rintro b ⟨⟩; decide)]
    simp only [readBehind, hbegin, hend, hkind, if_true, if_false, Bool.false_eq_true]
    have hlayout : layout false (ascii '\x7b' :: (d ++ ascii '\x7d' :: r)) = 0 := rfl
    rw [readVerbatim_eq rfl hraw, List.take_left, hlayout]
    simp only [Reading.shift, rawCommand, List.length_cons, List.length_append, List.length_nil]
    congr 1
    omega

theorem ne_verbatim {t : Token} (h : t.isRaw = false) (kind data : Bytes) :
    t ≠ .verbatim kind data := by
  rintro rfl
  cases h

theorem isRaw_symbol (b : UInt8) : (Vocabulary.symbol b).isRaw = false := by
  unfold Vocabulary.symbol
  repeat' split
  all_goals rfl

theorem isRaw_of_command? {name : Bytes} {t : Token} (h : Vocabulary.command? name = some t) :
    t.isRaw = false := by
  have hall : ∀ entry ∈ Vocabulary.commands, entry.2.isRaw = false := by decide +kernel
  obtain ⟨before, after, hsplit, -⟩ := List.lookup_eq_some_iff.mp h
  refine hall (name, t) ?_
  rw [hsplit]
  simp

theorem isRaw_escaped (code : Nat) : (escaped code).isRaw = false := by
  unfold escaped
  dsimp only
  split
  · rfl
  split
  · rfl
  split
  · next t ht => exact isRaw_of_command? ht
  · rfl

theorem isRaw_of_readEnvironment {token : Bytes → Token} {offset : Nat} {s : Bytes} {t : Token}
    (htoken : ∀ name, (token name).isRaw = false)
    (h : (readEnvironment token offset s).result = .ok t) : t.isRaw = false := by
  simp only [readEnvironment] at h
  split at h
  · cases h
  split at h
  · cases h
  split at h
  · cases h
  · obtain rfl := Except.ok.inj h
    exact htoken _

theorem readVerbatim_of_readBehind {name kind data s : Bytes} {offset : Nat}
    (h : (readBehind name offset s).result = .ok (.verbatim kind data)) :
    (readVerbatim name offset s).result = .ok (.verbatim kind data) := by
  unfold readBehind at h
  split at h
  · exact absurd rfl (ne_verbatim (isRaw_of_readEnvironment (fun _ => rfl) h) kind data)
  split at h
  · exact absurd rfl (ne_verbatim (isRaw_of_readEnvironment (fun _ => rfl) h) kind data)
  split at h
  · exact h
  · cases hname : Vocabulary.command? name with
    | some t =>
      rw [hname] at h
      exact absurd (Except.ok.inj h) (ne_verbatim (isRaw_of_command? hname) kind data)
    | none =>
      rw [hname] at h
      cases h

/-- Raw arguments are read behind a backslash and a word only. -/
theorem exists_readVerbatim_of_read {mode : Mode} {offset : Nat} {a : UInt8}
    {rest kind data : Bytes} (h : (read mode offset a rest).result = .ok (.verbatim kind data)) :
    ∃ name offset s, (readVerbatim name offset s).result = .ok (.verbatim kind data) := by
  unfold read at h
  -- The tests in the order in which reading makes them.
  split at h
  · cases h
  split at h
  · cases h
  split at h
  · cases rest with
    | nil => cases h
    | cons b rest =>
      simp only [Reading.shift, readBackslash] at h
      split at h
      · exact ⟨_, _, _, readVerbatim_of_readBehind h⟩
      · exact absurd (Except.ok.inj h) (ne_verbatim (isRaw_escaped _) kind data)
  split at h
  · cases h
  split at h
  · cases h
  split at h
  · cases h
  split at h
  · exact absurd (Except.ok.inj h) (ne_verbatim (isRaw_symbol a) kind data)
  · refine absurd (Except.ok.inj h) (ne_verbatim ?_ kind data)
    split <;> rfl

/-- What is read as a raw argument is balanced. -/
theorem isBalanced_of_read {mode : Mode} {offset : Nat} {a : UInt8} {rest kind data : Bytes}
    (h : (read mode offset a rest).result = .ok (.verbatim kind data)) : IsBalanced data := by
  obtain ⟨name, offset, s, h⟩ := exists_readVerbatim_of_read h
  obtain ⟨text, n, hopen, hraw⟩ := exists_of_readVerbatim h
  rw [readVerbatim_eq hopen hraw] at h
  obtain ⟨-, rfl⟩ := Token.verbatim.inj (Except.ok.inj h)
  obtain ⟨us, r, rfl, rfl, hus, hcloses⟩ := stopsAt_of_rawLength hraw
  exact ⟨us, List.take_left.symm, hus, hcloses⟩

end Lexer

open Lexer

/-- All raw arguments of a source are balanced, those behind an error too. -/
theorem Cursor.isBalanced_of_foundAt {source kind data : Bytes} {n : Nat}
    (h : (start source).foundAt n = .token (.verbatim kind data)) : IsBalanced data := by
  obtain ⟨s, -, -, hfound, -⟩ := exists_step source n
  have hnext : s.next = (.token (.verbatim kind data), s.next.2) :=
    Prod.ext (hfound.symm.trans h) rfl
  obtain ⟨a, rest, hread⟩ := Scanner.exists_read_of_next hnext
  exact isBalanced_of_read hread

/-- A balanced argument is taken whole, and nothing behind it. -/
theorem Cursor.take_rawCommand {kind d : Bytes} (hkind : Vocabulary.isVerbatim kind = true)
    (hd : IsBalanced d) (r : Bytes) :
    (start (rawCommand kind d ++ r)).take =
      (.token (.verbatim kind d), ⟨⟨(rawCommand kind d).length, r, .plain⟩, 0, none⟩) := by
  have hfinds : Finds (Scanner.start (rawCommand kind d ++ r)).mode _ _ _ _ _ :=
    finds_rawCommand hkind hd .plain r
  have hnext := Scanner.next_of_finds hfinds
  rw [drop_rawCommand] at hnext
  have hlayout : layout false (Scanner.start (rawCommand kind d ++ r)).rest = 0 := rfl
  rw [take_of_peeked_eq_none rfl, start, hnext, hlayout]
  simp [Scanner.start, Mode.after, Token.actsOnDigit, Token.takesDelimiter]

/-! ### Compiling -/

namespace Node

/-- `Bears n k`: the node `k` is `n`, maybe with scripts. -/
inductive Bears (n : Node) : Node → Prop
  | self : Bears n n
  | scripted {k : Node} (sub sup : Option Node) : Bears n k → Bears n (k.scripted sub sup)

theorem Bears.attach {n k : Node} (h : Bears n k) (op : Script) (script : Node) :
    Bears n (k.attach op script) := by
  cases op with
  | sub => exact h.scripted (some script) none
  | sup => exact h.scripted none (some script)

end Node

theorem Token.leaf?_of_takesArguments {t : Token} (h : t.takesArguments = true) :
    t.leaf? = none := by
  cases t <;> first | rfl | cases h

theorem Token.leaf?_of_takesLimits {t : Token} (h : t.takesLimits = true) : t.leaf? = none := by
  cases t <;> first | rfl | cases h

/-- What begins with the token of a leaf begins with this leaf. -/
theorem Spelled.exists_bears {t : Token} {n : Node} (ht : t.leaf? = some n) {p : Phrase}
    {ts us : List Token} (h : Spelled p ts) (hts : ts = t :: us) :
    ∃ k ks, p = .nodes (k :: ks) ∧ n.Bears k := by
  have front {p : Phrase} {ts vs us : List Token} (h : Spelled p ts) (hp : p ≠ .nodes [])
      (hts : ts ++ vs = t :: us) : ∃ ws, ts = t :: ws := by
    rcases List.append_eq_cons_iff.mp hts with ⟨hnil, -⟩ | ⟨ws, hws, -⟩
    · exact absurd hnil (h.ne_nil hp)
    · exact ⟨ws, hws⟩
  have other {u : Token} {vs us : List Token} (hu : u.leaf? = none) (hts : u :: vs = t :: us) :
      False := by
    obtain ⟨rfl, -⟩ := List.cons.inj hts
    rw [hu] at ht
    cases ht
  have single {k : Node} (h : ∃ k' ks, Phrase.nodes [k] = .nodes (k' :: ks) ∧ n.Bears k') :
      n.Bears k := by
    obtain ⟨k', ks, hnodes, hbears⟩ := h
    obtain ⟨rfl, -⟩ := List.cons.inj (Phrase.nodes.inj hnodes)
    exact hbears
  -- Commands and large operators begin with a token of their own, which is no leaf.
  induction h generalizing us with
  | nil => cases hts
  | @append ns ms _ _ hns _ ih ih' =>
    cases ns with
    | nil =>
      obtain rfl := hns.eq_nil
      exact ih' hts
    | cons k ks =>
      obtain ⟨ws, rfl⟩ := front hns (by simp) hts
      obtain ⟨k', ks', hnodes, hbears⟩ := ih rfl
      obtain ⟨rfl, rfl⟩ := List.cons.inj (Phrase.nodes.inj hnodes)
      exact ⟨k, ks ++ ms, rfl, hbears⟩
  | leaf hleaf =>
    obtain ⟨rfl, -⟩ := List.cons.inj hts
    obtain rfl := Option.some.inj (hleaf.symm.trans ht)
    exact ⟨_, [], rfl, .self⟩
  | primed count hbase ih =>
    obtain ⟨ws, rfl⟩ := front hbase (by simp) hts
    exact ⟨_, [], rfl, (single (ih rfl)).attach .sup _⟩
  | script op hbase _ ih _ =>
    obtain ⟨ws, rfl⟩ := front hbase (by simp) hts
    exact ⟨_, [], rfl, (single (ih rfl)).attach op _⟩
  | @scripts _ k k' _ _ _ op hbase _ _ ih _ _ =>
    obtain ⟨ws, rfl⟩ := front hbase (by simp) hts
    refine ⟨_, [], rfl, ?_⟩
    cases op with
    | sub => exact (single (ih rfl)).scripted (some k) (some k')
    | sup => exact (single (ih rfl)).scripted (some k') (some k)
  | argument _ ha _ ih _ | label _ _ ha _ ih _ =>
    obtain ⟨ws, rfl⟩ := front ha (by simp) hts
    obtain ⟨k, ks, hnodes, -⟩ := ih rfl
    cases hnodes
  | switch _ hl ih =>
    obtain ⟨ws, rfl⟩ := front hl (by simp) hts
    obtain ⟨k, ks, hnodes, -⟩ := ih rfl
    cases hnodes
  | limit _ hl _ ih _ =>
    obtain ⟨ws, rfl⟩ := front hl (by simp) hts
    obtain ⟨k, ks, hnodes, -⟩ := ih rfl
    cases hnodes
  | applied _ ih | limited _ ih =>
    obtain ⟨k, ks, hnodes, -⟩ := ih hts
    cases hnodes
  | command htakes => exact (other (Token.leaf?_of_takesArguments htakes) hts).elim
  | large htakes => exact (other (Token.leaf?_of_takesLimits htakes) hts).elim
  | _ => exact (other rfl hts).elim

/-- Markup begins with what its first node bears. -/
theorem Node.Bears.items {table : Table} {v : Variant} {n k : Node} {m : Markup}
    (h : n.Bears k) (hm : Lowering.lower table v k = .ok m) :
    ∃ l, Lowering.lower table v n = .ok l ∧ l.items <+: m.items := by
  induction h generalizing m with
  | self => exact ⟨m, hm, List.prefix_rfl⟩
  | @scripted k sub sup _ ih =>
    obtain ⟨ms, hms, hitems⟩ := Lowering.items_of_scripted hm
    obtain ⟨bases, scripts, hbases, -, rfl⟩ := Lowering.lowerAll_append_eq_ok.mp hms
    obtain ⟨base, hbase, rfl⟩ := Lowering.lowerAll_singleton_eq_ok.mp hbases
    obtain ⟨l, hl, hstart⟩ := ih hbase
    refine ⟨l, hl, hstart.trans ?_⟩
    rw [hitems]
    exact List.prefix_append _ _

theorem leaf?_of_text {kind : Bytes} (h : kind = utf8 "text" ∨ kind = utf8 "mbox") (d : Bytes) :
    Vocabulary.isVerbatim kind = true ∧
      (Token.verbatim kind d).leaf? = some (.leaf .text d (some (.verbatim kind d))) := by
  rcases h with rfl | rfl <;> exact ⟨rfl, rfl⟩

/-- A text is compiled to a text. -/
theorem compile_rawCommand {kind d : Bytes} (hkind : kind = utf8 "text" ∨ kind = utf8 "mbox")
    (hd : IsBalanced d) (table : Table) :
    compile table (rawCommand kind d) = .ok (.root .inline [.text d]) := by
  obtain ⟨hraw, -⟩ := leaf?_of_text hkind d
  have htokens : Tokenizes (rawCommand kind d) [.verbatim kind d] := by
    have hfinds := finds_rawCommand hraw hd .plain []
    rw [List.append_nil] at hfinds
    refine tokenizes_iff.mpr (.token hfinds (.done ?_))
    rw [drop_rawCommand]
    rfl
  have houtcome : State.start.outcome [.verbatim kind d] =
      some [.leaf .text d (some (.verbatim kind d))] := by
    rcases hkind with rfl | rfl <;> rfl
  exact compile_eq_ok_iff.mpr ⟨_, [.text d], htokens.parse_eq houtcome, rfl, rfl⟩

/-- The first item of compiled markup is the text that the source begins with. -/
theorem items_of_compile_rawCommand {kind d r : Bytes} {table : Table} {m : Markup}
    (hkind : kind = utf8 "text" ∨ kind = utf8 "mbox") (hd : IsBalanced d)
    (h : compile table (rawCommand kind d ++ r) = .ok m) : m.items.head? = some (.text d) := by
  obtain ⟨hraw, hleaf⟩ := leaf?_of_text hkind d
  obtain ⟨ns, ms, hparse, hms, rfl⟩ := compile_eq_ok_iff.mp h
  obtain ⟨ts, hscans, hreads⟩ := parse_iff.mp hparse
  obtain ⟨us, rfl, -⟩ := (finds_rawCommand hraw hd .plain r).scans_iff.mp hscans
  obtain ⟨k, ks, hnodes, hbears⟩ := hreads.spelled.exists_bears hleaf rfl
  obtain rfl := Phrase.nodes.inj hnodes
  obtain ⟨m, ms, hm, -, rfl⟩ := Lowering.lowerAll_cons_eq_ok.mp hms
  obtain ⟨l, hl, hstart⟩ := hbears.items hm
  obtain rfl := Except.ok.inj hl
  have htext : (Markup.text d).items = [.text d] := Markup.items_eq (.text d)
  rw [htext] at hstart
  obtain ⟨more, hmore⟩ := hstart
  rw [Markup.items_of_none rfl, Markup.children, Markup.itemsAll_cons, ← hmore]
  rfl

/-! ### Main result -/

/-- **Raw arguments are read exactly.**  The argument is what stands in the braces, and
reading goes on right behind them, if and only if this is balanced.  So every raw
argument of a source is balanced; and the argument of `\text` or `\mbox` is compiled to
a text that carries it unchanged, whatever the table says and whatever follows. -/
theorem raw_arguments_exact :
    (∀ kind ∈ [utf8 "text", utf8 "mbox", utf8 "hspace"], ∀ d r,
        (Cursor.start (rawCommand kind d ++ r)).take =
            (.token (.verbatim kind d), ⟨⟨(rawCommand kind d).length, r, .plain⟩, 0, none⟩) ↔
          IsBalanced d) ∧
      (∀ source n kind data,
        (Cursor.start source).foundAt n = .token (.verbatim kind data) → IsBalanced data) ∧
      ∀ kind ∈ [utf8 "text", utf8 "mbox"], ∀ d, IsBalanced d → ∀ table,
        compile table (rawCommand kind d) = .ok (.root .inline [.text d]) ∧
          ∀ r m, compile table (rawCommand kind d ++ r) = .ok m →
            m.items.head? = some (.text d) := by
  refine ⟨fun kind hkind d r => ⟨fun h => ?_, fun hd => ?_⟩, ?_, fun kind hkind d hd table => ?_⟩
  · -- The token alone says that its argument is balanced, wherever the cursor is.
    exact Cursor.isBalanced_of_foundAt (n := 0) (congrArg Prod.fst h)
  · refine Cursor.take_rawCommand ?_ hd r
    simp only [List.mem_cons, List.not_mem_nil, or_false] at hkind
    rcases hkind with rfl | rfl | rfl <;> rfl
  · exact fun source n kind data => Cursor.isBalanced_of_foundAt
  · have hkind : kind = utf8 "text" ∨ kind = utf8 "mbox" := by simpa using hkind
    exact ⟨compile_rawCommand hkind hd table,
      fun r m => items_of_compile_rawCommand hkind hd⟩

/-- Braces that count and braces behind a backslash, a backslash that takes the closing
brace along, and a script behind a text. -/
theorem raw_arguments_exact_escaped :
    let d := utf8 "a\\\x7d\x7b\\\\\x7d"
    let table := Table.empty
    IsBalanced d ∧
      (Cursor.start (rawCommand (utf8 "hspace") d ++ utf8 "\x7d")).take.1 =
        .token (.verbatim (utf8 "hspace") d) ∧
      (Cursor.start (rawCommand (utf8 "mbox") (utf8 "a\\") ++ utf8 "\x7d")).foundAt 0 ≠
        .token (.verbatim (utf8 "mbox") (utf8 "a\\")) ∧
      compile table (rawCommand (utf8 "text") d) = .ok (.root .inline [.text d]) ∧
      ∃ m, compile table (rawCommand (utf8 "text") d ++ utf8 "^2") = .ok m ∧
        m.items.head? = some (.text d) := by
  intro d table
  have hd : IsBalanced (utf8 "a\\\x7d\x7b\\\\\x7d") := by decide +kernel
  have hbare : ¬ IsBalanced (utf8 "a\\") := by decide +kernel
  obtain ⟨htake, hfound, hcompile⟩ := raw_arguments_exact
  obtain ⟨hwhole, hfirst⟩ := hcompile (utf8 "text") (by simp) d hd table
  obtain ⟨m, hm⟩ := exists_ok_of_isOk
    (r := compile table (rawCommand (utf8 "text") d ++ utf8 "^2")) (by decide +kernel)
  refine ⟨hd, ?_, fun h => hbare (hfound _ 0 _ _ h), hwhole, m, hm, hfirst _ m hm⟩
  exact congrArg Prod.fst ((htake (utf8 "hspace") (by simp) d (utf8 "\x7d")).mpr hd)

end MathMarkup
