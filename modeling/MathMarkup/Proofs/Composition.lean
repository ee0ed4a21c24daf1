/-
MathMarkup/Proofs/Composition.lean

Sources one below the other, and sources in braces.

When a line ends between two sources, the tokens of the whole are those of the
first followed by those of the second, read in the mode that the first one
leaves behind (`Scans.append`).  That mode is `plain` whenever the first source
is complete: a command that would take a digit, or `\left`, `\right` and
`\middle`, which take a delimiter, cannot be the last token of a tree in which
nothing is missing (`Spelled.behind_eq_plain`, by induction on how the tree is
written).

With the tokens known, how they are read is a matter of the seam, see
`Settles`.  Behind a source in braces it is a closer, which leaves everything
finished, so that nothing has to be asked of the source (`Reads.group`).
-/
import MathMarkup.Proofs.Layout

namespace MathMarkup

open Lexer

/-! ### The tokens of two sources -/

namespace Lexer

/-- The mode behind some tokens. -/
def Mode.behind (mode : Mode) (ts : List Token) : Mode :=
  ts.foldl (fun _ t => .after t) mode

@[simp] theorem Mode.behind_append (mode : Mode) (ts us : List Token) :
    mode.behind (ts ++ us) = (mode.behind ts).behind us :=
  List.foldl_append

@[simp] theorem Mode.behind_cons (mode : Mode) (t : Token) (ts : List Token) :
    mode.behind (t :: ts) = (Mode.after t).behind ts :=
  rfl

/-- Layout up to the end of a text, a comment included that the line feed ends. -/
theorem layout_append_lineFeed {comment : Bool} {s : Bytes}
    (h : s.drop (layout comment s) = []) (r : Bytes) :
    layout comment (s ++ ascii '\n' :: r) = s.length + 1 + layout false r := by
  induction s generalizing comment with
  | nil =>
    have hnil : layout comment (ascii '\n' :: r) = layout false r + 1 := by
      cases comment <;> rfl
    show layout comment (ascii '\n' :: r) = 0 + 1 + layout false r
    omega
  | cons b s ih =>
    rw [List.length_cons]
    cases comment with
    | true =>
      simp only [layout, List.cons_append, List.drop_succ_cons] at h ⊢
      rw [ih h]
      omega
    | false =>
      simp only [layout, List.cons_append] at h ⊢
      split
      · next hb =>
        rw [if_pos hb] at h
        rw [ih h]
        omega
      next hb =>
      rw [if_neg hb] at h
      split
      · next hc =>
        rw [if_pos hc] at h
        rw [ih h]
        omega
      · next hc =>
        rw [if_neg hc] at h
        cases h

/-- The same token when a line and more follows. -/
theorem Finds.append {mode : Mode} {s rest r : Bytes} {t : Token} {a : UInt8} {width : Nat}
    (h : Finds mode s t a rest width) (hr : LineEnd r) :
    Finds mode (s ++ r) t a (rest ++ r) width := by
  have hlength := congrArg List.length h.text
  simp only [List.length_drop, List.length_cons] at hlength
  have hlayout : layout false (s ++ r) = layout false s :=
    layout_recut (n := layout false s + 1) (.whole hr) (by omega) (by omega)
  refine h.recut ?_ (.whole hr)
  rw [hlayout, List.drop_append_of_le_length (by omega), h.text]
  rfl

/-- What is in front of the first token does not matter. -/
theorem Scans.of_drop {mode : Mode} {s s' : Bytes} {ts : List Token} (h : Scans mode s ts)
    (hs : s'.drop (layout false s') = s.drop (layout false s)) : Scans mode s' ts := by
  cases h with
  | done hlayout => exact .done (hs.trans hlayout)
  | token hfinds hlater => exact .token ⟨hs.trans hfinds.text, hfinds.read⟩ hlater

/-- The first token of a text and those behind it. -/
theorem Finds.scans_iff {mode : Mode} {s rest : Bytes} {t : Token} {a : UInt8} {width : Nat}
    {ts : List Token} (h : Finds mode s t a rest width) :
    Scans mode s ts ↔ ∃ us, ts = t :: us ∧ Scans (.after t) ((a :: rest).drop width) us := by
  refine ⟨fun hs => ?_, fun ⟨us, hts, hus⟩ => hts ▸ .token h hus⟩
  cases hs with
  | done hlayout => simp [h.text] at hlayout
  | @token _ _ _ _ _ _ us h' hus =>
    -- What was found is determined by the text.
    obtain ⟨rfl, rfl⟩ := List.cons.inj (h.text.symm.trans h'.text)
    have hread := (h.read 0).symm.trans (h'.read 0)
    simp only [Reading.mk.injEq, Except.ok.injEq] at hread
    obtain ⟨rfl, rfl⟩ := hread
    exact ⟨us, rfl, hus⟩

/-- **Tokens of texts one below the other**; by induction on those of the first. -/
theorem Scans.append {mode : Mode} {s r : Bytes} {ts us : List Token} (hs : Scans mode s ts)
    (hr : Scans (mode.behind ts) r us) : Scans mode (s ++ ascii '\n' :: r) (ts ++ us) := by
  induction hs with
  | @done mode s hlayout =>
    -- All of the first text is layout, and so is the end of its last line.
    refine hr.of_drop ?_
    rw [layout_append_lineFeed hlayout, Nat.add_assoc, ← List.drop_drop, List.drop_left,
      Nat.add_comm, List.drop_succ_cons]
  | @token mode s rest t a width ts hfinds _ ih =>
    refine .token (hfinds.append (lineEnd_lineFeed r)) ?_
    rw [← List.cons_append, List.drop_append_of_le_length hfinds.width_le]
    exact ih hr

/-- The mode in front of tokens does not matter behind them. -/
theorem Mode.behind_of_ne_nil {ts : List Token} (h : ts ≠ []) (mode mode' : Mode) :
    mode.behind ts = mode'.behind ts := by
  cases ts with
  | nil => exact absurd rfl h
  | cons t ts => rfl

end Lexer

/-! ### The mode behind a tree -/

/-- Every node is written with some token. -/
theorem Spelled.ne_nil {p : Phrase} {ts : List Token} (h : Spelled p ts) (hp : p ≠ .nodes []) :
    ts ≠ [] := by
  induction h with
  | nil => exact absurd rfl hp
  | @append ns ms ts us _ _ ih ih' =>
    intro hnil
    obtain ⟨rfl, rfl⟩ := List.append_eq_nil_iff.mp hnil
    cases ns with
    | cons n ns => exact ih (by simp) rfl
    | nil => exact ih' hp rfl
  | argument _ _ _ ih _ =>
    intro hnil
    exact ih nofun (List.append_eq_nil_iff.mp hnil).1
  | applied _ ih | limited _ ih => exact ih nofun
  | _ => simp

theorem Lexer.Mode.after_of_fenceGlyph? {t : Token} {glyph : Bytes}
    (h : State.fenceGlyph? t = some glyph) : Mode.after t = .plain := by
  cases t with
  | delimiter glyph | operator text => rfl
  | _ => cases h

/-- No command in a part of a tree lacks an argument. -/
def Phrase.Supplied : Phrase → Prop
  | .nodes ns => ∀ n ∈ ns, n.Supplied
  | .application a => a.node.Supplied
  | .limits l => l.node.Supplied

/-- The node that a frame waited for. -/
theorem Phrase.nodes_of_close {f : Frame} {n : Node} (h : (f.close n).Supplied) :
    (Phrase.nodes [n]).Supplied :=
  List.forall_mem_singleton.mpr (f.supplied_of_close h)

open Phrase in
/-- Behind a tree in which nothing is missing neither a digit nor a delimiter is
expected; by induction on how the tree is written. -/
theorem Spelled.behind_eq_plain {p : Phrase} {ts : List Token} (h : Spelled p ts)
    (hp : p.Supplied) : Mode.plain.behind ts = .plain := by
  induction h with
  | nil => rfl
  | @append ns ms ts us _ _ ih ih' =>
    rw [Mode.behind_append, ih fun n hn => hp n (List.mem_append_left ms hn)]
    exact ih' fun n hn => hp n (List.mem_append_right ns hn)
  | @leaf t n ht =>
    cases t with
    | letter _ | number _ | operator _ | delimiter _ | prime _ | cellBreak | lineBreak | command _
    | verbatim _ _ => rfl
    | _ => cases ht
  | group | primed _ _ | environment _ _ _ | array _ _ _ _ | switch _ _ | sized _ _ =>
    simp only [Mode.behind_cons, Mode.behind_append]
    rfl
  | middle ht => exact Mode.after_of_fenceGlyph? ht
  | fence _ ht' _ =>
    simp only [Mode.behind_cons, Mode.behind_append]
    exact Mode.after_of_fenceGlyph? ht'
  | bare op _ ih => exact ih (nodes_of_close (f := .nest _ op) (hp _ List.mem_cons_self))
  | script op _ _ _ ih =>
    rw [Mode.behind_append]
    exact ih (nodes_of_close (f := .first _ op) (hp _ List.mem_cons_self))
  | scripts op _ _ _ _ _ ih =>
    rw [Mode.behind_append, Mode.behind_cons, Mode.behind_append]
    exact ih (nodes_of_close (hp _ List.mem_cons_self))
  | command ht => exact absurd hp (Node.not_supplied_command ht)
  | index _ => exact absurd hp (Node.not_supplied_command rfl)
  | @argument a n ts us _ _ hn _ ih =>
    -- The command alone may expect a digit, but an argument follows.
    rw [Mode.behind_append, Mode.behind_of_ne_nil (hn.ne_nil (by simp)) _ .plain]
    exact ih (nodes_of_close (f := .argument a) hp)
  | @label a n ts us op _ _ _ _ _ ih =>
    rw [Mode.behind_append]
    exact ih (nodes_of_close (f := .argument a) hp)
  | applied _ ih | limited _ ih => exact ih (hp _ List.mem_cons_self)
  | @large t ht =>
    cases t with
    | bigOperator _ | integral _ | limit _ => rfl
    | _ => cases ht
  | @limit l n ts us op _ _ _ _ ih =>
    rw [Mode.behind_append]
    exact ih (nodes_of_close (f := .limit op l) hp)

/-! ### Sources -/

/-- A source has a tree if it is read to its end and its tokens are read as that
tree. -/
theorem parse_iff {source : Bytes} {ns : List Node} :
    (parse source).tree = .ok (.branch .root ns) ↔
      ∃ ts, Scans .plain source ts ∧ Reads ts ns := by
  constructor
  · intro h
    obtain ⟨hfault, -⟩ := Lexemes.parse_ok h
    exact ⟨_, Lexemes.scans_iff.mpr ⟨hfault, rfl⟩, reads_of_parse h⟩
  · rintro ⟨ts, hscans, hreads⟩
    obtain ⟨hfault, rfl⟩ := Lexemes.scans_iff.mp hscans
    exact hreads.parse hfault

/-- Tokens side by side, if the second ones begin with none that goes on with a
node; there may be no second ones. -/
theorem Reads.append {ts us : List Token} {ns ms : List Node} (hts : Reads ts ns)
    (hns : ∀ n ∈ ns, n.Supplied) (hus : Reads us ms)
    (hfirst : ∀ t ∈ us.head?, t.continues = false) : Reads (ts ++ us) (ns ++ ms) := by
  cases us with
  | nil =>
    -- Without tokens there are no nodes.
    obtain rfl : ms = [] := by
      cases hus
      rfl
    rwa [List.append_nil, List.append_nil]
  | cons t us => exact (hts.settles_supplied hns (hfirst t rfl)).append hus

/-- **Sources one below the other are parsed as their trees side by side.**  No
command of the first may lack an argument, and the second must not begin with a
token that goes on with what is before it. -/
theorem parse_append {s t : Bytes} {cs ds : List Node}
    (hs : (parse s).tree = .ok (.branch .root cs)) (ht : (parse t).tree = .ok (.branch .root ds))
    (hcs : ∀ n ∈ cs, n.Supplied)
    (hfirst : ∀ u ∈ (Lexemes.ofSource t).tokens.head?, u.continues = false) :
    (parse (s ++ ascii '\n' :: t)).tree = .ok (.branch .root (cs ++ ds)) := by
  obtain ⟨ts, hscans, hreads⟩ := parse_iff.mp hs
  obtain ⟨us, hscans', hreads'⟩ := parse_iff.mp ht
  obtain ⟨-, rfl⟩ := Lexemes.scans_iff.mp hscans'
  -- The second source begins in the mode in which it was scanned by itself.
  have hmode : Mode.plain.behind ts = .plain := hreads.spelled.behind_eq_plain hcs
  have happend : Scans .plain (s ++ ascii '\n' :: t) (ts ++ (Lexemes.ofSource t).tokens) := by
    refine hscans.append ?_
    rwa [hmode]
  exact parse_iff.mpr ⟨_, happend, hreads.append hcs hreads' hfirst⟩

/-- A comment that the line feed ends, and a digit that would belong to the last
number without it. -/
theorem parse_append_fraction :
    let s := utf8 "\\frac12%"
    let t := utf8 "3\\sqrt x"
    let one := Node.leaf .number (utf8 "1") none
    let two := Node.leaf .number (utf8 "2") none
    let cs := [Node.command (.fraction (utf8 "frac")) [one, two]]
    let ds := [Node.leaf .number (utf8 "3") none,
      Node.command .radical [.leaf .letter (utf8 "x") none]]
    (parse s).tree = .ok (.branch .root cs) ∧ (parse t).tree = .ok (.branch .root ds) ∧
      (∀ n ∈ cs, n.Supplied) ∧
      (∀ u ∈ (Lexemes.ofSource t).tokens.head?, u.continues = false) ∧
      (parse (s ++ ascii '\n' :: t)).tree = .ok (.branch .root (cs ++ ds)) := by
  intro s t one two cs ds
  have hs : Scans .plain s
      [.fraction (utf8 "frac"), .number (utf8 "1"), .number (utf8 "2")] := by
    refine Lexemes.scans_iff.mpr ⟨Option.isNone_iff_eq_none.mp ?_, ?_⟩ <;> decide +kernel
  have ht : Scans .plain t [.number (utf8 "3"), .radical, .letter (utf8 "x")] := by
    refine Lexemes.scans_iff.mpr ⟨Option.isNone_iff_eq_none.mp ?_, ?_⟩ <;> decide +kernel
  have hs' : (parse s).tree = .ok (.branch .root cs) := parse_iff.mpr ⟨_, hs, rfl⟩
  have ht' : (parse t).tree = .ok (.branch .root ds) := parse_iff.mpr ⟨_, ht, rfl⟩
  have hcs : ∀ n ∈ cs, n.Supplied := by
    simp [cs, one, two, Node.command, Node.leaf, Node.HasArguments, Token.arity]
  have hfirst : ∀ u ∈ (Lexemes.ofSource t).tokens.head?, u.continues = false := by
    rw [(Lexemes.scans_iff.mp ht).2]
    rintro u ⟨⟩
    rfl
  exact ⟨hs', ht', hcs, hfirst, parse_append hs' ht' hcs hfirst⟩

/-! ### Braces -/

/-- A source in braces, of which the second is on a line of its own. -/
def braced (source : Bytes) : Bytes :=
  ascii '\x7b' :: (source ++ [ascii '\n', ascii '\x7d'])

/-- A source in braces, any number of times. -/
def bracedTimes : Nat → Bytes → Bytes
  | 0, source => source
  | k + 1, source => braced (bracedTimes k source)

theorem Lexer.Scans.braced {source : Bytes} {ts : List Token} (h : Scans .plain source ts) :
    Scans .plain (braced source) (.groupBegin :: (ts ++ [.groupEnd])) := by
  -- A closing brace is read as such in every mode.
  have hfinds (mode : Mode) : Finds mode [ascii '\x7d'] .groupEnd (ascii '\x7d') [] 1 := by
    refine ⟨rfl, fun offset => ?_⟩
    cases mode <;> rfl
  have hend (mode : Mode) : Scans mode [ascii '\x7d'] [.groupEnd] :=
    .token (hfinds mode) (.done rfl)
  refine .token ⟨rfl, fun offset => rfl⟩ ?_
  exact h.append (hend _)

theorem parse_braced {source : Bytes} {ns : List Node}
    (h : (parse source).tree = .ok (.branch .root ns)) :
    (parse (braced source)).tree = .ok (.branch .root [.collapse ns]) := by
  obtain ⟨ts, hscans, hreads⟩ := parse_iff.mp h
  exact parse_iff.mpr ⟨_, hscans.braced, hreads.group⟩

/-- **Braces group without changing content.**  A source in braces has one node:
its own one if it has exactly one, and else a row of its nodes.  More braces
around it make no difference. -/
theorem parse_bracedTimes {source : Bytes} {cs : List Node}
    (h : (parse source).tree = .ok (.branch .root cs)) :
    ∃ n, (∀ m, cs = [m] → n = m) ∧
      (cs.length ≠ 1 → n = .mk .row (utf8 "\x7b\x7d") none {} cs) ∧
      ∀ k, 1 ≤ k → (parse (bracedTimes k source)).tree = .ok (.branch .root [n]) := by
  refine ⟨.collapse cs, ?_, ?_, ?_⟩
  · rintro m rfl
    rfl
  · intro hlength
    rcases cs with - | ⟨c, - | ⟨c', cs⟩⟩
    · rfl
    · exact absurd rfl hlength
    · rfl
  · intro k hk
    obtain ⟨j, rfl⟩ : ∃ j, k = j + 1 := ⟨k - 1, by omega⟩
    clear hk
    -- The first braces make one node, which all others leave as it is.
    induction j with
    | zero => exact parse_braced h
    | succ j ih =>
      have hagain := parse_braced ih
      exact hagain

/-- A source that ends in a comment, behind a command without arguments, five times
in braces. -/
theorem parse_bracedTimes_fraction :
    let source := utf8 "x\\frac %"
    let cs := [Node.leaf .letter (utf8 "x") none, Node.command (.fraction (utf8 "frac")) []]
    (parse source).tree = .ok (.branch .root cs) ∧
      (parse (bracedTimes 5 source)).tree =
        .ok (.branch .root [.mk .row (utf8 "\x7b\x7d") none {} cs]) := by
  intro source cs
  have hscans : Scans .plain source [.letter (utf8 "x"), .fraction (utf8 "frac")] := by
    refine Lexemes.scans_iff.mpr ⟨Option.isNone_iff_eq_none.mp ?_, ?_⟩ <;> decide +kernel
  have htree : (parse source).tree = .ok (.branch .root cs) := parse_iff.mpr ⟨_, hscans, rfl⟩
  obtain ⟨n, -, hrow, hbraced⟩ := parse_bracedTimes htree
  rw [← hrow (by decide)]
  exact ⟨htree, hbraced 5 (by decide)⟩

end MathMarkup
