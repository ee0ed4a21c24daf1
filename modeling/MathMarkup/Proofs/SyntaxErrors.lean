/-
MathMarkup/Proofs/SyntaxErrors.lean

What a syntax error says of its place is true, and it is final.  An error tells
what was found and at which offset (`Error.site?`).  Parsing raises it for a token
of the source, whose name and offset it then tells (`Error.IsAbout`), or for the
end of input, which is at the length of the source.  Since a run stops at the token
that raises an error, no source that has the same tokens so far fares better.

The errors that reading raises are about single bytes, and for them only the
offset is bounded.  The bound is followed through the ways of reading, each of
which reports an offset in the text that it was given (`Error.PlacedUpTo`).
-/
import MathMarkup.Proofs.ErrorPlaces
import MathMarkup.Proofs.Tiling

namespace MathMarkup

open Lexer

namespace Error

/-- What an error says was found where something else is required, and at which
offset. -/
def site? : Error → Option (Bytes × Int)
  | .unexpected _ got offset | .delimiter _ got offset => some (got, offset)
  | _ => none

/-- An error whose offset, if it has one, is at most `limit`. -/
def PlacedUpTo (limit : Nat) (e : Error) : Prop :=
  ∀ got offset, e.site? = some (got, offset) → 0 ≤ offset ∧ offset ≤ limit

variable {limit : Nat} {e : Error}

theorem placedUpTo_of_site? {got : Bytes} {n : Nat} (h : e.site? = some (got, (n : Int)))
    (hn : n ≤ limit) : e.PlacedUpTo limit := by
  intro got' offset h'
  obtain ⟨-, rfl⟩ := Prod.mk.inj (Option.some.inj (h.symm.trans h'))
  exact ⟨Int.natCast_nonneg n, Int.ofNat_le.mpr hn⟩

theorem IsAbout.site {l : Lexeme} {got : Bytes} {offset : Int} (h : e.IsAbout l)
    (hsite : e.site? = some (got, offset)) : got = l.token.describe ∧ offset = l.offset := by
  cases h with
  | unexpected what | delimiter side =>
    obtain ⟨rfl, rfl⟩ := Prod.mk.inj (Option.some.inj hsite)
    exact ⟨rfl, rfl⟩
  | columns _ => cases hsite

end Error

/-! ### Errors of reading -/

namespace Lexer

variable {e : Error} {offset : Nat} {s : Bytes}

theorem placedUpTo_expected {what : String} {n limit : Nat} (hn : n ≤ limit) :
    (expected what n s).PlacedUpTo limit :=
  Error.placedUpTo_of_site? rfl hn

theorem placedUpTo_of_readEnvironment {token : Bytes → Token}
    (h : (readEnvironment token offset s).result = .error e) :
    e.PlacedUpTo (offset + s.length) := by
  have hlayout := layout_le false s
  simp only [readEnvironment] at h
  split at h
  · obtain rfl := Except.error.inj h
    exact placedUpTo_expected (by omega)
  next hopen =>
  -- Behind the brace the rest is one byte shorter.
  obtain ⟨rest, hrest⟩ := exists_cons_of_startsWith (by simpa using hopen)
  have hlength := congrArg List.length hrest
  rw [List.length_drop, List.length_cons] at hlength
  simp only [hrest, List.drop_succ_cons, List.drop_zero] at h
  split at h
  · obtain rfl := Except.error.inj h
    exact placedUpTo_expected (by omega)
  split at h
  · obtain rfl := Except.error.inj h
    have hname : (rest.take (wordWidth rest)).length ≤ rest.length := List.length_take_le' _ _
    unfold wordWidth at hname
    exact placedUpTo_expected (by omega)
  · cases h

theorem placedUpTo_of_readVerbatim {kind : Bytes}
    (h : (readVerbatim kind offset s).result = .error e) : e.PlacedUpTo (offset + s.length) := by
  have hlayout := layout_le false s
  simp only [readVerbatim] at h
  split at h
  · obtain rfl := Except.error.inj h
    exact placedUpTo_expected (by omega)
  split at h
  · cases h
  · obtain rfl := Except.error.inj h
    exact Error.placedUpTo_of_site? rfl (Nat.le_refl _)

theorem placedUpTo_of_readBehind {name : Bytes}
    (h : (readBehind name offset s).result = .error e) : e.PlacedUpTo (offset + s.length) := by
  unfold readBehind at h
  split at h
  · exact placedUpTo_of_readEnvironment h
  split at h
  · exact placedUpTo_of_readEnvironment h
  split at h
  · exact placedUpTo_of_readVerbatim h
  · cases h

theorem placedUpTo_of_readWord (h : (readWord offset s).result = .error e) :
    e.PlacedUpTo (offset + s.length) := by
  have hword := wordWidth_le s
  rw [readWord_eq] at h
  have hplaced := placedUpTo_of_readBehind h
  rw [List.length_drop] at hplaced
  rwa [show offset + wordWidth s + (s.length - wordWidth s) = offset + s.length by omega] at hplaced

theorem placedUpTo_of_readBackslash (h : (readBackslash offset s).result = .error e) :
    e.PlacedUpTo (offset + 1 + s.length) := by
  rcases s with - | ⟨a, rest⟩
  · obtain rfl := Except.error.inj h
    exact Error.placedUpTo_of_site? rfl (Nat.le_succ _)
  simp only [readBackslash] at h
  split at h
  · exact placedUpTo_of_readWord h
  · cases h

/-- **An error of reading is placed in the text that is read**, or at its end. -/
theorem placedUpTo_of_read {mode : Mode} {a : UInt8} {rest : Bytes}
    (h : (read mode offset a rest).result = .error e) :
    e.PlacedUpTo (offset + (a :: rest).length) := by
  unfold read at h
  split at h
  · cases h
  split at h
  · cases h
  split at h
  · have hplaced := placedUpTo_of_readBackslash h
    rwa [Nat.add_right_comm] at hplaced
  -- Nothing but a backslash begins what can fail.
  repeat' (split at h <;> try cases h)

end Lexer

/-! ### Places in a source -/

namespace Scanner

variable {source : Bytes}

/-- What stopped a scanner was raised in reading. -/
theorem On.placedUpTo_of_fault {s : Scanner} {e : Error} (h : s.On source)
    (hfault : s.next.1 = .fault e) : e.PlacedUpTo source.length := by
  have hdrop := h.drop_next
  rw [next_offset] at hdrop
  simp only [Scanner.next] at hfault
  split at hfault
  · cases hfault
  next a rest hrest =>
  split at hfault
  · cases hfault
  next e' hread =>
  obtain rfl := Found.fault.inj hfault
  have hplaced := placedUpTo_of_read hread
  have hlength := congrArg List.length (hdrop.trans hrest)
  rw [List.length_drop] at hlength
  rw [← hlength] at hplaced
  intro got offset hsite
  obtain ⟨hnonneg, hle⟩ := hplaced got offset hsite
  refine ⟨hnonneg, ?_⟩
  have hcons : (a :: rest).length = rest.length + 1 := List.length_cons
  omega

/-- The tokens of a source start in it, the end of input is its length, and errors
of reading are placed in it; by induction on what is left to read. -/
theorem On.lexemes {s : Scanner} (h : s.On source) (hle : s.offset ≤ source.length) :
    (∀ l ∈ s.lexemes.list, l.offset ≤ source.length) ∧
      (∀ e, s.lexemes.fault = some e → e.PlacedUpTo source.length) ∧
      (s.lexemes.fault = none → s.lexemes.offset = source.length) := by
  rcases hnext : s.next with ⟨found, offset, s'⟩
  have hfound : s.next.1 = found := by rw [hnext]
  have hcases := h.next_cases
  rw [lexemes_eq]
  simp only [hnext] at hcases ⊢
  cases found with
  | token t =>
    obtain ⟨hfinished, -⟩ | ⟨-, hlt, -⟩ := hcases
    · cases hfinished
    have hon : s'.On source := by
      have hon := h.next
      rwa [hnext] at hon
    have hle' : s'.offset ≤ source.length := by
      have hle' := h.offset_le_of_token hfound
      rwa [hnext] at hle'
    obtain ⟨hlist, hfault, hend⟩ := On.lexemes hon hle'
    exact ⟨List.forall_mem_cons.mpr ⟨Nat.le_of_lt hlt, hlist⟩, hfault, hend⟩
  | finished =>
    obtain ⟨-, hoffset, -⟩ | ⟨hne, -⟩ := hcases
    · refine ⟨List.forall_mem_nil _, by rintro e ⟨⟩, fun _ => ?_⟩
      show offset = source.length
      rw [hoffset, h.offset_add_length hle]
    · exact absurd rfl hne
  | fault e =>
    refine ⟨List.forall_mem_nil _, ?_, by rintro ⟨⟩⟩
    rintro e' ⟨⟩
    exact h.placedUpTo_of_fault hfound
termination_by s.rest.length
decreasing_by exact next_shorter hnext

end Scanner

/-! ### Errors of parsing -/

/-- Where the input ends too early, nothing was found. -/
theorem State.site?_of_finish {s : State} {offset : Nat} {e : Error}
    (h : s.finish offset = .error e) : e.site? = some (endOfInput, (offset : Int)) := by
  have rows {rows : Rows} (h : finishRows offset rows = .error e) :
      e.site? = some (endOfInput, (offset : Int)) := by
    cases rows with
    | root done => cases h
    | inner enclosure done waiting outer =>
      obtain rfl := Except.error.inj h
      rfl
  cases hf : s.focus with
  | value n | argument a | radical | limits l | element =>
    simp only [State.finish, hf] at h
    exact rows h
  | operand op | columns name | sized tag | opening | closing opening content | middle =>
    simp only [State.finish, hf] at h
    obtain rfl := Except.error.inj h
    rfl

namespace Lexemes

/-- Reading was stopped by an error, and no token in front of it has raised one. -/
def StoppedBy (ls : Lexemes) (e : Error) : Prop :=
  (State.start.run ls.list).2 = none ∧ ls.fault = some e

/-- An error comes from a token, from reading or from the end of input. -/
theorem parse_error {ls : Lexemes} {e : Error} (h : ls.parse.tree = .error e) :
    (State.start.run ls.list).2 = some e ∨ ls.StoppedBy e ∨
      ls.fault = none ∧ (State.start.run ls.list).1.finish ls.offset = .error e := by
  simp only [Lexemes.parse] at h
  cases hrun : (State.start.run ls.list).2 with
  | some e' =>
    simp only [hrun] at h
    exact .inl (congrArg some (Except.error.inj h))
  | none =>
    cases hfault : ls.fault with
    | some e' =>
      simp only [hrun, hfault] at h
      obtain rfl := Except.error.inj h
      exact .inr (.inl ⟨hrun, hfault⟩)
    | none =>
      simp only [hrun, hfault] at h
      exact .inr (.inr ⟨rfl, h⟩)

end Lexemes

/-- **Syntax errors tell their places, and are final.**  Every offset that parsing
reports lies in the source or at its end.  An error that was not raised in reading
is about the end of input, which is at the length of the source, or it gives name
and offset of a token; then every source whose tokens are the same up to that one,
at the same offsets, has the same error. -/
theorem syntax_error_final {source : Bytes} {e : Error} {got : Bytes} {offset : Int}
    (h : (parse source).tree = .error e) (hsite : e.site? = some (got, offset)) :
    (0 ≤ offset ∧ offset ≤ source.length) ∧
      (¬ (Lexemes.ofSource source).StoppedBy e →
        (got = endOfInput ∧ offset = source.length) ∨
          ∃ before l after, (Lexemes.ofSource source).list = before ++ l :: after ∧
            got = l.token.describe ∧ offset = l.offset ∧
            ∀ source', before ++ [l] <+: (Lexemes.ofSource source').list →
              (parse source').tree = .error e) := by
  obtain ⟨hlist, hfault, hend⟩ := (Scanner.on_start source).lexemes (Nat.zero_le _)
  obtain hrun | hstopped | ⟨hnone, hfinish⟩ := Lexemes.parse_error h
  -- Raised by a token: the run that leads up to it is the same in the other source.
  · obtain ⟨before, l, after, hsplit, habout, hfinal⟩ := State.exists_isAbout_of_run hrun
    obtain ⟨hgot, hoffset⟩ := habout.site hsite
    have hmem : l ∈ (Lexemes.ofSource source).list := by
      rw [hsplit]
      exact List.mem_append_right _ List.mem_cons_self
    refine ⟨?_, fun _ => .inr ⟨before, l, after, hsplit, hgot, hoffset, ?_⟩⟩
    · rw [hoffset]
      exact ⟨Int.natCast_nonneg _, Int.ofNat_le.mpr (hlist l hmem)⟩
    · rintro source' ⟨rest, hrest⟩
      refine Lexemes.parse_of_run_error ?_
      rw [← hrest, List.append_assoc, List.singleton_append]
      exact hfinal rest
  · exact ⟨hfault e hstopped.2 got offset hsite, fun hnot => absurd hstopped hnot⟩
  -- Raised at the end of input: reading has come to the end of the source.
  · have hsite' := State.site?_of_finish hfinish
    obtain ⟨rfl, rfl⟩ := Prod.mk.inj (Option.some.inj (hsite'.symm.trans hsite))
    have hlength : (Lexemes.ofSource source).offset = source.length := hend hnone
    rw [hlength]
    exact ⟨⟨Int.natCast_nonneg _, Int.le_refl _⟩, fun _ => .inl ⟨rfl, rfl⟩⟩

/-- A script operator in front of a brace that closes: whatever stands behind the
brace, the operand is missing. -/
theorem syntax_error_final_operand :
    let source := utf8 "a^\x7bb_\x7d'"
    let e := Error.unexpected (utf8 "argument of _") (utf8 "\x7d") 5
    (parse source).tree = .error e ∧ e.site? = some (utf8 "\x7d", 5) ∧
      ¬ (Lexemes.ofSource source).StoppedBy e ∧
      ((0 ≤ (5 : Int) ∧ (5 : Int) ≤ source.length) ∧
        ((utf8 "\x7d" = endOfInput ∧ (5 : Int) = source.length) ∨
          ∃ before l after, (Lexemes.ofSource source).list = before ++ l :: after ∧
            utf8 "\x7d" = l.token.describe ∧ (5 : Int) = l.offset ∧
            ∀ source', before ++ [l] <+: (Lexemes.ofSource source').list →
              (parse source').tree = .error e)) := by
  intro source e
  have htree : (parse source).tree = .error e := by with_unfolding_all rfl
  have hfault : (Lexemes.ofSource source).fault = none := by with_unfolding_all rfl
  have hnot : ¬ (Lexemes.ofSource source).StoppedBy e := by
    rintro ⟨-, hsome⟩
    rw [hfault] at hsome
    cases hsome
  obtain ⟨hbounds, hplace⟩ := syntax_error_final htree rfl
  exact ⟨htree, rfl, hnot, hbounds, hplace hnot⟩

end MathMarkup
