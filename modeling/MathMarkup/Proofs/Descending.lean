/-
MathMarkup/Proofs/Descending.lean

Recursive descent and the state machine parse alike, and no fault of a source is lost on
the way.

The functions of the descent call each other, and what they have begun stands in their
calls; the machine has frames and rows for the same.  The two are compared by what is still
to come.  `Reaches x k f waiting rows p` says that the machine, in a state of this kind and
with the tokens that are left at the place `p`, comes to the outcome `x`.  A function of the
descent keeps this up, from the state in which the machine begins its construct to the one
in which the node is read, whatever waits around it (`Leads`).  Each take is one step of the
machine.  A peek is none, and leaves what is left as it is (`Cursor.rest_peek`).

So it does no harm that a function passes over a fault when it only glances ahead.  It goes
on as if nothing followed, and hands a node to the function that called it, which may do
the same.  But the place they are at is still one from which the machine comes to the fault,
in every state (`State.resume`), and the first function that takes what follows, or looks
at it in order to go on, reports it.

The number `k` bounds the tokens that are left.  It is smaller in a construct inside of
another one and with each turn of a loop, so that the descent never reaches its own bounds
(`Descent.begins`).
-/
import MathMarkup.Proofs.ErrorPlaces
import MathMarkup.Proofs.Layout
import MathMarkup.Proofs.Peeking
import MathMarkup.Tree.Descent

namespace MathMarkup

/-! ### What is left at a cursor -/

/-- Each token has a byte at least. -/
theorem Scanner.length_lexemes_le (s : Scanner) : s.lexemes.list.length ≤ s.rest.length := by
  fun_induction lexemes s with
  | case1 s t offset s' hnext later ih =>
    exact Nat.succ_le_of_lt (Nat.lt_of_le_of_lt ih (next_shorter hnext))
  | case2 | case3 => exact Nat.zero_le _

namespace Cursor

/-- The tokens that are left to take. -/
def rest (c : Cursor) : Lexemes :=
  match c.peeked with
  | none => c.scanner.lexemes
  | some (found, offset) => c.scanner.lexemes.behind found offset

/-- What is left, by what a take finds. -/
theorem rest_eq (c : Cursor) : c.rest = c.take.2.rest.behind c.take.1 c.take.2.offset := by
  rcases h : c.peeked with - | ⟨found, offset⟩
  · simp only [rest, take, h]
    exact c.scanner.lexemes_eq
  · simp only [rest, take, h]

/-- A peek leaves everything to be taken, a fault too. -/
theorem rest_peek (c : Cursor) : c.peek.2.rest = c.rest := by
  rw [rest_eq, take_peek, ← rest_eq]

end Cursor

/-! ### The outcome from a state on -/

namespace State

variable {s s' : State} {t : Token} {offset : Nat} {e : Error} {ls : Lexemes}

/-- What comes of parsing that goes on from a state. -/
def resume (s : State) (ls : Lexemes) : Parsed :=
  let (s', error) := s.run ls.list
  ⟨s'.warnings,
    match error, ls.fault with
    | some e, _ => .error e
    | none, some e => .error e
    | none, none => s'.finish ls.offset⟩

theorem resume_token (h : s.step t offset = .ok s') :
    s.resume (ls.behind (.token t) offset) = s'.resume ls := by
  simp only [resume, Lexemes.behind, State.run, h]

theorem resume_token_error (h : s.step t offset = .error e) :
    s.resume (ls.behind (.token t) offset) = ⟨s.warnings, .error e⟩ := by
  simp only [resume, Lexemes.behind, State.run, h]

/-- Two states go on alike if they do so with the next token and at the end.  A fault
they report alike whatever they are. -/
theorem resume_congr (hwarnings : s.warnings = s'.warnings)
    (hstep : ∀ l ∈ ls.list.head?, s.step l.token l.offset = s'.step l.token l.offset)
    (hfinish : ∀ offset, s.finish offset = s'.finish offset) : s.resume ls = s'.resume ls := by
  obtain ⟨list, fault, offset⟩ := ls
  cases list with
  | nil =>
    cases fault with
    | none => simp only [resume, State.run, hwarnings, hfinish]
    | some e => simp only [resume, State.run, hwarnings]
  | cons l list =>
    have hl := hstep l rfl
    cases h : s'.step l.token l.offset with
    | ok u => simp only [resume, State.run, hl, h]
    | error e => simp only [resume, State.run, hl, h, hwarnings]

/-- Behind a node counts what waits for it. -/
theorem value_eq {n n' : Node} {waiting waiting' : List Frame}
    (h : feed waiting n t = feed waiting' n' t) (offset : Nat) (f f' : Focus) (rows : Rows)
    (warnings : List Warning) : value ⟨f, waiting, rows, warnings⟩ n t offset =
      value ⟨f', waiting', rows, warnings⟩ n' t offset := by
  simp only [value, h]
  cases feed waiting' n' t with
  | move m => exact congrArg Except.ok (apply_congr rfl rfl m)
  | element n => exact element_congr rfl rfl t offset

end State

namespace Descent

variable {α β : Type} {x : Parsed} {k j : Nat} {p : Progress} {f : Focus} {g : Frame}
  {waiting : List Frame} {rows : Rows} {n : Node} {t : Token} {op : Script}

/-! ### Parts of a descent -/

/-- A part of a descent has a result.  What it gives is as required, or its error is that of
the outcome `x`. -/
inductive Leads (x : Parsed) (m : Descent α) (p : Progress) (post : α → Progress → Prop) : Prop
  | returns {a : α} {p' : Progress} : m.run.run p = some (.ok a, p') → post a p' → Leads x m p post
  | fails {e : Error} {p' : Progress} : m.run.run p = some (.error e, p') →
      x = ⟨p'.warnings, .error e⟩ → Leads x m p post

namespace Leads

variable {m : Descent α} {post : α → Progress → Prop}

theorem pure {a : α} (h : post a p) : Leads x (pure a) p post :=
  .returns rfl h

theorem throw {e : Error} (h : x = ⟨p.warnings, .error e⟩) : Leads x (throw e) p post :=
  .fails rfl h

theorem mono {post' : α → Progress → Prop} (h : Leads x m p post)
    (hpost : ∀ a p', post a p' → post' a p') : Leads x m p post' := by
  cases h with
  | returns hm ha => exact .returns hm (hpost _ _ ha)
  | fails hm hx => exact .fails hm hx

theorem bind {m : Descent β} {f : β → Descent α}
    (h : Leads x m p fun b p' => Leads x (f b) p' post) : Leads x (m >>= f) p post := by
  cases h with
  | returns hm hf =>
    cases hf with
    | returns hb ha => exact .returns (by rw [ExceptT.run_bind, StateT.run_bind, hm]; exact hb) ha
    | fails hb hx => exact .fails (by rw [ExceptT.run_bind, StateT.run_bind, hm]; exact hb) hx
  | fails hm hx => exact .fails (by rw [ExceptT.run_bind, StateT.run_bind, hm]; rfl) hx

end Leads

/-! ### The cursor and the machine -/

/-- The next token, if there is one. -/
def ahead? (p : Progress) : Option Token :=
  p.cursor.rest.list.head?.map Lexeme.token

/-- From where a descent has come to, with at most `k` tokens left, the machine in a state
gives the outcome `x`. -/
structure Reaches (x : Parsed) (k : Nat) (f : Focus) (waiting : List Frame) (rows : Rows)
    (p : Progress) : Prop where
  length_le : p.cursor.rest.list.length ≤ k
  resume_eq : (⟨f, waiting, rows, p.warnings⟩ : State).resume p.cursor.rest = x

/-- What a step of the machine has come to gives the outcome `x`. -/
def Stepped (x : Parsed) (k : Nat) (p : Progress) : Except Error State → Prop
  | .ok s => p.cursor.rest.list.length ≤ k ∧ s.resume p.cursor.rest = x
  | .error e => x = ⟨p.warnings, .error e⟩

/-- The same for a move. -/
def Moved (x : Parsed) (k : Nat) (rows : Rows) (p : Progress) : Move → Prop
  | .focus f waiting => Reaches x k f waiting rows p
  | .enclose e waiting => Reaches x k .element [] (.inner e [] waiting rows) p

theorem Stepped.moved {m : Move}
    (h : Stepped x k p (.ok (State.apply ⟨f, waiting, rows, p.warnings⟩ m))) :
    Moved x k rows p m := by
  cases m with
  | focus f waiting => exact ⟨h.1, h.2⟩
  | enclose e waiting => exact ⟨h.1, h.2⟩

theorem Stepped.mono {r : Except Error State} (h : Stepped x j p r) (hj : j ≤ k) :
    Stepped x k p r := by
  cases r with
  | ok s => exact ⟨Nat.le_trans h.1 hj, h.2⟩
  | error e => exact h

/-- A frame that has a use for a token moves the machine on. -/
theorem Stepped.shift {m : Move}
    (h : Stepped x k p (State.step ⟨.value n, g :: waiting, rows, p.warnings⟩ t p.cursor.offset))
    (hm : g.shift n t waiting = some m) : Moved x k rows p m := by
  simp only [State.step, State.value, feed, hm] at h
  exact h.moved

/-- A token that ends a row does so where an element is expected. -/
theorem Stepped.closes {e : Enclosure} {done : List Node} {outer : Rows}
    (h : Stepped x k p (State.step ⟨.element, [], .inner e done waiting outer, p.warnings⟩ t
      p.cursor.offset)) (hc : e.closedBy t = true) :
    Stepped x k p (State.close ⟨.element, [], .inner e done waiting outer, p.warnings⟩ e done
      waiting outer t p.cursor.offset) := by
  rw [← State.element_eq_close rfl hc]
  exact h

/-- A token that begins an element moves the machine on where one is expected. -/
theorem Stepped.begins {m : Move}
    (h : Stepped x k p (State.step ⟨.element, [], rows, p.warnings⟩ t p.cursor.offset))
    (hc : rows.closedBy t = false) (hm : t.begin? [.prime, .scripts] = some m) :
    Moved x k rows p m := by
  have hstep := State.element_eq_apply (s := ⟨.element, [], rows, p.warnings⟩) hm hc p.cursor.offset
  simp only [State.step, hstep] at h
  exact h.moved

/-- A token that does neither is an error there. -/
theorem Stepped.unexpected
    (h : Stepped x k p (State.step ⟨.element, [], rows, p.warnings⟩ t p.cursor.offset))
    (hc : rows.closedBy t = false) (hm : t.begin? [.prime, .scripts] = none) :
    x = ⟨p.warnings, .error (.unexpected (utf8 "expression") t.describe p.cursor.offset)⟩ := by
  cases rows with
  | root done =>
    simp only [State.step, State.element, hm] at h
    exact h
  | inner e done waiting outer =>
    have hclosed : ¬ e.closedBy t = true := Bool.eq_false_iff.mp hc
    simp only [State.step, State.element, if_neg hclosed, hm] at h
    exact h

namespace Reaches

variable {f' : Focus} {waiting' : List Frame}

theorem mono (h : Reaches x j f waiting rows p) (hj : j ≤ k) : Reaches x k f waiting rows p :=
  ⟨Nat.le_trans h.length_le hj, h.resume_eq⟩

/-- States that the next token leads to the same state, and the end to the same tree, are
reached at the same places. -/
theorem congr (h : Reaches x k f waiting rows p)
    (hstep : ∀ t offset warnings, ahead? p = some t →
      State.step ⟨f, waiting, rows, warnings⟩ t offset =
        State.step ⟨f', waiting', rows, warnings⟩ t offset)
    (hfinish : ∀ offset warnings, State.finish ⟨f, waiting, rows, warnings⟩ offset =
      State.finish ⟨f', waiting', rows, warnings⟩ offset) :
    Reaches x k f' waiting' rows p := by
  refine ⟨h.length_le, Eq.trans (Eq.symm ?_) h.resume_eq⟩
  refine State.resume_congr rfl (fun l hl => ?_) fun offset => hfinish offset p.warnings
  exact hstep l.token l.offset p.warnings (congrArg (Option.map Lexeme.token) hl)

/-- A frame that has no use for what follows closes. -/
theorem close (h : Reaches x k (.value n) (g :: waiting) rows p)
    (hshift : ∀ t, ahead? p = some t → g.shift n t waiting = none) :
    Reaches x k (.value (g.close n)) waiting rows p := by
  refine h.congr (fun t offset warnings ht => ?_) fun offset warnings => rfl
  refine State.value_eq ?_ offset _ _ rows warnings
  rw [feed, hshift t ht]

/-- A node that waits for scripts does so whichever frame it has been in. -/
theorem again (h : Reaches x k (.value n) (g :: waiting) rows p)
    (hshift : ∀ t, ahead? p = some t →
      g.shift n t waiting = Frame.scripts.shift (g.close n) t waiting) :
    Reaches x k (.value (g.close n)) (.scripts :: waiting) rows p := by
  refine h.congr (fun t offset warnings ht => ?_) fun offset warnings => rfl
  refine State.value_eq ?_ offset _ _ rows warnings
  rw [feed, feed, hshift t ht]
  rfl

/-- A node with nothing around it in its row is an element of the row. -/
theorem push (h : Reaches x k (.value n) [] rows p) :
    Reaches x k .element [] (rows.push n) p := by
  refine ⟨h.length_le, Eq.trans (Eq.symm ?_) h.resume_eq⟩
  refine State.resume_congr rfl (fun l _ => ?_) fun offset => rfl
  exact State.element_congr rfl rfl l.token l.offset

/-- Who takes what comes next makes the machine step or end, or reports the fault as the
machine does. -/
theorem next {post : Option Token → Progress → Prop} (h : Reaches x k f waiting rows p)
    (htoken : ∀ t p' j, ahead? p = some t → j < k →
      Stepped x j p' (State.step ⟨f, waiting, rows, p'.warnings⟩ t p'.cursor.offset) →
      post (some t) p')
    (hend : ∀ p', ahead? p = none →
      x = ⟨p'.warnings, State.finish ⟨f, waiting, rows, p'.warnings⟩ p'.cursor.offset⟩ →
      post none p') : Leads x next p post := by
  obtain ⟨hlength, hresume⟩ := h
  simp only [ahead?] at htoken hend
  rw [Cursor.rest_eq] at hlength hresume htoken hend
  refine Leads.bind (.returns rfl ?_)
  cases hfound : p.cursor.take.1 with
  | token t =>
    rw [hfound] at hlength hresume htoken
    refine Leads.pure (htoken t _ _ rfl hlength ?_)
    cases hstep : State.step ⟨f, waiting, rows, p.warnings⟩ t p.cursor.take.2.offset with
    | ok s => exact ⟨Nat.le_refl _, (State.resume_token hstep).symm.trans hresume⟩
    | error e => exact hresume.symm.trans (State.resume_token_error hstep)
  | finished =>
    rw [hfound] at hresume hend
    exact Leads.pure (hend _ rfl hresume.symm)
  | fault e =>
    -- Whatever the state is, the run ends with the fault.
    rw [hfound] at hresume
    exact Leads.throw hresume.symm

/-- The token that was seen ahead is taken. -/
theorem take {post : Progress → Prop} (h : Reaches x k f waiting rows p) (ht : ahead? p = some t)
    (hpost : ∀ p' j, j < k →
      Stepped x j p' (State.step ⟨f, waiting, rows, p'.warnings⟩ t p'.cursor.offset) → post p') :
    Leads x Descent.next p fun _ => post := by
  refine h.next (fun t' p' j ht' hj hstep => ?_) fun p' hnone _ => ?_
  · obtain rfl := Option.some.inj (ht.symm.trans ht')
    exact hpost p' j hj hstep
  · rw [ht] at hnone
    cases hnone

/-- A peek changes nothing about the state that is reached. -/
theorem peek (h : Reaches x k f waiting rows p) :
    Reaches x k f waiting rows { p with cursor := p.cursor.peek.2 } := by
  constructor
  · rw [Cursor.rest_peek]
    exact h.length_le
  · rw [Cursor.rest_peek]
    exact h.resume_eq

/-- Who looks ahead sees the next token, or reports a fault as the machine does. -/
theorem look {post : Option Token → Progress → Prop} (h : Reaches x k f waiting rows p)
    (hpost : ∀ p', Reaches x k f waiting rows p' → post (ahead? p') p') : Leads x look p post := by
  have hafter := hpost _ h.peek
  have hresume := h.resume_eq
  rw [ahead?, Cursor.rest_peek, Cursor.rest_eq] at hafter
  rw [Cursor.rest_eq] at hresume
  refine Leads.bind (.returns rfl ?_)
  rw [Cursor.peek_found]
  cases hfound : p.cursor.take.1 with
  | token t | finished =>
    rw [hfound] at hafter
    exact Leads.pure hafter
  | fault e =>
    rw [hfound] at hresume
    exact Leads.throw hresume.symm

/-- Who glances ahead sees the next token.  A fault is seen by nobody here, but it is still
what the machine reports from this place on. -/
theorem glance {post : Option Token → Progress → Prop} (h : Reaches x k f waiting rows p)
    (hpost : ∀ p', Reaches x k f waiting rows p' → post (ahead? p') p') :
    Leads x glance p post := by
  have hafter := hpost _ h.peek
  rw [ahead?, Cursor.rest_peek, Cursor.rest_eq] at hafter
  refine Leads.bind (.returns rfl ?_)
  rw [Cursor.peek_found]
  -- With a fault nothing is ahead, as at the end of input.
  cases hfound : p.cursor.take.1 with
  | token t | finished | fault e =>
    rw [hfound] at hafter
    exact Leads.pure hafter

end Reaches

/-- The offset of the token taken last can be asked for at any time. -/
theorem leads_throw {e : Nat → Error} {post : α → Progress → Prop}
    (h : x = ⟨p.warnings, .error (e p.cursor.offset)⟩) :
    Leads x (offset >>= fun o => throw (e o)) p post :=
  Leads.bind (.returns rfl (Leads.throw h))

/-! ### Constructs without parts -/

theorem leads_prime (h : Reaches x k (.value n) (.prime :: waiting) rows p) :
    Leads x (prime n) p fun n => Reaches x k (.value n) waiting rows := by
  refine Leads.bind (h.look fun p' h' => ?_)
  split
  · next count hahead =>
    refine Leads.bind (h'.take hahead fun p'' j hj hstep => Leads.pure ?_)
    have hmoved : Reaches x j _ waiting rows p'' := hstep.shift rfl
    exact hmoved.mono (Nat.le_of_lt hj)
  · next hne =>
    refine Leads.pure (h'.close fun t ht => ?_)
    cases t with
    | prime count => exact absurd ht (hne count)
    | _ => rfl

/-- A delimiter where the machine waits for one. -/
theorem leads_delimiter (side : Token) (m : Bytes → Move) (h : Reaches x k f waiting rows p)
    (hstep : ∀ t offset warnings, State.step ⟨f, waiting, rows, warnings⟩ t offset =
      (State.fenceGlyph? t).elim (.error (State.noDelimiter side (some t) offset))
        fun glyph => .ok (State.apply ⟨f, waiting, rows, warnings⟩ (m glyph)))
    (hend : ∀ offset warnings, State.finish ⟨f, waiting, rows, warnings⟩ offset =
      .error (State.noDelimiter side none offset)) :
    Leads x (delimiter side) p fun glyph p' => Moved x k rows p' (m glyph) := by
  refine Leads.bind (h.next (fun t p' j _ hj hnext => ?_) fun p' _ hx => ?_)
  · rw [hstep] at hnext
    cases hglyph : State.fenceGlyph? t with
    | some glyph =>
      rw [hglyph] at hnext
      simp only [Option.bind_some, hglyph]
      exact Leads.pure (hnext.mono (Nat.le_of_lt hj)).moved
    | none =>
      rw [hglyph] at hnext
      simp only [Option.bind_some, hglyph]
      exact leads_throw hnext
  · rw [hend] at hx
    exact leads_throw hx

theorem leads_opening (h : Reaches x k .opening waiting rows p) :
    Leads x (delimiter .left) p fun glyph =>
      Reaches x k .element [] (.inner (.fence glyph) [] waiting rows) := by
  refine leads_delimiter .left (fun glyph => .enclose (.fence glyph) waiting) h (fun t _ _ => ?_)
    fun _ _ => rfl
  cases ht : State.fenceGlyph? t <;> simp only [State.step, ht] <;> rfl

theorem leads_closing {opening : Bytes} {content : List Node}
    (h : Reaches x k (.closing opening content) waiting rows p) :
    Leads x (delimiter .right) p fun glyph =>
      Reaches x k (.value (State.fenceNode opening glyph content)) waiting rows := by
  refine leads_delimiter .right
    (fun glyph => .focus (.value (State.fenceNode opening glyph content)) waiting) h
    (fun t _ _ => ?_) fun _ _ => rfl
  cases ht : State.fenceGlyph? t <;> simp only [State.step, ht] <;> rfl

theorem leads_middle (h : Reaches x k .middle waiting rows p) :
    Leads x (delimiter .middle) p fun glyph =>
      Reaches x k (.value (State.sizedNode .middle glyph)) waiting rows := by
  refine leads_delimiter .middle (fun glyph => .focus (.value (State.sizedNode .middle glyph))
    waiting) h (fun t _ _ => ?_) fun _ _ => rfl
  cases ht : State.fenceGlyph? t <;> simp only [State.step, ht] <;> rfl

theorem leads_sized (h : Reaches x k (.sized t) waiting rows p) :
    Leads x (sized t) p fun n => Reaches x k (.value n) waiting rows := by
  refine Leads.bind (h.next (fun t' p' j _ hj hstep => ?_) fun p' _ hx => leads_throw hx)
  cases t' with
  | delimiter glyph => exact Leads.pure ⟨Nat.le_trans hstep.1 (Nat.le_of_lt hj), hstep.2⟩
  | _ => exact leads_throw hstep

/-! ### Rows and arguments -/

/-- What encloses the innermost row. -/
def enclosure : Rows → Option Enclosure
  | .root _ => none
  | .inner e _ _ _ => some e

/-- The finished elements of the innermost row. -/
def finished : Rows → List Node
  | .root done | .inner _ done _ _ => done

/-- The end of the innermost row: of the input, or with a token that closes what encloses
the row. -/
def Ends (x : Parsed) (k : Nat) (found : List Node × Option Token) (p : Progress) : Rows → Prop
  | .root _ => x = ⟨p.warnings, .ok (.branch .root found.1)⟩
  | .inner e _ waiting outer => ∃ t, found.2 = some t ∧ e.closedBy t = true ∧
      Stepped x k p (State.close ⟨.element, [], .inner e found.1 waiting outer, p.warnings⟩ e
        found.1 waiting outer t p.cursor.offset)

theorem Ends.mono {found : List Node × Option Token} (h : Ends x j found p rows) (hj : j ≤ k) :
    Ends x k found p rows := by
  cases rows with
  | root done => exact h
  | inner e done waiting outer =>
    obtain ⟨t, hfound, hc, hstep⟩ := h
    exact ⟨t, hfound, hc, hstep.mono hj⟩

/-- An argument of a command, or the command without it. -/
def Given (x : Parsed) (k : Nat) (a : Application) (waiting : List Frame) (rows : Rows) :
    Option Node → Progress → Prop
  | none => Reaches x k (.value a.node) waiting rows
  | some n => Reaches x k (.value n) (.argument a :: waiting) rows

/-- A frame that begins an argument with every token it can expects an argument. -/
theorem Reaches.argument {a : Application} (h : Reaches x k (.value n) (g :: waiting) rows p)
    (hclose : g.close n = a.node)
    (hshift : ∀ t, g.shift n t waiting = t.begin? (.argument a :: waiting)) :
    Reaches x k (.argument a) waiting rows p := by
  refine h.congr (fun t offset warnings _ => ?_) fun offset warnings => ?_
  · cases hm : t.begin? (.argument a :: waiting) with
    | none =>
      simp only [State.step, State.argument, hm]
      refine State.value_eq ?_ offset _ _ rows warnings
      rw [feed, hshift, hm, hclose]
    | some m =>
      simp only [State.step, State.argument, State.value, feed, hshift, hm]
      exact congrArg Except.ok (State.apply_congr rfl rfl m)
  · simp only [State.finish, State.closeAll, List.foldl_cons, hclose]

/-- Behind an argument of a command that needs more the next one is expected. -/
theorem Reaches.more {args : List Node} {index : Option Node}
    (h : Reaches x k (.value n) (.argument ⟨t, args, index⟩ :: waiting) rows p)
    (hlen : args.length + 1 < t.arity) :
    Reaches x k (.argument ⟨t, args ++ [n], index⟩) waiting rows p := by
  refine h.argument rfl fun t' => ?_
  simp only [Frame.shift, Application.push, List.length_append, List.length_singleton, if_pos hlen]

/-- What may follow the arguments of a command does not; a label follows once only. -/
def Absent (p : Progress) (t : Token) (count : Nat) : Extra → Prop
  | .none => True
  | .groups => ahead? p ≠ some .groupBegin
  | .label op => ahead? p ≠ some (.script op) ∨ count ≠ t.arity

/-- Behind the last argument a command is done, unless what may follow it does. -/
theorem Reaches.done {args : List Node} {index : Option Node}
    (h : Reaches x k (.value n) (.argument ⟨t, args, index⟩ :: waiting) rows p)
    (hlen : ¬ args.length + 1 < t.arity)
    (hextra : Absent p t (args.length + 1) t.extra) :
    Reaches x k (.value (.command t (args ++ n :: index.toList))) waiting rows p := by
  have hnode : (Frame.argument ⟨t, args, index⟩).close n =
      .command t (args ++ n :: index.toList) := by
    simp [Frame.close, Application.push, Application.node]
  rw [← hnode]
  refine h.close fun t' ht' => ?_
  simp only [Frame.shift, Application.push, List.length_append, List.length_singleton, if_neg hlen]
  cases he : t.extra with
  | none => rfl
  | groups =>
    rw [he] at hextra
    cases t' with
    | groupBegin => exact absurd ht' hextra
    | _ => rfl
  | label op =>
    rw [he] at hextra
    cases t' with
    | script op' =>
      refine if_neg ?_
      rintro ⟨rfl, harity⟩
      rcases hextra with hne | hne
      · exact hne ht'
      · exact hne harity
    | _ => rfl

/-- Behind a limit there may be another one, unless both are there. -/
theorem Reaches.limits {l : Limits} (h : Reaches x k (.value n) (.limit op l :: waiting) rows p)
    (hfull : (l.set op n).isFull = false) :
    Reaches x k (.limits (l.set op n)) waiting rows p := by
  refine h.congr (fun t offset warnings _ => ?_) fun _ _ => rfl
  have hshift : (Frame.limit op l).shift n t waiting = (l.set op n).move? t waiting :=
    if_neg (Bool.eq_false_iff.mp hfull)
  cases hm : (l.set op n).move? t waiting with
  | none =>
    simp only [State.step, hm]
    refine State.value_eq ?_ offset _ _ rows warnings
    rw [feed, hshift, hm]
    rfl
  | some m =>
    simp only [State.step, State.value, feed, hshift, hm]
    exact congrArg Except.ok (State.apply_congr rfl rfl m)

/-! ### Constructs with parts -/

/-- A function reads what the machine begins with a token, as long as at most `k` tokens
are left behind it, and refuses a token that begins nothing. -/
structure Begins (inner : Token → Descent Node) (k : Nat) : Prop where
  moves {x : Parsed} {t : Token} {waiting : List Frame} {rows : Rows} {p : Progress} {m : Move} :
    t.begin? waiting = some m → Moved x k rows p m →
      Leads x (inner t) p fun n => Reaches x k (.value n) waiting rows
  refuses {x : Parsed} {t : Token} {p : Progress} {post : Node → Progress → Prop} :
    t.isCloser = true →
      x = ⟨p.warnings, .error (.unexpected (utf8 "expression") t.describe p.cursor.offset)⟩ →
      Leads x (inner t) p post

/-- The same with fewer than `k` tokens left. -/
def BeginsBelow (inner : Token → Descent Node) (k : Nat) : Prop :=
  ∀ j < k, Begins inner j

theorem BeginsBelow.mono {inner : Token → Descent Node} (h : BeginsBelow inner k) (hj : j ≤ k) :
    BeginsBelow inner j :=
  fun i hi => h i (Nat.lt_of_lt_of_le hi hj)

/-- A token begins something unless it is a closer. -/
theorem isCloser_of_begin? {t : Token} (h : t.begin? waiting = none) : t.isCloser = true := by
  cases t with
  | groupEnd | environmentEnd name | right => rfl
  | verbatim kind data | environmentBegin name =>
    simp only [Token.begin?] at h
    split at h <;> cases h
  | _ => cases h

theorem not_isCloser_of_begin? {t : Token} {m : Move} (h : t.begin? waiting = some m) :
    ¬ t.isCloser = true := by
  intro hc
  rw [Token.begin?_of_isCloser hc] at h
  cases h

section

variable {inner : Token → Descent Node} {steps : Nat} (hbegins : BeginsBelow inner k)

include hbegins

theorem leads_operand (h : Reaches x k (.operand op) waiting rows p) :
    Leads x (operand inner op) p fun n => Reaches x k (.value n) waiting rows := by
  rw [operand]
  refine Leads.bind (h.next (fun t p' j _ hj hstep => ?_) fun p' _ hx => leads_throw hx)
  cases hm : t.begin? (.prime :: waiting) with
  | none =>
    simp only [State.step, hm] at hstep
    simp only [isCloser_of_begin? hm, reduceIte]
    exact leads_throw hstep
  | some m =>
    simp only [State.step, hm] at hstep
    simp only [not_isCloser_of_begin? hm]
    refine Leads.bind (((hbegins j hj).moves hm hstep.moved).mono fun arg p'' h'' => ?_)
    exact leads_prime (h''.mono (Nat.le_of_lt hj))

/-- Operands with one operator between them are nested, as the frames `chain` and `nest`
do it. -/
theorem leads_script (hsteps : k < steps)
    (h : Reaches x k (.operand op) (.chain op :: waiting) rows p) :
    Leads x (script inner steps op) p fun n => Reaches x k (.value n) waiting rows := by
  induction steps generalizing k waiting p with
  | zero => cases hsteps
  | succ steps ih =>
    rw [script]
    refine Leads.bind ((leads_operand hbegins h).mono fun arg p' h' => ?_)
    refine Leads.bind (h'.glance fun p'' h'' => ?_)
    split
    · next hahead =>
      -- The same operator again: what follows nests into the operand.
      refine Leads.bind (h''.take hahead fun p₃ j hj hstep => ?_)
      have hshift : (Frame.chain op).shift arg (.script op) waiting =
          some (.focus (.operand op) (.chain op :: .nest arg op :: waiting)) := if_pos rfl
      have hbegins' := hbegins.mono (Nat.le_of_lt hj)
      have hrest := ih hbegins' (Nat.lt_of_lt_of_le hj (Nat.le_of_lt_succ hsteps))
        (hstep.shift hshift)
      refine Leads.bind (hrest.mono fun rest p₄ h₄ => Leads.pure ?_)
      exact (h₄.close fun t _ => rfl).mono (Nat.le_of_lt hj)
    · next hne =>
      refine Leads.pure (h''.close fun t ht => ?_)
      cases t with
      | script op' =>
        refine if_neg ?_
        rintro rfl
        exact hne ht
      | _ => rfl

/-- Scripts are attached one pair after another.  The frames `scripts`, `first` and `second`
differ in what the node becomes if nothing follows, and not in what they do with a script
behind that. -/
theorem leads_scripts {base : Node} (hsteps : k < steps)
    (h : Reaches x k (.value base) (.scripts :: waiting) rows p) :
    Leads x (scripts inner steps base) p fun n => Reaches x k (.value n) waiting rows := by
  induction steps generalizing k base p with
  | zero => cases hsteps
  | succ steps ih =>
    rw [scripts]
    refine Leads.bind (h.look fun p' h' => ?_)
    split
    · next op hahead =>
      refine Leads.bind (h'.take hahead fun p₂ j hj hstep => ?_)
      have hbegins' := hbegins.mono (Nat.le_of_lt hj)
      have hj' : j < steps := Nat.lt_of_lt_of_le hj (Nat.le_of_lt_succ hsteps)
      have ih' {base : Node} {p : Progress}
          (h : Reaches x j (.value base) (.scripts :: waiting) rows p) :
          Leads x (scripts inner steps base) p fun n => Reaches x k (.value n) waiting rows :=
        (ih hbegins' hj' h).mono fun n p h => h.mono (Nat.le_of_lt hj)
      refine Leads.bind ((leads_script hbegins' hj' (hstep.shift rfl)).mono fun first p₃ h₃ => ?_)
      refine Leads.bind (h₃.glance fun p₄ h₄ => ?_)
      split
      · next hother =>
        -- The other operator: a pair, behind which scripts may go on.
        refine Leads.bind (h₄.take hother fun p₅ i hi hstep => ?_)
        have hshift : (Frame.first base op).shift first (.script op.other) waiting = some
            (.focus (.operand op.other) (.chain op.other :: .second base op first :: waiting)) :=
          if_pos rfl
        have hbegins'' := hbegins'.mono (Nat.le_of_lt hi)
        have hscript := leads_script hbegins'' (Nat.lt_trans hi hj') (hstep.shift hshift)
        refine Leads.bind (hscript.mono fun second p₆ h₆ => ?_)
        have hpair := (h₆.mono (Nat.le_of_lt hi)).again fun t _ => by cases t <;> rfl
        cases op with
        | sub => exact ih' hpair
        | sup => exact ih' hpair
      · next hne =>
        refine ih' (h₄.again fun t ht => ?_)
        cases t with
        | script op' =>
          refine if_neg ?_
          rintro rfl
          exact hne ht
        | _ => rfl
    · next hne =>
      refine Leads.pure (h'.close fun t ht => ?_)
      cases t with
      | script op => exact absurd ht (hne op)
      | _ => rfl

theorem leads_node {m : Move} (ht : t.begin? [.prime, .scripts] = some m)
    (hk : Begins inner k) (hsteps : k < steps) (h : Moved x k rows p m) :
    Leads x (node inner steps t) p fun n => Reaches x k (.value n) [] rows := by
  rw [node]
  refine Leads.bind ((hk.moves ht h).mono fun base p' h' => ?_)
  refine Leads.bind ((leads_prime h').mono fun base p'' h'' => ?_)
  exact leads_scripts hbegins hsteps h''

/-- A row is read element by element. -/
theorem leads_row (hsteps : k < steps) (h : Reaches x k .element [] rows p) :
    Leads x (row inner (enclosure rows) steps (finished rows)) p fun found p' =>
      Ends x k found p' rows := by
  induction steps generalizing k rows p with
  | zero => cases hsteps
  | succ steps ih =>
    rw [row.eq_def]
    refine Leads.bind (h.next (fun t p' j _ hj hstep => ?_) fun p' _ hx => ?_)
    · have hbegins' := hbegins.mono (Nat.le_of_lt hj)
      have hj' : j < steps := Nat.lt_of_lt_of_le hj (Nat.le_of_lt_succ hsteps)
      cases hc : rows.closedBy t with
      | true =>
        cases rows with
        | root done => cases hc
        | inner e done waiting outer =>
          have hany : (some e).any (·.closedBy t) = true := hc
          simp only [enclosure, hany, reduceIte]
          exact Leads.pure ⟨t, rfl, hc, (hstep.closes hc).mono (Nat.le_of_lt hj)⟩
      | false =>
        have hany : (enclosure rows).any (·.closedBy t) = false := by
          cases rows with
          | root done => rfl
          | inner e done waiting outer => exact hc
        simp only [hany, Bool.false_eq_true, reduceIte]
        cases hm : t.begin? [.prime, .scripts] with
        | none =>
          -- Another closer, which `node` refuses at once.
          have hx := hstep.unexpected hc hm
          rw [node]
          exact Leads.bind (Leads.bind ((hbegins j hj).refuses (isCloser_of_begin? hm) hx))
        | some m =>
          have hnode := leads_node hbegins' hm (hbegins j hj) hj' (hstep.begins hc hm)
          refine Leads.bind (hnode.mono fun n p'' h'' => ?_)
          have hrest := ih hbegins' hj' h''.push
          cases rows with
          | root done => exact hrest.mono fun found p₃ hends => Ends.mono hends (Nat.le_of_lt hj)
          | inner e done waiting outer =>
            exact hrest.mono fun found p₃ hends => Ends.mono hends (Nat.le_of_lt hj)
    · cases rows with
      | root done => exact Leads.pure hx
      | inner e done waiting outer => exact leads_throw hx

/-- The nodes of an enclosure, with what the machine makes of them at its end. -/
theorem leads_group {e : Enclosure} (hsteps : k < steps)
    (h : Reaches x k .element [] (.inner e [] waiting rows) p) :
    Leads x (group inner steps e) p fun n p' => ∃ done t, n = .collapse done ∧
      Stepped x k p' (State.close ⟨.element, [], .inner e done waiting rows, p'.warnings⟩ e done
        waiting rows t p'.cursor.offset) := by
  rw [group]
  refine Leads.bind ((leads_row hbegins hsteps h).mono fun found p' hends => ?_)
  obtain ⟨t, -, -, hstep⟩ := hends
  exact Leads.pure ⟨found.1, t, rfl, hstep⟩

theorem leads_braceGroup (hsteps : k < steps)
    (h : Reaches x k .element [] (.inner .group [] waiting rows) p) :
    Leads x (group inner steps .group) p fun n => Reaches x k (.value n) waiting rows := by
  refine (leads_group hbegins hsteps h).mono ?_
  rintro n p' ⟨done, t, rfl, hstep⟩
  exact ⟨hstep.1, hstep.2⟩

/-! ### Commands -/

/-- An argument, or none where a closer or the end follows. -/
theorem leads_parameter {a : Application} (h : Reaches x k (.argument a) waiting rows p) :
    Leads x (parameter inner) p (Given x k a waiting rows) := by
  rw [parameter]
  refine Leads.bind (h.look fun p' h' => ?_)
  cases hahead : ahead? p' with
  | none =>
    refine Leads.pure (h'.congr (fun t offset warnings ht => ?_) fun offset warnings => rfl)
    rw [hahead] at ht
    cases ht
  | some t =>
    cases hm : t.begin? (.argument a :: waiting) with
    | none =>
      simp only [isCloser_of_begin? hm, reduceIte]
      refine Leads.pure (h'.congr (fun t' offset warnings ht => ?_) fun offset warnings => rfl)
      obtain rfl := Option.some.inj (hahead.symm.trans ht)
      simp only [State.step, State.argument, hm]
      exact State.value_eq rfl offset _ _ rows warnings
    | some m =>
      simp only [not_isCloser_of_begin? hm]
      refine Leads.bind (h'.take hahead fun p'' j hj hstep => ?_)
      simp only [State.step, State.argument, hm] at hstep
      refine Leads.bind (((hbegins j hj).moves hm hstep.moved).mono fun n p₃ h₃ => Leads.pure ?_)
      exact h₃.mono (Nat.le_of_lt hj)

theorem leads_unary (harity : t.arity = 1) (hextra : t.extra = .none)
    (h : Reaches x k (.argument (.start t)) waiting rows p) :
    Leads x (unary inner t) p fun n => Reaches x k (.value n) waiting rows := by
  rw [unary]
  refine Leads.bind ((leads_parameter hbegins h).mono fun arg p' h' => Leads.pure ?_)
  cases arg with
  | none => exact h'
  | some arg => exact Reaches.done h' (by simp [harity]) (by rw [hextra]; trivial)

theorem leads_binary (harity : t.arity = 2) (hextra : t.extra = .none)
    (h : Reaches x k (.argument (.start t)) waiting rows p) :
    Leads x (binary inner t) p fun n => Reaches x k (.value n) waiting rows := by
  rw [binary]
  refine Leads.bind ((leads_parameter hbegins h).mono fun first p' h' => ?_)
  cases first with
  | none => exact Leads.pure h'
  | some first =>
    have hsecond := Reaches.more h' (by simp [harity])
    refine Leads.bind ((leads_parameter hbegins hsecond).mono fun second p'' h'' => Leads.pure ?_)
    cases second with
    | none => exact h''
    | some second => exact Reaches.done h'' (by simp [harity]) (by rw [hextra]; trivial)

/-- Brace groups behind the last argument of a command. -/
theorem leads_groups {args : List Node} (hsteps : k < steps) (hextra : t.extra = .groups)
    (hlen : ¬ args.length + 1 < t.arity)
    (h : Reaches x k (.value n) (.argument ⟨t, args, none⟩ :: waiting) rows p) :
    Leads x (groups inner steps (args ++ [n])) p fun args =>
      Reaches x k (.value (.command t args)) waiting rows := by
  induction steps generalizing k args n p with
  | zero => cases hsteps
  | succ steps ih =>
    rw [groups]
    refine Leads.bind (h.glance fun p' h' => ?_)
    split
    · next hahead =>
      refine Leads.bind (h'.take hahead fun p'' j hj hstep => ?_)
      have hshift : (Frame.argument ⟨t, args, none⟩).shift n .groupBegin waiting =
          some (.enclose .group (.argument ⟨t, args ++ [n], none⟩ :: waiting)) := by
        simp only [Frame.shift, Application.push, List.length_append, List.length_singleton,
          if_neg hlen, hextra]
      have hbegins' := hbegins.mono (Nat.le_of_lt hj)
      have hj' : j < steps := Nat.lt_of_lt_of_le hj (Nat.le_of_lt_succ hsteps)
      have hgroup := leads_braceGroup hbegins' hj' (hstep.shift hshift)
      refine Leads.bind (hgroup.mono fun arg p₃ h₃ => ?_)
      have hlen' : ¬ (args ++ [n]).length + 1 < t.arity := by
        rw [List.length_append, List.length_singleton]
        omega
      refine (ih hbegins' hj' hlen' h₃).mono fun args p₄ h₄ => ?_
      exact h₄.mono (Nat.le_of_lt hj)
    · next hne => exact Leads.pure (h'.done hlen (by rw [hextra]; exact hne))

theorem leads_fraction (hsteps : k < steps) (harity : t.arity = 2) (hextra : t.extra = .groups)
    (h : Reaches x k (.argument (.start t)) waiting rows p) :
    Leads x (fraction inner steps t) p fun n => Reaches x k (.value n) waiting rows := by
  rw [fraction]
  refine Leads.bind ((leads_parameter hbegins h).mono fun numerator p' h' => ?_)
  cases numerator with
  | none => exact Leads.pure h'
  | some numerator =>
    have hsecond := Reaches.more h' (by simp [harity])
    refine Leads.bind ((leads_parameter hbegins hsecond).mono fun denominator p'' h'' => ?_)
    cases denominator with
    | none => exact Leads.pure h''
    | some denominator =>
      refine Leads.bind ((leads_groups hbegins hsteps hextra (by simp [harity]) h'').mono ?_)
      exact fun args p₃ h₃ => Leads.pure h₃

theorem leads_operatorName (hsteps : k < steps)
    (h : Reaches x k (.argument (.start .operatorName)) waiting rows p) :
    Leads x (operatorName inner steps) p fun n => Reaches x k (.value n) waiting rows := by
  rw [operatorName]
  refine Leads.bind ((leads_parameter hbegins h).mono fun name p' h' => ?_)
  cases name with
  | none => exact Leads.pure h'
  | some name =>
    refine Leads.bind ((leads_groups hbegins hsteps rfl (by decide) h').mono ?_)
    exact fun args p'' h'' => Leads.pure h''

/-- A label is an argument behind a script operator, and there is one at most. -/
theorem leads_brace (harity : t.arity = 1) (hextra : t.extra = .label op)
    (h : Reaches x k (.argument (.start t)) waiting rows p) :
    Leads x (brace inner t op) p fun n => Reaches x k (.value n) waiting rows := by
  rw [brace]
  refine Leads.bind ((leads_parameter hbegins h).mono fun arg p' h' => ?_)
  cases arg with
  | none => exact Leads.pure h'
  | some arg =>
    refine Leads.bind (Reaches.glance h' fun p'' h'' => ?_)
    split
    · next hahead =>
      refine Leads.bind (h''.take hahead fun p₃ j hj hstep => ?_)
      have hshift : (Frame.argument (.start t)).shift arg (.script op) waiting =
          some (.focus (.operand op) (.argument ⟨t, [arg], none⟩ :: waiting)) := by
        simp [Frame.shift, Application.push, Application.start, harity, hextra]
      have hbegins' := hbegins.mono (Nat.le_of_lt hj)
      refine Leads.bind ((leads_operand hbegins' (hstep.shift hshift)).mono fun label p₄ h₄ => ?_)
      have hdone := h₄.done (by simp [harity]) (by rw [hextra]; exact .inr (by simp [harity]))
      exact Leads.pure (hdone.mono (Nat.le_of_lt hj))
    · next hne => exact Leads.pure (h''.done (by simp [harity]) (by rw [hextra]; exact .inl hne))

/-- The base of a radical, behind its index if there is one. -/
theorem leads_radicand {index : Option Node}
    (h : Reaches x k (.argument ⟨.radical, [], index⟩) waiting rows p) :
    Leads x (radicand inner index) p fun n => Reaches x k (.value n) waiting rows := by
  rw [radicand]
  refine Leads.bind ((leads_parameter hbegins h).mono fun base p' h' => ?_)
  cases base with
  | none => exact Leads.pure h'
  | some base => exact Leads.pure (Reaches.done h' (Nat.lt_irrefl 1) trivial)

theorem leads_radical (hsteps : k < steps) (h : Reaches x k .radical waiting rows p) :
    Leads x (radical inner steps) p fun n => Reaches x k (.value n) waiting rows := by
  rw [radical]
  refine Leads.bind (h.glance fun p' h' => ?_)
  split
  · next hahead =>
    refine Leads.bind (h'.take hahead fun p'' j hj hstep => ?_)
    simp only [State.step, reduceIte] at hstep
    have hbegins' := hbegins.mono (Nat.le_of_lt hj)
    have hindex := leads_group hbegins' (Nat.lt_trans hj hsteps) hstep.moved
    refine Leads.bind (hindex.mono ?_)
    rintro _ p₃ ⟨done, t, rfl, hclose⟩
    have h₃ : Reaches x k (.value (.collapse done)) (.index :: waiting) rows p₃ :=
      ⟨Nat.le_trans hclose.1 (Nat.le_of_lt hj), hclose.2⟩
    exact leads_radicand hbegins (h₃.argument rfl fun t => rfl)
  · next hne =>
    refine leads_radicand hbegins (h'.congr (fun t offset warnings ht => ?_) fun _ _ => rfl)
    have hbracket : ¬ t = .delimiter (utf8 "[") := by
      rintro rfl
      exact hne ht
    simp only [State.step, if_neg hbracket]
    rfl

/-! ### Limits -/

theorem leads_limits {l : Limits} (hsteps : k < steps) (hl : l.isFull = false)
    (h : Reaches x k (.limits l) waiting rows p) :
    Leads x (limits inner steps l) p fun n => Reaches x k (.value n) waiting rows := by
  induction steps generalizing k l p with
  | zero => cases hsteps
  | succ steps ih =>
    rw [limits, if_neg (Bool.eq_false_iff.mp hl)]
    refine Leads.bind (h.glance fun p' h' => ?_)
    have hdone (hmove : ∀ t, ahead? p' = some t → l.move? t waiting = none) :
        Reaches x k (.value l.node) waiting rows p' := by
      refine h'.congr (fun t offset warnings ht => ?_) fun _ _ => rfl
      simp only [State.step, hmove t ht]
      exact State.value_eq rfl offset _ _ rows warnings
    split
    · next name hahead =>
      -- A switch, or a command that is none.
      have hswitch {l' : Limits} (hfull : l'.isFull = false)
          (hmove : l.move? (.command name) waiting = some (.focus (.limits l') waiting)) :
          Leads x (next >>= fun _ => limits inner steps l') p' fun n =>
            Reaches x k (.value n) waiting rows := by
        refine Leads.bind (h'.take hahead fun p'' j hj hstep => ?_)
        simp only [State.step, hmove] at hstep
        have hj' : j < steps := Nat.lt_of_lt_of_le hj (Nat.le_of_lt_succ hsteps)
        refine (ih (hbegins.mono (Nat.le_of_lt hj)) hj' hfull hstep.moved).mono ?_
        exact fun n p₃ h₃ => h₃.mono (Nat.le_of_lt hj)
      split
      · next hlimits => exact hswitch hl (if_pos hlimits)
      · next hlimits =>
        split
        · next hnolimits => exact hswitch hl ((if_neg hlimits).trans (if_pos hnolimits))
        · next hnolimits =>
          refine Leads.pure (hdone fun t ht => ?_)
          obtain rfl := Option.some.inj (hahead.symm.trans ht)
          exact (if_neg hlimits).trans (if_neg hnolimits)
    · next op hahead =>
      split
      · next hhas =>
        refine Leads.pure (hdone fun t ht => ?_)
        obtain rfl := Option.some.inj (hahead.symm.trans ht)
        exact if_pos hhas
      · next hhas =>
        refine Leads.bind (h'.take hahead fun p'' j hj hstep => ?_)
        have hmove : l.move? (.script op) waiting =
            some (.focus (.operand op) (.limit op l :: waiting)) := if_neg hhas
        simp only [State.step, hmove] at hstep
        have hbegins' := hbegins.mono (Nat.le_of_lt hj)
        have hj' : j < steps := Nat.lt_of_lt_of_le hj (Nat.le_of_lt_succ hsteps)
        refine Leads.bind ((leads_operand hbegins' hstep.moved).mono fun n p₃ h₃ => ?_)
        cases hfull : (l.set op n).isFull with
        | true =>
          obtain ⟨steps, rfl⟩ := Nat.exists_eq_add_one_of_ne_zero (Nat.ne_zero_of_lt hj')
          rw [limits, if_pos hfull]
          refine Leads.pure ((h₃.close fun t _ => ?_).mono (Nat.le_of_lt hj))
          exact if_pos hfull
        | false =>
          refine (ih hbegins' hj' hfull (h₃.limits hfull)).mono ?_
          exact fun n p₄ h₄ => h₄.mono (Nat.le_of_lt hj)
    · next hcommand hscript =>
      refine Leads.pure (hdone fun t ht => ?_)
      cases t with
      | command name => exact absurd ht (hcommand name)
      | script op => exact absurd ht (hscript op)
      | _ => rfl

/-! ### Environments and fences -/

/-- What stands in an environment.  An end under another name is warned about. -/
theorem leads_content {name : Bytes} {columns : Option Bytes} (hsteps : k < steps)
    (h : Reaches x k .element [] (.inner (.environment name columns) [] waiting rows) p) :
    Leads x (content inner steps name columns) p fun n => Reaches x k (.value n) waiting rows := by
  rw [content]
  refine Leads.bind ((leads_row hbegins hsteps h).mono ?_)
  rintro ⟨children, last⟩ p' ⟨t, rfl, hc, hlength, hresume⟩
  cases t with
  | environmentEnd endName =>
    let n := Node.mk .environment name (some (.environmentBegin name)) { columns := columns }
      children
    have hclosed : (⟨.value n, waiting, rows, p'.warnings ++
        if endName == name then [] else [⟨name, endName, p'.cursor.offset⟩]⟩ : State).resume
          p'.cursor.rest = x := hresume
    refine Leads.bind ?_
    cases hname : endName == name with
    | true =>
      simp only [hname, reduceIte, List.append_nil] at hclosed
      simp only [warnAbout, hname, reduceIte]
      exact Leads.pure (Leads.pure ⟨hlength, hclosed⟩)
    | false =>
      simp only [hname, Bool.false_eq_true, reduceIte] at hclosed
      simp only [warnAbout, hname, Bool.false_eq_true, reduceIte]
      exact .returns rfl (Leads.pure ⟨hlength, hclosed⟩)
  | _ => cases hc

/-- The column specification of an environment. -/
theorem leads_columns {name : Bytes} (hsteps : k < steps)
    (h : Reaches x k (.columns name) waiting rows p) :
    Leads x (columns inner steps name) p fun text =>
      Reaches x k .element [] (.inner (.environment name (some text)) [] waiting rows) := by
  rw [columns]
  refine Leads.bind (h.next (fun t p' j _ hj hstep => ?_) fun p' _ hx => leads_throw hx)
  cases t with
  | groupBegin =>
    simp only [State.step, reduceIte] at hstep
    have hbegins' := hbegins.mono (Nat.le_of_lt hj)
    have hgroup := leads_group hbegins' (Nat.lt_trans hj hsteps) hstep.moved
    refine Leads.bind (hgroup.mono ?_)
    rintro _ p'' ⟨done, t, rfl, hclose⟩
    cases htext : (Node.collapse done).plainText? with
    | none =>
      simp only [State.close, htext] at hclose
      exact Leads.throw hclose
    | some text =>
      simp only [State.close, htext] at hclose
      exact Leads.pure ⟨Nat.le_trans hclose.1 (Nat.le_of_lt hj), hclose.2⟩
  | _ => exact leads_throw hstep

theorem leads_environment {name : Bytes} {m : Move} (hsteps : k < steps)
    (hm : (Token.environmentBegin name).begin? waiting = some m) (h : Moved x k rows p m) :
    Leads x (environment inner steps name) p fun n => Reaches x k (.value n) waiting rows := by
  rw [environment]
  simp only [Token.begin?] at hm
  split
  · next hname =>
    rw [if_pos hname] at hm
    obtain rfl := Option.some.inj hm
    refine Leads.bind ((leads_columns hbegins hsteps h).mono fun text p' h' => ?_)
    exact leads_content hbegins hsteps h'
  · next hname =>
    rw [if_neg hname] at hm
    obtain rfl := Option.some.inj hm
    exact leads_content hbegins hsteps h

theorem leads_fence (hsteps : k < steps) (h : Reaches x k .opening waiting rows p) :
    Leads x (fence inner steps) p fun n => Reaches x k (.value n) waiting rows := by
  rw [fence]
  refine Leads.bind ((leads_opening h).mono fun opening p' h' => ?_)
  refine Leads.bind ((leads_row hbegins hsteps h').mono ?_)
  rintro ⟨children, last⟩ p'' ⟨t, -, -, hclose⟩
  have h'' : Reaches x k (.closing opening children) waiting rows p'' := ⟨hclose.1, hclose.2⟩
  exact Leads.bind ((leads_closing h'').mono fun closing p₃ h₃ => Leads.pure h₃)

/-- By cases on the token. -/
theorem leads_construct {m : Move} (hsteps : k < steps) (hm : t.begin? waiting = some m)
    (h : Moved x k rows p m) :
    Leads x (construct inner steps t) p fun n => Reaches x k (.value n) waiting rows := by
  cases t with
  | verbatim kind data =>
    rw [construct]
    refine Leads.pure ?_
    simp only [Token.begin?] at hm
    by_cases hkind : kind == utf8 "hspace"
    · rw [if_pos hkind] at hm
      cases hm
      rw [verbatim, if_pos hkind]
      exact h
    · rw [if_neg hkind] at hm
      cases hm
      rw [verbatim, if_neg hkind]
      exact h
  | environmentBegin name =>
    rw [construct]
    exact leads_environment hbegins hsteps hm h
  | letter text | number text | operator text | delimiter glyph | command name | prime count
  | cellBreak | lineBreak =>
    cases hm
    rw [construct]
    exact Leads.pure h
  | groupBegin =>
    cases hm
    rw [construct]
    exact leads_braceGroup hbegins hsteps h
  | script op =>
    cases hm
    rw [construct]
    refine Leads.bind ((leads_script hbegins hsteps h).mono fun n p' h' => Leads.pure ?_)
    exact h'.close fun t _ => rfl
  | radical =>
    cases hm
    rw [construct]
    exact leads_radical hbegins hsteps h
  | fraction kind | binomial kind =>
    cases hm
    rw [construct]
    exact leads_fraction hbegins hsteps rfl rfl h
  | markOver glyph accent | markUnder glyph accent | style v | slashed =>
    cases hm
    rw [construct]
    exact leads_unary hbegins rfl rfl h
  | overset | underset =>
    cases hm
    rw [construct]
    exact leads_binary hbegins rfl rfl h
  | overbrace glyph | underbrace glyph =>
    cases hm
    rw [construct]
    exact leads_brace hbegins rfl rfl h
  | operatorName =>
    cases hm
    rw [construct]
    exact leads_operatorName hbegins hsteps h
  | bigOperator glyph | integral glyph | limit name =>
    cases hm
    rw [construct]
    exact leads_limits hbegins hsteps rfl h
  | big size =>
    cases hm
    rw [construct]
    exact leads_sized h
  | left =>
    cases hm
    rw [construct]
    exact leads_fence hbegins hsteps h
  | middle =>
    cases hm
    rw [construct]
    exact Leads.bind ((leads_middle h).mono fun glyph p' h' => Leads.pure h')
  | groupEnd | environmentEnd name | right => cases hm

end

theorem leads_construct_of_isCloser {inner : Token → Descent Node} {steps : Nat}
    {post : Node → Progress → Prop} (ht : t.isCloser = true)
    (hx : x = ⟨p.warnings, .error (.unexpected (utf8 "expression") t.describe p.cursor.offset)⟩) :
    Leads x (construct inner steps t) p post := by
  cases t with
  | groupEnd | environmentEnd name | right => exact leads_throw hx
  | _ => cases ht

/-- A depth beyond the number of tokens is never reached. -/
theorem begins {depth : Nat} (hk : k + 1 < depth) : Begins (atomic depth) k := by
  induction depth generalizing k with
  | zero => cases hk
  | succ depth ih =>
    have hbegins : BeginsBelow (atomic depth) k := fun j hj =>
      ih (Nat.lt_of_le_of_lt hj (Nat.lt_of_succ_lt_succ hk))
    exact ⟨leads_construct hbegins (Nat.lt_of_succ_lt_succ hk), leads_construct_of_isCloser⟩

/-! ### Sources -/

/-- **Recursive descent and the machine parse alike.**  The descent has a result on every
source, with the same tree or error and the same warnings. -/
theorem parse_eq (source : Bytes) : parse source = some (MathMarkup.parse source) := by
  let p : Progress := ⟨.start source, []⟩
  let bound := source.length + 1
  have hlength : p.cursor.rest.list.length < bound :=
    Nat.lt_succ_of_le (Scanner.length_lexemes_le (.start source))
  have hstart : Reaches (MathMarkup.parse source) p.cursor.rest.list.length .element []
      (.root []) p := ⟨Nat.le_refl _, rfl⟩
  have hbegins : BeginsBelow (atomic bound) p.cursor.rest.list.length := fun j hj =>
    begins (Nat.lt_of_le_of_lt hj hlength)
  have hrow : Leads (MathMarkup.parse source) (row (atomic bound) none bound []) p _ :=
    leads_row hbegins hlength hstart
  cases hrow with
  | returns hm hends =>
    rw [parse, hm, hends]
    rfl
  | fails hm hx =>
    rw [parse, hm, hx]
    rfl

end Descent

/-- **Faults of a source are never swallowed.**  On a source that cannot be read to its end
the descent ends with an error.  It is the fault that ended the tokens, or it is about a token
in front of the fault, and was raised there: all sources with the same tokens up to that one
have the same error. -/
theorem error_of_fault {source : Bytes} {e : Error}
    (h : (Lexemes.ofSource source).fault = some e) :
    ∃ parsed, Descent.parse source = some parsed ∧ (parsed.tree = .error e ∨
      ∃ before l after e', (Lexemes.ofSource source).list = before ++ l :: after ∧
        e'.IsAbout l ∧ parsed.tree = .error e' ∧
        ∀ source', before ++ [l] <+: (Lexemes.ofSource source').list →
          ∃ parsed', Descent.parse source' = some parsed' ∧ parsed'.tree = .error e') := by
  refine ⟨parse source, Descent.parse_eq source, ?_⟩
  -- In the run of the machine either a step fails, or all tokens are used up.
  cases hrun : (State.start.run (Lexemes.ofSource source).list).2 with
  | none => exact .inl (Lexemes.parse_of_fault h hrun)
  | some e' =>
    obtain ⟨before, l, after, hlist, habout, hfinal⟩ := State.exists_isAbout_of_run hrun
    refine .inr ⟨before, l, after, e', hlist, habout, Lexemes.parse_of_run_error hrun, ?_⟩
    rintro source' ⟨rest, hrest⟩
    refine ⟨parse source', Descent.parse_eq source', Lexemes.parse_of_run_error ?_⟩
    rw [← hrest, List.append_assoc]
    exact hfinal rest

/-- A large operator may have limits, and the braces around it may have labels.  Behind the
operator `\begin` is cut off, which is passed over three times. -/
theorem error_of_fault_label :
    let source := utf8 "\\overbrace\\underbrace\\hat\\sum\\begin"
    ∃ e, (Lexemes.ofSource source).fault = some e ∧
      e.message = utf8 "offset 35: expected \x7b, got end of input" ∧
      ∃ parsed, Descent.parse source = some parsed ∧ (parsed.tree = .error e ∨
        ∃ before l after e', (Lexemes.ofSource source).list = before ++ l :: after ∧
          e'.IsAbout l ∧ parsed.tree = .error e' ∧
          ∀ source', before ++ [l] <+: (Lexemes.ofSource source').list →
            ∃ parsed', Descent.parse source' = some parsed' ∧ parsed'.tree = .error e') := by
  intro source
  have hmessage : (Lexemes.ofSource source).fault.map Error.message =
      some (utf8 "offset 35: expected \x7b, got end of input") := by
    decide +kernel
  obtain ⟨e, hfault, he⟩ := Option.map_eq_some_iff.mp hmessage
  exact ⟨e, hfault, he, error_of_fault hfault⟩

end MathMarkup
