/-
MathMarkup/Proofs/FirstEnvironment.lean

The environment that a source begins with.  While it is open, it is the outermost row
of the state (`Rows.OpensWith`), whatever is begun and ended inside; once it has ended,
it is the node at the root to which primes and scripts may still be attached.  So the
first node of the tree is built on that environment (`State.founded_of_outcome`), and
it is the environment itself if it has become a table (`not_table_of_branch`).

What a step can do to the rows is said once (`State.rows_of_step`): it may add an
element, and then it opens a row, ends the innermost one or leaves them as they are.
-/
import MathMarkup.Proofs.BareScripts
import MathMarkup.Proofs.Lowered

namespace MathMarkup

/-! ### What a step does to the rows -/

/-- The same rows, or with one more element in the innermost one. -/
inductive Rows.Extends (rows : Rows) : Rows → Prop
  | same : Extends rows rows
  | push (n : Node) : Extends rows (rows.push n)

/-- What becomes of rows when a token leads to a state. -/
inductive Rows.Turns (rows : Rows) (t : Token) (offset : Nat) (s' : State) : Prop
  | same {rows' : Rows} : rows.Extends rows' → s'.rows = rows' → Turns rows t offset s'
  | opened {rows' : Rows} (e : Enclosure) (waiting : List Frame) : rows.Extends rows' →
      s'.rows = .inner e [] waiting rows' → Turns rows t offset s'
  | closed {e : Enclosure} {done : List Node} {waiting : List Frame} {outer : Rows} (s : State) :
      rows.Extends (.inner e done waiting outer) →
      s.close e done waiting outer t offset = .ok s' → Turns rows t offset s'

namespace State

variable {s s' : State} {t : Token} {offset : Nat} {rows : Rows}

theorem turns_apply (h : rows.Extends s.rows) (m : Move) : rows.Turns t offset (s.apply m) := by
  cases m with
  | focus f waiting => exact .same h rfl
  | enclose e waiting => exact .opened e waiting h rfl

theorem turns_element (hrows : rows.Extends s.rows) (h : s.element t offset = .ok s') :
    rows.Turns t offset s' := by
  rcases element_ok h with ⟨m, -, rfl⟩ | ⟨e, done, waiting, outer, hinner, -, hclose⟩
  · exact turns_apply hrows m
  · rw [hinner] at hrows
    exact .closed s hrows hclose

theorem turns_value {n : Node} (h : s.value n t offset = .ok s') : s.rows.Turns t offset s' := by
  rw [State.value] at h
  cases hfeed : feed s.waiting n t with
  | move m =>
    simp only [hfeed, Except.ok.injEq] at h
    exact h ▸ turns_apply .same m
  | element k =>
    simp only [hfeed] at h
    exact turns_element (s := { s with rows := s.rows.push k }) (.push k) h

theorem turns_argument {a : Application} (h : s.argument a t offset = .ok s') :
    s.rows.Turns t offset s' := by
  rw [State.argument] at h
  cases hbegin : t.begin? (.argument a :: s.waiting) with
  | some m =>
    simp only [hbegin, Except.ok.injEq] at h
    exact h ▸ turns_apply .same m
  | none =>
    simp only [hbegin] at h
    exact turns_value h

/-- **All that a step can do to the rows.** -/
theorem rows_of_step (h : s.step t offset = .ok s') : s.rows.Turns t offset s' := by
  cases hf : s.focus with
  | value n =>
    simp only [State.step, hf] at h
    exact turns_value h
  | element =>
    simp only [State.step, hf] at h
    exact turns_element .same h
  | argument a =>
    simp only [State.step, hf] at h
    exact turns_argument h
  | operand op =>
    simp only [State.step, hf] at h
    split at h
    · exact Except.ok.inj h ▸ turns_apply .same _
    · cases h
  | radical =>
    simp only [State.step, hf] at h
    split at h
    · exact Except.ok.inj h ▸ turns_apply .same _
    · exact turns_argument h
  | limits l =>
    simp only [State.step, hf] at h
    split at h
    · exact Except.ok.inj h ▸ turns_apply .same _
    · exact turns_value h
  | columns name =>
    simp only [State.step, hf] at h
    split at h
    · exact Except.ok.inj h ▸ turns_apply .same _
    · cases h
  | opening =>
    simp only [State.step, hf] at h
    split at h
    · exact Except.ok.inj h ▸ turns_apply .same _
    · cases h
  -- A delimiter that has to follow is a node in the same row.
  | sized tag | closing opening content | middle =>
    simp only [State.step, hf] at h
    split at h
    · exact Except.ok.inj h ▸ .same .same rfl
    · cases h

/-- Behind a row that has ended are the rows around it, in which a column specification
is followed by the content. -/
theorem rows_of_close {e : Enclosure} {done : List Node} {waiting : List Frame} {outer : Rows}
    (h : s.close e done waiting outer t offset = .ok s') :
    s'.rows = outer ∨ ∃ e', s'.rows = .inner e' [] waiting outer := by
  cases e with
  | columns name =>
    simp only [State.close] at h
    split at h
    · cases h
    · obtain rfl := Except.ok.inj h
      exact .inr ⟨_, rfl⟩
  | group | index | environment name columns | fence opening =>
    exact .inl (Except.ok.inj h ▸ rfl)

end State

/-! ### The first environment -/

/-- The node of an environment. -/
def environmentNode (name : Bytes) (columns : Option Bytes) (content : List Node) : Node :=
  .mk .environment name (some (.environmentBegin name)) { columns := columns } content

/-- The first thing at the root is an enclosure that is still open. -/
inductive Rows.OpensWith (e : Enclosure) : Rows → Prop
  | first (done : List Node) : OpensWith e (.inner e done [.prime, .scripts] (.root []))
  | inner {outer : Rows} (e' : Enclosure) (done : List Node) (waiting : List Frame) :
      OpensWith e outer → OpensWith e (.inner e' done waiting outer)

theorem Rows.OpensWith.extends {e : Enclosure} {rows rows' : Rows} (h : rows.OpensWith e)
    (hrows : rows.Extends rows') : rows'.OpensWith e := by
  cases hrows with
  | same => exact h
  | push n =>
    cases h with
    | first done => exact .first (done ++ [n])
    | inner e' done waiting houter => exact .inner e' (done ++ [n]) waiting houter

namespace State

variable {s s' : State} {t : Token} {name : Bytes} {columns : Option Bytes}

/-- The first environment stays open, or has just become a node. -/
theorem opensWith_of_step (h : s.rows.OpensWith (.environment name columns))
    (hstep : s.step t 0 = .ok s') :
    s'.rows.OpensWith (.environment name columns) ∨ ∃ content ws,
      s' = ⟨.value (environmentNode name columns content), [.prime, .scripts], .root [], ws⟩ := by
  cases rows_of_step hstep with
  | same hrows hs' => exact .inl (hs' ▸ h.extends hrows)
  | opened e waiting hrows hs' => exact .inl (hs' ▸ .inner e [] waiting (h.extends hrows))
  | @closed e done waiting outer u hrows hclose =>
    cases h.extends hrows with
    | first => exact .inr ⟨done, _, (Except.ok.inj hclose).symm⟩
    | inner _ _ _ houter =>
      rcases rows_of_close hclose with hs' | ⟨e', hs'⟩
      · exact .inl (hs' ▸ houter)
      · exact .inl (hs' ▸ .inner e' [] waiting houter)

/-- Behind a node that came first there is one that is built on it. -/
theorem founded_of_value (n : Node) (ws : List Warning) {ts : List Token} {ns : List Node}
    (h : (State.mk (.value n) [.prime, .scripts] (.root []) ws).outcome ts = some ns) :
    ∃ y more, ns = y :: more ∧ Founded n y := by
  have hbegins : Begins (Founded n) [.prime, .scripts] [] n :=
    .primeScripts (fun _ hk kind rest => .on kind rest hk) .self
  have hheads := (Twin.bottom ws hbegins hbegins).outcome ts
  rw [h] at hheads
  cases hheads with
  | some hy _ => exact ⟨_, _, rfl, hy⟩

/-- **The first node is built on the first environment**; by induction on the tokens. -/
theorem founded_of_outcome {ts : List Token} {ns : List Node}
    (hrows : s.rows.OpensWith (.environment name columns)) (h : s.outcome ts = some ns) :
    ∃ content y more, ns = y :: more ∧ Founded (environmentNode name columns content) y := by
  induction ts generalizing s with
  | nil =>
    -- The input cannot end while the environment is open.
    cases rests_of_nodes? h with
    | element _ hroot | node _ hroot =>
      rw [hroot] at hrows
      cases hrows
  | cons t ts ih =>
    cases hstep : s.step t 0 with
    | error e =>
      rw [outcome_of_error hstep] at h
      cases h
    | ok s' =>
      rw [outcome_of_step hstep] at h
      rcases opensWith_of_step hrows hstep with hrows' | ⟨content, ws, rfl⟩
      · exact ih hrows' h
      · exact ⟨content, founded_of_value _ ws h⟩

end State

/-- A node that is built on another becomes no table. -/
theorem not_table_of_branch {table : Table} {v : Variant} {kind : Kind} {ns : List Node}
    {cells : List Markup} {align columnLines : Bytes} :
    Lowering.lower table v (.branch kind ns) ≠ .ok (.table cells align columnLines) := by
  intro h
  cases kind with
  | letter | number | operator | text | lineBreak | cellBreak | unknown _ => cases h
  | root | row =>
    obtain ⟨ms, -, hrow⟩ := Lowering.exists_of_bind_eq_ok h
    cases hrow
  | command => cases h
  | environment => cases h
  | superscript | subscript | subSup | underscript | overscript | underOverscript =>
    obtain ⟨ms, -, hscripts⟩ := Lowering.exists_of_bind_eq_ok h
    rcases ms with - | ⟨base, - | ⟨first, - | ⟨second, ms⟩⟩⟩ <;> cases hscripts

end MathMarkup
