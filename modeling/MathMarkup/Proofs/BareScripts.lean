/-
MathMarkup/Proofs/BareScripts.lean

Scripts without a base.  A source that begins with a script operator has an empty
group as the base of that script.  With the group written out in front the source
can be parsed if and only if it can be parsed without it, but the tree is not
always the same: a script without a base is a base itself for what follows.  A
script with the other operator is attached to the whole instead of making a pair
(`not_parse_bareScript_eq`), and so are primes, which would be on their own behind
a script of a written base.

The trees are the same exactly if the first node is left as it is, an empty group
with one script (`parse_bareScript`).

Both runs have the same upper part of the stack until the first script is complete
(`compared_outcome`).  If the next token makes a difference, they go on side by
side, each above a bottom of its own (`Twin`), and in the end the first nodes at the
root differ by what is at their base (`Founded`).
-/
import MathMarkup.Proofs.Scripts
import MathMarkup.Proofs.Stack

namespace MathMarkup

/-! ### Nodes on a base -/

/-- A node with another at its base, which is reached through first children. -/
inductive Founded (base : Node) : Node → Prop
  | self : Founded base base
  | on {n : Node} (kind : Kind) (rest : List Node) :
      Founded base n → Founded base (.branch kind (n :: rest))

namespace Founded

variable {base n : Node}

/-- Nothing but an empty group is at the base of one. -/
theorem eq_of_group (h : Founded base (.group [])) : base = .group [] := by
  cases h
  rfl

/-- A node has one base at most that stands on an empty group; by induction on the
way to it. -/
theorem unique {base' : Node} {kind kind' : Kind} {rest rest' : List Node}
    (hbase : base = .branch kind (.group [] :: rest))
    (hbase' : base' = .branch kind' (.group [] :: rest')) (h : Founded base n)
    (h' : Founded base' n) : base' = base := by
  induction h with
  | self =>
    subst hbase
    cases h' with
    | self => rfl
    | on _ _ h' =>
      rw [h'.eq_of_group] at hbase'
      cases hbase'
  | on kind rest h ih =>
    cases h' with
    | self =>
      obtain ⟨-, -, -, -, hchildren⟩ := Node.mk.inj hbase'
      obtain ⟨rfl, -⟩ := List.cons.inj hchildren
      rw [h.eq_of_group] at hbase
      cases hbase
    | on _ _ h' => exact ih h'

end Founded

/-- A property of a node with another as its first child. -/
def Under (P : Node → Prop) (n : Node) : Prop :=
  ∀ kind rest, P (.branch kind (n :: rest))

/-- A property that a node keeps as the base of others. -/
def Grows (P : Node → Prop) : Prop :=
  ∀ n, P n → Under P n

theorem Under.attach {P : Node → Prop} {n : Node} (h : Under P n) (op : Script) (script : Node) :
    P (n.attach op script) := by
  cases op <;> exact h _ _

theorem Under.second {P : Node → Prop} {n : Node} (h : Under P n) (op : Script) (script m : Node) :
    P ((Frame.second n op script).close m) := by
  cases op <;> exact h _ _

/-- A node with others between it and its base. -/
def FoundedBelow (base n : Node) : Prop :=
  ∃ kind m rest, n = .branch kind (m :: rest) ∧ Founded base m

theorem FoundedBelow.founded {base n : Node} (h : FoundedBelow base n) : Founded base n := by
  obtain ⟨kind, m, rest, rfl, hm⟩ := h
  exact .on kind rest hm

theorem grows_foundedBelow (base : Node) : Grows (FoundedBelow base) :=
  fun n hn kind rest => ⟨kind, n, rest, rfl, hn.founded⟩

theorem under_foundedBelow (base : Node) : Under (FoundedBelow base) base :=
  fun kind rest => ⟨kind, base, rest, rfl, .self⟩

/-- Not with a script of an empty group as the base. -/
theorem FoundedBelow.ne_attach {op op' : Script} {n script script' : Node}
    (h : FoundedBelow ((Node.group []).attach op script) n) :
    n ≠ (Node.group []).attach op' script' := by
  rintro rfl
  obtain ⟨kind, m, rest, heq, hm⟩ := h
  obtain rfl : m = .group [] := by
    cases op' <;> exact (List.cons.inj (Node.mk.inj heq).2.2.2.2).1.symm
  have hgroup := hm.eq_of_group
  cases op <;> cases hgroup

/-! ### The bottom of a run -/

/-- The frames at the root behind the first base: they wait for its primes, for its
scripts, or for a script of it. -/
inductive Attaching : List Frame → Prop
  | scripts : Attaching [.scripts]
  | primeScripts : Attaching [.prime, .scripts]
  | first (base : Node) (op : Script) : Attaching [.first base op]
  | second (base : Node) (op : Script) (script : Node) : Attaching [.second base op script]

/-- When a node comes down to these frames and elements, the first element will have
a property, whatever else is added to it. -/
inductive Begins (P : Node → Prop) : List Frame → List Node → Node → Prop
  | done {bottom : List Frame} {y n : Node} {ns : List Node} :
      Attaching bottom → P y → Begins P bottom (y :: ns) n
  | scripts {n : Node} : Grows P → P n → Begins P [.scripts] [] n
  | primeScripts {n : Node} : Grows P → P n → Begins P [.prime, .scripts] [] n
  | first {base n : Node} (op : Script) : Grows P → Under P base → Begins P [.first base op] [] n
  | second {base script n : Node} {op : Script} : Grows P →
      (∀ k, P ((Frame.second base op script).close k)) → Begins P [.second base op script] [] n

namespace Begins

variable {P : Node → Prop} {bottom : List Frame} {ns : List Node} {n : Node}

theorem attaching (h : Begins P bottom ns n) : Attaching bottom := by
  cases h with
  | done h _ => exact h
  | scripts => exact .scripts
  | primeScripts => exact .primeScripts
  | first op => exact .first _ op
  | second => exact .second _ _ _

/-- When the node is closed. -/
theorem closed (h : Begins P bottom ns n) :
    ∃ y ms, ns ++ [State.closeAll bottom n] = y :: ms ∧ P y := by
  cases h with
  | done _ hy => exact ⟨_, _, rfl, hy⟩
  | scripts _ hn | primeScripts _ hn => exact ⟨_, _, rfl, hn⟩
  | first op _ hbase => exact ⟨_, _, rfl, hbase.attach op n⟩
  | second _ hbase => exact ⟨_, _, rfl, hbase n⟩

end Begins

/-- Behind a script operator its operand is read above frames of the same sort. -/
theorem Attaching.step_script {bottom : List Frame} (h : Attaching bottom) (n : Node)
    (op : Script) :
    ∃ bottom', Attaching bottom' ∧
      (∀ P, Begins P bottom [] n → ∀ k, Begins P bottom' [] k) ∧ ∀ ns ws,
        (State.mk (.value n) bottom (.root ns) ws).step (.script op) 0 =
          .ok ((State.mk (.operand op) [.chain op] (.root []) ws).atop bottom' ns) := by
  cases h with
  | scripts =>
    refine ⟨[.first n op], .first n op, fun P h k => ?_, fun ns ws => rfl⟩
    cases h with
    | scripts hP hn => exact .first op hP (hP n hn)
  | primeScripts =>
    refine ⟨[.first n op], .first n op, fun P h k => ?_, fun ns ws => rfl⟩
    cases h with
    | primeScripts hP hn => exact .first op hP (hP n hn)
  | first base op' =>
    -- The other operator makes a pair, the same one begins a new script of the whole.
    by_cases hop : op = op'.other
    · refine ⟨[.second base op' n], .second base op' n, fun P h k => ?_, fun ns ws => ?_⟩
      · cases h with
        | first _ hP hbase => exact .second hP (hbase.second op' n)
      · simp only [State.step, State.value, feed, Frame.shift, if_pos hop]
        rfl
    · refine ⟨[.first (base.attach op' n) op], .first _ op, fun P h k => ?_, fun ns ws => ?_⟩
      · cases h with
        | first _ hP hbase => exact .first op hP (hP _ (hbase.attach op' n))
      · simp only [State.step, State.value, feed, Frame.shift, if_neg hop]
        rfl
  | second base op' script =>
    refine ⟨[.first _ op], .first _ op, fun P h k => ?_, fun ns ws => rfl⟩
    cases h with
    | second hP hbase => exact .first op hP (hP _ (hbase n))

/-- Behind a token that is neither a script nor primes the node is an element. -/
theorem Attaching.step_other {bottom : List Frame} (h : Attaching bottom) {t : Token}
    (hscript : ∀ op, t ≠ .script op) (hprime : ∀ count, t ≠ .prime count) (n : Node)
    (ns : List Node) (ws : List Warning) :
    (State.mk (.value n) bottom (.root ns) ws).step t 0 =
      (State.mk .element [] (.root (ns ++ [State.closeAll bottom n])) ws).element t 0 := by
  have hfeed : feed bottom n t = .element (State.closeAll bottom n) := by
    cases t with
    | script op => exact absurd rfl (hscript op)
    | prime count => exact absurd rfl (hprime count)
    | _ => cases h <;> rfl
  refine (State.value_of_element hfeed).trans (State.element_congr ?_ ?_ t 0) <;> rfl

namespace Begins

variable {P : Node → Prop} {bottom : List Frame} {ns : List Node} {n : Node}

theorem step_script (h : Begins P bottom ns n) (op : Script) :
    ∃ bottom', (∀ k, Begins P bottom' ns k) ∧ ∀ ws,
      (State.mk (.value n) bottom (.root ns) ws).step (.script op) 0 =
        .ok ((State.mk (.operand op) [.chain op] (.root []) ws).atop bottom' ns) := by
  obtain ⟨bottom', hbottom', hnil, hstep⟩ := h.attaching.step_script n op
  refine ⟨bottom', fun k => ?_, hstep ns⟩
  cases ns with
  | nil => exact hnil P h k
  | cons y ns =>
    cases h with
    | done _ hy => exact .done hbottom' hy

/-- Primes go to the node, or are an element of their own. -/
theorem step_prime (h : Begins P bottom ns n) (count : Nat) :
    ∃ bottom' ns' n', Begins P bottom' ns' n' ∧ ∀ ws,
      (State.mk (.value n) bottom (.root ns) ws).step (.prime count) 0 =
        .ok (State.mk (.value n') bottom' (.root ns') ws) := by
  by_cases hbottom : bottom = [.prime, .scripts]
  · subst hbottom
    refine ⟨[.scripts], ns, n.primed count, ?_, fun ws => rfl⟩
    cases h with
    | done _ hy => exact .done .scripts hy
    | primeScripts hP hn => exact .scripts hP ((hP n hn).attach _ _)
  · -- A node that has a script or primes already takes no more, and the primes are the next node.
    obtain ⟨y, ms, hclosed, hy⟩ := h.closed
    refine ⟨[.prime, .scripts], y :: ms, .prime count, .done .primeScripts hy, fun ws => ?_⟩
    rw [← hclosed]
    cases h.attaching with
    | primeScripts => exact absurd rfl hbottom
    | scripts | first | second => rfl

end Begins

/-! ### Two runs side by side -/

/-- Two states that differ at the bottom only.  In both runs it is known what the
first element will be like. -/
inductive Twin (P P' : Node → Prop) : State → State → Prop
  | above {a : State} {bottom bottom' : List Frame} {ns ns' : List Node} : a.Above →
      (∀ k, Begins P bottom ns k) → (∀ k, Begins P' bottom' ns' k) →
        Twin P P' (a.atop bottom ns) (a.atop bottom' ns')
  | bottom {bottom bottom' : List Frame} {ns ns' : List Node} {n n' : Node} (ws : List Warning) :
      Begins P bottom ns n → Begins P' bottom' ns' n' →
        Twin P P' ⟨.value n, bottom, .root ns, ws⟩ ⟨.value n', bottom', .root ns', ws⟩

/-- Two steps that fail, or lead to states side by side. -/
inductive TwinResult (P P' : Node → Prop) : Except Error State → Except Error State → Prop
  | ok {s s' : State} : Twin P P' s s' → TwinResult P P' (.ok s) (.ok s')
  | error (e : Error) : TwinResult P P' (.error e) (.error e)

/-- Two outcomes that are failures, or whose first nodes have a property each. -/
inductive Heads (P P' : Node → Prop) : Option (List Node) → Option (List Node) → Prop
  | none : Heads P P' none none
  | some {y y' : Node} {ns ns' : List Node} :
      P y → P' y' → Heads P P' (some (y :: ns)) (some (y' :: ns'))

/-- The outcomes of two steps, if those of states side by side are known. -/
theorem TwinResult.outcome {P P' : Node → Prop} {r r' : Except Error State} {ts : List Token}
    (h : TwinResult P P' r r')
    (hts : ∀ s s', Twin P P' s s' → Heads P P' (s.outcome ts) (s'.outcome ts)) :
    Heads P P' (r.toOption.bind (State.outcome · ts)) (r'.toOption.bind (State.outcome · ts)) := by
  cases h with
  | ok h => exact hts _ _ h
  | error e => exact .none

namespace Twin

variable {P P' : Node → Prop} {s s' : State}

/-- Elements behind the first one are begun alike. -/
theorem element {y y' : Node} (hy : P y) (hy' : P' y') (ms ms' : List Node) (ws : List Warning)
    (t : Token) : TwinResult P P' ((State.mk .element [] (.root (y :: ms)) ws).element t 0)
      ((State.mk .element [] (.root (y' :: ms')) ws).element t 0) := by
  cases t.begin?_blind with
  | none hbegin =>
    simp only [State.element, hbegin]
    exact .error _
  | some m hm hbegin =>
    have happly (ns : List Node) : (State.mk .element [] (.root ns) ws).apply
        (m.onto [.prime, .scripts]) =
          ((State.mk .element [] (.root []) ws).apply m).atop [.prime, .scripts] ns := by
      cases m <;> rfl
    simp only [State.element, hbegin, happly]
    exact .ok (.above (State.above_apply hm) (fun _ => .done .primeScripts hy)
      fun _ => .done .primeScripts hy')

/-- A token behind two nodes at the bottom. -/
theorem value {bottom bottom' : List Frame} {ns ns' : List Node} {n n' : Node}
    (h : Begins P bottom ns n) (h' : Begins P' bottom' ns' n') (ws : List Warning) (t : Token) :
    TwinResult P P' ((State.mk (.value n) bottom (.root ns) ws).step t 0)
      ((State.mk (.value n') bottom' (.root ns') ws).step t 0) := by
  by_cases hscript : ∃ op, t = .script op
  · obtain ⟨op, rfl⟩ := hscript
    obtain ⟨b, hb, hstep⟩ := h.step_script op
    obtain ⟨b', hb', hstep'⟩ := h'.step_script op
    rw [hstep, hstep']
    exact .ok (.above (State.above_operand _ _ _ _) hb hb')
  by_cases hprime : ∃ count, t = .prime count
  · obtain ⟨count, rfl⟩ := hprime
    obtain ⟨b, ms, m, hb, hstep⟩ := h.step_prime count
    obtain ⟨b', ms', m', hb', hstep'⟩ := h'.step_prime count
    rw [hstep, hstep']
    exact .ok (.bottom ws hb hb')
  · have hscript := not_exists.mp hscript
    have hprime := not_exists.mp hprime
    obtain ⟨y, ms, hclosed, hy⟩ := h.closed
    obtain ⟨y', ms', hclosed', hy'⟩ := h'.closed
    rw [h.attaching.step_other hscript hprime, h'.attaching.step_other hscript hprime, hclosed,
      hclosed']
    exact element hy hy' ms ms' ws t

/-- **A step leads to two states side by side again, or both fail.** -/
theorem step (h : Twin P P' s s') (t : Token) : TwinResult P P' (s.step t 0) (s'.step t 0) := by
  cases h with
  | bottom ws hb hb' => exact value hb hb' ws t
  | @above a bottom bottom' ns ns' ha hb hb' =>
    -- The step is the same above both bottoms, or both get the same node.
    rcases State.atop_step ha t with ⟨r, habove, hstep⟩ | ⟨k, hstep⟩
    · beta_reduce at hstep
      rw [hstep, hstep]
      cases r with
      | error e => exact .error e
      | ok b => exact .ok (.above (habove b rfl) hb hb')
    · beta_reduce at hstep
      rw [hstep, hstep]
      exact value (hb k) (hb' k) _ t

/-- The input may end in both states or in none. -/
theorem nodes? (h : Twin P P' s s') : Heads P P' s.nodes? s'.nodes? := by
  have heads {bottom bottom' : List Frame} {ns ns' : List Node} {n n' : Node}
      (h : Begins P bottom ns n) (h' : Begins P' bottom' ns' n') :
      Heads P P' (some (ns ++ [State.closeAll bottom n]))
        (some (ns' ++ [State.closeAll bottom' n'])) := by
    obtain ⟨y, ms, hclosed, hy⟩ := h.closed
    obtain ⟨y', ms', hclosed', hy'⟩ := h'.closed
    rw [hclosed, hclosed']
    exact .some hy hy'
  cases h with
  | bottom ws hb hb' => exact heads hb hb'
  | above ha hb hb' =>
    rcases State.atop_nodes? ha with hnone | ⟨k, hsome⟩
    · rw [hnone, hnone]
      exact .none
    · rw [hsome, hsome]
      exact heads (hb k) (hb' k)

/-- **Two runs side by side both fail, or both have a first node as expected**; by
induction on the tokens. -/
theorem outcome (h : Twin P P' s s') (ts : List Token) :
    Heads P P' (s.outcome ts) (s'.outcome ts) := by
  induction ts generalizing s s' with
  | nil => exact h.nodes?
  | cons t ts ih => exact (h.step t).outcome fun _ _ h => ih h

end Twin

/-! ### With and without the group -/

/-- The outcomes with and without an empty group in front of a script: failures, the
same nodes, or different ones, if something is attached to the script. -/
inductive Compared (op : Script) : Option (List Node) → Option (List Node) → Prop
  | none : Compared op none none
  | same (n : Node) (ns : List Node) : Compared op (some ((Node.group []).attach op n :: ns))
      (some ((Node.group []).attach op n :: ns))
  | apart {y y' : Node} (ns ns' : List Node) : (∀ n, y ≠ (Node.group []).attach op n) → y' ≠ y →
      Compared op (some (y :: ns)) (some (y' :: ns'))

theorem Heads.compared {P P' : Node → Prop} {op : Script} {o o' : Option (List Node)}
    (h : Heads P P' o o')
    (hne : ∀ y y', P y → P' y' → (∀ n, y ≠ (Node.group []).attach op n) ∧ y' ≠ y) :
    Compared op o o' := by
  cases h with
  | none => exact .none
  | some hy hy' =>
    obtain ⟨hattach, happart⟩ := hne _ _ hy hy'
    exact .apart _ _ hattach happart

/-- A node on a pair of scripts of an empty group, of which the first one is known. -/
def OnPair (op : Script) (script n : Node) : Prop :=
  ∃ second, Founded ((Frame.second (.group []) op script).close second) n

theorem grows_onPair (op : Script) (script : Node) : Grows (OnPair op script) := by
  rintro n ⟨second, hn⟩ kind rest
  exact ⟨second, hn.on kind rest⟩

/-- A pair of scripts is not a script with another one attached. -/
theorem OnPair.ne {op : Script} {script y y' : Node} (hy' : OnPair op script y')
    (hy : FoundedBelow ((Node.group []).attach op script) y) : y' ≠ y := by
  rintro rfl
  obtain ⟨second, hsecond⟩ := hy'
  cases op with
  | sub =>
    have heq := Founded.unique rfl rfl hy.founded hsecond
    cases heq
  | sup =>
    have heq := Founded.unique rfl rfl hy.founded hsecond
    cases heq

section Behind

variable {op : Script} {t : Token} (n : Node) (ws : List Warning) (ts : List Token)

/-- The other operator makes a pair with the first one only if there is a base. -/
theorem compared_other :
    Compared op
      ((State.mk (.value ((Node.group []).attach op n)) [.prime, .scripts] (.root []) ws).outcome
        (.script op.other :: ts))
      ((State.mk (.value n) [.first (.group []) op] (.root []) ws).outcome
        (.script op.other :: ts)) := by
  let script := (Node.group []).attach op n
  let operand := State.mk (.operand op.other) [.chain op.other] (.root []) ws
  have hbare : (State.mk (.value script) [.prime, .scripts] (.root []) ws).step
      (.script op.other) 0 = .ok (operand.atop [.first script op.other] []) :=
    rfl
  have hgroup : (State.mk (.value n) [.first (.group []) op] (.root []) ws).step
      (.script op.other) 0 = .ok (operand.atop [.second (.group []) op n] []) := by
    simp only [State.step, State.value, feed, Frame.shift, if_true]
    rfl
  have htwin : Twin (FoundedBelow script) (OnPair op n)
      (operand.atop [.first script op.other] []) (operand.atop [.second (.group []) op n] []) := by
    refine .above (State.above_operand _ _ _ _) (fun _ => .first op.other ?_ ?_) fun _ =>
      .second (grows_onPair op n) fun k => ⟨k, .self⟩
    · exact grows_foundedBelow script
    · exact under_foundedBelow script
  rw [State.outcome_of_step hbare, State.outcome_of_step hgroup]
  exact (htwin.outcome ts).compared fun y y' hy hy' => ⟨fun _ => hy.ne_attach, hy'.ne hy⟩

/-- Primes go to a script without a base, but not to one with a base. -/
theorem compared_prime (count : Nat) :
    Compared op
      ((State.mk (.value ((Node.group []).attach op n)) [.prime, .scripts] (.root []) ws).outcome
        (.prime count :: ts))
      ((State.mk (.value n) [.first (.group []) op] (.root []) ws).outcome
        (.prime count :: ts)) := by
  let script := (Node.group []).attach op n
  have hbare : (State.mk (.value script) [.prime, .scripts] (.root []) ws).step (.prime count) 0 =
      .ok (State.mk (.value (script.primed count)) [.scripts] (.root []) ws) :=
    rfl
  have hgroup : (State.mk (.value n) [.first (.group []) op] (.root []) ws).step (.prime count) 0 =
      .ok (State.mk (.value (.prime count)) [.prime, .scripts] (.root [script]) ws) :=
    rfl
  have htwin : Twin (FoundedBelow script) (· = script)
      (State.mk (.value (script.primed count)) [.scripts] (.root []) ws)
      (State.mk (.value (.prime count)) [.prime, .scripts] (.root [script]) ws) :=
    .bottom ws (.scripts (grows_foundedBelow script) ((under_foundedBelow script).attach _ _))
      (.done .primeScripts rfl)
  rw [State.outcome_of_step hbare, State.outcome_of_step hgroup]
  refine (htwin.outcome ts).compared fun y y' hy hy' => ⟨fun _ => hy.ne_attach, ?_⟩
  rw [hy']
  exact hy.ne_attach.symm

/-- Behind anything else both runs are in the same state, with the script as their
first element. -/
theorem compared_element (hscript : ∀ op, t ≠ .script op) (hprime : ∀ count, t ≠ .prime count) :
    Compared op
      ((State.mk (.value ((Node.group []).attach op n)) [.prime, .scripts] (.root []) ws).outcome
        (t :: ts))
      ((State.mk (.value n) [.first (.group []) op] (.root []) ws).outcome (t :: ts)) := by
  let script := (Node.group []).attach op n
  let next := (State.mk .element [] (.root [script]) ws).element t 0
  have hresult : TwinResult (· = script) (· = script) next next := by
    refine Twin.element ?_ ?_ [] [] ws t <;> rfl
  have hheads := hresult.outcome fun _ _ h => h.outcome ts
  rw [State.outcome, State.outcome, Attaching.primeScripts.step_other hscript hprime,
    (Attaching.first _ op).step_other hscript hprime]
  show Compared op (next.toOption.bind (State.outcome · ts))
    (next.toOption.bind (State.outcome · ts))
  generalize next.toOption.bind (State.outcome · ts) = o at hheads ⊢
  rcases o with - | - | ⟨y, ns⟩
  · exact .none
  · cases hheads
  · cases hheads with
    | some hy _ =>
      rw [show y = script from hy]
      exact .same n ns

/-- What becomes of the first script when a token follows that does not repeat its
operator. -/
theorem compared_behind (ht : t ≠ .script op) :
    Compared op
      ((State.mk (.value n) [.nest (.group []) op, .prime, .scripts] (.root []) ws).outcome
        (t :: ts))
      ((State.mk (.value n) [.first (.group []) op] (.root []) ws).outcome (t :: ts)) := by
  rw [State.outcome_pass (f := .nest (.group []) op) fun _ _ => rfl]
  by_cases hscript : ∃ op', t = .script op'
  · obtain ⟨op', rfl⟩ := hscript
    obtain rfl : op' = op.other := Script.eq_other fun h => ht (congrArg Token.script h)
    exact compared_other n ws ts
  by_cases hprime : ∃ count, t = .prime count
  · obtain ⟨count, rfl⟩ := hprime
    exact compared_prime n ws ts count
  · exact compared_element n ws ts (not_exists.mp hscript) (not_exists.mp hprime)

end Behind

/-- The frames of an operator that was repeated behind operands, and those below. -/
def chained (op : Script) (bases : List Node) (below : List Frame) : List Frame :=
  .chain op :: (bases.map (.nest · op) ++ below)

/-- A token that does not repeat the operator closes the chain; by induction on the
operands that wait. -/
theorem step_chained {op : Script} {t : Token} (ht : t ≠ .script op) (n : Node) (bases : List Node)
    (below : List Frame) (rows : Rows) (ws : List Warning) :
    (State.mk (.value n) (chained op bases below) rows ws).step t 0 =
      (State.mk (.value (State.closeAll (bases.map (.nest · op)) n)) below rows ws).step t 0 := by
  have hchain (n : Node) (waiting : List Frame) : (Frame.chain op).shift n t waiting = none := by
    cases t with
    | script op' => exact if_neg fun h => ht (congrArg Token.script h)
    | _ => rfl
  rw [chained, State.step_pass (hchain n _)]
  show (State.mk (.value n) _ rows ws).step t 0 = _
  induction bases generalizing n with
  | nil => rfl
  | cons base bases ih =>
    rw [List.map_cons, List.cons_append, State.step_pass rfl]
    exact ih _

theorem closeAll_chained (op : Script) (bases : List Node) (below : List Frame) (n : Node) :
    State.closeAll (chained op bases below) n =
      State.closeAll below (State.closeAll (bases.map (.nest · op)) n) := by
  rw [chained, State.closeAll, List.foldl_cons, List.foldl_append]
  rfl

/-- **A script of an empty group, without the group and with it**; by induction on the
tokens, with what is read of the operand on top of two different bottoms. -/
theorem compared_outcome (op : Script) {a : State} (ha : a.Above) (bases : List Node)
    (ts : List Token) :
    Compared op
      ((a.atop (chained op bases [.nest (.group []) op, .prime, .scripts]) []).outcome ts)
      ((a.atop (chained op bases [.first (.group []) op]) []).outcome ts) := by
  induction ts generalizing a bases with
  | nil =>
    rcases State.atop_nodes? ha with hnone | ⟨k, hsome⟩
    · rw [State.outcome, State.outcome, hnone, hnone]
      exact .none
    · rw [State.outcome, State.outcome, hsome, hsome, closeAll_chained, closeAll_chained]
      exact .same _ []
  | cons t ts ih =>
    rcases State.atop_step ha t with ⟨r, habove, hstep⟩ | ⟨k, hstep⟩
    · beta_reduce at hstep
      rw [State.outcome, State.outcome, hstep, hstep]
      cases r with
      | error e => exact .none
      | ok b => exact ih (habove b rfl) bases
    · beta_reduce at hstep
      rw [State.outcome, State.outcome, hstep, hstep]
      by_cases ht : t = .script op
      · -- What was read is the base of one more script with the same operator.
        subst ht
        have hchain (bottom : List Frame) :
            (State.mk (.value k) (chained op bases bottom) (.root []) a.warnings).step
              (.script op) 0 = .ok ((State.mk (.operand op) [] (.root []) a.warnings).atop
                (chained op (k :: bases) bottom) []) := by
          simp only [chained, State.step, State.value, feed, Frame.shift, if_true]
          rfl
        rw [hchain, hchain]
        exact ih (State.above_operand _ _ _ _) (k :: bases)
      · -- The operand is complete, and with it the first script.
        rw [step_chained ht, step_chained ht]
        exact compared_behind _ _ ts ht

/-! ### Sources -/

open Lexer

/-- The tokens of a source with empty braces in front. -/
theorem tokenizes_braced {source : Bytes} {ts : List Token} :
    Tokenizes (Node.braced ++ source) ts ↔
      ∃ us, ts = .groupBegin :: .groupEnd :: us ∧ Tokenizes source us := by
  have hbegin : Finds .plain (Node.braced ++ source) .groupBegin (ascii '\x7b')
      (ascii '\x7d' :: source) 1 := ⟨rfl, fun _ => rfl⟩
  have hend : Finds .plain (ascii '\x7d' :: source) .groupEnd (ascii '\x7d') source 1 :=
    ⟨rfl, fun _ => rfl⟩
  simp only [tokenizes_iff]
  rw [hbegin.scans_iff]
  constructor
  · rintro ⟨_, rfl, h⟩
    obtain ⟨us, rfl, hus⟩ := hend.scans_iff.mp h
    exact ⟨us, rfl, hus⟩
  · rintro ⟨us, rfl, hus⟩
    exact ⟨_, rfl, hend.scans_iff.mpr ⟨us, rfl, hus⟩⟩

/-- A script operator at the start of a source and behind an empty group. -/
theorem compared_start (op : Script) (ts : List Token) :
    Compared op (State.start.outcome (.script op :: ts))
      (State.start.outcome (.groupBegin :: .groupEnd :: .script op :: ts)) := by
  rw [State.outcome_of_step rfl, State.outcome_of_step rfl, State.outcome_of_step rfl,
    State.outcome_of_step rfl]
  exact compared_outcome op (State.above_operand op [] (.root []) []) [] ts

/-- **A script without a base is a script of an empty group.**  A source that begins
with a script operator has a tree exactly if it has one behind empty braces.  The
trees are the same exactly if nothing is attached to that script. -/
theorem parse_bareScript {source : Bytes} {op : Script}
    (hfirst : (Lexemes.ofSource source).tokens.head? = some (.script op)) :
    ((∃ tree, (parse source).tree = .ok tree) ↔
        ∃ tree, (parse (Node.braced ++ source)).tree = .ok tree) ∧
      ∀ tree tree', (parse source).tree = .ok tree →
        (parse (Node.braced ++ source)).tree = .ok tree' →
          (tree' = tree ↔ ∃ n ns, tree = .branch .root ((Node.group []).attach op n :: ns)) := by
  obtain ⟨ts, htokens⟩ := List.head?_eq_some_iff.mp hfirst
  by_cases hfault : (Lexemes.ofSource source).fault = none
  · have hbare : Tokenizes source (.script op :: ts) := ⟨hfault, htokens⟩
    have hgroup : Tokenizes (Node.braced ++ source)
        (.groupBegin :: .groupEnd :: .script op :: ts) :=
      tokenizes_braced.mpr ⟨_, rfl, hbare⟩
    simp only [hbare.parse_eq_ok_iff, hgroup.parse_eq_ok_iff]
    have hcompared := compared_start op ts
    generalize State.start.outcome (.script op :: ts) = o at hcompared ⊢
    generalize State.start.outcome (.groupBegin :: .groupEnd :: .script op :: ts) = o'
      at hcompared ⊢
    cases hcompared with
    | none => simp
    | same n ns =>
      refine ⟨Iff.rfl, ?_⟩
      rintro _ _ ⟨_, ⟨⟩, rfl⟩ ⟨_, ⟨⟩, rfl⟩
      exact iff_of_true rfl ⟨n, ns, rfl⟩
    | apart ns ns' hattach hne =>
      refine ⟨iff_of_true ⟨_, _, rfl, rfl⟩ ⟨_, _, rfl, rfl⟩, ?_⟩
      rintro _ _ ⟨_, ⟨⟩, rfl⟩ ⟨_, ⟨⟩, rfl⟩
      have head {y y' : Node} {ns ns' : List Node}
          (h : Node.branch .root (y :: ns) = .branch .root (y' :: ns')) : y = y' :=
        (List.cons.inj (Node.mk.inj h).2.2.2.2).1
      refine iff_of_false (fun h => hne (head h)) ?_
      rintro ⟨n, ms, h⟩
      exact hattach n (head h)
  · -- Without all of the tokens there is no tree.
    have hbare (tree : Node) : (parse source).tree ≠ .ok tree := by
      intro h
      exact hfault (Lexemes.parse_ok h).1
    have hgroup (tree : Node) : (parse (Node.braced ++ source)).tree ≠ .ok tree := by
      intro h
      obtain ⟨ts', hts', -⟩ := parse_eq_ok_iff.mp h
      obtain ⟨us, -, hus⟩ := tokenizes_braced.mp hts'
      exact hfault hus.1
    refine ⟨iff_of_false ?_ ?_, fun tree _ h => absurd h (hbare tree)⟩
    · rintro ⟨tree, h⟩
      exact hbare tree h
    · rintro ⟨tree, h⟩
      exact hgroup tree h

/-- The mass number of an isotope. -/
theorem parse_bareScript_isotope :
    let source := utf8 "^\x7b14\x7dC"
    let tree := Node.branch .root [(Node.group []).attach .sup (.leaf .number (utf8 "14") none),
      .leaf .letter (utf8 "C") none]
    (Lexemes.ofSource source).tokens.head? = some (.script .sup) ∧
      (parse source).tree = .ok tree ∧ (parse (Node.braced ++ source)).tree = .ok tree := by
  intro source tree
  have hfirst : (Lexemes.ofSource source).tokens.head? = some (.script .sup) := by
    decide +kernel
  have hbare : (parse source).tree = .ok tree := by
    with_unfolding_all rfl
  obtain ⟨hsucceeds, hsame⟩ := parse_bareScript hfirst
  obtain ⟨tree', hgroup⟩ := hsucceeds.mp ⟨tree, hbare⟩
  obtain rfl := (hsame tree tree' hbare hgroup).mpr ⟨_, _, rfl⟩
  exact ⟨hfirst, hbare, hgroup⟩

/-- With both operators the trees differ: a pair on the group, and a subscript of a
superscript without it. -/
theorem not_parse_bareScript_eq :
    ¬∀ (source : Bytes) (op : Script),
      (Lexemes.ofSource source).tokens.head? = some (.script op) →
        ∀ tree, (parse source).tree = .ok tree ↔
          (parse (Node.braced ++ source)).tree = .ok tree := by
  intro h
  let source := utf8 "^a_b"
  let a : Node := .leaf .letter (utf8 "a") none
  let b : Node := .leaf .letter (utf8 "b") none
  have hfirst : (Lexemes.ofSource source).tokens.head? = some (.script .sup) := by
    decide +kernel
  have hbare : (parse source).tree =
      .ok (.branch .root [((Node.group []).attach .sup a).attach .sub b]) := by
    with_unfolding_all rfl
  have hgroup : (parse (Node.braced ++ source)).tree =
      .ok (.branch .root [(Node.group []).scripted (some b) (some a)]) := by
    with_unfolding_all rfl
  have hsame := hgroup.symm.trans ((h source .sup hfirst _).mp hbare)
  cases hsame

end MathMarkup
