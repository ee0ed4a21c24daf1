/-
MathMarkup/Proofs/Limits.lean

Limits of large operators do not depend on their order.  Behind an operator there
may be switches, `\limits` and `\nolimits`, and a lower and an upper limit, mixed
in any way.  All that remains of them in the tree is the last switch and the two
limits (`limited`).

An operator with its limits so far is the same as a record with one field for each
of these three things, and an item overwrites its field (`Limits.add`).  So the
fields of a whole run are known from the items that are about them
(`foldl_add_isStacked`, `foldl_add_get`).  Parsing adds one item at a time
(`outcome_items`, by induction on the items); it comes to an end when both limits
are there, which is why no switch may follow then.
-/
import MathMarkup.Proofs.Outcome

namespace MathMarkup

/-- What may follow a large operator: a switch of the places of its limits, or a
limit in braces. -/
inductive LimitItem
  | switch (isStacked : Bool)
  | script (op : Script) (g : BraceGroup)

namespace LimitItem

def tokens : LimitItem → List Token
  | .switch isStacked => [switchToken isStacked]
  | .script op g => .script op :: g.tokens

def switch? : LimitItem → Option Bool
  | .switch isStacked => some isStacked
  | .script _ _ => none

/-- The limit for a script operator. -/
def node? (op : Script) : LimitItem → Option Node
  | .switch _ => none
  | .script op' g => if op' = op then some g.node else none

end LimitItem

/-! ### The meaning of a run -/

/-- Whether limits are placed under and over an operator without any switch. -/
def Token.stacksLimits : Token → Bool
  | .integral _ => false
  | _ => true

/-- The limits for a script operator, of which there should be one at most. -/
def limitsFor (op : Script) (items : List LimitItem) : List Node :=
  items.filterMap (LimitItem.node? op)

/-- An operator with the last switch and the limits among some items. -/
def limited (tag : Token) (items : List LimitItem) : Node :=
  let isStacked := (items.filterMap LimitItem.switch?).getLast?.getD tag.stacksLimits
  let base := Node.large tag
  match isStacked, (limitsFor .sub items).getLast?, (limitsFor .sup items).getLast? with
  | true, some sub, some sup => .branch .underOverscript [base, sub, sup]
  | true, some sub, none => .branch .underscript [base, sub]
  | true, none, some sup => .branch .overscript [base, sup]
  | false, some sub, some sup => .branch .subSup [base, sub, sup]
  | false, some sub, none => .branch .subscript [base, sub]
  | false, none, some sup => .branch .superscript [base, sup]
  | _, none, none => base

/-- There is at most one limit of each kind, and no switch behind both. -/
structure Admissible (items : List LimitItem) : Prop where
  once : ∀ op, (limitsFor op items).length ≤ 1
  switches : ∀ before isStacked after, items = before ++ .switch isStacked :: after →
    ∃ op, limitsFor op before = []

/-! ### Adding items -/

namespace Limits

/-- The limit for a script operator. -/
def get (l : Limits) : Script → Option Node
  | .sub => l.sub
  | .sup => l.sup

/-- An operator with one more item. -/
def add (l : Limits) : LimitItem → Limits
  | .switch isStacked => { l with isStacked := isStacked }
  | .script op g => l.set op g.node

theorem has_eq (l : Limits) (op : Script) : l.has op = (l.get op).isSome := by
  cases op <;> rfl

theorem get_set (l : Limits) (op op' : Script) (n : Node) :
    (l.set op n).get op' = if op = op' then some n else l.get op' := by
  cases op <;> cases op' <;> rfl

theorem foldl_add_tag (l : Limits) (items : List LimitItem) : (items.foldl add l).tag = l.tag := by
  induction items generalizing l with
  | nil => rfl
  | cons i items ih =>
    rw [List.foldl_cons, ih]
    rcases i with isStacked | ⟨op, g⟩
    · rfl
    · cases op <;> rfl

/-- The last switch decides on the places of the limits. -/
theorem foldl_add_isStacked (l : Limits) (items : List LimitItem) :
    (items.foldl add l).isStacked =
      (items.filterMap LimitItem.switch?).getLast?.getD l.isStacked := by
  induction items generalizing l with
  | nil => rfl
  | cons i items ih =>
    rw [List.foldl_cons, ih]
    rcases i with isStacked | ⟨op, g⟩
    · simp [add, LimitItem.switch?, List.getLast?_cons]
    · cases op <;> simp [add, set, LimitItem.switch?]

/-- The limit for an operator is the last one of its items. -/
theorem foldl_add_get (l : Limits) (items : List LimitItem) (op : Script) :
    (items.foldl add l).get op = (limitsFor op items).getLast?.or (l.get op) := by
  unfold limitsFor
  induction items generalizing l with
  | nil => rfl
  | cons i items ih =>
    rw [List.foldl_cons, ih]
    rcases i with isStacked | ⟨op', g⟩
    · cases op <;> rfl
    · by_cases hop : op' = op
      · cases hlater : (items.filterMap (LimitItem.node? op)).getLast? <;>
          simp [add, get_set, LimitItem.node?, hop, List.getLast?_cons, hlater]
      · simp [add, get_set, LimitItem.node?, hop]

/-- The node of an operator with some items. -/
theorem node_foldl_add (tag : Token) (items : List LimitItem) :
    (items.foldl add (.start tag)).node = limited tag items := by
  have htag := foldl_add_tag (.start tag) items
  have hstacked := foldl_add_isStacked (.start tag) items
  have hsub := foldl_add_get (.start tag) items .sub
  have hsup := foldl_add_get (.start tag) items .sup
  have hdefault : (start tag).isStacked = tag.stacksLimits := by cases tag <;> rfl
  rw [hdefault] at hstacked
  generalize items.foldl add (.start tag) = l at htag hstacked hsub hsup
  obtain ⟨tag', isStacked, sub, sup⟩ := l
  simp only [get, start, Option.or_none] at htag hstacked hsub hsup
  subst htag hstacked hsub hsup
  unfold limited
  cases (items.filterMap LimitItem.switch?).getLast?.getD tag'.stacksLimits <;>
    cases (limitsFor .sub items).getLast? <;> cases (limitsFor .sup items).getLast? <;> rfl

/-- There is a limit for an operator if it has an item. -/
theorem has_foldl_add (tag : Token) (items : List LimitItem) (op : Script) :
    (items.foldl add (.start tag)).has op = !(limitsFor op items).isEmpty := by
  have hstart : (start tag).get op = none := by cases op <;> rfl
  rw [has_eq, foldl_add_get, hstart, Option.or_none]
  cases limitsFor op items <;> simp

end Limits

/-! ### Parsing a run -/

/-- Before a limit there was none of its kind. -/
theorem Admissible.limitsFor_eq_nil {before after : List LimitItem} {op : Script} {g : BraceGroup}
    (h : Admissible (before ++ .script op g :: after)) : limitsFor op before = [] := by
  have honce := h.once op
  simp only [limitsFor, List.filterMap_append, List.filterMap_cons, LimitItem.node?, if_true,
    List.length_append, List.length_cons] at honce
  exact List.length_eq_zero_iff.mp (by unfold limitsFor; omega)

/-- Nothing follows when both limits are there. -/
theorem Admissible.eq_nil {before after : List LimitItem} (h : Admissible (before ++ after))
    (hfull : ∀ op, limitsFor op before ≠ []) : after = [] := by
  rcases after with - | ⟨isStacked | ⟨op, g⟩, after⟩
  · rfl
  · obtain ⟨op, hop⟩ := h.switches before isStacked after rfl
    exact absurd hop (hfull op)
  · exact absurd h.limitsFor_eq_nil (hfull op)

/-- A limit that has just been read, when nothing follows or there is room for the
other one. -/
theorem outcome_limit {l : Limits} {op : Script} {n : Node} {waiting : List Frame} {rows : Rows}
    {ws : List Warning} {ts : List Token} (hts : (l.set op n).isFull = true → ts = []) :
    (State.mk (.value n) (.limit op l :: waiting) rows ws).outcome ts =
      (State.mk (.limits (l.set op n)) waiting rows ws).outcome ts := by
  cases ts with
  | nil => rfl
  | cons t ts =>
    have hroom : (l.set op n).isFull = false :=
      Bool.not_eq_true _ ▸ fun hfull => List.cons_ne_nil t ts (hts hfull)
    have hstep : (State.mk (.value n) (.limit op l :: waiting) rows ws).step t 0 =
        (State.mk (.limits (l.set op n)) waiting rows ws).step t 0 := by
      simp only [State.step, State.value, feed, Frame.shift, hroom, Bool.false_eq_true, if_false]
      cases (l.set op n).move? t waiting <;> rfl
    rw [State.outcome, State.outcome, hstep]

/-- Neither a switch nor a limit begins with a prime. -/
theorem shift_prime_items (items : List LimitItem) (n : Node) (waiting : List Frame) :
    ∀ t ∈ (items.flatMap LimitItem.tokens).head?, Frame.prime.shift n t waiting = none := by
  rcases items with - | ⟨isStacked | ⟨op, g⟩, items⟩
  · rintro t ⟨⟩
  · rintro t ⟨⟩
    rfl
  · rintro t ⟨⟩
    rfl

/-- A run of items behind an operator that has some already; by induction on the
items. -/
theorem outcome_items {tag : Token} {before items : List LimitItem}
    (h : Admissible (before ++ items)) (ws : List Warning) :
    (State.mk (.limits (before.foldl Limits.add (.start tag))) [.prime, .scripts] (.root [])
        ws).outcome (items.flatMap LimitItem.tokens) =
      some [((before ++ items).foldl Limits.add (.start tag)).node] := by
  induction items generalizing before with
  | nil =>
    rw [List.append_nil]
    rfl
  | cons i items ih =>
    have happend : before ++ i :: items = (before ++ [i]) ++ items := by simp
    have hlater : Admissible ((before ++ [i]) ++ items) := happend ▸ h
    rw [happend, ← ih hlater, List.flatMap_cons, List.foldl_append, List.foldl_cons, List.foldl_nil]
    cases i with
    | switch isStacked =>
      refine State.outcome_of_step ?_ _
      cases isStacked <;> rfl
    | script op g =>
      -- There is room for the limit, and for more behind it unless nothing follows.
      have hroom : (before.foldl Limits.add (.start tag)).has op = false := by
        rw [Limits.has_foldl_add, h.limitsFor_eq_nil]
        rfl
      have hmore : ((before.foldl Limits.add (.start tag)).set op g.node).isFull = true →
          items.flatMap LimitItem.tokens = [] := by
        intro hfull
        have hboth : ∀ op', limitsFor op' (before ++ [.script op g]) ≠ [] := by
          intro op' hnil
          have hhas := Limits.has_foldl_add tag (before ++ [.script op g]) op'
          rw [hnil, List.foldl_append] at hhas
          obtain ⟨hsub, hsup⟩ := Bool.and_eq_true_iff.mp hfull
          cases op' with
          | sub => exact absurd (hsub.symm.trans hhas) (by decide)
          | sup => exact absurd (hsup.symm.trans hhas) (by decide)
        rw [hlater.eq_nil hboth]
        rfl
      have hstep : (State.mk (.limits (before.foldl Limits.add (.start tag))) [.prime, .scripts]
            (.root []) ws).step (.script op) 0 =
          .ok ⟨.operand op, [.limit op (before.foldl Limits.add (.start tag)), .prime, .scripts],
            .root [], ws⟩ := by
        simp only [State.step, Limits.move?, hroom, Bool.false_eq_true, if_false]
        rfl
      refine (State.outcome_of_step hstep _).trans ?_
      refine (g.outcome_operand op _ _ _ _).trans ?_
      rw [State.outcome_pass (shift_prime_items items _ _)]
      exact outcome_limit hmore

/-! ### Sources -/

/-- **Limits do not depend on their order.**  A large operator with switches and
limits behind it is one node, which the last switch and the limits decide. -/
theorem parse_limits {tag : Token} (htag : tag.takesLimits = true) {items : List LimitItem}
    (hitems : Admissible items) {source : Bytes}
    (hsource : Tokenizes source (tag :: items.flatMap LimitItem.tokens)) :
    (parse source).tree = .ok (.branch .root [limited tag items]) := by
  refine hsource.parse_eq ?_
  have hstep : State.start.step tag 0 =
      .ok ⟨.limits (.start tag), [.prime, .scripts], .root [], []⟩ := by
    cases tag with
    | bigOperator _ | integral _ | limit _ => rfl
    | _ => cases htag
  have hrun : (State.mk (.limits (.start tag)) [.prime, .scripts] (.root []) []).outcome
      (items.flatMap LimitItem.tokens) = some [limited tag items] := by
    rw [← Limits.node_foldl_add]
    exact @outcome_items tag [] items hitems []
  rw [State.outcome_of_step hstep, hrun]

/-- An integral whose upper limit comes first and is followed by a switch. -/
theorem parse_limits_integral :
    let leaf (s : String) := Node.leaf .letter (utf8 s) none
    let tag := Token.integral (utf8 "∫")
    let n := BraceGroup.mk [.letter (utf8 "n")] [leaf "n"] rfl
    let i := BraceGroup.mk [.letter (utf8 "i")] [leaf "i"] rfl
    let items := [.switch false, .script .sup n, .switch true, .script .sub i]
    let source := utf8 "\\int\\nolimits^\x7bn\x7d\\limits_\x7bi\x7d"
    Admissible items ∧ Tokenizes source (tag :: items.flatMap LimitItem.tokens) ∧
      (parse source).tree = .ok (.branch .root
        [.branch .underOverscript [.mk .command [] (some tag) {} [], leaf "i", leaf "n"]]) := by
  intro leaf tag n i items source
  have hitems : Admissible items := by
    refine ⟨fun op => by cases op <;> exact Nat.le_refl 1, fun before isStacked after h => ?_⟩
    -- The two switches are behind nothing and behind the upper limit.
    rcases before with - | ⟨_, - | ⟨_, - | ⟨_, - | ⟨_, before⟩⟩⟩⟩
    all_goals simp [items] at h
    · exact ⟨.sub, rfl⟩
    · obtain ⟨rfl, rfl, -⟩ := h
      exact ⟨.sub, rfl⟩
  have hsource : Tokenizes source (tag :: items.flatMap LimitItem.tokens) := by decide +kernel
  exact ⟨hitems, hsource, parse_limits rfl hitems hsource⟩

end MathMarkup
