/-
MathMarkup/Proofs/Legality.lean

Which trees of sources have markup, and which error the others have.  A node can
be at fault by itself: for a command or environment that nobody knows, a wrong
number of arguments, or a width that is none (`Node.fault?`).  Nothing else can
be wrong with the tree of a source.  Lowering visits the nodes of a tree in
order, each before its children, and leaves out the name of a named operator,
which is taken as text (`Node.visited`).  It comes to an end if no visited node
is at fault, and otherwise its error is the fault of the first one.

The argument is `Reports r ns`, which ties a result to the nodes that were
visited for it.  Behind the check of a construct the only errors that it could
still raise are not reports (`Silent`), and since the tree is well formed, they
do not occur (`lower_yields`).
-/
import MathMarkup.Proofs.Embedding
import MathMarkup.Proofs.Lowered

namespace MathMarkup

/-! ### Faults -/

/-- The fault of a command that has less than the arguments it wants. -/
def atLeast (want : Nat) (command : Bytes) (got : Nat) : Option Error :=
  if got < want then some (.arity command want got) else none

/-- The fault of a command that has not exactly the arguments it wants. -/
def exactly (want : Nat) (command : Bytes) (got : Nat) : Option Error :=
  if got ≠ want then some (.arity command want got) else none

/-- What is wrong with a command, by the token that introduced it. -/
def Token.fault? (table : Table) (params : Params) (got : Nat) : Token → Option Error
  | .command name => if (table.lookup name).isSome then none else some (.unknownCommand name)
  | .verbatim _ _ =>
    let width := params.width.getD []
    match Measure.parseEm width with
    | .ok _ => none
    | .error cause => some (.spaceWidth width cause)
  | .fraction kind | .binomial kind => atLeast 2 (utf8 "\\" ++ kind) got
  | .radical => atLeast 1 (utf8 "\\sqrt") got
  | .overbrace _ => atLeast 1 (utf8 "\\overbrace") got
  | .underbrace _ => atLeast 1 (utf8 "\\underbrace") got
  | .operatorName => atLeast 1 (utf8 "\\operatorname") got
  | .markOver glyph _ | .markUnder glyph _ => exactly 1 (utf8 "accent " ++ glyph) got
  | .style v => exactly 1 (Token.style v).describe got
  | .slashed => exactly 1 (utf8 "\\slashed") got
  | .overset => exactly 2 (utf8 "\\overset") got
  | .underset => exactly 2 (utf8 "\\underset") got
  | _ => none

/-- The names of the environments that there are. -/
def environmentNames : List Bytes :=
  [utf8 "matrix", utf8 "smallmatrix", utf8 "align", utf8 "align*", utf8 "aligned", utf8 "array",
    utf8 "pmatrix", utf8 "bmatrix", utf8 "Bmatrix", utf8 "vmatrix", utf8 "Vmatrix", utf8 "cases"]

namespace Node

/-- What is wrong with a node, whatever its children are. -/
def fault? (table : Table) : Node → Option Error
  | .mk .command _ (some tag) params args => tag.fault? table params args.length
  | .mk .environment name _ _ _ =>
    if environmentNames.contains name then none else some (.unknownEnvironment name)
  | _ => none

mutual

/-- The nodes of a tree in the order in which they are visited: a node comes before
its children, of which the first one of a named operator is left out. -/
def visited : Node → List Node
  | .missing => [.missing]
  | .mk kind data tag params children =>
    .mk kind data tag params children ::
      if kind = .command ∧ tag = some .operatorName then visitedRest children
      else visitedAll children
termination_by structural n => n

/-- The nodes of trees side by side. -/
def visitedAll : List Node → List Node
  | [] => []
  | n :: ns => n.visited ++ visitedAll ns
termination_by structural ns => ns

/-- The nodes of trees side by side without the first. -/
def visitedRest : List Node → List Node
  | [] => []
  | _ :: ns => visitedAll ns
termination_by structural ns => ns

end

end Node

namespace Lowering

variable {α β : Type} {table : Table}

/-- The environments that there are have the names of the list. -/
theorem environment?_eq_none_iff {name : Bytes} :
    environment? name = none ↔ environmentNames.contains name = false := by
  simp [environment?, List.lookup_eq_none_iff, environmentNames]

/-! ### Errors that are no reports -/

/-- A result whose error, if any, is no report. -/
def Silent (r : Except Error α) : Prop :=
  ∀ e, r = .error e → e.IsReport = false

theorem silent_ok (a : α) : Silent (.ok a) := by
  rintro e ⟨⟩

theorem silent_missing : Silent (.error .missingNode : Except Error α) := by
  rintro e ⟨⟩
  rfl

theorem Silent.bind {r : Except Error α} {f : α → Except Error β} (hr : Silent r)
    (hf : ∀ a, Silent (f a)) : Silent (r >>= f) := by
  cases r with
  | ok a => exact hf a
  | error e =>
    rintro e' ⟨⟩
    exact hr e rfl

theorem silent_one (ms : List Markup) : Silent (one ms) := by
  unfold one
  split
  · exact silent_ok _
  · exact silent_missing

theorem silent_two (ms : List Markup) : Silent (two ms) := by
  unfold two
  split
  · exact silent_ok _
  · exact silent_missing

theorem silent_fraction (kind : Bytes) (ms : List Markup) : Silent (fraction kind ms) := by
  unfold fraction
  split
  · exact silent_ok _
  · exact silent_ok _
  · exact silent_missing

theorem silent_radical (ms : List Markup) : Silent (radical ms) := by
  unfold radical
  split
  · exact silent_ok _
  · exact silent_ok _
  · exact silent_missing

theorem silent_overbrace (glyph : Bytes) (ms : List Markup) : Silent (overbrace glyph ms) := by
  unfold overbrace
  split
  · exact silent_missing
  · exact silent_ok _
  · exact silent_ok _

theorem silent_underbrace (glyph : Bytes) (ms : List Markup) : Silent (underbrace glyph ms) := by
  unfold underbrace
  split
  · exact silent_missing
  · exact silent_ok _
  · exact silent_ok _

theorem silent_scripts (kind : Kind) (ms : List Markup) : Silent (scripts kind ms) := by
  unfold scripts
  split
  case h_7 => exact silent_missing
  all_goals exact silent_ok _

/-- Every construction keeps what is true of all markup. -/
theorem keeps_true {T : Token → Prop} : Keeps T fun _ => True := by
  constructor <;> intros <;> trivial

/-! ### Results of visits -/

/-- The error of a result. -/
def error? : Except Error α → Option Error
  | .ok _ => none
  | .error e => some e

/-- The error of a result is the first fault among some nodes. -/
def Reports (table : Table) (r : Except Error α) (ns : List Node) : Prop :=
  error? r = ns.findSome? (·.fault? table)

namespace Reports

variable {r : Except Error α} {n : Node} {ns ms : List Node} {e : Error}

/-- There is a result if no node is at fault. -/
theorem exists_ok_iff (h : Reports table r ns) :
    (∃ a, r = .ok a) ↔ ∀ n ∈ ns, n.fault? table = none := by
  rw [← List.findSome?_eq_none_iff, ← h]
  cases r with
  | ok a => simp [error?]
  | error e => simp [error?]

/-- An error is the fault of the first node that is at fault. -/
theorem eq_error_iff (h : Reports table r ns) (e : Error) :
    r = .error e ↔ ∃ before n after, ns = before ++ n :: after ∧ n.fault? table = some e ∧
      ∀ k ∈ before, k.fault? table = none := by
  rw [← List.findSome?_eq_some_iff, ← h]
  cases r with
  | ok a => simp [error?]
  | error e' => simp [error?]

/-- A node at fault is not gone beyond. -/
theorem fault (hn : n.fault? table = some e) :
    Reports table (.error e : Except Error α) (n :: ns) := by
  rw [Reports, List.findSome?_cons, hn]
  rfl

theorem cons (hn : n.fault? table = none) (h : Reports table r ns) : Reports table r (n :: ns) := by
  rw [Reports, List.findSome?_cons, hn]
  exact h

/-- What comes behind the visits does not report anything. -/
theorem bind {f : α → Except Error β} {p : β → Prop} (h : Reports table r ns)
    (hf : ∀ a, Silent (f a)) (hyields : Yields p (r >>= f)) : Reports table (r >>= f) ns := by
  cases r with
  | error e => exact h
  | ok a =>
    have hfa : Yields p (f a) := hyields
    show Reports table (f a) ns
    cases hresult : f a with
    | ok b => exact h
    | error e =>
      -- The error would be a report because of `hyields`, and none because of `hf`.
      rw [hresult] at hfa
      have hsilent : e.IsReport = false := hf a e hresult
      rw [Yields, hsilent] at hfa
      cases hfa

/-- A node that is checked, and then visits. -/
theorem check {c d : Prop} [Decidable c] [Decidable d] {f : α → Except Error β} {p : β → Prop}
    (hn : n.fault? table = if d then some e else none) (hcd : c ↔ d) (h : Reports table r ns)
    (hf : ∀ a, Silent (f a)) (hyields : Yields p (if c then .error e else r >>= f)) :
    Reports table (if c then .error e else r >>= f) (n :: ns) := by
  by_cases hc : c
  · rw [if_pos hc]
    exact fault (hn.trans (if_pos (hcd.mp hc)))
  · rw [if_neg hc] at hyields ⊢
    exact cons (hn.trans (if_neg (mt hcd.mpr hc))) (h.bind hf hyields)

end Reports

/-- Visits one after another. -/
theorem reports_lowerAll {v : Variant} {ns : List Node}
    (h : ∀ n ∈ ns, Reports table (lower table v n) n.visited) :
    Reports table (lowerAll table v ns) (Node.visitedAll ns) := by
  induction ns with
  | nil => rfl
  | cons n ns ih =>
    obtain ⟨hn, hns⟩ := List.forall_mem_cons.mp h
    have hrest := ih hns
    -- The first error is that of the first node, or else that of the others.
    rw [Reports, lowerAll, Node.visitedAll, List.findSome?_append, ← hn, ← hrest]
    cases lower table v n with
    | error e => rfl
    | ok m =>
      cases lowerAll table v ns with
      | error e => rfl
      | ok ms => rfl

/-- Visits without the first one. -/
theorem reports_lowerRest {v : Variant} {ns : List Node}
    (h : ∀ n ∈ ns, Reports table (lower table v n) n.visited) :
    Reports table (lowerRest table v ns) (Node.visitedRest ns) := by
  cases ns with
  | nil => rfl
  | cons n ns => exact reports_lowerAll (List.forall_mem_cons.mp h).2

/-! ### Constructs -/

theorem reports_resolve (v : Variant) (name : Bytes) :
    Reports table (resolve table v name) [.leaf .command name (some (.command name))] := by
  have hfault : (Node.leaf .command name (some (.command name))).fault? table =
      if (table.lookup name).isSome then none else some (.unknownCommand name) := rfl
  cases hname : table.lookup name with
  | none =>
    simp only [resolve, hname]
    rw [hname] at hfault
    exact .fault hfault
  | some entry =>
    rw [hname] at hfault
    cases entry with
    | function text | operator text | letter text | space width =>
      simp only [resolve, hname]
      exact .cons hfault rfl

theorem reports_hspace (tag kind data width : Bytes) :
    Reports table (hspace width)
      [.mk .command tag (some (.verbatim kind data)) { width := some width } []] := by
  cases hwidth : Measure.parseEm width with
  | ok em =>
    simp only [hspace, hwidth]
    refine .cons ?_ rfl
    simp only [Node.fault?, Token.fault?, Option.getD_some, hwidth]
  | error cause =>
    simp only [hspace, hwidth]
    refine .fault ?_
    simp only [Node.fault?, Token.fault?, Option.getD_some, hwidth]

theorem reports_environment {p : Markup → Prop} {v : Variant} {name : Bytes} {tag : Option Token}
    {params : Params} {ns : List Node} (h : ∀ n ∈ ns, Reports table (lower table v n) n.visited)
    (hyields : Yields p (lower table v (.mk .environment name tag params ns))) :
    Reports table (lower table v (.mk .environment name tag params ns))
      (Node.mk .environment name tag params ns).visited := by
  have hfault : (Node.mk .environment name tag params ns).fault? table =
      if environmentNames.contains name then none else some (.unknownEnvironment name) := rfl
  cases hknown : environmentNames.contains name with
  | false =>
    have hnone : environment? name = none := environment?_eq_none_iff.mpr hknown
    rw [hknown] at hfault
    simp only [lower, hnone]
    exact .fault hfault
  | true =>
    obtain ⟨e, he⟩ : ∃ e, environment? name = some e := by
      refine Option.ne_none_iff_exists'.mp fun hnone => ?_
      rw [environment?_eq_none_iff.mp hnone] at hknown
      cases hknown
    rw [hknown] at hfault
    simp only [lower, he] at hyields ⊢
    exact .cons hfault ((reports_lowerAll h).bind (fun ms => silent_ok _) hyields)

theorem isEmpty_iff_length_lt_one {args : List Node} : args.isEmpty = true ↔ args.length < 1 := by
  rw [List.isEmpty_iff_length_eq_zero]
  omega

/-- A command with arguments is checked before these are visited. -/
theorem reports_command {p : Markup → Prop} {v : Variant} {tag : Token} {args : List Node}
    (hargs : tag.takesArguments = true)
    (hall : ∀ v, Reports table (lowerAll table v args) (Node.visitedAll args))
    (hrest : ∀ v, Reports table (lowerRest table v args) (Node.visitedRest args))
    (hyields : Yields p (lower table v (.command tag args))) :
    Reports table (lower table v (.command tag args)) (Node.command tag args).visited := by
  cases tag
  case fraction kind | binomial kind =>
    exact .check rfl .rfl (hall v) (silent_fraction kind) hyields
  case radical => exact .check rfl isEmpty_iff_length_lt_one (hall v) silent_radical hyields
  case overbrace glyph =>
    exact .check rfl isEmpty_iff_length_lt_one (hall v) (silent_overbrace glyph) hyields
  case underbrace glyph =>
    exact .check rfl isEmpty_iff_length_lt_one (hall v) (silent_underbrace glyph) hyields
  case style w => exact .check rfl .rfl (hall w) silent_one hyields
  case markOver glyph accent | markUnder glyph accent | slashed =>
    exact .check rfl .rfl (hall v) (fun ms => (silent_one ms).bind fun m => silent_ok _) hyields
  case overset | underset =>
    exact .check rfl .rfl (hall v) (fun ms => (silent_two ms).bind fun mn => silent_ok _) hyields
  case operatorName =>
    -- The name is neither visited nor lowered.
    cases args with
    | nil => exact .fault rfl
    | cons name args => exact .cons rfl ((hrest v).bind (fun ms => silent_ok _) hyields)
  all_goals cases hargs

/-- A node with scripts or limits is never at fault itself. -/
theorem reports_scripted {p : Markup → Prop} {v : Variant} {kind : Kind} {ns : List Node}
    (hk : kind.scriptedLength? = some ns.length)
    (h : ∀ n ∈ ns, Reports table (lower table v n) n.visited)
    (hyields : Yields p (lower table v (.branch kind ns))) :
    Reports table (lower table v (.branch kind ns)) (Node.branch kind ns).visited := by
  have hall := reports_lowerAll h
  cases kind
  case superscript | subscript | subSup | underscript | overscript | underOverscript =>
    exact .cons rfl (hall.bind (silent_scripts _) hyields)
  all_goals cases hk

theorem reports_large {v : Variant} {tag : Token} (hl : tag.takesLimits = true) :
    Reports table (lower table v (.large tag)) (Node.large tag).visited := by
  cases tag
  case bigOperator glyph | integral glyph | limit name => rfl
  all_goals cases hl

/-- **Lowering reports the first fault that it meets**; by induction on how the
tree is formed. -/
theorem reports_lower {T : Token → Prop} {n : Node} (hn : n.WellFormed T) (v : Variant) :
    Reports table (lower table v n) n.visited := by
  have yields {n : Node} (hn : n.WellFormed T) (v : Variant) :
      Yields (fun _ => True) (lower table v n) := lower_yields keeps_true hn v
  induction hn generalizing v with
  | letter _ | number _ | operator _ | delimiter _ | prime _ | cellBreak _ | lineBreak _ | text _
  | sized _ | middle _ => rfl
  | command _ => exact reports_resolve v _
  | space _ => exact reports_hspace _ _ _ _
  | group hlen hns ih =>
    have hall := reports_lowerAll fun n hn => ih n hn v
    exact .cons rfl (hall.bind (fun ms => silent_ok _) (yields (.group hlen hns) v))
  | superscript hb hs ihb ihs =>
    exact reports_scripted rfl (by simpa using ⟨ihb v, ihs v⟩) (yields (.superscript hb hs) v)
  | subscript hb hs ihb ihs =>
    exact reports_scripted rfl (by simpa using ⟨ihb v, ihs v⟩) (yields (.subscript hb hs) v)
  | subSup hb hs hs' ihb ihs ihs' =>
    exact reports_scripted rfl (by simpa using ⟨ihb v, ihs v, ihs' v⟩)
      (yields (.subSup hb hs hs') v)
  | large _ hl => exact reports_large hl
  | underscript ht hl hb ih =>
    exact reports_scripted rfl (by simpa using ⟨reports_large hl, ih v⟩)
      (yields (.underscript ht hl hb) v)
  | overscript ht hl ha ih =>
    exact reports_scripted rfl (by simpa using ⟨reports_large hl, ih v⟩)
      (yields (.overscript ht hl ha) v)
  | underOverscript ht hl hb ha ihb iha =>
    exact reports_scripted rfl (by simpa using ⟨reports_large hl, ihb v, iha v⟩)
      (yields (.underOverscript ht hl hb ha) v)
  | application ht hargs hadmits hns ih =>
    exact reports_command hargs (fun v => reports_lowerAll fun n hn => ih n hn v)
      (fun v => reports_lowerRest fun n hn => ih n hn v)
      (yields (.application ht hargs hadmits hns) v)
  | fence ht hns ih =>
    have hall := reports_lowerAll fun n hn => ih n hn v
    exact .cons rfl (hall.bind (fun ms => silent_ok _) (yields (.fence ht hns) v))
  | environment ht hns ih =>
    exact reports_environment (fun n hn => ih n hn v) (yields (.environment ht hns) v)

end Lowering

/-! ### Sources -/

/-- **Lowering succeeds exactly on legal trees.**  The tree of a source has markup
if and only if none of its visited nodes is at fault; otherwise its error is the
fault of the first one. -/
theorem lowerTree_legal {source : Bytes} {tree : Node} (h : (parse source).tree = .ok tree)
    (table : Table) :
    ((∃ m, lowerTree table tree = .ok m) ↔ ∀ n ∈ tree.visited, n.fault? table = none) ∧
      ∀ e, lowerTree table tree = .error e ↔
        ∃ before n after, tree.visited = before ++ n :: after ∧ n.fault? table = some e ∧
          ∀ k ∈ before, k.fault? table = none := by
  obtain ⟨ns, rfl, hns⟩ := parse_wellFormed (T := fun _ => True) h fun _ _ => trivial
  have hall : Lowering.Reports table (Lowering.lowerAll table .italic ns) (Node.visitedAll ns) :=
    Lowering.reports_lowerAll fun n hn => Lowering.reports_lower (hns n hn) .italic
  have htree : Lowering.Reports table (lowerTree table (.branch .root ns))
      (Node.branch .root ns).visited :=
    .cons rfl (hall.bind (fun ms => Lowering.silent_ok _)
      (Lowering.lowerTree_yields Lowering.keeps_true hns))
  exact ⟨htree.exists_ok_iff, htree.eq_error_iff⟩

/-- A fraction that lacks an argument is met before the unknown command behind it;
the one in front is the name of an operator. -/
theorem lowerTree_legal_fraction :
    let source := utf8 "\\operatorname\x7b\\f\x7d\\sqrt\x7b\\frac1\x7d\\g"
    let command (name : Bytes) := Node.leaf .command name (some (.command name))
    let fraction := Node.command (.fraction (utf8 "frac")) [.leaf .number (utf8 "1") none]
    let named := Node.command .operatorName [command (utf8 "f")]
    let root := Node.command .radical [fraction]
    let tree := Node.branch .root [named, root, command (utf8 "g")]
    (parse source).tree = .ok tree ∧
      tree.visited =
        [tree, named, root] ++ fraction :: [.leaf .number (utf8 "1") none, command (utf8 "g")] ∧
      lowerTree .empty tree = .error (.arity (utf8 "\\frac") 2 1) := by
  intro source command fraction named root tree
  have hfault : (Lexemes.ofSource source).fault = none :=
    Option.isNone_iff_eq_none.mp (by decide +kernel)
  have htokens : (Lexemes.ofSource source).tokens =
      [.operatorName, .groupBegin, .command (utf8 "f"), .groupEnd, .radical, .groupBegin,
        .fraction (utf8 "frac"), .number (utf8 "1"), .groupEnd, .command (utf8 "g")] := by
    decide +kernel
  have hreads : Reads (Lexemes.ofSource source).tokens [named, root, command (utf8 "g")] := by
    rw [htokens]
    rfl
  have htree : (parse source).tree = .ok tree := hreads.parse hfault
  have hvisited : tree.visited =
      [tree, named, root] ++ fraction :: [.leaf .number (utf8 "1") none, command (utf8 "g")] := rfl
  have hbefore : ∀ k ∈ [tree, named, root], k.fault? .empty = none := by
    simp only [List.forall_mem_cons]
    exact ⟨rfl, rfl, rfl, List.forall_mem_nil _⟩
  have hfraction : fraction.fault? .empty = some (.arity (utf8 "\\frac") 2 1) := rfl
  refine ⟨htree, hvisited, ?_⟩
  exact ((lowerTree_legal htree .empty).2 _).mpr ⟨_, _, _, hvisited, hfraction, hbefore⟩

end MathMarkup
