/-
MathMarkup/Proofs/TableUse.lean

What a compilation asks its table.  Lowering looks up the names of the commands among
the nodes that it visits and nothing else (`lower_congr`), so two tables that agree on
these names give the same markup or the same error.  Parsing does not see the table,
and it keeps names as they are: each of them is the name of a command token
(`parse_wellFormed`).  Since no such token has a reserved name, a table can define
reserved names without any effect.

If compiling succeeds, the names that were looked up are all defined, and a table with
further definitions agrees on them.  Not all command tokens are looked up, for example
not `\\limits` and not the name of an operator, so this goes by the nodes and not by
the tokens.
-/
import MathMarkup.Proofs.Compiled
import MathMarkup.Proofs.Legality
import MathMarkup.Proofs.Writes

namespace MathMarkup

/-! ### Visited nodes -/

namespace Node

variable {p : Node → Prop}

mutual

/-- What children have from their parents is true of all visited nodes. -/
theorem forall_mem_visited (hp : ∀ n, p n → ∀ c ∈ n.children, p c) :
    (n : Node) → p n → ∀ k ∈ n.visited, p k
  | .missing, hn => by
    intro k hk
    rw [List.mem_singleton.mp hk]
    exact hn
  | .mk kind data tag params children, hn => by
    have hchildren : ∀ c ∈ children, p c := hp _ hn
    rw [visited]
    refine List.forall_mem_cons.mpr ⟨hn, ?_⟩
    split
    · exact forall_mem_visitedRest hp children hchildren
    · exact forall_mem_visitedAll hp children hchildren

theorem forall_mem_visitedAll (hp : ∀ n, p n → ∀ c ∈ n.children, p c) :
    (ns : List Node) → (∀ n ∈ ns, p n) → ∀ k ∈ visitedAll ns, p k
  | [], _ => List.forall_mem_nil _
  | n :: ns, hns => by
    obtain ⟨hn, hns⟩ := List.forall_mem_cons.mp hns
    rw [visitedAll]
    refine List.forall_mem_append.mpr ⟨?_, ?_⟩
    · exact forall_mem_visited hp n hn
    · exact forall_mem_visitedAll hp ns hns

theorem forall_mem_visitedRest (hp : ∀ n, p n → ∀ c ∈ n.children, p c) :
    (ns : List Node) → (∀ n ∈ ns, p n) → ∀ k ∈ visitedRest ns, p k
  | [], _ => List.forall_mem_nil _
  | _ :: ns, hns => forall_mem_visitedAll hp ns (List.forall_mem_cons.mp hns).2

end

/-- The children of a well-formed node are well formed. -/
theorem WellFormed.forall_mem_children {T : Token → Prop} {n : Node} (hn : n.WellFormed T) :
    ∀ c ∈ n.children, c.WellFormed T := by
  cases hn with
  | group _ hns | application _ _ _ hns | fence _ hns | environment _ hns => exact hns
  | superscript hb hs | subscript hb hs => simpa [children, branch] using ⟨hb, hs⟩
  | subSup hb hs hs' => simpa [children, branch] using ⟨hb, hs, hs'⟩
  | underscript ht hl hs | overscript ht hl hs =>
    simpa [children, branch] using ⟨WellFormed.large ht hl, hs⟩
  | underOverscript ht hl hb ha =>
    simpa [children, branch] using ⟨WellFormed.large ht hl, hb, ha⟩
  | _ => exact List.forall_mem_nil _

/-- The name that is looked up for a node, if any. -/
def lookup? : Node → Option Bytes
  | .mk .command _ (some tag) _ _ => tag.commandName?
  | _ => none

/-- The names that are looked up for a tree are those of command tokens. -/
theorem WellFormed.command_of_lookup? {T : Token → Prop} {n : Node} {name : Bytes}
    (hn : n.WellFormed T) (h : n.lookup? = some name) : T (.command name) := by
  have hT {tag : Token} (ht : T tag) (htag : tag.commandName? = some name) : T (.command name) :=
    Token.eq_of_commandName? htag ▸ ht
  cases hn with
  | command ht | large ht _ | application ht _ _ _ => exact hT ht h
  | _ => cases h

/-- A node that is not at fault has a name that is defined, if it has one. -/
theorem isSome_lookup_of_fault? {t : Table} {n : Node} {name : Bytes}
    (hname : n.lookup? = some name) (h : n.fault? t = none) : (t.lookup name).isSome = true := by
  unfold lookup? at hname
  split at hname
  · obtain rfl := Token.eq_of_commandName? hname
    cases hdefined : (t.lookup name).isSome with
    | true => rfl
    | false => simp [fault?, Token.fault?, hdefined] at h
  · cases hname

end Node

/-! ### Lookups -/

namespace Lowering

variable {t t' : Table}

/-- Tables that agree on the names that are looked up for some nodes. -/
def Agree (t t' : Table) (ns : List Node) : Prop :=
  ∀ n ∈ ns, ∀ name, n.lookup? = some name → t.lookup name = t'.lookup name

theorem resolve_congr {name : Bytes} (h : t.lookup name = t'.lookup name) (v : Variant) :
    resolve t v name = resolve t' v name := by
  rw [resolve, resolve, h]

/-- A command asks the table for its name only. -/
theorem command_congr {tag : Option Token} {args : List Node}
    {all all' rest rest' : Variant → Except Error (List Markup)}
    (hname : ∀ name, tag = some (.command name) → t.lookup name = t'.lookup name)
    (hall : tag ≠ some .operatorName → all = all') (hrest : tag = some .operatorName → rest = rest')
    (v : Variant) (params : Params) :
    command t v tag params args all rest = command t' v tag params args all' rest' := by
  by_cases htag : tag = some .operatorName
  · subst htag
    rw [hrest rfl]
    rfl
  · rw [hall htag]
    cases tag with
    | none => rfl
    | some tag =>
      cases tag with
      | command name => exact resolve_congr (hname name rfl) v
      | operatorName => exact absurd rfl htag
      | _ => rfl

mutual

/-- Lowering asks the table for the names of visited nodes only. -/
theorem lower_congr : (n : Node) → Agree t t' n.visited → ∀ v, lower t v n = lower t' v n
  | .missing, _, _ => rfl
  | .mk kind data tag params children, h, v => by
    rw [Node.visited] at h
    obtain ⟨hself, hbelow⟩ := List.forall_mem_cons.mp h
    have hall (hkind : ¬ (kind = .command ∧ tag = some .operatorName)) (v : Variant) :
        lowerAll t v children = lowerAll t' v children := by
      rw [if_neg hkind] at hbelow
      exact lowerAll_congr children hbelow v
    cases kind
    case command =>
      simp only [lower]
      refine command_congr ?_ ?_ ?_ v params
      · rintro name rfl
        exact hself name rfl
      · intro htag
        funext w
        exact hall (fun hc => htag hc.2) w
      · intro htag
        rw [if_pos ⟨rfl, htag⟩] at hbelow
        funext w
        exact lowerRest_congr children hbelow w
    case root | row | superscript | subscript | subSup | underscript | overscript | underOverscript
        | environment =>
      have hkind := hall (by rintro ⟨⟨⟩, -⟩) v
      simp only [lower, hkind]
    all_goals rfl

theorem lowerAll_congr : (ns : List Node) → Agree t t' (Node.visitedAll ns) →
    ∀ v, lowerAll t v ns = lowerAll t' v ns
  | [], _, _ => rfl
  | n :: ns, h, v => by
    rw [Node.visitedAll] at h
    obtain ⟨hn, hns⟩ := List.forall_mem_append.mp h
    rw [lowerAll, lowerAll, lower_congr n hn v, lowerAll_congr ns hns v]

theorem lowerRest_congr : (ns : List Node) → Agree t t' (Node.visitedRest ns) →
    ∀ v, lowerRest t v ns = lowerRest t' v ns
  | [], _, _ => rfl
  | _ :: ns, h, v => lowerAll_congr ns h v

end

end Lowering

/-! ### Sources -/

/-- A source compiles alike with tables that agree on what is looked up for its
tree. -/
theorem compile_congr {t t' : Table} {source : Bytes}
    (h : ∀ ns, (parse source).tree = .ok (.branch .root ns) →
      Lowering.Agree t t' (Node.visitedAll ns)) :
    compile t source = compile t' source := by
  cases htree : (parse source).tree with
  | error e => simp only [compile, htree]
  | ok tree =>
    obtain ⟨ns, rfl, -⟩ := parse_wellFormed (T := fun _ => True) htree fun _ _ => trivial
    simp only [compile, htree]
    show (do return .root .inline (← Lowering.lowerAll t .italic ns) : Except Error Markup) = _
    rw [Lowering.lowerAll_congr ns (h ns htree) .italic]
    rfl

/-- All names that are looked up for a source are names of its command tokens. -/
theorem command_mem_tokens {source : Bytes} {ns : List Node}
    (h : (parse source).tree = .ok (.branch .root ns)) {n : Node} (hn : n ∈ Node.visitedAll ns)
    {name : Bytes} (hname : n.lookup? = some name) :
    .command name ∈ (Lexemes.ofSource source).tokens := by
  obtain ⟨ns', hns', hwell⟩ := parse_wellFormed (T := (· ∈ (Lexemes.ofSource source).tokens)) h
    fun l hl => List.mem_map_of_mem hl
  obtain rfl : ns = ns' := by injection hns'
  have hvisited :=
    Node.forall_mem_visitedAll (fun _ => Node.WellFormed.forall_mem_children) ns hwell
  exact (hvisited n hn).command_of_lookup? hname

/-- If a source compiles, all names that are looked up for it are defined. -/
theorem isSome_lookup_of_compile {t : Table} {source : Bytes} {m : Markup}
    (h : compile t source = .ok m) {ns : List Node}
    (htree : (parse source).tree = .ok (.branch .root ns)) {n : Node} (hn : n ∈ Node.visitedAll ns)
    {name : Bytes} (hname : n.lookup? = some name) : (t.lookup name).isSome = true := by
  obtain ⟨ns', hns', hwell⟩ := parse_wellFormed (T := fun _ => True) htree fun _ _ => trivial
  obtain rfl : ns = ns' := by injection hns'
  rw [compile, htree] at h
  obtain ⟨ms, hms, -⟩ := Lowering.exists_of_bind_eq_ok h
  -- Lowering succeeded, so no visited node is at fault.
  have hreports : Lowering.Reports t (Lowering.lowerAll t .italic ns) (Node.visitedAll ns) :=
    Lowering.reports_lowerAll fun k hk => Lowering.reports_lower (hwell k hk) .italic
  have hfault : n.fault? t = none := hreports.exists_ok_iff.mp ⟨ms, hms⟩ n hn
  exact Node.isSome_lookup_of_fault? hname hfault

/-- The definitions entered leave alone all other names. -/
theorem lookup_insertAll_of_ne {t : Table} {added : List (Bytes × Definition)} {name : Bytes}
    (h : ∀ e ∈ added, e.1 ≠ name) : Table.lookup (t.insertAll added) name = t.lookup name := by
  show (t.insertAll added).find? name = _
  rw [Dictionary.find?_insertAll, Dictionary.lastWrite?_eq_none_iff.mpr h]
  rfl

/-- **A table matters only at the names that a source uses.**  Tables that agree on the
names of its command tokens compile a source alike, with the same markup or the same
error.  No command token has a reserved name, so definitions of reserved names have no
effect; and what compiles with a table compiles in the same way if names are added that
the table does not define. -/
theorem compile_local (source : Bytes) :
    (∀ t t' : Table,
      (∀ name, .command name ∈ (Lexemes.ofSource source).tokens →
        t.lookup name = t'.lookup name) →
      compile t source = compile t' source) ∧
      (∀ name, .command name ∈ (Lexemes.ofSource source).tokens → name ∉ Vocabulary.reserved) ∧
      (∀ (t : Table) (added : List (Bytes × Definition)),
        (∀ e ∈ added, e.1 ∈ Vocabulary.reserved) →
        compile (t.insertAll added) source = compile t source) ∧
      ∀ (t : Table) (added : List (Bytes × Definition)) (m : Markup),
        (∀ e ∈ added, t.lookup e.1 = none) → compile t source = .ok m →
        compile (t.insertAll added) source = .ok m := by
  have hagree : ∀ t t' : Table, (∀ name, .command name ∈ (Lexemes.ofSource source).tokens →
      t.lookup name = t'.lookup name) → compile t source = compile t' source := by
    intro t t' h
    apply compile_congr
    intro ns htree n hn name hname
    exact h name (command_mem_tokens htree hn hname)
  have hreserved : ∀ name, .command name ∈ (Lexemes.ofSource source).tokens →
      name ∉ Vocabulary.reserved := by
    intro name hname
    obtain ⟨l, hl, htoken⟩ := List.mem_map.mp hname
    have hreadable := readable_of_mem_lexemes source l hl
    rw [htoken] at hreadable
    exact hreadable.not_mem_reserved
  refine ⟨hagree, hreserved, ?_, ?_⟩
  · intro t added hadded
    apply hagree
    intro name hname
    apply lookup_insertAll_of_ne
    rintro e he rfl
    exact hreserved e.1 hname (hadded e he)
  · intro t added m hadded hm
    rw [← hm]
    apply compile_congr
    intro ns htree n hn name hname
    have hdefined := isSome_lookup_of_compile hm htree hn hname
    apply lookup_insertAll_of_ne
    rintro e he rfl
    rw [hadded e he] at hdefined
    cases hdefined

/-- Definitions of a command of the vocabulary, of `\\limits` behind a sum and of the
name of an operator change nothing. -/
theorem compile_local_sum :
    let source := utf8 "\\sum\\limits_i\\foo\\operatorname\x7b\\g\x7d"
    let t := Table.empty.addLetter (utf8 "foo") (utf8 "ϕ")
    let t' := t.addOperator (utf8 "sum") (utf8 "+")
    let added := [(utf8 "limits", Definition.letter (utf8 "l")), (utf8 "g", .function (utf8 "g"))]
    (∀ name, .command name ∈ (Lexemes.ofSource source).tokens → t.lookup name = t'.lookup name) ∧
      compile t source = compile t' source ∧
      utf8 "sum" ∈ Vocabulary.reserved ∧ (∀ e ∈ added, t.lookup e.1 = none) ∧
      ∃ m, compile t source = .ok m ∧ compile t' source = .ok m ∧
        compile (t.insertAll added) source = .ok m := by
  intro source t t' added
  have htokens : (Lexemes.ofSource source).tokens =
      [.bigOperator (utf8 "∑"), .command (utf8 "limits"), .script .sub, .letter (utf8 "i"),
        .command (utf8 "foo"), .operatorName, .groupBegin, .command (utf8 "g"), .groupEnd] := by
    decide +kernel
  have hagree : ∀ name, .command name ∈ (Lexemes.ofSource source).tokens →
      t.lookup name = t'.lookup name := by
    intro name hname
    rw [htokens] at hname
    simp only [List.mem_cons, List.not_mem_nil, Token.command.injEq, reduceCtorEq, false_or,
      or_false] at hname
    rcases hname with rfl | rfl | rfl <;> decide
  have hsum : utf8 "sum" ∈ Vocabulary.reserved := by decide +kernel
  have hadded : ∀ e ∈ added, t.lookup e.1 = none := by decide
  obtain ⟨m, hm⟩ := exists_ok_of_isOk (r := compile t source) (by decide +kernel)
  obtain ⟨hlocal, -, hreserved, hnew⟩ := compile_local source
  have heq : compile t' source = compile t source :=
    hreserved t [(utf8 "sum", .operator (utf8 "+"))] (List.forall_mem_singleton.mpr hsum)
  exact ⟨hagree, hlocal t t' hagree, hsum, hadded, m, hm, heq.trans hm, hnew t added m hadded hm⟩

end MathMarkup
