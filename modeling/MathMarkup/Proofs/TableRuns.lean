/-
MathMarkup/Proofs/TableRuns.lean

Tables over whole runs.  A run creates tables, empty, with the builtin commands or as
copies, and writes to them, one definition at a time or a document at a time.  Beside
each table stands the record of what was written to it: a copy takes the record of the
original along, a new table starts with a record of the builtin commands, and a
document adds its definitions section by section.

One operation keeps every table equal to what its record fills an empty table with
(`apply_replay`), hence a run does (`run_replay`).  What a table answers then follows
from its record alone: a name has the definition written last, one of the four typed
questions finds it, and a scan goes through the names in order.
-/
import MathMarkup.Proofs.Writes
import MathMarkup.Table.Builtin
import MathMarkup.Table.Document

namespace MathMarkup

namespace Table

open Dictionary (Reordered lastWrite?)

/-- A definition written under a name. -/
abbrev Write := Bytes × Definition

/-! ### Operations -/

/-- What can be done with tables, which are numbered in the order of their creation;
decoders report faults of the type `ε`. -/
inductive Operation (ε : Type)
  | new
  | empty
  | copy (i : Nat)
  | addFunction (i : Nat) (name text : Bytes)
  | addOperator (i : Nat) (name text : Bytes)
  | addLetter (i : Nat) (name text : Bytes)
  | addSpace (i : Nat) (name : Bytes) (width : Binary32)
  /-- Loads what a decoder has made of a text. -/
  | load (i : Nat) (decoded : Decoded ε)

section Operations

variable {ε : Type}

/-- Changes table number `i`, if there is one. -/
def change (ts : List Table) (i : Nat) (f : Table → Table) : Option (List Table) :=
  ts[i]?.map fun t => ts.set i (f t)

/-- The tables after an operation; nothing if it asks for a table that does not
exist. -/
def Operation.apply (ts : List Table) : Operation ε → Option (List Table)
  | .new => some (ts ++ [builtin])
  | .empty => some (ts ++ [Table.empty])
  | .copy i => ts[i]?.map fun t => ts ++ [t]
  | .addFunction i name text => change ts i fun t => t.addFunction name text
  | .addOperator i name text => change ts i fun t => t.addOperator name text
  | .addLetter i name text => change ts i fun t => t.addLetter name text
  | .addSpace i name width => change ts i fun t => t.addSpace name width
  | .load i decoded => change ts i fun t => (t.loadDecoded decoded).1

/-- The tables after operations one after another. -/
def run : List Table → List (Operation ε) → Option (List Table)
  | ts, [] => some ts
  | ts, o :: os => (o.apply ts).bind fun ts => run ts os

/-! ### Records -/

/-- What loading a document writes, section by section. -/
def Document.writes (d : Document) : List (List Write) :=
  [d.functions.entries.map fun e => (e.1, .function e.2),
    d.operators.entries.map fun e => (e.1, .operator e.2),
    d.letters.entries.map fun e => (e.1, .letter e.2),
    d.spaces.entries.map fun e => (e.1, .space e.2)]

/-- What loading a decoded text writes: the definitions of the document, if there is one. -/
def Decoded.writes : Decoded ε → List Write
  | .document d => d.writes.flatten
  | .absent | .fault _ => []

/-- What a new table starts with, section by section. -/
def builtinWrites : List (List Write) :=
  [builtinFunctions.map fun name => (utf8 name, .function (utf8 name)),
    builtinOperators.map fun e => (utf8 e.1, .operator (utf8 e.2)),
    builtinLetters.map fun e => (utf8 e.1, .letter (utf8 e.2)),
    builtinSpaces.map fun e => (utf8 e.1, .space (.ofThousandths e.2))]

/-- The records after an operation.  A copy starts with all that was written to the
original. -/
def Operation.record (records : List (List Write)) : Operation ε → List (List Write)
  | .new => records ++ [builtinWrites.flatten]
  | .empty => records ++ [[]]
  | .copy i => records ++ [records[i]?.getD []]
  | .addFunction i name text => records.modify i (· ++ [(name, .function text)])
  | .addOperator i name text => records.modify i (· ++ [(name, .operator text)])
  | .addLetter i name text => records.modify i (· ++ [(name, .letter text)])
  | .addSpace i name width => records.modify i (· ++ [(name, .space width)])
  | .load i decoded => records.modify i (· ++ decoded.writes)

/-- The records after operations one after another. -/
def recordAll (os : List (Operation ε)) : List (List Write) :=
  os.foldl Operation.record []

/-- The table that a record describes. -/
def replay (ws : List Write) : Table :=
  Table.empty.insertAll ws

theorem replay_append (ws ws' : List Write) : replay (ws ++ ws') = (replay ws).insertAll ws' :=
  Dictionary.insertAll_append _ ws ws'

theorem lookup_replay (ws : List Write) (name : Bytes) :
    (replay ws).lookup name = lastWrite? name ws := by
  show (Table.empty.insertAll ws).find? name = _
  rw [Dictionary.find?_insertAll]
  exact Option.or_none

/-! ### Loading -/

theorem foldl_insert {β : Type} (f : β → Write) (es : List β) (t : Table) :
    es.foldl (fun t e => t.insert (f e).1 (f e).2) t = t.insertAll (es.map f) := by
  rw [Dictionary.insertAll, List.foldl_map]

/-- Loading a document is one write for each of its entries. -/
theorem load_eq (t : Table) (d : Document) : t.load d = t.insertAll d.writes.flatten := by
  simp only [Document.writes, List.flatten_cons, List.flatten_nil, Dictionary.insertAll_append,
    Dictionary.insertAll_nil, ← foldl_insert]
  rfl

/-- A text without a document, or with a fault, writes nothing. -/
theorem loadDecoded_eq (t : Table) (decoded : Decoded ε) :
    (t.loadDecoded decoded).1 = t.insertAll decoded.writes := by
  cases decoded with
  | document d => exact load_eq t d
  | absent => exact load_eq t {}
  | fault e => rfl

theorem builtin_eq : builtin = replay builtinWrites.flatten := by
  simp only [builtinWrites, replay, List.flatten_cons, List.flatten_nil,
    Dictionary.insertAll_append, Dictionary.insertAll_nil, ← foldl_insert]
  rfl

/-- Within a section of a document every name occurs once. -/
theorem nodup_of_mem_writes {d : Document} : ∀ es ∈ d.writes, (es.map Prod.fst).Nodup := by
  have hsection {α : Type} (entries : Dictionary α) (f : α → Definition) :
      ((entries.entries.map fun e => (e.1, f e.2)).map Prod.fst).Nodup := by
    rw [List.map_map]
    exact entries.nodup_keys
  simp only [Document.writes, List.forall_mem_cons]
  exact ⟨hsection _ _, hsection _ _, hsection _ _, hsection _ _, List.forall_mem_nil _⟩

theorem nodup_of_mem_builtinWrites : ∀ es ∈ builtinWrites, (es.map Prod.fst).Nodup := by
  decide +kernel

/-! ### Runs -/

theorem map_replay_append (records : List (List Write)) (ws : List Write) :
    (records ++ [ws]).map replay = records.map replay ++ [replay ws] :=
  List.map_append

theorem change_replay {records : List (List Write)} {i : Nat} {f : Table → Table}
    {ws : List Write} (hf : ∀ t, f t = t.insertAll ws) {ts : List Table}
    (h : change (records.map replay) i f = some ts) :
    ts = (records.modify i (· ++ ws)).map replay := by
  obtain ⟨t, ht, rfl⟩ := Option.map_eq_some_iff.mp h
  rw [List.getElem?_map] at ht
  obtain ⟨record, hrecord, rfl⟩ := Option.map_eq_some_iff.mp ht
  rw [hf, ← replay_append, ← List.map_set, List.modify_eq_set, hrecord]
  rfl

/-- One operation keeps every table equal to what its record describes. -/
theorem apply_replay {records : List (List Write)} {o : Operation ε} {ts : List Table}
    (h : o.apply (records.map replay) = some ts) : ts = (o.record records).map replay := by
  cases o with
  | new =>
    obtain rfl := Option.some.inj h
    rw [Operation.record, map_replay_append, ← builtin_eq]
  | empty =>
    obtain rfl := Option.some.inj h
    rw [Operation.record, map_replay_append]
    rfl
  | copy i =>
    obtain ⟨t, ht, rfl⟩ := Option.map_eq_some_iff.mp h
    rw [List.getElem?_map] at ht
    obtain ⟨record, hrecord, rfl⟩ := Option.map_eq_some_iff.mp ht
    rw [Operation.record, hrecord, Option.getD_some, map_replay_append]
  | addFunction i name text | addOperator i name text | addLetter i name text
  | addSpace i name width => exact change_replay (fun t => rfl) h
  | load i decoded => exact change_replay (fun t => t.loadDecoded_eq decoded) h

/-- So does a run. -/
theorem run_replay {records : List (List Write)} {os : List (Operation ε)} {ts : List Table}
    (h : run (records.map replay) os = some ts) :
    ts = (os.foldl Operation.record records).map replay := by
  induction os generalizing records with
  | nil => exact (Option.some.inj h).symm
  | cons o os ih =>
    obtain ⟨ts', hstep, hrest⟩ := Option.bind_eq_some_iff.mp h
    obtain rfl := apply_replay hstep
    exact ih hrest

end Operations

/-! ### What a table answers -/

/-- What the four typed questions about a name find, each with its category. -/
def typed (t : Table) (name : Bytes) : List (Option Definition) :=
  [(t.function? name).map .function, (t.operator? name).map .operator,
    (t.letter? name).map .letter, (t.space? name).map .space]

/-- One typed question finds the definition of a name, and none does if there is no
definition. -/
theorem typed_eq (t : Table) (name : Bytes) :
    (t.typed name).filterMap id = (t.lookup name).toList := by
  cases h : t.lookup name with
  | none => simp [typed, function?, operator?, letter?, space?, h]
  | some d => cases d <;> simp [typed, function?, operator?, letter?, space?, h]

/-- The definitions that a scan goes through if it is never stopped. -/
def listed (t : Table) : List Write :=
  t.scan (fun seen name d => (seen ++ [(name, d)], true)) []

/-- The state of a scan that has gone through some definitions. -/
def visits {σ : Type} (visit : σ → Bytes → Definition → σ × Bool) (s : σ) (es : List Write) : σ :=
  es.foldl (fun s e => (visit s e.1 e.2).1) s

/-- Whether a scan that has gone through some definitions is asked for more at the
next one. -/
def wantsMore {σ : Type} (visit : σ → Bytes → Definition → σ × Bool) (s : σ) (es : List Write)
    (e : Write) : Bool :=
  (visit (visits visit s es) e.1 e.2).2

/-- `seen` and `rest` are the definitions up to the first one at which no more are
asked for, and those behind it. -/
structure StopsBehind {σ : Type} (visit : σ → Bytes → Definition → σ × Bool) (s : σ)
    (seen rest : List Write) : Prop where
  goesOn : ∀ before e after, seen = before ++ e :: after → after ≠ [] →
    wantsMore visit s before e = true
  stops : rest ≠ [] → ∃ before e, seen = before ++ [e] ∧ wantsMore visit s before e = false

section Scan

variable {σ : Type} {visit : σ → Bytes → Definition → σ × Bool}

theorem StopsBehind.cons {s s' : σ} {e : Write} {seen rest : List Write}
    (h : StopsBehind visit s' seen rest) (he : visit s e.1 e.2 = (s', true)) :
    StopsBehind visit s (e :: seen) rest := by
  have hvisits (es : List Write) : visits visit s (e :: es) = visits visit s' es := by
    simp only [visits, List.foldl_cons, he]
  constructor
  · intro before e' after hseen hafter
    cases before with
    | nil =>
      obtain ⟨rfl, rfl⟩ := List.cons.inj hseen
      show (visit s e.1 e.2).2 = true
      rw [he]
    | cons e'' before =>
      obtain ⟨rfl, hrest⟩ := List.cons.inj hseen
      rw [wantsMore, hvisits]
      exact h.goesOn before e' after hrest hafter
  · intro hrest
    obtain ⟨before, e', rfl, hstop⟩ := h.stops hrest
    refine ⟨e :: before, e', rfl, ?_⟩
    rw [wantsMore, hvisits]
    exact hstop

theorem exists_seen_of_scanFrom (s : σ) (es : List Write) :
    ∃ seen rest, es = seen ++ rest ∧ StopsBehind visit s seen rest ∧
      scanFrom visit s es = visits visit s seen := by
  induction es generalizing s with
  | nil =>
    refine ⟨[], [], rfl, ⟨?_, ?_⟩, rfl⟩
    · intro before e after h
      cases before <;> cases h
    · intro h
      exact absurd rfl h
  | cons e es ih =>
    cases he : visit s e.1 e.2 with
    | mk s' more =>
      cases more with
      | true =>
        obtain ⟨seen, rest, rfl, hstops, hscan⟩ := ih s'
        refine ⟨e :: seen, rest, rfl, hstops.cons he, ?_⟩
        simp only [scanFrom, visits, List.foldl_cons, he]
        exact hscan
      | false =>
        refine ⟨[e], es, rfl, ⟨?_, ?_⟩, ?_⟩
        · intro before e' after h hafter
          cases before with
          | nil => exact absurd (List.cons.inj h).2.symm hafter
          | cons e'' before => cases before <;> cases (List.cons.inj h).2
        · intro _
          refine ⟨[], e, rfl, ?_⟩
          show (visit s e.1 e.2).2 = false
          rw [he]
        · simp only [scanFrom, visits, List.foldl_cons, List.foldl_nil, he]

end Scan

theorem listed_eq (t : Table) : t.listed = t.entries := by
  have collect (seen es : List Write) :
      scanFrom (fun seen name d => (seen ++ [(name, d)], true)) seen es = seen ++ es := by
    induction es generalizing seen with
    | nil => exact (List.append_nil seen).symm
    | cons e es ih =>
      show scanFrom _ (seen ++ [e]) es = _
      rw [ih, List.append_assoc, List.singleton_append]
  exact collect [] t.entries

/-- What a table with a given record answers. -/
structure Answers (t : Table) (ws : List Write) : Prop where
  /-- A name has the definition of the last write under it, if there is one. -/
  lookup_iff : ∀ name d, t.lookup name = some d ↔
    ∃ before after, ws = before ++ (name, d) :: after ∧ ∀ w ∈ after, w.1 ≠ name
  /-- One typed question finds a name that is defined, none another one. -/
  typed : ∀ name, (t.typed name).filterMap id = (t.lookup name).toList
  /-- A scan goes through exactly the names that are defined. -/
  mem_listed_iff : ∀ name d, (name, d) ∈ t.listed ↔ t.lookup name = some d
  /-- Their order is strict, so each comes once. -/
  increasing : t.listed.Pairwise fun e e' => e.1 < e'.1
  /-- It can be stopped at every name. -/
  stops : ∀ (σ : Type) (visit : σ → Bytes → Definition → σ × Bool) (s : σ),
    ∃ seen rest, t.listed = seen ++ rest ∧ StopsBehind visit s seen rest ∧
      t.scan visit s = visits visit s seen
  size_eq : t.size = t.listed.length

/-- A table answers as its record says. -/
theorem answers_replay (ws : List Write) : (replay ws).Answers ws where
  lookup_iff name d := by rw [lookup_replay, Dictionary.lastWrite?_eq_some_iff]
  typed := (replay ws).typed_eq
  mem_listed_iff name d := by
    rw [listed_eq]
    exact Dictionary.mem_entries_iff
  increasing := by
    rw [listed_eq]
    exact (replay ws).increasing
  stops σ visit s := by
    rw [listed_eq]
    exact exists_seen_of_scanFrom s _
  size_eq := by
    rw [listed_eq]
    rfl

/-- **Tables are ordered maps in which the last write wins.**  After every run there is
a record for each table, and the table answers as its record says.  In which order the
entries of a section are taken makes no difference, neither for a document nor for the
builtin commands. -/
theorem run_last_write_wins {ε : Type} {os : List (Operation ε)} {ts : List Table}
    (h : run [] os = some ts) :
    ts.length = (recordAll os).length ∧
      (∀ (i : Nat) (t : Table) (ws : List Write), ts[i]? = some t → (recordAll os)[i]? = some ws →
        t.Answers ws) ∧
      (∀ (t : Table) (d : Document) (order : List Write), Reordered d.writes order →
        t.insertAll order = t.load d) ∧
      ∀ order : List Write, Reordered builtinWrites order → replay order = builtin := by
  have hts : ts = (recordAll os).map replay := run_replay h
  refine ⟨?_, ?_, ?_, ?_⟩
  · rw [hts, List.length_map]
  · intro i t ws ht hws
    rw [hts, List.getElem?_map, hws] at ht
    obtain rfl := Option.some.inj ht
    exact answers_replay ws
  · intro t d order horder
    rw [load_eq]
    exact Dictionary.insertAll_reordered horder nodup_of_mem_writes t
  · intro order horder
    rw [builtin_eq]
    exact Dictionary.insertAll_reordered horder nodup_of_mem_builtinWrites Table.empty

/-- A name is defined, then changed in the original of a copy, while there is nothing to
load into the copy; another name stands in two sections of a document. -/
theorem run_last_write_wins_copy :
    let foo := utf8 "foo"
    let xor := utf8 "xor"
    let d : Document :=
      { functions := Dictionary.empty.insert xor (utf8 "xor"),
        letters := Dictionary.empty.insert xor (utf8 "⊻") }
    let os : List (Operation Yaml.Fault) :=
      [.new, .addOperator 0 foo (utf8 "⊕"), .copy 0, .addLetter 0 foo (utf8 "ϕ"), .empty,
        .load 1 (.fault .malformed), .load 1 .absent, .load 2 (.document d)]
    ∃ t t' t'' : Table,
      run [] os = some [t, t', t''] ∧
        t.lookup foo = some (.letter (utf8 "ϕ")) ∧ t'.lookup foo = some (.operator (utf8 "⊕")) ∧
        t''.lookup xor = some (.letter (utf8 "⊻")) := by
  intro foo xor d os
  let plus : Write := (foo, .operator (utf8 "⊕"))
  let phi : Write := (foo, .letter (utf8 "ϕ"))
  let t' := builtin.addOperator foo (utf8 "⊕")
  let t := t'.addLetter foo (utf8 "ϕ")
  have hrun : run [] os = some [t, t', Table.empty.load d] := rfl
  obtain ⟨-, hanswers, -⟩ := run_last_write_wins hrun
  have ht : t.Answers (builtinWrites.flatten ++ [plus] ++ [phi]) := hanswers 0 t _ rfl rfl
  have ht' : t'.Answers (builtinWrites.flatten ++ [plus]) := hanswers 1 t' _ rfl rfl
  have ht'' : (Table.empty.load d).Answers d.writes.flatten := hanswers 2 _ _ rfl rfl
  refine ⟨t, t', _, hrun, ?_, ?_, ?_⟩
  · exact (ht.lookup_iff _ _).mpr ⟨_, [], rfl, List.forall_mem_nil _⟩
  · exact (ht'.lookup_iff _ _).mpr ⟨_, [], rfl, List.forall_mem_nil _⟩
  · exact (ht''.lookup_iff _ _).mpr
      ⟨[(xor, .function (utf8 "xor"))], [], rfl, List.forall_mem_nil _⟩

end Table

end MathMarkup
