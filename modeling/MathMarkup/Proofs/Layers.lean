/-
MathMarkup/Proofs/Layers.lean

The table of a run, layer by layer.  On the builtin commands lies a table document, and
on that lie the functions, the operators and the letters of the command line.  A name has
its meaning from the uppermost layer that mentions it (`Sources.layers`), whatever its
category is in the layers below.

Each layer is a map, or several, and a map is gone through in some order that nobody
promises anything about.  `Sources.sections` are the maps, one behind the other as they
are written to the table.  Since a table is what was written to it last, all orders within
the maps give the same table (`Dictionary.insertAll_reordered`), and the layers from the
top down are the sections from the last to the first (`Dictionary.lastWrite?_flatten`).
-/
import MathMarkup.CommandLine.Run
import MathMarkup.Proofs.TableRuns

namespace MathMarkup

namespace Dictionary

variable {α : Type}

/-- Of several sections the last one with a write under a key counts. -/
theorem lastWrite?_flatten (k : Bytes) (sections : List (List (Bytes × α))) :
    lastWrite? k sections.flatten = sections.reverse.findSome? (lastWrite? k) := by
  induction sections with
  | nil => rfl
  | cons es sections ih =>
    rw [List.flatten_cons, lastWrite?_append, ih, List.reverse_cons, List.findSome?_append,
      List.findSome?_singleton]

theorem findIn_map {β : Type} (f : α → β) (k : Bytes) (es : List (Bytes × α)) :
    findIn k (es.map fun e => (e.1, f e.2)) = (findIn k es).map f := by
  induction es with
  | nil => rfl
  | cons e es ih =>
    obtain ⟨k', v⟩ := e
    by_cases h : k = k' <;> simp [findIn, h, ih]

/-- Under a key of a map stands one entry, so that it is also the last one. -/
theorem lastWrite?_entries {β : Type} (f : α → β) (k : Bytes) (d : Dictionary α) :
    lastWrite? k (d.entries.map fun e => (e.1, f e.2)) = (d.find? k).map f := by
  have hnodup : ((d.entries.map fun e => (e.1, f e.2)).map Prod.fst).Nodup := by
    rw [List.map_map]
    exact d.nodup_keys
  rw [lastWrite?_perm (List.reverse_perm _).symm hnodup, lastWrite?, List.reverse_reverse,
    findIn_map]
  rfl

end Dictionary

namespace CommandLine

open Dictionary (Reordered lastWrite?)
open Table (Write builtinWrites replay)

/-! ### Sources of definitions -/

/-- What a table is made of, besides the builtin commands: a document, and the pairs of
the three settings in the order in which they are written. -/
structure Sources where
  document : Table.Document
  functions : List (Bytes × Bytes)
  operators : List (Bytes × Bytes)
  letters : List (Bytes × Bytes)

/-- The document that a decoder finds in a file; without a file, or if it finds none, there are
no sections. -/
inductive Documents (decode : Bytes → Table.Decoded Bytes) (fs : Files) (path : Bytes) :
    Table.Document → Prop
  | nowhere : path = [] → Documents decode fs path {}
  | absent {content : Bytes} : path ≠ [] → fs.read path = .ok content →
      decode content = .absent → Documents decode fs path {}
  | file {content : Bytes} {document : Table.Document} : path ≠ [] →
      fs.read path = .ok content → decode content = .document document →
      Documents decode fs path document

/-- The sources that the settings ask for. -/
structure Gives (decode : Bytes → Table.Decoded Bytes) (settings : Options) (fs : Files)
    (p : Sources) : Prop where
  document : Documents decode fs (settings.text "table") p.document
  functions : KeyValue.pairs (settings.text "function") = some p.functions
  operators : KeyValue.pairs (settings.text "operator") = some p.operators
  letters : KeyValue.pairs (settings.text "letter") = some p.letters

/-- A document that cannot be read or decoded, or a setting that does not say pairs. -/
inductive Malformed (decode : Bytes → Table.Decoded Bytes) (settings : Options) (fs : Files) : Prop
  | unreadable {e : Files.Fault} : settings.text "table" ≠ [] →
      fs.read (settings.text "table") = .error e → Malformed decode settings fs
  | document {content e : Bytes} : settings.text "table" ≠ [] →
      fs.read (settings.text "table") = .ok content → decode content = .fault e →
      Malformed decode settings fs
  | definitions {name : String} : name ∈ ["function", "operator", "letter"] →
      KeyValue.pairs (settings.text name) = none → Malformed decode settings fs

namespace Sources

/-- What the layers above the builtin commands say about a name, from the top down. -/
def given (p : Sources) : List (Bytes → Option Definition) :=
  [fun name => (lastWrite? name p.letters).map .letter,
    fun name => (lastWrite? name p.operators).map .operator,
    fun name => (lastWrite? name p.functions).map .function,
    fun name => (p.document.spaces.find? name).map .space,
    fun name => (p.document.letters.find? name).map .letter,
    fun name => (p.document.operators.find? name).map .operator,
    fun name => (p.document.functions.find? name).map .function]

/-- What all layers say about a name. -/
def layers (p : Sources) : List (Bytes → Option Definition) :=
  p.given ++ [Table.builtin.lookup]

theorem findSome?_layers (p : Sources) (name : Bytes) :
    (p.layers.findSome? fun layer => layer name) =
      (p.given.findSome? fun layer => layer name).or (Table.builtin.lookup name) := by
  rw [layers, List.findSome?_append, List.findSome?_singleton]

/-- The map of some pairs as definitions. -/
def definitions (f : Bytes → Definition) (pairs : List (Bytes × Bytes)) : List Write :=
  (Dictionary.empty.insertAll pairs).entries.map fun e => (e.1, f e.2)

/-- The maps that are written to a table, from the first to the last. -/
def sections (p : Sources) : List (List Write) :=
  builtinWrites ++ (p.document.writes ++
    [definitions .function p.functions, definitions .operator p.operators,
      definitions .letter p.letters])

theorem lastWrite?_definitions (f : Bytes → Definition) (pairs : List (Bytes × Bytes))
    (name : Bytes) : lastWrite? name (definitions f pairs) = (lastWrite? name pairs).map f := by
  rw [definitions, Dictionary.lastWrite?_entries, Dictionary.find?_insertAll,
    Dictionary.find?_empty, Option.or_none]

/-- The uppermost layer with a name is the last section with it. -/
theorem findSome?_sections (p : Sources) (name : Bytes) :
    p.sections.reverse.findSome? (lastWrite? name) =
      p.layers.findSome? fun layer => layer name := by
  have hbuiltin : builtinWrites.reverse.findSome? (lastWrite? name) =
      Table.builtin.lookup name := by
    rw [← Dictionary.lastWrite?_flatten, Table.builtin_eq, Table.lookup_replay]
  -- Above the builtin commands each layer is one section.
  have hgiven : (p.document.writes ++ [definitions .function p.functions,
      definitions .operator p.operators, definitions .letter p.letters]).reverse.map
        (lastWrite? name) = p.given.map fun layer => layer name := by
    simp [given, Table.Document.writes, lastWrite?_definitions, Dictionary.lastWrite?_entries]
  have hfound := congrArg (List.findSome? id) hgiven
  simp only [List.findSome?_map, Function.id_comp] at hfound
  rw [sections, List.reverse_append, List.findSome?_append, hbuiltin, findSome?_layers, hfound]

/-- Within a section every name is written once. -/
theorem nodup_of_mem_sections (p : Sources) : ∀ es ∈ p.sections, (es.map Prod.fst).Nodup := by
  have hdefinitions (f : Bytes → Definition) (pairs : List (Bytes × Bytes)) :
      ((definitions f pairs).map Prod.fst).Nodup := by
    rw [definitions, List.map_map]
    exact Dictionary.nodup_keys _
  simp only [sections, List.forall_mem_append, List.forall_mem_cons]
  exact ⟨Table.nodup_of_mem_builtinWrites, Table.nodup_of_mem_writes, hdefinitions _ _,
    hdefinitions _ _, hdefinitions _ _, List.forall_mem_nil _⟩

end Sources

/-! ### Loading -/

/-- A table is written to section by section. -/
theorem layered_eq (p : Sources) :
    layered (Table.builtin.load p.document) (.insertAll .empty p.functions)
      (.insertAll .empty p.operators) (.insertAll .empty p.letters) =
        replay p.sections.flatten := by
  have hflags : p.sections.flatten = builtinWrites.flatten ++ (p.document.writes.flatten ++
      (Sources.definitions .function p.functions ++ (Sources.definitions .operator p.operators ++
        Sources.definitions .letter p.letters))) := by
    simp [Sources.sections]
  rw [hflags, Table.replay_append, ← Table.builtin_eq, Dictionary.insertAll_append,
    ← Table.load_eq, Dictionary.insertAll_append, Dictionary.insertAll_append]
  simp only [Sources.definitions, ← Table.foldl_insert]
  rfl

section

variable {decode : Bytes → Table.Decoded Bytes} {settings : Options} {fs : Files}

theorem Documents.loadDocument_eq {path : Bytes} {document : Table.Document}
    (h : Documents decode fs path document) (t : Table) :
    loadDocument decode fs path t = .ok (t.load document) := by
  cases h with
  | nowhere hpath => rw [hpath]; rfl
  | absent hpath hread hdocument | file hpath hread hdocument =>
    have hempty : path.isEmpty = false := by simpa using hpath
    simp only [loadDocument, hempty, hread, hdocument]
    rfl

theorem readDefinitions_eq_ok {name : String} {pairs : List (Bytes × Bytes)}
    (h : KeyValue.pairs (settings.text name) = some pairs) :
    readDefinitions settings name = .ok (.insertAll .empty pairs) := by
  rw [readDefinitions, KeyValue.parse?, h]
  rfl

theorem Gives.loadTable_eq {p : Sources} (h : Gives decode settings fs p) :
    loadTable decode settings fs = .ok (replay p.sections.flatten) := by
  rw [loadTable, h.document.loadDocument_eq, readDefinitions_eq_ok h.functions,
    readDefinitions_eq_ok h.operators, readDefinitions_eq_ok h.letters, ← layered_eq]
  rfl

/-- There is no table unless the document and all three settings can be read. -/
theorem reads_of_loadTable {t : Table} (h : loadTable decode settings fs = .ok t) :
    (∃ t, loadDocument decode fs (settings.text "table") .builtin = .ok t) ∧
      ∀ name ∈ ["function", "operator", "letter"], ∃ d, readDefinitions settings name = .ok d := by
  unfold loadTable at h
  cases hdocument : loadDocument decode fs (settings.text "table") .builtin with
  | error e => rw [hdocument] at h; cases h
  | ok t =>
    cases hfunctions : readDefinitions settings "function" with
    | error e => rw [hdocument, hfunctions] at h; cases h
    | ok functions =>
      cases hoperators : readDefinitions settings "operator" with
      | error e => rw [hdocument, hfunctions, hoperators] at h; cases h
      | ok operators =>
        cases hletters : readDefinitions settings "letter" with
        | error e => rw [hdocument, hfunctions, hoperators, hletters] at h; cases h
        | ok letters =>
          simp only [List.forall_mem_cons]
          exact ⟨⟨t, rfl⟩, ⟨functions, hfunctions⟩, ⟨operators, hoperators⟩,
            ⟨letters, hletters⟩, List.forall_mem_nil _⟩

theorem Malformed.loadTable_ne (h : Malformed decode settings fs) (t : Table) :
    loadTable decode settings fs ≠ .ok t := by
  intro hload
  obtain ⟨⟨t', hdocument⟩, hdefinitions⟩ := reads_of_loadTable hload
  cases h with
  | unreadable hpath hread =>
    have hempty : (settings.text "table").isEmpty = false := by simpa using hpath
    simp [loadDocument, hempty, hread] at hdocument
  | document hpath hread hcontent =>
    have hempty : (settings.text "table").isEmpty = false := by simpa using hpath
    simp only [loadDocument, hempty, hread, hcontent] at hdocument
    cases hdocument
  | definitions hname hpairs =>
    obtain ⟨d, hd⟩ := hdefinitions _ hname
    simp [readDefinitions, KeyValue.parse?, hpairs] at hd

end

/-- What is not malformed gives sources. -/
theorem gives_or_malformed (decode : Bytes → Table.Decoded Bytes) (settings : Options)
    (fs : Files) : (∃ p, Gives decode settings fs p) ∨ Malformed decode settings fs := by
  have hdocument : (∃ document, Documents decode fs (settings.text "table") document) ∨
      Malformed decode settings fs := by
    by_cases hpath : settings.text "table" = []
    · exact .inl ⟨_, .nowhere hpath⟩
    cases hread : fs.read (settings.text "table") with
    | error e => exact .inr (.unreadable hpath hread)
    | ok content =>
      cases hcontent : decode content with
      | fault e => exact .inr (.document hpath hread hcontent)
      | absent => exact .inl ⟨_, .absent hpath hread hcontent⟩
      | document document => exact .inl ⟨document, .file hpath hread hcontent⟩
  have hpairs (name : String) (hname : name ∈ ["function", "operator", "letter"]) :
      (∃ pairs, KeyValue.pairs (settings.text name) = some pairs) ∨
        Malformed decode settings fs := by
    cases h : KeyValue.pairs (settings.text name) with
    | none => exact .inr (.definitions hname h)
    | some pairs => exact .inl ⟨pairs, rfl⟩
  rcases hdocument with ⟨document, hdocument⟩ | h
  · rcases hpairs "function" (by simp) with ⟨functions, hfunctions⟩ | h
    · rcases hpairs "operator" (by simp) with ⟨operators, hoperators⟩ | h
      · rcases hpairs "letter" (by simp) with ⟨letters, hletters⟩ | h
        · exact .inl ⟨⟨document, functions, operators, letters⟩,
            hdocument, hfunctions, hoperators, hletters⟩
        · exact .inr h
      · exact .inr h
    · exact .inr h
  · exact .inr h

/-- **A name has its meaning from the uppermost layer that mentions it.**  Let documents be
decoded in any way.  If the document and the three settings can be read, there is a table, and
it defines a name as the first of these does: the letters, operators and functions of the
settings, of which the last pair with the name counts, the spaces, letters, operators and
functions of the document, the builtin commands.  A name that none of them mentions is not
defined.  The table is the same for every order in which the entries of these maps are written
to it.  If the document or one of the settings is malformed, there is no table. -/
theorem loadTable_layers (decode : Bytes → Table.Decoded Bytes) (settings : Options)
    (fs : Files) :
    (∀ p, Gives decode settings fs p → ∃ t, loadTable decode settings fs = .ok t ∧
      (∀ name, t.lookup name = p.layers.findSome? fun layer => layer name) ∧
      ∀ order, Reordered p.sections order → replay order = t) ∧
    (Malformed decode settings fs → ∃ e, loadTable decode settings fs = .error e) ∧
    ((∃ p, Gives decode settings fs p) ∨ Malformed decode settings fs) := by
  refine ⟨?_, ?_, gives_or_malformed decode settings fs⟩
  · intro p hp
    refine ⟨_, hp.loadTable_eq, fun name => ?_, fun order horder => ?_⟩
    · rw [Table.lookup_replay, Dictionary.lastWrite?_flatten, p.findSome?_sections]
    · exact Dictionary.insertAll_reordered horder p.nodup_of_mem_sections Table.empty
  · intro h
    cases hload : loadTable decode settings fs with
    | error e => exact ⟨e, rfl⟩
    | ok t => exact absurd hload (h.loadTable_ne t)

/-- The name `sin` is a space of the document and a letter of the command line, twice; `xor`
is an operator of the command line and a function of the document.  With a quote that is
not closed there is no table, nor with another document. -/
theorem loadTable_layers_sin :
    let content := utf8 "functions:\n  xor: xor\n  gd: gd\nspaces:\n  sin: 2\n"
    let document : Table.Document :=
      { functions := Dictionary.empty.insertAll [(utf8 "xor", utf8 "xor"), (utf8 "gd", utf8 "gd")],
        spaces := Dictionary.empty.insert (utf8 "sin") (.ofThousandths 2000) }
    let decode (s : Bytes) : Table.Decoded Bytes :=
      if s == content then .document document else .fault (utf8 "yaml: did not find expected key")
    let files (text : Bytes) : Files := Files.addFile {} (utf8 "t.yaml") text
    let flags (letters : String) : Options :=
      options
        { flags := Dictionary.empty.insertAll
            [(utf8 "table", .ofText (utf8 "t.yaml")), (utf8 "operator", .ofText (utf8 "xor=⊻")),
              (utf8 "letter", .ofText (utf8 letters))] }
    (∃ t, loadTable decode (flags "sin=s, sin='σ'") (files content) = .ok t ∧
      ["sin", "xor", "gd", "cos", "coz"].map (fun name => t.lookup (utf8 name)) =
        [some (.letter (utf8 "σ")), some (.operator (utf8 "⊻")), some (.function (utf8 "gd")),
          some (.function (utf8 "cos")), none]) ∧
    (∃ e, loadTable decode (flags "sin='σ") (files content) = .error e) ∧
    ∃ e, loadTable decode (flags "") (files (utf8 "spaces: [")) = .error e := by
  intro content document decode files flags
  refine ⟨?_, ?_, ?_⟩
  · let operators := [(utf8 "xor", utf8 "⊻")]
    let letters := [(utf8 "sin", utf8 "s"), (utf8 "sin", utf8 "σ")]
    -- What the layers above the builtin commands say.
    have hupper : ["sin", "xor", "gd", "cos", "coz"].map (fun name =>
        (Sources.mk document [] operators letters).given.findSome? fun layer => layer (utf8 name)) =
        [some (.letter (utf8 "σ")), some (.operator (utf8 "⊻")), some (.function (utf8 "gd")), none,
          none] := by
      decide +kernel
    have hbuiltin : ["cos", "coz"].map (fun name => Table.builtin.lookup (utf8 name)) =
        [some (.function (utf8 "cos")), none] := by
      simp only [Table.builtin_eq, Table.lookup_replay]
      decide +kernel
    have hfunctions : KeyValue.pairs ((flags "sin=s, sin='σ'").text "function") = some [] := by
      decide +kernel
    have hoperators : KeyValue.pairs ((flags "sin=s, sin='σ'").text "operator") =
        some operators := by decide +kernel
    have hletters : KeyValue.pairs ((flags "sin=s, sin='σ'").text "letter") = some letters := by
      decide +kernel
    have hgives : Gives decode (flags "sin=s, sin='σ'") (files content)
        ⟨document, [], operators, letters⟩ :=
      ⟨.file (by decide +kernel) rfl (if_pos (beq_self_eq_true content)), hfunctions, hoperators,
        hletters⟩
    obtain ⟨hloads, -, -⟩ := loadTable_layers decode (flags "sin=s, sin='σ'") (files content)
    obtain ⟨t, ht, hlookup, -⟩ := hloads _ hgives
    simp only [List.map_cons, List.map_nil, List.cons.injEq] at hupper hbuiltin
    obtain ⟨hsin, hxor, hgd, hcos, hcoz, -⟩ := hupper
    refine ⟨t, ht, ?_⟩
    simp only [List.map_cons, List.map_nil, hlookup, Sources.findSome?_layers, hsin, hxor, hgd,
      hcos, hcoz, hbuiltin, Option.some_or, Option.none_or]
  · have hpairs : KeyValue.pairs ((flags "sin='σ").text "letter") = none := by decide +kernel
    obtain ⟨-, hmalformed, -⟩ := loadTable_layers decode (flags "sin='σ") (files content)
    exact hmalformed (.definitions (by decide) hpairs)
  · have hother : ¬ (utf8 "spaces: [" == content) = true := by decide +kernel
    obtain ⟨-, hmalformed, -⟩ := loadTable_layers decode (flags "") (files (utf8 "spaces: ["))
    exact hmalformed (.document (by decide +kernel) rfl (if_neg hother))

end CommandLine

end MathMarkup
