/-
MathMarkup/Proofs/Converting.lean

The command `convert` compiles all sources or does nothing.

`Selects` tells which sources a run is about, and `deliver` is the part of the command
behind compiling: from the result for the whole batch it makes the outcome.  Since the
result is passed to it, one statement covers all ways to compile a batch, several sources
at a time or one after the other.  `Converted` is what has to come of it.  If a source
fails, the outcome is a message and nothing else.  If all of them compile, there is a
line of markup for each, and the lines go to files or to standard output, in order.
-/
import MathMarkup.CommandLine.Run
import MathMarkup.Proofs.Legality
import MathMarkup.Proofs.Schedule

namespace MathMarkup

namespace CommandLine

/-! ### Sources -/

/-- The batch that a run is about: expressions, or standard input if there are none, or
the files that match a pattern with what they contain. -/
inductive Selects (glob : Files → Bytes → Option (List Bytes)) (inv : Invocation)
    (pattern : Bytes) (expressions : List Bytes) : Batch → Prop
  | expressions : pattern = [] → expressions ≠ [] →
      Selects glob inv pattern expressions { sources := expressions }
  | input : pattern = [] → expressions = [] →
      Selects glob inv pattern expressions { sources := [inv.input] }
  | files {files sources : List Bytes} : pattern ≠ [] → glob inv.files pattern = some files →
      files.map inv.files.read = sources.map Except.ok →
      Selects glob inv pattern expressions { sources, files }

theorem readSources_eq_ok {fs : Files} {paths sources : List Bytes}
    (h : paths.map fs.read = sources.map Except.ok) : readSources fs paths = .ok sources := by
  induction paths generalizing sources with
  | nil =>
    obtain rfl := List.map_eq_nil_iff.mp h.symm
    rfl
  | cons path paths ih =>
    obtain ⟨source, sources, rfl, hsource, hsources⟩ := List.map_eq_cons_iff.mp h.symm
    rw [readSources, ← hsource, ih hsources.symm]
    rfl

section

variable {glob : Files → Bytes → Option (List Bytes)} {inv : Invocation} {pattern : Bytes}
  {expressions : List Bytes} {batch : Batch}

theorem Selects.gather_eq (h : Selects glob inv pattern expressions batch) :
    gather glob inv pattern expressions = .ok batch := by
  cases h with
  | expressions hpattern hne =>
    have hexpressions : expressions.isEmpty = false := List.isEmpty_eq_false_iff.mpr hne
    simp only [gather, hpattern, List.isEmpty_nil, hexpressions]
    rfl
  | input hpattern hnil =>
    simp only [gather, hpattern, hnil, List.isEmpty_nil]
    rfl
  | files hne hglob hread =>
    have hpattern : pattern.isEmpty = false := List.isEmpty_eq_false_iff.mpr hne
    simp only [gather, hpattern, hglob, readSources_eq_ok hread]
    rfl

/-- Without a pattern there are no files. -/
theorem Selects.files_eq_nil (h : Selects glob inv pattern expressions batch)
    (hpattern : pattern = []) : batch.files = [] := by
  cases h with
  | expressions | input => rfl
  | files hne _ _ => exact absurd hpattern hne

/-- With a pattern there is a file for each source. -/
theorem Selects.length_files (h : Selects glob inv pattern expressions batch) (hne : pattern ≠ []) :
    batch.files.length = batch.sources.length := by
  cases h with
  | expressions hpattern _ | input hpattern _ => exact absurd hpattern hne
  | files _ _ hread => simpa only [List.length_map] using congrArg List.length hread

end

/-! ### Writing -/

/-- Lines without a file go to standard output. -/
theorem emit_output (fs : Files) (o : Outcome) (lines : List Bytes) :
    emit fs o ((List.replicate lines.length none).zip lines) =
      { o with output := o.output ++ lines.flatten } := by
  induction lines generalizing o with
  | nil =>
    show o = { o with output := o.output ++ [] }
    rw [List.append_nil]
  | cons line lines ih =>
    rw [List.length_cons, List.replicate_succ, List.zip_cons_cons, emit, ih, List.flatten_cons,
      List.append_assoc]

/-- Lines with a file go to that file, as long as it can be written. -/
theorem emit_written {fs : Files} {paths lines : List Bytes} (o : Outcome)
    (h : ∀ path ∈ paths, fs.writeFault? path = none) :
    emit fs o ((paths.map some).zip lines) =
      { o with written := o.written ++ paths.zip lines } := by
  induction paths generalizing o lines with
  | nil =>
    show o = { o with written := o.written ++ [] }
    rw [List.append_nil]
  | cons path paths ih =>
    cases lines with
    | nil =>
      show o = { o with written := o.written ++ [] }
      rw [List.append_nil]
    | cons line lines =>
      obtain ⟨hpath, hpaths⟩ := List.forall_mem_cons.mp h
      rw [List.map_cons, List.zip_cons_cons, emit, hpath]
      show emit fs { o with written := o.written ++ [(path, line)] } _ = _
      rw [ih _ hpaths, List.zip_cons_cons, List.append_assoc]
      rfl

/-- Without files, or if none are to be written, everything goes to standard output. -/
theorem targets_eq_replicate {write : Bool} {batch : Batch}
    (h : write = false ∨ batch.files = []) :
    targets write batch = List.replicate batch.sources.length none := by
  rw [targets, List.eq_replicate_iff]
  refine ⟨by rw [List.length_map, List.length_range], ?_⟩
  intro target htarget
  obtain ⟨i, -, rfl⟩ := List.mem_map.mp htarget
  obtain rfl | hfiles := h
  · rfl
  · rw [hfiles]
    cases write <;> rfl

/-- With a file for each source, the markup of each goes to a file next to it. -/
theorem targets_eq_files {batch : Batch} (h : batch.files.length = batch.sources.length) :
    targets true batch = (batch.files.map markupPath).map some := by
  apply List.ext_getElem?
  intro i
  rw [targets, ← h, List.getElem?_map, List.getElem?_map, List.getElem?_map]
  obtain hlt | hle := Nat.lt_or_ge i batch.files.length
  · rw [List.getElem?_range hlt, Option.map_some, List.getElem?_eq_getElem hlt]
    rfl
  · rw [List.getElem?_eq_none hle, List.getElem?_eq_none (by rwa [List.length_range])]
    rfl

/-! ### Converting -/

/-- The outcome for a batch, from what has come of compiling its sources. -/
def deliver (fs : Files) (display write : Bool) (batch : Batch) :
    Except Error (List Markup) → Outcome
  | .error e => .failure (compileMessage batch.files e)
  | .ok markups =>
    emit fs {} ((targets write batch).zip (markups.map fun m =>
      (if display then m.withDisplay .block else m).render ++ utf8 "\n"))

theorem convertBatch_eq (table : Table) (fs : Files) (display write : Bool) (batch : Batch) :
    convertBatch table fs display write batch =
      deliver fs display write batch (compileAll table batch.sources) := by
  rw [convertBatch]
  cases compileAll table batch.sources <;> rfl

/-- Sources compile to roots that are shown in a line. -/
theorem exists_contents {table : Table} {sources : List Bytes} {ms : List Markup}
    (h : ms.map Except.ok = sources.map (compile table)) :
    ∃ contents : List (List Markup), ms = contents.map (Markup.root .inline) := by
  induction sources generalizing ms with
  | nil => exact ⟨[], List.map_eq_nil_iff.mp h⟩
  | cons source sources ih =>
    obtain ⟨m, ms, rfl, hm, hms⟩ := List.map_eq_cons_iff.mp h
    obtain ⟨contents, rfl⟩ := ih hms
    obtain ⟨content, rfl, -⟩ := exists_root_of_compile (T := fun _ => True) Lowering.keeps_true
      (fun _ _ => trivial) hm.symm
    exact ⟨content :: contents, rfl⟩

/-- What has to come of converting a batch.  If a source fails, there is a message about
one that does, about the first one if `first` is the case, and nothing else.  If all
sources compile and files can be written, there is a line for each source, all in files
next to those the sources come from or else all on standard output. -/
structure Converted (fs : Files) (table : Table) (glob display write : Bool) (batch : Batch)
    (first : Prop) (o : Outcome) : Prop where
  failed : (∃ source ∈ batch.sources, ∃ e, compile table source = .error e) →
    o.code = 1 ∧ o.output = [] ∧ o.written = [] ∧
      ∃ (i : Nat) (source : Bytes) (e : Error), batch.sources[i]? = some source ∧
        compile table source = .error e ∧
        (first → ∀ j < i, ∃ source m, batch.sources[j]? = some source ∧
          compile table source = .ok m) ∧
        if glob then ∃ path, batch.files[i]? = some path ∧
          o.message = path ++ utf8 ": " ++ e.message
        else o.message = (Error.source i e).message
  done : (∀ source ∈ batch.sources, ∃ m, compile table source = .ok m) →
    (write = true → ∀ path ∈ batch.files, fs.writeFault? (markupPath path) = none) →
    o.code = 0 ∧ o.message = [] ∧
      ∃ contents : List (List Markup),
        batch.sources.map (compile table) = contents.map (fun ms => .ok (.root .inline ms)) ∧
        let lines := contents.map fun ms =>
          (Markup.root (if display then .block else .inline) ms).render ++ utf8 "\n"
        if glob && write then
          o.output = [] ∧ o.written = (batch.files.map markupPath).zip lines
        else o.output = lines.flatten ∧ o.written = []

section

variable {glob : Files → Bytes → Option (List Bytes)} {inv : Invocation} {pattern : Bytes}
  {expressions : List Bytes} {batch : Batch}

/-- The message about a source tells the file that it comes from, if there is a pattern. -/
theorem Selects.compileMessage_eq (h : Selects glob inv pattern expressions batch) {i : Nat}
    {source : Bytes} (hsource : batch.sources[i]? = some source) (e : Error) :
    if !pattern.isEmpty then ∃ path, batch.files[i]? = some path ∧
      compileMessage batch.files (.source i e) = path ++ utf8 ": " ++ e.message
    else compileMessage batch.files (.source i e) = (Error.source i e).message := by
  by_cases hpattern : pattern = []
  · rw [h.files_eq_nil hpattern, hpattern]
    rfl
  · have hlt : i < batch.files.length := by
      rw [h.length_files hpattern]
      exact (List.getElem?_eq_some_iff.mp hsource).1
    have hpath : batch.files[i]? = some batch.files[i] := List.getElem?_eq_getElem hlt
    rw [List.isEmpty_eq_false_iff.mpr hpattern]
    refine ⟨_, hpath, ?_⟩
    simp only [compileMessage, Int.toNat_natCast, hpath]

/-- The lines for the sources of a batch all go to one place. -/
theorem Selects.emit_eq (h : Selects glob inv pattern expressions batch) {write : Bool}
    {lines : List Bytes} (hlines : lines.length = batch.sources.length)
    (hfree : write = true → ∀ path ∈ batch.files, inv.files.writeFault? (markupPath path) = none) :
    emit inv.files {} ((targets write batch).zip lines) =
      if !pattern.isEmpty && write then { written := (batch.files.map markupPath).zip lines }
      else { output := lines.flatten } := by
  by_cases hpattern : pattern = []
  · rw [targets_eq_replicate (.inr (h.files_eq_nil hpattern)), ← hlines, emit_output, hpattern]
    rfl
  · rw [List.isEmpty_eq_false_iff.mpr hpattern]
    cases write with
    | false =>
      rw [targets_eq_replicate (.inl rfl), ← hlines, emit_output]
      rfl
    | true =>
      rw [targets_eq_files (h.length_files hpattern), emit_written]
      · rfl
      · exact List.forall_mem_map.mpr (hfree rfl)

/-- Whatever order tasks take their steps in, what is delivered is all or nothing. -/
theorem Selects.converted (h : Selects glob inv pattern expressions batch) {table : Table}
    {jobs : Int} {results : Except Error (List Markup)}
    (hresults : Workload.Yields ⟨table, batch.sources, jobs⟩ false results)
    (display write : Bool) :
    Converted inv.files table (!pattern.isEmpty) display write batch (jobs = 1)
      (deliver inv.files display write batch results) where
  failed hfails := by
    obtain ⟨i, source, e, hsource, he, rfl, hbefore⟩ := hresults.eq_error hfails
    refine ⟨rfl, rfl, rfl, i, source, e, hsource, he, ?_, h.compileMessage_eq hsource e⟩
    intro hjobs j hj
    obtain ⟨m, source', hsource', hm⟩ := hbefore hjobs j hj
    exact ⟨source', m, hsource', hm⟩
  done hall hfree := by
    obtain ⟨ms, rfl, hms⟩ := hresults.eq_ok hall
    obtain ⟨contents, rfl⟩ := exists_contents hms
    have hlines : (contents.map (Markup.root .inline)).map (fun m =>
        (if display then m.withDisplay .block else m).render ++ utf8 "\n") =
        contents.map fun ms =>
          (Markup.root (if display then .block else .inline) ms).render ++ utf8 "\n" := by
      rw [List.map_map]
      cases display <;> rfl
    have hlength : contents.length = batch.sources.length := by
      simpa only [List.length_map] using congrArg List.length hms
    rw [deliver, hlines, h.emit_eq (by rwa [List.length_map]) hfree]
    rw [List.map_map] at hms
    cases !pattern.isEmpty && write with
    | true => exact ⟨rfl, rfl, contents, hms.symm, rfl, rfl⟩
    | false => exact ⟨rfl, rfl, contents, hms.symm, rfl, rfl⟩

end

/-- The command is all or nothing, whatever its readers are.  Let a run ask for `convert`
with a table that can be loaded and sources that can be read.  If one of the sources does
not compile, the code is 1 and nothing is written anywhere; with a pattern, the message
tells the first file that does not compile, and why.  If all sources compile, and files
can be written, the code is 0 and there is a line for each source in their order, with the
markup of its source as a block if that is asked for and else in a line: each in a file
next to its source with a pattern and `write`, and all on standard output without.  The
same is true for each way to compile several sources at a time, but for which failing file
the message is about. -/
theorem run_convert_all_or_nothing (readers : Readers) (inv : Invocation) (r : Request)
    (table : Table) (batch : Batch) (hrequest : readers.request inv = .ok (some r))
    (hcommand : r.command = .convert)
    (htable : loadTable readers.document r.settings inv.files = .ok table)
    (hbatch : Selects readers.glob inv (r.settings.text "glob") r.expressions batch) :
    let glob := !(r.settings.text "glob").isEmpty
    let display := r.settings.isTrue "display"
    let write := r.settings.isTrue "write"
    Converted inv.files table glob display write batch True (runWith readers inv) ∧
      ∀ jobs results, Workload.Yields ⟨table, batch.sources, jobs⟩ false results →
        Converted inv.files table glob display write batch (jobs = 1)
          (deliver inv.files display write batch results) := by
  intro glob display write
  refine ⟨?_, fun jobs results hresults => hbatch.converted hresults display write⟩
  have hrun : runWith readers inv =
      deliver inv.files display write batch (compileAll table batch.sources) := by
    simp only [runWith, hrequest, hcommand, convert, htable, hbatch.gather_eq, convertBatch_eq]
    rfl
  have hresults := Workload.yields_compileUnless ⟨table, batch.sources, 1⟩ false
  have hconverted := hbatch.converted hresults display write
  rw [eq_self] at hconverted
  rw [hrun]
  exact hconverted

/-- Of two files the second one does not compile, also with four jobs; the first one alone
is converted. -/
theorem run_convert_all_or_nothing_files :
    let fs := (Files.addFile {} (utf8 "a.t") (utf8 "x")).addFile (utf8 "b.t") (utf8 "\x7d")
    let both : Invocation :=
      { arguments := ["convert", "--glob", "*.t", "--write"].map utf8, files := fs }
    let one : Invocation :=
      { arguments := ["convert", "--glob", "a.*", "--write", "--display"].map utf8, files := fs }
    let batch : Batch :=
      { sources := [utf8 "x", utf8 "\x7d"], files := [utf8 "a.t", utf8 "b.t"] }
    ((run both).code = 1 ∧ (run both).output = [] ∧ (run both).written = [] ∧
      (run both).message = utf8 "b.t: offset 0: expected expression, got \x7d" ∧
      ∃ table results, Workload.Yields ⟨table, batch.sources, 4⟩ false results ∧
        (deliver fs false true batch results).code = 1) ∧
    (run one).code = 0 ∧ (run one).message = [] ∧ (run one).output = [] ∧
      (run one).written = [(utf8 "a.t.mml", utf8 ("<math xmlns=" ++
        "\"http://www.w3.org/1998/Math/MathML\" display=\"block\"><mi>x</mi></math>\n"))] := by
  intro fs both one batch
  have hx : ∀ table, compile table (utf8 "x") =
      .ok (.root .inline [.identifier (utf8 "x") .italic]) := by
    intro table
    with_unfolding_all rfl
  have hbrace : ∀ table, compile table (utf8 "\x7d") =
      .error (.unexpected (utf8 "expression") (utf8 "\x7d") 0) := by
    intro table
    with_unfolding_all rfl
  constructor
  · obtain ⟨r, hrequest, hcommand, hloads, hglob, hdisplay, hwrite⟩ :
        ∃ r, request both = .ok (some r) ∧ r.command = .convert ∧
          (loadTable Readers.standard.document r.settings fs).isOk = true ∧
          r.settings.text "glob" = utf8 "*.t" ∧ r.settings.isTrue "display" = false ∧
          r.settings.isTrue "write" = true :=
      ⟨_, rfl, rfl, by decide +kernel, by decide +kernel, by decide +kernel, by decide +kernel⟩
    obtain ⟨table, htable⟩ := exists_ok_of_isOk hloads
    have hbatch : Selects Files.glob both (r.settings.text "glob") r.expressions batch := by
      rw [hglob]
      exact .files (by decide) (by decide +kernel) rfl
    have hfails : ∃ source ∈ batch.sources, ∃ e, compile table source = .error e :=
      ⟨_, .tail _ (.head _), _, hbrace table⟩
    obtain ⟨⟨hfailed, -⟩, hjobs⟩ :=
      run_convert_all_or_nothing .standard both r table _ hrequest hcommand htable hbatch
    obtain ⟨hcode, houtput, hwritten, i, source, e, hsource, he, -, hmessage⟩ := hfailed hfails
    have hyields := Workload.yields_compileUnless ⟨table, batch.sources, 4⟩ false
    have hfour := ((hjobs 4 _ hyields).failed hfails).1
    rw [hdisplay, hwrite] at hfour
    refine ⟨hcode, houtput, hwritten, ?_, table, _, hyields, hfour⟩
    rw [hglob] at hmessage
    obtain ⟨path, hpath, hmessage⟩ := hmessage
    -- Only the second source can be the one that fails.
    rcases i with _ | _ | i
    · obtain rfl := Option.some.inj hsource
      rw [hx] at he
      cases he
    · obtain rfl := Option.some.inj hsource
      obtain rfl := Option.some.inj hpath
      rw [hbrace] at he
      obtain rfl := Except.error.inj he
      exact hmessage.trans (by decide +kernel)
    · cases hsource
  · obtain ⟨r, hrequest, hcommand, hloads, hglob, hdisplay, hwrite⟩ :
        ∃ r, request one = .ok (some r) ∧ r.command = .convert ∧
          (loadTable Readers.standard.document r.settings fs).isOk = true ∧
          r.settings.text "glob" = utf8 "a.*" ∧ r.settings.isTrue "display" = true ∧
          r.settings.isTrue "write" = true :=
      ⟨_, rfl, rfl, by decide +kernel, by decide +kernel, by decide +kernel, by decide +kernel⟩
    obtain ⟨table, htable⟩ := exists_ok_of_isOk hloads
    have hbatch : Selects Files.glob one (r.settings.text "glob") r.expressions
        { sources := [utf8 "x"], files := [utf8 "a.t"] } := by
      rw [hglob]
      exact .files (by decide) (by decide +kernel) rfl
    obtain ⟨⟨-, hdone⟩, -⟩ :=
      run_convert_all_or_nothing .standard one r table _ hrequest hcommand htable hbatch
    obtain ⟨hcode, hmessage, contents, hcontents, hlines⟩ := hdone
      (List.forall_mem_singleton.mpr ⟨_, hx table⟩)
      (fun _ => List.forall_mem_singleton.mpr (by decide +kernel))
    refine ⟨hcode, hmessage, ?_⟩
    rw [hglob, hdisplay, hwrite] at hlines
    obtain ⟨content, _, rfl, hcontent, hnil⟩ := List.map_eq_cons_iff.mp hcontents.symm
    obtain rfl := List.map_eq_nil_iff.mp hnil
    rw [hx] at hcontent
    obtain rfl := (Markup.root.inj (Except.ok.inj hcontent)).2
    refine ⟨hlines.1, hlines.2.trans ?_⟩
    decide +kernel

end CommandLine

end MathMarkup
