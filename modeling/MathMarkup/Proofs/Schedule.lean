/-
MathMarkup/Proofs/Schedule.lean

Compiling several sources at the same time.  There is one task for each source.  Tasks
are started in order, and with a limit only while fewer than that many are running.  A
task looks whether the batch was called off, compiles its source, and either puts away
the markup or reports an error.  The first error reported is kept, and only then is the
batch called off; an error reported later has to wait for that and is dropped.  The
result is there when all tasks are done: the error, or else all the markup.

`Step` has a rule for everything that a task does with what the tasks share, so a run is
an interleaving of tasks, and `Steps` are all runs.  What is true in the middle of a run
is `Sound`, one condition for each phase of a task and one for the error that was kept:
it blames a source that does fail, unless the batch was called off from the start.  For
runs with one task at a time there is `Serial` in addition.  Both are kept by a step.

Every run comes to an end, since each step leaves less to do (`todo_lt_of_step`) and as
long as there is no result there is a step (`exists_step`).
-/
import MathMarkup.Compile

namespace MathMarkup

/-! ### One source after the other -/

theorem compileFrom_eq_ok {table : Table} {sources : List Bytes} {ms : List Markup}
    (h : ms.map Except.ok = sources.map (compile table)) (index : Nat) :
    compileFrom table index sources = .ok ms := by
  induction sources generalizing index ms with
  | nil =>
    obtain rfl := List.map_eq_nil_iff.mp h
    rfl
  | cons source sources ih =>
    obtain ⟨m, ms, rfl, hm, hms⟩ := List.map_eq_cons_iff.mp h
    rw [compileFrom, ← hm, ih hms]

/-- The error is that of the first source that fails. -/
theorem compileFrom_eq_error {table : Table} {sources : List Bytes} {i : Nat} {source : Bytes}
    {cause : Error} (hsource : sources[i]? = some source)
    (hcause : compile table source = .error cause)
    (hbefore : ∀ j < i, ∃ source m, sources[j]? = some source ∧ compile table source = .ok m)
    (index : Nat) : compileFrom table index sources = .error (.source (index + i : Nat) cause) := by
  induction sources generalizing index i with
  | nil => cases hsource
  | cons source' sources ih =>
    cases i with
    | zero =>
      obtain rfl := Option.some.inj hsource
      rw [compileFrom, hcause]
      rfl
    | succ i =>
      obtain ⟨_, m, heq, hm⟩ := hbefore 0 (Nat.succ_pos i)
      obtain rfl := Option.some.inj heq
      have hrest := ih hsource (fun j hj => hbefore (j + 1) (Nat.succ_lt_succ hj)) (index + 1)
      rw [compileFrom, hm, hrest, Nat.add_right_comm, Nat.add_assoc]

/-! ### Tasks -/

/-- What a task is about to do. -/
inductive Phase
  /-- Look whether the batch was called off. -/
  | ready
  | compiling
  /-- Put away the markup of its source. -/
  | storing (m : Markup)
  /-- Report an error. -/
  | failing (e : Error)
  /-- Call off the batch, since its error was the first one. -/
  | canceling
  | done

/-- Whether there is something left to do for a task. -/
def Phase.isRunning : Phase → Bool
  | .done => false
  | _ => true

/-- How many steps a task has left at most. -/
def Phase.left : Phase → Nat
  | .ready => 4
  | .compiling => 3
  | .failing _ => 2
  | .storing _ | .canceling => 1
  | .done => 0

/-- How many steps several tasks have left at most. -/
def Phase.leftAll : List Phase → Nat
  | [] => 0
  | p :: ps => p.left + leftAll ps

/-- Sources that are compiled with a table, at most `limit` at a time; there is no limit
if it is not positive. -/
structure Workload where
  table : Table
  sources : List Bytes
  limit : Int

/-- How far a batch has come: the tasks that were started, in order, the markup that was
put away, the error that was kept, and whether the batch was called off. -/
structure Progress where
  tasks : List Phase
  results : List Markup
  error : Option Error
  canceled : Bool

namespace Progress

/-- How many tasks are running. -/
def running (s : Progress) : Nat :=
  s.tasks.countP Phase.isRunning

/-- A task goes over to another phase. -/
def goTo (s : Progress) (i : Nat) (p : Phase) : Progress :=
  { s with tasks := s.tasks.set i p }

end Progress

namespace Workload

/-- The beginning, with the batch called off already or not. -/
def start (w : Workload) (canceled : Bool) : Progress :=
  ⟨[], List.replicate w.sources.length .missing, none, canceled⟩

/-- Whether one more task may run. -/
def HasRoom (w : Workload) (s : Progress) : Prop :=
  w.limit ≤ 0 ∨ (s.running : Int) < w.limit

/-- What can happen next. -/
inductive Step (w : Workload) (s : Progress) : Progress → Prop
  | start : s.tasks.length < w.sources.length → w.HasRoom s →
      Step w s { s with tasks := s.tasks ++ [.ready] }
  | begin {i : Nat} : s.tasks[i]? = some .ready → s.canceled = false →
      Step w s (s.goTo i .compiling)
  | giveUp {i : Nat} : s.tasks[i]? = some .ready → s.canceled = true →
      Step w s (s.goTo i (.failing .canceled))
  | compile {i : Nat} {source : Bytes} {m : Markup} : s.tasks[i]? = some .compiling →
      w.sources[i]? = some source → compile w.table source = .ok m →
      Step w s (s.goTo i (.storing m))
  | fail {i : Nat} {source : Bytes} {e : Error} : s.tasks[i]? = some .compiling →
      w.sources[i]? = some source → compile w.table source = .error e →
      Step w s (s.goTo i (.failing (.source i e)))
  | store {i : Nat} {m : Markup} : s.tasks[i]? = some (.storing m) →
      Step w s { s.goTo i .done with results := s.results.set i m }
  -- Keeping an error and calling off the batch are two steps: others can look in between.
  | keep {i : Nat} {e : Error} : s.tasks[i]? = some (.failing e) → s.error = none →
      Step w s { s.goTo i .canceling with error := some e }
  | drop {i : Nat} {e : Error} : s.tasks[i]? = some (.failing e) → s.error.isSome = true →
      .canceling ∉ s.tasks → Step w s (s.goTo i .done)
  | cancel {i : Nat} : s.tasks[i]? = some .canceling →
      Step w s { s.goTo i .done with canceled := true }

/-- Runs of some number of steps. -/
inductive Steps (w : Workload) : Nat → Progress → Progress → Prop
  | refl (s : Progress) : Steps w 0 s s
  | tail {k : Nat} {s s' s'' : Progress} : Steps w k s s' → w.Step s' s'' →
      Steps w (k + 1) s s''

/-- What is true at first and kept by every step is true at the end of a run. -/
theorem Steps.invariant {w : Workload} {P : Progress → Prop}
    (hstep : ∀ s s', P s → w.Step s s' → P s') {k : Nat} {s s' : Progress}
    (h : w.Steps k s s') (hs : P s) : P s' := by
  induction h with
  | refl => exact hs
  | tail _ hlast ih => exact hstep _ _ (ih hs) hlast

/-- The result, if all tasks are done. -/
def result? (w : Workload) (s : Progress) : Option (Except Error (List Markup)) :=
  if s.tasks.length = w.sources.length ∧ s.running = 0 then
    some (match s.error with
      | some e => .error e
      | none => .ok s.results)
  else none

/-! ### What is true in the middle of a run -/

/-- An error that blames a source for not compiling. -/
def Blames (w : Workload) (e : Error) (i : Nat) : Prop :=
  ∃ source cause, w.sources[i]? = some source ∧ compile w.table source = .error cause ∧
    e = .source i cause

/-- The markup of a source. -/
def Compiles (w : Workload) (i : Nat) (m : Markup) : Prop :=
  ∃ source, w.sources[i]? = some source ∧ compile w.table source = .ok m

/-- The errors that can be kept, if the batch was called off from the start or not. -/
def ErrorSound (w : Workload) : (canceled : Bool) → Error → Prop
  | true, e => e = .canceled ∧ w.sources ≠ []
  | false, e => ∃ i, w.Blames e i

/-- What is true of a task in a phase, if the batch was called off from the start or
not. -/
def PhaseSound (w : Workload) (canceled : Bool) (s : Progress) (i : Nat) : Phase → Prop
  | .ready => True
  | .compiling => canceled = false
  | .storing m => canceled = false ∧ w.Compiles i m
  | .failing e => (canceled = false ∧ w.Blames e i) ∨ (e = .canceled ∧ s.canceled = true)
  | .canceling => s.error.isSome = true
  | .done => s.error.isSome = true ∨
      (canceled = false ∧ ∃ m, w.Compiles i m ∧ s.results[i]? = some m)

/-- What is true in the middle of a run. -/
structure Sound (w : Workload) (canceled : Bool) (s : Progress) : Prop where
  tasks_le : s.tasks.length ≤ w.sources.length
  length_results : s.results.length = w.sources.length
  phase : ∀ i p, s.tasks[i]? = some p → w.PhaseSound canceled s i p
  error : ∀ e, s.error = some e → w.ErrorSound canceled e
  canceled_of_start : canceled = true → s.canceled = true
  error_of_canceled : s.canceled = true → canceled = true ∨ s.error.isSome = true

variable {w : Workload} {canceled : Bool} {s s' : Progress}

theorem getElem?_set_cases {α : Type} {l : List α} {i j : Nat} {a b : α}
    (h : (l.set i a)[j]? = some b) : (j = i ∧ b = a) ∨ l[j]? = some b := by
  by_cases hij : i = j
  · subst hij
    rw [List.getElem?_set_self'] at h
    obtain ⟨c, -, rfl⟩ := Option.map_eq_some_iff.mp h
    exact .inl ⟨rfl, rfl⟩
  · rw [List.getElem?_set_ne hij] at h
    exact .inr h

theorem getElem?_append_cases {α : Type} {l : List α} {i : Nat} {a b : α}
    (h : (l ++ [a])[i]? = some b) : l[i]? = some b ∨ (i = l.length ∧ b = a) := by
  obtain hlt | hle := Nat.lt_or_ge i l.length
  · rw [List.getElem?_append_left hlt] at h
    exact .inl h
  · rw [List.getElem?_append_right hle, List.getElem?_singleton] at h
    split at h
    · exact .inr ⟨by omega, (Option.some.inj h).symm⟩
    · cases h

/-- At the start nothing has happened. -/
theorem sound_start (w : Workload) (canceled : Bool) : w.Sound canceled (w.start canceled) where
  tasks_le := Nat.zero_le _
  length_results := List.length_replicate
  phase i p h := by cases h
  error e h := by cases h
  canceled_of_start h := h
  error_of_canceled h := .inl h

namespace Sound

/-- There is a source for every task. -/
theorem lt_sources (h : w.Sound canceled s) {i : Nat} {p : Phase} (hi : s.tasks[i]? = some p) :
    i < w.sources.length :=
  Nat.lt_of_lt_of_le (List.getElem?_eq_some_iff.mp hi).1 h.tasks_le

/-- A task may go over to a phase as soon as the condition of that phase is met. -/
theorem goTo (h : w.Sound canceled s) {i : Nat} {p : Phase} (hp : w.PhaseSound canceled s i p) :
    w.Sound canceled (s.goTo i p) where
  tasks_le := by
    rw [Progress.goTo, List.length_set]
    exact h.tasks_le
  length_results := h.length_results
  phase j q hq := by
    obtain ⟨rfl, rfl⟩ | hq := getElem?_set_cases hq
    · exact hp
    · exact h.phase j q hq
  error := h.error
  canceled_of_start := h.canceled_of_start
  error_of_canceled := h.error_of_canceled

/-- One more task is started. -/
theorem started (h : w.Sound canceled s) (hlt : s.tasks.length < w.sources.length) :
    w.Sound canceled { s with tasks := s.tasks ++ [.ready] } where
  tasks_le := by
    rw [List.length_append]
    exact hlt
  length_results := h.length_results
  phase i p hp := by
    obtain hp | ⟨-, rfl⟩ := getElem?_append_cases hp
    · exact h.phase i p hp
    · trivial
  error := h.error
  canceled_of_start := h.canceled_of_start
  error_of_canceled := h.error_of_canceled

/-- Markup is put away by a task that is not done. -/
theorem stored (h : w.Sound canceled s) {i : Nat} {m : Markup}
    (hi : s.tasks[i]? = some (.storing m)) :
    w.Sound canceled { s with results := s.results.set i m } where
  tasks_le := h.tasks_le
  length_results := List.length_set.trans h.length_results
  phase j p hp := by
    have hphase := h.phase j p hp
    cases p with
    | done =>
      -- Only a task that is done says something about the markup put away.
      have hij : i ≠ j := by
        rintro rfl
        rw [hi] at hp
        cases hp
      obtain herror | ⟨hstart, m', hm', hresult⟩ := hphase
      · exact .inl herror
      · exact .inr ⟨hstart, m', hm', (List.getElem?_set_ne hij).trans hresult⟩
    | _ => exact hphase
  error := h.error
  canceled_of_start := h.canceled_of_start
  error_of_canceled := h.error_of_canceled

/-- The first error is kept. -/
theorem kept (h : w.Sound canceled s) {e : Error} (he : w.ErrorSound canceled e) :
    w.Sound canceled { s with error := some e } where
  tasks_le := h.tasks_le
  length_results := h.length_results
  phase i p hp := by
    have hphase := h.phase i p hp
    cases p with
    | canceling => rfl
    | done => exact .inl rfl
    | _ => exact hphase
  error e' he' := by
    obtain rfl := Option.some.inj he'
    exact he
  canceled_of_start := h.canceled_of_start
  error_of_canceled _ := .inr rfl

/-- The batch is called off after an error was kept. -/
theorem calledOff (h : w.Sound canceled s) (herror : s.error.isSome = true) :
    w.Sound canceled { s with canceled := true } where
  tasks_le := h.tasks_le
  length_results := h.length_results
  phase i p hp := by
    have hphase := h.phase i p hp
    cases p with
    | failing e =>
      obtain hblames | ⟨he, -⟩ := hphase
      · exact .inl hblames
      · exact .inr ⟨he, rfl⟩
    | _ => exact hphase
  error := h.error
  canceled_of_start _ := rfl
  error_of_canceled _ := .inr herror

/-- What a task reports while no error was kept can be kept: that the batch was called
off can only have been the case from the start. -/
theorem error_of_failing (h : w.Sound canceled s) {i : Nat} {e : Error}
    (hi : s.tasks[i]? = some (.failing e)) (hnone : s.error = none) :
    w.ErrorSound canceled e := by
  obtain ⟨hstart, hblames⟩ | ⟨rfl, hcanceled⟩ := h.phase i _ hi
  · rw [hstart]
    exact ⟨i, hblames⟩
  · obtain hstart | herror := h.error_of_canceled hcanceled
    · rw [hstart]
      exact ⟨rfl, List.ne_nil_of_length_pos (Nat.zero_lt_of_lt (h.lt_sources hi))⟩
    · rw [hnone] at herror
      cases herror

/-- A step keeps all this. -/
theorem step (h : w.Sound canceled s) (hstep : w.Step s s') : w.Sound canceled s' := by
  cases hstep with
  | start hlt _ => exact h.started hlt
  | begin hi hcanceled =>
    refine h.goTo ?_
    show canceled = false
    cases canceled with
    | false => rfl
    | true => rw [h.canceled_of_start rfl] at hcanceled; cases hcanceled
  | giveUp hi hcanceled => exact h.goTo (.inr ⟨rfl, hcanceled⟩)
  | compile hi hsource hm =>
    have hstart : canceled = false := h.phase _ _ hi
    exact h.goTo ⟨hstart, _, hsource, hm⟩
  | fail hi hsource he =>
    have hstart : canceled = false := h.phase _ _ hi
    exact h.goTo (.inl ⟨hstart, _, _, hsource, he, rfl⟩)
  | @store i m hi =>
    obtain ⟨hstart, hm⟩ := h.phase _ _ hi
    refine (h.stored hi).goTo (.inr ⟨hstart, m, hm, ?_⟩)
    have hlt : i < s.results.length := by
      rw [h.length_results]
      exact h.lt_sources hi
    exact List.getElem?_set_self hlt
  | keep hi hnone => exact (h.kept (h.error_of_failing hi hnone)).goTo rfl
  | drop hi herror _ => exact h.goTo (.inl herror)
  | cancel hi =>
    have herror : s.error.isSome = true := h.phase _ _ hi
    exact (h.calledOff herror).goTo (.inl herror)

end Sound

/-- All this is true in the middle of every run. -/
theorem sound_of_steps {k : Nat} (h : w.Steps k (w.start canceled) s) : w.Sound canceled s :=
  h.invariant (fun _ _ hs hstep => hs.step hstep) (sound_start w canceled)

/-! ### One task at a time -/

/-- If no task is running, all are done. -/
theorem eq_done_of_running (h : s.running = 0) {i : Nat} {p : Phase}
    (hp : s.tasks[i]? = some p) : p = .done := by
  have hrunning : ¬ p.isRunning = true := List.countP_eq_zero.mp h p (List.mem_of_getElem? hp)
  cases p with
  | done => rfl
  | _ => exact absurd rfl hrunning

/-- What is true in addition if tasks run one at a time: only the last one started can be
running, and no source before the one blamed fails. -/
structure Serial (w : Workload) (s : Progress) : Prop where
  done_of_lt : ∀ i, i + 1 < s.tasks.length → s.tasks[i]? = some .done
  compiles_of_lt : ∀ (i : Nat) (cause : Error), s.error = some (.source i cause) →
    ∀ j < i, ∃ m, w.Compiles j m

theorem serial_start (w : Workload) (canceled : Bool) : w.Serial (w.start canceled) where
  done_of_lt i h := absurd h (Nat.not_lt_zero _)
  compiles_of_lt i cause h := by cases h

namespace Serial

/-- A task that is running may go over to any phase. -/
theorem goTo (hs : w.Serial s) {i : Nat} {p q : Phase} (hi : s.tasks[i]? = some q)
    (hq : q.isRunning = true) : w.Serial (s.goTo i p) where
  done_of_lt j hj := by
    rw [Progress.goTo, List.length_set] at hj
    have hdone := hs.done_of_lt j hj
    have hij : i ≠ j := by
      rintro rfl
      rw [hi] at hdone
      obtain rfl := Option.some.inj hdone
      cases hq
    exact (List.getElem?_set_ne hij).trans hdone
  compiles_of_lt := hs.compiles_of_lt

/-- A task is started when all others are done. -/
theorem started (hs : w.Serial s) (hdone : s.running = 0) :
    w.Serial { s with tasks := s.tasks ++ [.ready] } where
  done_of_lt i hi := by
    have hlt : i < s.tasks.length := by
      rw [List.length_append] at hi
      exact Nat.lt_of_succ_lt_succ hi
    have hget : s.tasks[i]? = some s.tasks[i] := List.getElem?_eq_getElem hlt
    rw [List.getElem?_append_left hlt, hget, eq_done_of_running hdone hget]
  compiles_of_lt := hs.compiles_of_lt

/-- When the first error is kept, all tasks before the one that reports it have put away
their markup. -/
theorem kept (hs : w.Serial s) (h : w.Sound canceled s) {i : Nat} {e : Error}
    (hi : s.tasks[i]? = some (.failing e)) (hnone : s.error = none) :
    w.Serial { s with error := some e } where
  done_of_lt := hs.done_of_lt
  compiles_of_lt k cause hk j hj := by
    obtain rfl := Option.some.inj hk
    obtain ⟨-, source, cause', -, -, heq⟩ | ⟨heq, -⟩ := h.phase i _ hi
    · injection heq with hindex
      obtain rfl : k = i := Int.ofNat.inj hindex
      have hlt : j + 1 < s.tasks.length :=
        Nat.lt_of_le_of_lt hj (List.getElem?_eq_some_iff.mp hi).1
      obtain herror | ⟨-, m, hm, -⟩ := h.phase j .done (hs.done_of_lt j hlt)
      · rw [hnone] at herror
        cases herror
      · exact ⟨m, hm⟩
    · cases heq

theorem step (hs : w.Serial s) (hlimit : w.limit = 1) (h : w.Sound canceled s)
    (hstep : w.Step s s') : w.Serial s' := by
  cases hstep with
  | start _ hroom =>
    refine hs.started ?_
    rw [HasRoom, hlimit] at hroom
    omega
  | begin hi _ | giveUp hi _ | compile hi _ _ | fail hi _ _ | drop hi _ _ => exact hs.goTo hi rfl
  | keep hi hnone => exact (hs.kept h hi hnone).goTo hi rfl
  | store hi | cancel hi =>
    exact ⟨(hs.goTo hi rfl).done_of_lt, hs.compiles_of_lt⟩

end Serial

theorem serial_of_steps (hlimit : w.limit = 1) {k : Nat} (h : w.Steps k (w.start canceled) s) :
    w.Serial s := by
  have hkept : ∀ s s', w.Sound canceled s ∧ w.Serial s → w.Step s s' →
      w.Sound canceled s' ∧ w.Serial s' := by
    rintro s s' ⟨hsound, hserial⟩ hstep
    exact ⟨hsound.step hstep, hserial.step hlimit hsound hstep⟩
  exact (h.invariant hkept ⟨sound_start w canceled, serial_start w canceled⟩).2

/-! ### Every run comes to an end -/

theorem leftAll_append (ps : List Phase) (p : Phase) :
    Phase.leftAll (ps ++ [p]) = Phase.leftAll ps + p.left := by
  induction ps with
  | nil => exact Nat.add_comm _ _
  | cons q ps ih =>
    show q.left + Phase.leftAll (ps ++ [p]) = q.left + Phase.leftAll ps + p.left
    rw [ih, Nat.add_assoc]

theorem leftAll_set_lt {ps : List Phase} {i : Nat} {p q : Phase} (hi : ps[i]? = some p)
    (hlt : q.left < p.left) : Phase.leftAll (ps.set i q) < Phase.leftAll ps := by
  induction ps generalizing i with
  | nil => cases hi
  | cons p' ps ih =>
    cases i with
    | zero =>
      obtain rfl := Option.some.inj hi
      exact Nat.add_lt_add_right hlt _
    | succ i => exact Nat.add_lt_add_left (ih hi) _

/-- How many steps are left at most: five for each task that is not started. -/
def todo (w : Workload) (s : Progress) : Nat :=
  5 * (w.sources.length - s.tasks.length) + Phase.leftAll s.tasks

theorem todo_goTo_lt (w : Workload) {i : Nat} {p q : Phase} (hi : s.tasks[i]? = some p)
    (hlt : q.left < p.left) : w.todo (s.goTo i q) < w.todo s := by
  have hleft := leftAll_set_lt hi hlt
  simp only [todo, Progress.goTo, List.length_set]
  omega

theorem todo_lt_of_step (h : w.Step s s') : w.todo s' < w.todo s := by
  cases h with
  | start hlt _ =>
    simp only [todo, List.length_append, List.length_singleton, leftAll_append, Phase.left]
    omega
  | begin hi _ | giveUp hi _ | compile hi _ _ | fail hi _ _ | store hi | drop hi _ _ | cancel hi =>
    exact todo_goTo_lt w hi (by simp only [Phase.left]; omega)
  | keep hi _ => exact todo_goTo_lt w hi (Nat.lt_succ_self 1)

/-- A run has at most five steps for each source. -/
theorem steps_add_todo_le {k : Nat} (h : w.Steps k (w.start canceled) s) :
    k + w.todo s ≤ 5 * w.sources.length := by
  generalize hs : w.start canceled = s₀ at h
  induction h with
  | refl =>
    subst hs
    simp only [todo, start, List.length_nil, Phase.leftAll]
    omega
  | tail _ hstep ih =>
    have hle := ih hs
    have hlt := todo_lt_of_step hstep
    omega

/-- A task that is running can do something, unless it has to wait for another one to call
off the batch. -/
theorem exists_step_of_running (h : w.Sound canceled s) {i : Nat} {p : Phase}
    (hi : s.tasks[i]? = some p) (hp : p.isRunning = true)
    (hfree : p = .canceling ∨ .canceling ∉ s.tasks) : ∃ s', w.Step s s' := by
  cases p with
  | ready =>
    cases hcanceled : s.canceled with
    | false => exact ⟨_, .begin hi hcanceled⟩
    | true => exact ⟨_, .giveUp hi hcanceled⟩
  | compiling =>
    have hlt := h.lt_sources hi
    have hsource : w.sources[i]? = some w.sources[i] := List.getElem?_eq_getElem hlt
    cases hcompile : compile w.table w.sources[i] with
    | ok m => exact ⟨_, .compile hi hsource hcompile⟩
    | error e => exact ⟨_, .fail hi hsource hcompile⟩
  | storing m => exact ⟨_, .store hi⟩
  | failing e =>
    obtain heq | hfree := hfree
    · cases heq
    · cases herror : s.error with
      | none => exact ⟨_, .keep hi herror⟩
      | some e' => exact ⟨_, .drop hi (herror ▸ rfl) hfree⟩
  | canceling => exact ⟨_, .cancel hi⟩
  | done => cases hp

/-- No run gets stuck before there is a result. -/
theorem exists_step (h : w.Sound canceled s) (hnone : w.result? s = none) :
    ∃ s', w.Step s s' := by
  by_cases hrunning : s.running = 0
  · -- All tasks are done, so one more may start, whatever the limit is.
    have hne : s.tasks.length ≠ w.sources.length := by
      intro hlength
      rw [result?, if_pos ⟨hlength, hrunning⟩] at hnone
      cases hnone
    have hlt : s.tasks.length < w.sources.length := Nat.lt_of_le_of_ne h.tasks_le hne
    refine ⟨_, .start hlt ?_⟩
    rw [HasRoom, hrunning]
    omega
  · -- Nobody has to wait but for a task that calls off the batch, and that one can go on.
    by_cases hcanceling : .canceling ∈ s.tasks
    · obtain ⟨i, hi⟩ := List.mem_iff_getElem?.mp hcanceling
      exact exists_step_of_running h hi rfl (.inl rfl)
    · obtain ⟨p, hmem, hp⟩ := List.countP_pos_iff.mp (Nat.pos_of_ne_zero hrunning)
      obtain ⟨i, hi⟩ := List.mem_iff_getElem?.mp hmem
      exact exists_step_of_running h hi hp (.inr hcanceling)

/-- The results that a batch can have. -/
def Yields (w : Workload) (canceled : Bool) (r : Except Error (List Markup)) : Prop :=
  ∃ k s, w.Steps k (w.start canceled) s ∧ w.result? s = some r

/-- Carrying on a run leads to a result. -/
theorem exists_yields_of_steps {s : Progress} {k : Nat} (h : w.Steps k (w.start canceled) s) :
    ∃ r, w.Yields canceled r := by
  cases hresult : w.result? s with
  | some r => exact ⟨r, k, s, h, hresult⟩
  | none =>
    obtain ⟨s', hstep⟩ := exists_step (sound_of_steps h) hresult
    exact exists_yields_of_steps (h.tail hstep)
termination_by w.todo s
decreasing_by exact todo_lt_of_step hstep

/-- What one task at a time can do, several at a time can do. -/
theorem Step.of_limit_one (h : { w with limit := 1 }.Step s s') : w.Step s s' := by
  cases h with
  | start hlt hroom =>
    refine .start hlt ?_
    simp only [HasRoom] at hroom ⊢
    omega
  | begin hi hcanceled => exact .begin hi hcanceled
  | giveUp hi hcanceled => exact .giveUp hi hcanceled
  | compile hi hsource hm => exact .compile hi hsource hm
  | fail hi hsource he => exact .fail hi hsource he
  | store hi => exact .store hi
  | keep hi hnone => exact .keep hi hnone
  | drop hi herror hfree => exact .drop hi herror hfree
  | cancel hi => exact .cancel hi

theorem Yields.of_limit_one {r : Except Error (List Markup)}
    (h : { w with limit := 1 }.Yields canceled r) : w.Yields canceled r := by
  obtain ⟨k, s, hsteps, hresult⟩ := h
  refine ⟨k, s, ?_, hresult⟩
  clear hresult
  show w.Steps k ({ w with limit := 1 }.start canceled) s
  generalize { w with limit := 1 }.start canceled = s₀ at hsteps ⊢
  induction hsteps with
  | refl => exact .refl _
  | tail _ hstep ih => exact ih.tail hstep.of_limit_one

/-! ### Results -/

/-- The two kinds of results. -/
theorem result_cases {r : Except Error (List Markup)} (h : w.result? s = some r) :
    (s.tasks.length = w.sources.length ∧ s.running = 0) ∧
      ((∃ e, s.error = some e ∧ r = .error e) ∨ (s.error = none ∧ r = .ok s.results)) := by
  rw [result?] at h
  split at h
  · refine ⟨‹_›, ?_⟩
    cases herror : s.error with
    | some e =>
      rw [herror] at h
      exact .inl ⟨e, rfl, (Option.some.inj h).symm⟩
    | none =>
      rw [herror] at h
      exact .inr ⟨rfl, (Option.some.inj h).symm⟩
  · cases h

/-- If no error was kept, the markup is that of the sources one by one. -/
theorem Sound.results_eq (h : w.Sound canceled s) (hlength : s.tasks.length = w.sources.length)
    (hrunning : s.running = 0) (hnone : s.error = none) :
    (canceled = true → w.sources = []) ∧
      s.results.map Except.ok = w.sources.map (compile w.table) := by
  have hdone : ∀ i < w.sources.length, canceled = false ∧
      ∃ m, w.Compiles i m ∧ s.results[i]? = some m := by
    intro i hi
    have hget : s.tasks[i]? = some _ := List.getElem?_eq_getElem (hlength ▸ hi)
    rw [eq_done_of_running hrunning hget] at hget
    obtain herror | hstored := h.phase i _ hget
    · rw [hnone] at herror
      cases herror
    · exact hstored
  refine ⟨?_, List.ext_getElem? ?_⟩
  · intro hcanceled
    cases hsources : w.sources with
    | nil => rfl
    | cons source sources =>
      have hpos : 0 < w.sources.length := hsources ▸ Nat.succ_pos _
      rw [(hdone 0 hpos).1] at hcanceled
      cases hcanceled
  · intro i
    rw [List.getElem?_map, List.getElem?_map]
    obtain hlt | hle := Nat.lt_or_ge i w.sources.length
    · obtain ⟨-, m, ⟨source, hsource, hm⟩, hresult⟩ := hdone i hlt
      rw [hsource, hresult, Option.map_some, Option.map_some, hm]
    · rw [List.getElem?_eq_none hle, List.getElem?_eq_none (h.length_results ▸ hle)]
      rfl

/-- What the results can be. -/
theorem Yields.cases {r : Except Error (List Markup)} (h : w.Yields canceled r) :
    (∃ ms, r = .ok ms ∧ (canceled = true → w.sources = []) ∧
      ms.map Except.ok = w.sources.map (compile w.table)) ∨
    (canceled = true ∧ w.sources ≠ [] ∧ r = .error .canceled) ∨
    (canceled = false ∧ ∃ i e, w.Blames e i ∧ r = .error e ∧
      (w.limit = 1 → ∀ j < i, ∃ m, w.Compiles j m)) := by
  obtain ⟨k, s, hsteps, hresult⟩ := h
  have hsound := sound_of_steps hsteps
  obtain ⟨⟨hlength, hrunning⟩, ⟨e, herror, rfl⟩ | ⟨hnone, rfl⟩⟩ := result_cases hresult
  · have he := hsound.error e herror
    cases canceled with
    | true =>
      obtain ⟨rfl, hne⟩ := he
      exact .inr (.inl ⟨rfl, hne, rfl⟩)
    | false =>
      obtain ⟨i, hblames⟩ := he
      refine .inr (.inr ⟨rfl, i, e, hblames, rfl, ?_⟩)
      intro hlimit
      obtain ⟨source, cause, -, -, rfl⟩ := hblames
      exact (serial_of_steps hlimit hsteps).compiles_of_lt i cause herror
  · exact .inl ⟨_, rfl, hsound.results_eq hlength hrunning hnone⟩

/-- If all sources compile, the result is their markup. -/
theorem Yields.eq_ok {r : Except Error (List Markup)} (h : w.Yields false r)
    (hall : ∀ source ∈ w.sources, ∃ m, compile w.table source = .ok m) :
    ∃ ms, r = .ok ms ∧ ms.map Except.ok = w.sources.map (compile w.table) := by
  obtain ⟨ms, rfl, -, hms⟩ | ⟨hcanceled, -⟩ | ⟨-, i, e, ⟨source, cause, hsource, he, -⟩, -⟩ :=
    h.cases
  · exact ⟨ms, rfl, hms⟩
  · cases hcanceled
  · obtain ⟨m, hm⟩ := hall source (List.mem_of_getElem? hsource)
    rw [hm] at he
    cases he

/-- If a source fails, the result is the error of one that does. -/
theorem Yields.eq_error {r : Except Error (List Markup)} (h : w.Yields false r)
    (hfails : ∃ source ∈ w.sources, ∃ e, compile w.table source = .error e) :
    ∃ (i : Nat) (source : Bytes) (e : Error), w.sources[i]? = some source ∧
      compile w.table source = .error e ∧ r = .error (.source i e) ∧
      (w.limit = 1 → ∀ j < i, ∃ m, w.Compiles j m) := by
  obtain ⟨source, hmem, e, he⟩ := hfails
  obtain ⟨ms, rfl, -, hms⟩ | ⟨hcanceled, -⟩ |
    ⟨-, i, _, ⟨source, cause, hsource, hcause, rfl⟩, rfl, hbefore⟩ := h.cases
  · -- The error would be among the markup.
    have hfail : Except.error e ∈ ms.map Except.ok :=
      hms ▸ List.mem_map.mpr ⟨source, hmem, he⟩
    obtain ⟨m, -, hm⟩ := List.mem_map.mp hfail
    cases hm
  · cases hcanceled
  · exact ⟨i, source, cause, hsource, hcause, rfl, hbefore⟩

/-- With one task at a time there is only the result of compiling one source after the
other. -/
theorem Yields.eq_compileUnless {r : Except Error (List Markup)} (h : w.Yields canceled r)
    (hlimit : w.limit = 1) : r = compileUnless canceled w.table w.sources := by
  obtain ⟨ms, rfl, hempty, hms⟩ | ⟨rfl, hne, rfl⟩ | ⟨rfl, i, e, hblames, rfl, hbefore⟩ := h.cases
  · have hall : compileAll w.table w.sources = .ok ms := compileFrom_eq_ok hms 0
    cases canceled with
    | false => exact hall.symm
    | true =>
      have hsources := hempty rfl
      rw [compileUnless, hall, hsources]
      rfl
  · cases hsources : w.sources with
    | nil => exact absurd hsources hne
    | cons source sources => rfl
  · obtain ⟨source, cause, hsource, hcause, rfl⟩ := hblames
    have hall : compileAll w.table w.sources = .error (.source (0 + i : Nat) cause) := by
      refine compileFrom_eq_error hsource hcause ?_ 0
      intro j hj
      obtain ⟨m, source', hsource', hm⟩ := hbefore hlimit j hj
      exact ⟨source', m, hsource', hm⟩
    rw [Nat.zero_add] at hall
    exact hall.symm

/-- Compiling one source after the other is one way to compile several at a time. -/
theorem yields_compileUnless (w : Workload) (canceled : Bool) :
    w.Yields canceled (compileUnless canceled w.table w.sources) := by
  let w₁ := { w with limit := 1 }
  obtain ⟨r, hr⟩ := exists_yields_of_steps (.refl (w₁.start canceled))
  have heq : r = compileUnless canceled w.table w.sources := hr.eq_compileUnless rfl
  rw [← heq]
  exact hr.of_limit_one

/-- Compiling several sources at the same time, in whatever order the tasks take their
steps, gives what compiling them one by one gives.  No run gets stuck, and none has more
than five steps for each source.  If all sources compile, the result is the markup of each
of them, in their order.  If some fail, it is the error of one that does fail, with its
position, and never that the batch was called off; with one task at a time it is the first
that fails.  If the batch was called off from the start, the error says so.  Compiling one
source after the other is the only result with one task at a time, and a possible one
with any limit. -/
theorem result_of_every_schedule (w : Workload) (canceled : Bool) :
    (∀ k s, w.Steps k (w.start canceled) s → k ≤ 5 * w.sources.length ∧
      (w.result? s = none → ∃ s', w.Step s s')) ∧
    (∀ r, w.Yields canceled r →
      (canceled = false →
        (∀ source ∈ w.sources, ∃ m, compile w.table source = .ok m) →
        ∃ ms, r = .ok ms ∧ ms.map Except.ok = w.sources.map (compile w.table)) ∧
      (canceled = false →
        (∃ source ∈ w.sources, ∃ e, compile w.table source = .error e) →
        ∃ (i : Nat) (source : Bytes) (e : Error), w.sources[i]? = some source ∧
          compile w.table source = .error e ∧ r = .error (.source i e) ∧
          (w.limit = 1 → ∀ j < i, ∃ m, w.Compiles j m)) ∧
      (canceled = true → w.sources ≠ [] → r = .error .canceled) ∧
      (w.limit = 1 → r = compileUnless canceled w.table w.sources)) ∧
    w.Yields canceled (compileUnless canceled w.table w.sources) := by
  refine ⟨?_, ?_, yields_compileUnless w canceled⟩
  · intro k s hsteps
    refine ⟨?_, exists_step (sound_of_steps hsteps)⟩
    exact Nat.le_trans (Nat.le_add_right k _) (steps_add_todo_le hsteps)
  · intro r hr
    refine ⟨?_, ?_, ?_, hr.eq_compileUnless⟩
    · rintro rfl hall
      exact hr.eq_ok hall
    · rintro rfl hfails
      exact hr.eq_error hfails
    · intro hcanceled hne
      obtain ⟨ms, -, hempty, -⟩ | ⟨-, -, rfl⟩ | ⟨hstart, -⟩ := hr.cases
      · exact absurd (hempty hcanceled) hne
      · rfl
      · rw [hstart] at hcanceled
        cases hcanceled

/-- Of a letter and a brace that closes nothing, two at a time, the brace is blamed. -/
theorem result_of_every_schedule_brace :
    let w : Workload := ⟨.empty, [utf8 "x", utf8 "\x7d"], 2⟩
    let brace := Error.unexpected (utf8 "expression") (utf8 "\x7d") 0
    let x := Markup.root .inline [.identifier (utf8 "x") .italic]
    (∃ k s, w.Steps k (w.start false) s ∧ w.result? s = some (.error (.source 1 brace))) ∧
      (∀ r, w.Yields false r → r = .error (.source 1 brace)) ∧
      (∀ r, w.Yields true r → r = .error .canceled) ∧
      ∀ r, { w with sources := [utf8 "x"] }.Yields false r → r = .ok [x] := by
  intro w brace x
  have hx : compile .empty (utf8 "x") = .ok x := by with_unfolding_all rfl
  have hbrace : compile .empty (utf8 "\x7d") = .error brace := by with_unfolding_all rfl
  have hfail : ∀ r, w.Yields false r → r = .error (.source 1 brace) := by
    intro r hr
    obtain ⟨i, source, e, hsource, he, rfl, -⟩ :=
      ((result_of_every_schedule w false).2.1 r hr).2.1 rfl
        ⟨_, .tail _ (.head _), brace, hbrace⟩
    rcases i with _ | _ | i
    · obtain rfl := Option.some.inj hsource
      rw [hx] at he
      cases he
    · obtain rfl := Option.some.inj hsource
      rw [hbrace] at he
      obtain rfl := Except.error.inj he
      rfl
    · cases hsource
  refine ⟨?_, hfail, ?_, ?_⟩
  · have hyields := (result_of_every_schedule w false).2.2
    rw [hfail _ hyields] at hyields
    exact hyields
  · intro r hr
    exact ((result_of_every_schedule w true).2.1 r hr).2.2.1 rfl (List.cons_ne_nil _ _)
  · intro r hr
    obtain ⟨ms, rfl, hms⟩ := ((result_of_every_schedule _ false).2.1 r hr).1 rfl
      (List.forall_mem_singleton.mpr ⟨x, hx⟩)
    obtain ⟨m, _, rfl, hm, hnil⟩ := List.map_eq_cons_iff.mp hms
    obtain rfl := List.map_eq_nil_iff.mp hnil
    obtain rfl := Except.ok.inj (hm.trans hx)
    rfl

end Workload

end MathMarkup
