import LinuxSystem.Map.Delete
import LinuxSystem.Map.Statements

/-!
# Threads at the statements of the map

The threads take the locks as in `Map.Locks` and, while inside, run the
statements of `Map.Statements`, every step of a thread between any two of
another. What comes out is what `Map.Concurrent` allows, where each section is
one step.
-/

namespace LinuxSystem.Map.Interleaved

open Transition Locks

/-- Where a thread is with its call: on its way into a section, inside one, or
on its way out with the answer. -/
inductive Doing (c : Config) where
  | idle
  | ready (call : Call) (job : Job c)
  | working (call : Call) (job : Job c) (code : Code c)
  | ended (call : Call) (answer : Answer c)

/-- `finished` keeps the sections that ended, in order. -/
structure State (c : Config) (Thread : Type) where
  locks : Locks.State Thread
  map : Hashmap c
  doing : Thread → Doing c
  finished : List (Thread × Job c × Answer c)

variable {c : Config} {Thread : Type}

def State.start (c : Config) (Thread : Type) : State c Thread :=
  ⟨.start Thread, createMap c, fun _ => .idle, []⟩

/-- The pointers that a call checks on entry. -/
def Valid : Call → Prop
  | .put key val _ => key.keyBase ≠ 0 ∧ val.valBase ≠ 0
  | .get key | .delete key => key.keyBase ≠ 0
  | .clearMap => True

def op : Call → Op
  | .put .. => .put
  | .get _ => .get
  | .delete _ => .delete
  | .clearMap => .clearMap

def first : Call → Job c
  | .put key val force => .put key val force
  | .get key | .delete key => .get key
  | .clearMap => .clearMap

/-- The section that follows one with this answer: `delete` goes from `get` to
`get_true_index` and to its own. -/
def next : Call → Answer c → Option (Job c)
  | .delete key, .get rtn => if rtn.valBase = 0 then none else some (.getTrueIndex key)
  | .delete _, .getTrueIndex index => index.map .delete
  | _, _ => none

def State.move [DecidableEq Thread] (s : State c Thread) (t : Thread) (doing : Doing c)
    (locks : Locks.State Thread) : State c Thread :=
  { s with doing := Function.update s.doing t doing, locks := locks }

def Inside (locks : Locks.State Thread) (t : Thread) : Prop := locks.Reading t ∨ locks.Writing t

instance (locks : Locks.State Thread) (t : Thread) : Decidable (Inside locks t) :=
  inferInstanceAs (Decidable ((locks.thread t).point = .reading ∨ (locks.thread t).point = .writing))

section Steps

variable [DecidableEq Thread]

/-- One step of thread `t`. A call that its entry checks refuse returns at once
and is no step. -/
inductive Step : State c Thread → Thread → State c Thread → Prop where
  | begin {s t} (call : Call) : s.doing t = .idle → s.locks.thread t = ⟨.out, []⟩ →
      s.map.invalid = false → Valid call →
      Step s t (s.move t (.ready call (first call)) (s.locks.place t ⟨.out, (op call).phases⟩))
  -- the statements of the entry and exit protocols
  | protocol {s t locks} : Locks.Step s.locks t locks → ¬ Inside s.locks t → ¬ Inside locks t →
      (locks.thread t).point ≠ .out → Step s t { s with locks := locks }
  | enter {s t locks call job} : s.doing t = .ready call job → Locks.Step s.locks t locks →
      ¬ Inside s.locks t → Inside locks t → Step s t (s.move t (.working call job job.start) locks)
  | work {s t call job code} : s.doing t = .working call job code →
      Step s t ({ s with map := (code.statement s.map).2 }.move t
        (.working call job (code.statement s.map).1) s.locks)
  | leaveReading {s t call job answer todo} : s.doing t = .working call job (.done answer) →
      s.locks.thread t = ⟨.reading, todo⟩ → s.locks.fieldsLock = false →
      Step s t ({ s with finished := s.finished ++ [(t, job, answer)] }.move t (.ended call answer)
        ({ s.locks with fieldsLock := true }.place t ⟨.decrementing, todo⟩))
  | doneWriting {s t call job answer todo} : s.doing t = .working call job (.done answer) →
      s.locks.thread t = ⟨.writing, todo⟩ →
      Step s t ({ s with finished := s.finished ++ [(t, job, answer)] }.move t .idle
        ({ s.locks with writeLock := none }.place t ⟨.out, todo⟩))
  | goOn {s t call answer job todo} : s.doing t = .ended call answer →
      next call answer = some job → s.locks.thread t = ⟨.leavingExit, todo⟩ →
      Step s t (s.move t (.ready call job)
        ({ s.locks with fieldsLock := false }.place t ⟨.out, todo⟩))
  | ret {s t call answer todo} : s.doing t = .ended call answer →
      next call answer = none → s.locks.thread t = ⟨.leavingExit, todo⟩ →
      Step s t (s.move t .idle ({ s.locks with fieldsLock := false }.place t ⟨.out, []⟩))

end Steps

/-! ## The locks and the calls go together -/

/-- The sections that a call consists of. -/
inductive Stage : Call → Job c → Prop where
  | put {key val force} : Stage (.put key val force) (.put key val force)
  | get {key} : Stage (.get key) (.get key)
  | clearMap : Stage .clearMap .clearMap
  | lookup {key} : Stage (.delete key) (.get key)
  | search {key} : Stage (.delete key) (.getTrueIndex key)
  | tombstone {key index} : Stage (.delete key) (.delete index)

/-- The phases that may follow a section of the call. -/
def rest : Call → Job c → List Phase
  | .delete _, .get _ => [.read, .write]
  | .delete _, .getTrueIndex _ => [.write]
  | _, _ => []

def Entering : Point → Prop
  | .incrementing | .testingFirst | .lockingWrite | .leavingEntry => True
  | _ => False

def Leaving : Point → Prop
  | .decrementing | .testingLast | .unlockingWrite | .leavingExit => True
  | _ => False

/-- Where a thread stands in the protocol fits what it is doing. -/
inductive Paired : Local → Doing c → Prop where
  | idle : Paired ⟨.out, []⟩ .idle
  | ready {call job} : Valid call → Stage call job →
      Paired ⟨.out, job.phase :: rest call job⟩ (.ready call job)
  | entering {call job point} : Valid call → Stage call job → job.phase = .read → Entering point →
      Paired ⟨point, rest call job⟩ (.ready call job)
  | reading {call job code} : Valid call → Stage call job → job.phase = .read →
      Paired ⟨.reading, rest call job⟩ (.working call job code)
  | writing {call job code} : Valid call → Stage call job → job.phase = .write →
      Paired ⟨.writing, rest call job⟩ (.working call job code)
  | leaving {call answer point todo} : Valid call → Leaving point →
      (∀ job, next call answer = some job → Stage call job ∧ todo = job.phase :: rest call job) →
      Paired ⟨point, todo⟩ (.ended call answer)

theorem stage_first (call : Call) : Stage (c := c) call (first call) := by
  cases call with
  | put => exact .put
  | get => exact .get
  | delete => exact .lookup
  | clearMap => exact .clearMap

/-- A section that writes is the last of its call. -/
theorem Stage.last {call : Call} {job : Job c} (stage : Stage call job) (phase : job.phase = .write) :
    rest call job = [] := by
  cases stage with
  | put | get | clearMap | tombstone => rfl
  | lookup | search => contradiction

theorem phases_first (call : Call) :
    (op call).phases = (first call : Job c).phase :: rest call (first call : Job c) := by
  cases call <;> rfl

/-- A search or a tombstone follows only the answer of the section before it. -/
theorem next_stage {call : Call} {job job' : Job c} {answer : Answer c} {before after : Hashmap c}
    (stage : Stage call job) (performed : perform job before = some (answer, after))
    (follows : next call answer = some job') :
    Stage call job' ∧ rest call job = job'.phase :: rest call job' := by
  cases stage with
  | put =>
    obtain ⟨outcome, -, eq⟩ := Option.map_eq_some_iff.mp performed
    obtain ⟨rfl, -⟩ := Prod.mk.inj eq
    contradiction
  | get =>
    obtain ⟨rfl, -⟩ := Prod.mk.inj (Option.some.inj performed)
    contradiction
  | clearMap =>
    obtain ⟨rfl, -⟩ := Prod.mk.inj (Option.some.inj performed)
    contradiction
  | lookup =>
    obtain ⟨rfl, -⟩ := Prod.mk.inj (Option.some.inj performed)
    simp only [next, Option.ite_none_left_eq_some, Option.some.injEq] at follows
    obtain ⟨-, rfl⟩ := follows
    exact ⟨.search, rfl⟩
  | search =>
    obtain ⟨rfl, -⟩ := Prod.mk.inj (Option.some.inj performed)
    obtain ⟨index, -, rfl⟩ := Option.map_eq_some_iff.mp follows
    exact ⟨.tombstone, rfl⟩
  | tombstone =>
    obtain ⟨rfl, -⟩ := Prod.mk.inj (Option.some.inj performed)
    contradiction

/-! ## Steps of the locks -/

section Locks

variable [DecidableEq Thread] {locks later : Locks.State Thread} {t : Thread}

/-- The exit protocol, and the entry protocol from `fields_lock` on, keep what
the thread still has to do. -/
theorem protocol_cases (h : Locks.Step locks t later) (outside : ¬ Inside locks t)
    (outside' : ¬ Inside later t) (going : (later.thread t).point ≠ .out) :
    (∃ todo, locks.thread t = ⟨.out, .read :: todo⟩ ∧ later.thread t = ⟨.incrementing, todo⟩) ∨
      ((later.thread t).todo = (locks.thread t).todo ∧
        (Entering (locks.thread t).point ∧ Entering (later.thread t).point ∨
          Leaving (locks.thread t).point ∧ Leaving (later.thread t).point)) := by
  cases h with
  | begin => simp [Locks.State.place] at going
  | @lockFields todo at_t => exact .inl ⟨todo, at_t, by simp [Locks.State.place]⟩
  | increment at_t | first at_t | notFirst at_t | lockWrite at_t =>
    exact .inr (by simp [Locks.State.place, at_t, Entering])
  | leaveEntry => simp [Inside, Locks.State.Reading, Locks.State.place] at outside'
  | relockFields at_t => simp [Inside, Locks.State.Reading, at_t] at outside
  | decrement at_t | last at_t | notLast at_t | unlockWrite at_t =>
    exact .inr (by simp [Locks.State.place, at_t, Leaving])
  | leaveExit => simp [Locks.State.place] at going
  | write => simp [Inside, Locks.State.Writing, Locks.State.place] at outside'
  | doneWriting at_t => simp [Inside, Locks.State.Writing, at_t] at outside

theorem enter_cases (h : Locks.Step locks t later) (outside : ¬ Inside locks t)
    (inside : Inside later t) :
    (∃ todo, locks.thread t = ⟨.leavingEntry, todo⟩ ∧ later.thread t = ⟨.reading, todo⟩) ∨
      ∃ todo, locks.thread t = ⟨.out, .write :: todo⟩ ∧ later.thread t = ⟨.writing, todo⟩ := by
  cases h with
  | @leaveEntry todo at_t => exact .inl ⟨todo, at_t, by simp [Locks.State.place]⟩
  | @write todo at_t => exact .inr ⟨todo, at_t, by simp [Locks.State.place]⟩
  | relockFields at_t => simp [Inside, Locks.State.Reading, at_t] at outside
  | doneWriting at_t => simp [Inside, Locks.State.Writing, at_t] at outside
  | _ => simp [Inside, Locks.State.Reading, Locks.State.Writing, Locks.State.place] at inside

theorem others_stay (h : Locks.Step locks t later) {u : Thread} (apart : u ≠ t) :
    later.thread u = locks.thread u := by
  cases h <;> simp [Locks.State.place, apart]

end Locks

theorem Step.locks_step [DecidableEq Thread] {s later : State c Thread} {t : Thread}
    (h : Step s t later) : later.locks = s.locks ∨ Locks.Step s.locks t later.locks := by
  cases h with
  | begin call _ out => exact .inr (.begin (op call) out)
  | protocol h => exact .inr h
  | enter _ h => exact .inr h
  | work => exact .inl rfl
  | leaveReading _ reading free => exact .inr (.relockFields reading free)
  | doneWriting _ writing => exact .inr (.doneWriting writing)
  | goOn _ _ leaving => exact .inr (.leaveExit leaving (.inl rfl))
  | ret _ _ leaving => exact .inr (.leaveExit leaving (.inr rfl))

/-! ## The sections -/

def Doing.inside : Doing c → Option (Job c × Code c)
  | .working _ job code => some (job, code)
  | _ => none

/-- What the threads do to the map, without the locks. -/
def State.sections (s : State c Thread) :
    Sections.State Thread (Job c) (Code c) (Answer c) (Hashmap c) :=
  ⟨s.map, fun t => (s.doing t).inside, s.finished⟩

/-- A thread inside a section of the map is inside for the locks. -/
theorem Paired.inside {l : Local} {doing : Doing c} (paired : Paired l doing) {job : Job c}
    {code : Code c} (inside : doing.inside = some (job, code)) :
    job.phase = .read ∧ l.point = .reading ∨ job.phase = .write ∧ l.point = .writing := by
  cases paired with
  | reading _ _ phase =>
    obtain ⟨rfl, -⟩ := Prod.mk.inj (Option.some.inj inside)
    exact .inl ⟨phase, rfl⟩
  | writing _ _ phase =>
    obtain ⟨rfl, -⟩ := Prod.mk.inj (Option.some.inj inside)
    exact .inr ⟨phase, rfl⟩
  | _ => contradiction

section Threads

variable [DecidableEq Thread] {s later : State c Thread} {t : Thread}

theorem Step.others_stay (h : Step s t later) {u : Thread} (apart : u ≠ t) :
    later.locks.thread u = s.locks.thread u ∧ later.doing u = s.doing u := by
  constructor
  · rcases h.locks_step with same | moved
    · rw [same]
    · exact Interleaved.others_stay moved apart
  · cases h <;> simp [State.move, apart]

/-- Every answer a thread has inside a section is one that the section gives. -/
def Performed (s : State c Thread) : Prop :=
  ∀ t call job answer, s.doing t = .working call job (.done answer) →
    ∃ before after, perform job before = some (answer, after)

theorem Paired.protocol {l l' : Local} {doing : Doing c} (paired : Paired l doing)
    (moved : (∃ todo, l = ⟨.out, .read :: todo⟩ ∧ l' = ⟨.incrementing, todo⟩) ∨
      (l'.todo = l.todo ∧ (Entering l.point ∧ Entering l'.point ∨
        Leaving l.point ∧ Leaving l'.point))) : Paired l' doing := by
  obtain ⟨point', todo'⟩ := l'
  cases paired with
  | idle => simp [Entering, Leaving] at moved
  | ready valid stage =>
    obtain ⟨todo, eq, eq'⟩ | ⟨-, ⟨here, -⟩ | ⟨here, -⟩⟩ := moved
    · simp only [Local.mk.injEq, List.cons.injEq, true_and] at eq
      obtain ⟨rfl, rfl⟩ := Local.mk.inj eq'
      exact eq.2 ▸ .entering valid stage eq.1 trivial
    · exact here.elim
    · exact here.elim
  | @entering call job point valid stage phase here =>
    obtain ⟨todo, eq, -⟩ | ⟨same, ⟨-, there⟩ | ⟨leaving, -⟩⟩ := moved
    · obtain ⟨rfl, -⟩ := Local.mk.inj eq
      exact here.elim
    · simp only at same
      exact same ▸ .entering valid stage phase there
    · cases point <;> first | exact here.elim | exact leaving.elim
  | reading => simp [Entering, Leaving] at moved
  | writing => simp [Entering, Leaving] at moved
  | @leaving call answer point todo valid here follows =>
    obtain ⟨todo, eq, -⟩ | ⟨same, ⟨entering, -⟩ | ⟨-, there⟩⟩ := moved
    · obtain ⟨rfl, -⟩ := Local.mk.inj eq
      exact here.elim
    · cases point <;> first | exact here.elim | exact entering.elim
    · simp only at same
      exact same ▸ .leaving valid there follows

theorem step_paired (paired : ∀ t, Paired (s.locks.thread t) (s.doing t))
    (performed : Performed s) (h : Step s t later) (u : Thread) :
    Paired (later.locks.thread u) (later.doing u) := by
  by_cases eq : u = t
  swap
  · obtain ⟨thread, doing⟩ := h.others_stay eq
    rw [thread, doing]
    exact paired u
  subst eq
  have here := paired u
  cases h with
  | begin call _ _ _ valid =>
    simp only [State.move, Locks.State.place, Function.update_self, phases_first (c := c) call]
    exact .ready valid (stage_first call)
  | protocol h outside outside' going => exact here.protocol (protocol_cases h outside outside' going)
  | enter doing h outside inside =>
    rw [doing] at here
    simp only [State.move, Function.update_self]
    obtain ⟨todo, before, after⟩ | ⟨todo, before, after⟩ := enter_cases h outside inside
    · rw [before] at here
      rw [after]
      cases here with
      | entering valid stage phase => exact .reading valid stage phase
    · rw [before] at here
      rw [after]
      generalize list : Phase.write :: todo = whole at here
      cases here with
      | ready valid stage =>
        obtain ⟨phase, rfl⟩ := List.cons.inj list
        exact .writing valid stage phase.symm
      | entering _ _ _ entering => exact entering.elim
  | work doing =>
    rw [doing] at here
    simp only [State.move, Function.update_self]
    cases at_u : s.locks.thread u with
    | mk point todo =>
      rw [at_u] at here
      cases here with
      | reading valid stage phase => exact .reading valid stage phase
      | writing valid stage phase => exact .writing valid stage phase
  | @leaveReading call job answer todo doing reading =>
    rw [doing, reading] at here
    simp only [State.move, Locks.State.place, Function.update_self]
    cases here with
    | reading valid stage =>
      obtain ⟨before, after, performed⟩ := performed u call job answer doing
      exact .leaving valid trivial fun job' follows => next_stage stage performed follows
  | doneWriting doing writing =>
    rw [doing, writing] at here
    simp only [State.move, Locks.State.place, Function.update_self]
    cases here with
    | writing _ stage phase => exact stage.last phase ▸ .idle
  | goOn doing follows leaving =>
    rw [doing, leaving] at here
    simp only [State.move, Locks.State.place, Function.update_self]
    cases here with
    | leaving valid _ onwards =>
      obtain ⟨stage, rfl⟩ := onwards _ follows
      exact .ready valid stage
  | ret =>
    simp only [State.move, Locks.State.place, Function.update_self]
    exact .idle

theorem sections_move (s : State c Thread) (t : Thread) (doing : Doing c)
    (locks : Locks.State Thread) :
    (s.move t doing locks).sections =
      { s.sections with inside := Function.update s.sections.inside t doing.inside } := by
  have inside : (fun u => (Function.update s.doing t doing u).inside) =
      Function.update (fun u => (s.doing u).inside) t doing.inside := by
    funext u
    by_cases eq : u = t
    · subst eq
      simp
    · simp [eq]
  simp only [State.sections, State.move, inside]

theorem sections_same (s : State c Thread) {t : Thread} {doing : Doing c}
    (locks : Locks.State Thread) (here : (s.doing t).inside = doing.inside) :
    (s.move t doing locks).sections = s.sections := by
  rw [sections_move, ← here]
  simp [State.sections]

omit [DecidableEq Thread] in
/-- The locks admit a section only beside those it may run with. -/
theorem admits [Fintype Thread] {call : Call} {job : Job c}
    (protocol : Protocol later.locks) (paired : ∀ t, Paired (later.locks.thread t) (later.doing t))
    (entered : later.doing t = .working call job job.start)
    (others : ∀ u ≠ t, later.doing u = s.doing u) (ready : (s.doing t).inside = none) :
    s.sections.Admits (program c) job := by
  intro u job' code inside
  have inside : (s.doing u).inside = some (job', code) := inside
  have apart : u ≠ t := by
    rintro rfl
    rw [ready] at inside
    contradiction
  have there : (later.doing u).inside = some (job', code) := by rw [others u apart, inside]
  have here : (later.doing t).inside = some (job, job.start) := by rw [entered, Doing.inside]
  obtain ⟨reads, reading⟩ | ⟨-, writing⟩ := (paired t).inside here
  · obtain ⟨reads', -⟩ | ⟨-, writing⟩ := (paired u).inside there
    · exact ⟨reads', reads⟩
    · exact absurd reading (protocol.exclusive writing).1
  · obtain ⟨-, reading⟩ | ⟨-, writing'⟩ := (paired u).inside there
    · exact absurd reading (protocol.exclusive writing).1
    · exact absurd ((protocol.exclusive writing).2 writing') apart

theorem step_sections [Fintype Thread] (protocol : Protocol later.locks)
    (paired : ∀ t, Paired (later.locks.thread t) (later.doing t)) (h : Step s t later) :
    later.sections = s.sections ∨ Sections.Step (program c) s.sections t later.sections := by
  cases h with
  | begin call idle => exact .inl (sections_same s _ (by rw [idle]; rfl))
  | protocol => exact .inl rfl
  | @enter locks call job doing h =>
    have ready : (s.doing t).inside = none := by rw [doing]; rfl
    have admitted := admits protocol paired (Function.update_self ..)
      (fun u apart => Function.update_of_ne apart ..) ready
    rw [sections_move]
    exact .inr (.enter ready admitted)
  | @work call job code doing =>
    have inside : s.sections.inside t = some (job, code) := by simp [State.sections, doing, Doing.inside]
    rw [sections_move]
    exact .inr (.work inside)
  | @leaveReading call job answer todo doing =>
    have inside : s.sections.inside t = some (job, .done answer) := by
      simp [State.sections, doing, Doing.inside]
    rw [sections_move]
    exact .inr (.leave inside rfl)
  | @doneWriting call job answer todo doing =>
    have inside : s.sections.inside t = some (job, .done answer) := by
      simp [State.sections, doing, Doing.inside]
    rw [sections_move]
    exact .inr (.leave inside rfl)
  | goOn doing => exact .inl (sections_same s _ (by rw [doing]; rfl))
  | ret doing => exact .inl (sections_same s _ (by rw [doing]; rfl))

/-! ## Runs -/

variable [Fintype Thread]

structure Lined (s : State c Thread) : Prop where
  protocol : Protocol s.locks
  paired : ∀ t, Paired (s.locks.thread t) (s.doing t)
  sections : Transition.Reachable (Sections.Step (program c)) (.first (createMap c)) s.sections

theorem lined_start (c : Config) : Lined (State.start c Thread) where
  protocol := protocol_start
  paired _ := .idle
  sections := Run.refl _

theorem Lined.performed (lined : Lined s) : Performed s := by
  obtain ⟨committed, -, consistent⟩ := Sections.serialises lined.sections
  intro t call job answer doing
  have inside : s.sections.inside t = some (job, .done answer) := by
    simp [State.sections, doing, Doing.inside]
  exact ⟨committed, s.map, perform_eq ⟨_, consistent.running t job _ inside, rfl⟩⟩

theorem step_lined (lined : Lined s) (h : Step s t later) : Lined later := by
  have paired := step_paired lined.paired lined.performed h
  have protocol : Protocol later.locks := by
    rcases h.locks_step with same | moved
    · exact same ▸ lined.protocol
    · exact step_protocol lined.protocol moved
  refine ⟨protocol, paired, ?_⟩
  rcases step_sections protocol paired h with same | moved
  · exact same ▸ lined.sections
  · exact lined.sections.next moved

theorem reachable_lined (reached : Transition.Reachable Step (State.start c Thread) s) : Lined s :=
  reached.invariant Lined (lined_start c) fun lined _ h => step_lined lined h

/-- Where no thread is in a section that writes, the map is settled. -/
theorem Lined.settled (lined : Lined s) (nobody : ∀ t, ¬ s.locks.Writing t) {committed : Hashmap c}
    (consistent : Sections.Consistent (program c) s.sections committed) : s.map = committed := by
  refine consistent.settled fun u job code inside => ?_
  obtain ⟨reads, -⟩ | ⟨-, writing⟩ := (lined.paired u).inside inside
  · exact reads
  · exact absurd writing (nobody u)

/-! ## The sections one after another -/

/-- The section alone, if it gives this answer. -/
def replayed {Caller : Type} (self : Hashmap c) (event : Caller × Job c × Answer c) :
    Option (Hashmap c) :=
  (perform event.2.1 self).bind fun outcome =>
    if outcome.1 = event.2.2 then some outcome.2 else none

def replay {Caller : Type} (self : Hashmap c) (events : List (Caller × Job c × Answer c)) :
    Option (Hashmap c) :=
  events.foldlM replayed self

omit [DecidableEq Thread] [Fintype Thread] in
theorem replay_serial {self after : Hashmap c} {events : List (Thread × Job c × Answer c)}
    (serial : Sections.Serial (program c) self events after) : replay self events = some after := by
  induction serial with
  | nil => rfl
  | snoc _ performs ih =>
    unfold replay at ih ⊢
    rw [List.foldlM_append, ih]
    simp [replayed, perform_eq performs]

/-- However the statements of the threads interleave: the sections that ended
gave the answers they give one after another in the order in which they ended,
and where no thread is in a section that writes, the map is what they leave. -/
theorem sections_are_atomic (reached : Transition.Reachable Step (State.start c Thread) s) :
    ∃ committed, replay (createMap c) s.finished = some committed ∧
      ((∀ t, ¬ s.locks.Writing t) → s.map = committed) := by
  have lined := reachable_lined reached
  obtain ⟨committed, serial, consistent⟩ := Sections.serialises lined.sections
  exact ⟨committed, replay_serial serial, fun nobody => lined.settled nobody consistent⟩

end Threads

/-- Thread `true` has put a value, and a delete of `false` has looked it up. -/
theorem put_then_lookup :
    ∃ s : State twoSlots Bool, Transition.Reachable Step (State.start twoSlots Bool) s ∧
      s.finished = [(true, .put ⟨1, [97]⟩ ⟨2, [1]⟩ false, .put true none []),
        (false, .get ⟨3, [97]⟩, .get ⟨2, [1]⟩)] ∧
      s.doing false = .ended (.delete ⟨3, [97]⟩) (.get ⟨2, [1]⟩) := by
  have start : Transition.Reachable Step (State.start twoSlots Bool) _ := Run.refl _
  have begun := (start.next (.begin (t := true) (.put ⟨1, [97]⟩ ⟨2, [1]⟩ false) rfl rfl rfl
    ⟨by decide, by decide⟩)).next (.begin (t := false) (.delete ⟨3, [97]⟩) rfl rfl rfl
    (Nat.succ_ne_zero 2))
  have inside := begun.next (.enter (t := true) rfl (.write rfl rfl) (by decide) (.inr rfl))
  have found := ((inside.next (.work (t := true) rfl)).next (.work (t := true) rfl)).next
    (.work (t := true) rfl)
  have stored := ((found.next (.work (t := true) rfl)).next (.work (t := true) rfl)).next
    (.work (t := true) rfl)
  have ended := (stored.next (.work (t := true) rfl)).next (.doneWriting (t := true) rfl rfl)
  have locked := (ended.next (.protocol (t := false) (.lockFields rfl rfl) (by decide) (by decide)
    (by decide))).next (.protocol (t := false) (.increment rfl) (by decide) (by decide) (by decide))
  have covered := (locked.next (.protocol (t := false) (.first rfl rfl) (by decide) (by decide)
    (by decide))).next (.protocol (t := false) (.lockWrite rfl rfl) (by decide) (by decide)
    (by decide))
  have reading := covered.next (.enter (t := false) rfl (.leaveEntry rfl) (by decide) (.inl rfl))
  have looked := (reading.next (.work (t := false) rfl)).next (.leaveReading (t := false) rfl rfl rfl)
  exact ⟨_, looked, rfl, rfl⟩

theorem put_then_lookup_atomic :
    ∃ s : State twoSlots Bool, s.finished.length = 2 ∧
      ∃ committed, replay (createMap twoSlots) s.finished = some committed ∧
        ((∀ t, ¬ s.locks.Writing t) → s.map = committed) := by
  obtain ⟨s, reached, finished, -⟩ := put_then_lookup
  exact ⟨s, by rw [finished]; rfl, sections_are_atomic reached⟩

end LinuxSystem.Map.Interleaved
