import LinuxSystem.Map.Interleaved

/-!
# Sections as single steps

`Map.Concurrent` takes a whole section in one step. It follows the threads of
`Map.Interleaved`: a section happens in it when the thread that ran it lets the
lock go.
-/

namespace LinuxSystem.Map.Interleaved

open Transition Locks

variable {c : Config} {Thread : Type}

/-- Where `Map.Concurrent` has a thread until its section has ended. -/
def stagePc : Call → Job c → Concurrent.Pc c
  | .delete _, .getTrueIndex key => .found key
  | .delete key, .delete index => .indexed key index
  | _, _ => .idle

def nextPc (call : Call) (answer : Answer c) : Concurrent.Pc c :=
  (next call answer).elim .idle (stagePc call)

def Doing.pc : Doing c → Concurrent.Pc c
  | .idle => .idle
  | .ready call job | .working call job _ => stagePc call job
  | .ended call answer => nextPc call answer

theorem perform_invalid {job : Job c} {self after : Hashmap c} {answer : Answer c}
    (performed : perform job self = some (answer, after)) : after.invalid = self.invalid := by
  cases job with
  | put key val force =>
    obtain ⟨outcome, put, eq⟩ := Option.map_eq_some_iff.mp performed
    obtain ⟨-, rfl⟩ := Prod.mk.inj eq
    unfold putSection at put
    split at put
    · exact Option.some.inj put ▸ rfl
    · split at put
      · obtain ⟨nodes, -, rfl⟩ := Option.map_eq_some_iff.mp put
        rfl
      · exact Option.some.inj put ▸ rfl
  | get | getTrueIndex | delete | clearMap =>
    obtain ⟨-, rfl⟩ := Prod.mk.inj (Option.some.inj performed)
    rfl

theorem stagePc_first (call : Call) : stagePc (c := c) call (first call) = .idle := by
  cases call <;> rfl

variable [DecidableEq Thread]

/-- The section of the stage is a step of `Map.Concurrent`. -/
theorem Stage.commit {coarse : Concurrent.State c Thread} {t : Thread} {call : Call} {job : Job c}
    {answer : Answer c} {after : Hashmap c} (stage : Stage call job) (valid : Valid call)
    (usable : coarse.map.invalid = false) (at_t : coarse.pc t = stagePc call job)
    (performed : perform job coarse.map = some (answer, after)) :
    ∃ action, Concurrent.Step coarse action
      ⟨after, Function.update coarse.pc t (nextPc call answer)⟩ := by
  have stays (idle : coarse.pc t = .idle) (map : Hashmap c) :
      ⟨map, Function.update coarse.pc t .idle⟩ = coarse.set map := by
    rw [← idle, Function.update_eq_self, Concurrent.State.set]
  cases stage with
  | @put key val force =>
    obtain ⟨outcome, put, eq⟩ := Option.map_eq_some_iff.mp performed
    obtain ⟨rfl, rfl⟩ := Prod.mk.inj eq
    have whole : Map.put coarse.map key val force = some outcome := by
      simp [Map.put, usable, valid.1, valid.2, put]
    show ∃ action, Concurrent.Step coarse action ⟨_, Function.update coarse.pc t .idle⟩
    rw [stays at_t]
    exact ⟨_, .put t key val force at_t whole⟩
  | @get key =>
    obtain ⟨rfl, rfl⟩ := Prod.mk.inj (Option.some.inj performed)
    show ∃ action, Concurrent.Step coarse action ⟨_, Function.update coarse.pc t .idle⟩
    rw [stays at_t]
    exact ⟨_, .get t key at_t⟩
  | clearMap =>
    obtain ⟨rfl, rfl⟩ := Prod.mk.inj (Option.some.inj performed)
    have whole : (clearSection coarse.map).self = (Map.clearMap coarse.map).self := by
      simp [Map.clearMap, usable]
    show ∃ action, Concurrent.Step coarse action ⟨_, Function.update coarse.pc t .idle⟩
    rw [stays at_t, whole]
    exact ⟨_, .clearMap t at_t⟩
  | @lookup key =>
    obtain ⟨rfl, rfl⟩ := Prod.mk.inj (Option.some.inj performed)
    have valid : key.keyBase ≠ 0 := valid
    have lookup : (Map.get coarse.map key).ret = getSection coarse.map key := by
      simp [Map.get, usable, valid]
    by_cases missing : (getSection coarse.map key).valBase = 0
    · have refuses : deleteRefuses coarse.map key = true := by
        simp [deleteRefuses, lookup, missing]
      rw [nextPc, next, if_pos missing, Option.elim_none, stays at_t]
      exact ⟨_, .refused t key at_t refuses⟩
    · have accepts : deleteRefuses coarse.map key = false := by
        simp [deleteRefuses, lookup, missing, usable, valid]
      rw [nextPc, next, if_neg missing]
      exact ⟨_, .lookup t key at_t accepts⟩
  | @search key =>
    obtain ⟨rfl, rfl⟩ := Prod.mk.inj (Option.some.inj performed)
    have valid : key.keyBase ≠ 0 := valid
    have search : getTrueIndex coarse.map key = getTrueIndexSection coarse.map key := by
      simp [getTrueIndex, usable, valid]
    cases index : getTrueIndexSection coarse.map key with
    | none => exact ⟨_, .missed t at_t (search.trans index)⟩
    | some index => exact ⟨_, .search t at_t (search.trans ‹_›)⟩
  | tombstone =>
    obtain ⟨rfl, rfl⟩ := Prod.mk.inj (Option.some.inj performed)
    exact ⟨_, .tombstone t at_t⟩

/-! ## The simulation -/

/-- The map of `Map.Concurrent` is the one the finished sections leave, and its
threads are where the calls are. -/
structure Follows (s : State c Thread) (coarse : Concurrent.State c Thread) : Prop where
  consistent : Sections.Consistent (program c) s.sections coarse.map
  pc : ∀ t, coarse.pc t = (s.doing t).pc
  usable : coarse.map.invalid = false

omit [DecidableEq Thread] in
theorem follows_start (c : Config) :
    Follows (State.start c Thread) (Concurrent.State.start c Thread) where
  consistent := Sections.consistent_first _
  pc _ := rfl
  usable := rfl

variable {s later : State c Thread} {coarse : Concurrent.State c Thread} {t : Thread}

/-- Thread `t` has gone on, or its section has ended. -/
theorem pc_moved {doing : Doing c} (pc : ∀ u, coarse.pc u = (s.doing u).pc)
    (moved : later.doing = Function.update s.doing t doing) (u : Thread) :
    Function.update coarse.pc t doing.pc u = (later.doing u).pc := by
  rw [moved]
  by_cases eq : u = t
  · subst eq
    simp
  · simpa [eq] using pc u

theorem Follows.still (follows : Follows s coarse) {doing : Doing c}
    (moved : later.doing = Function.update s.doing t doing) (same : doing.pc = (s.doing t).pc)
    (consistent : Sections.Consistent (program c) later.sections coarse.map) :
    Follows later coarse where
  consistent := consistent
  pc u := by
    rw [← pc_moved follows.pc moved u, same, ← follows.pc t, Function.update_eq_self]
  usable := follows.usable

/-- A step that ends no section leaves the simulation where it is. -/
theorem Follows.consistent_still (follows : Follows s coarse)
    (moved : later.sections = s.sections ∨
      Sections.Step (program c) s.sections t later.sections)
    (finished : later.finished = s.finished) :
    Sections.Consistent (program c) later.sections coarse.map := by
  obtain same | moved := moved
  · exact same ▸ follows.consistent
  · obtain ⟨still, -⟩ | ⟨job, _, answer, -, -, -, -, more⟩ := follows.consistent.step moved
    · exact still
    · have more : later.finished = s.finished ++ [(t, job, answer)] := more
      simp [finished] at more

theorem Follows.consistent_leave (follows : Follows s coarse)
    (moved : later.sections = s.sections ∨
      Sections.Step (program c) s.sections t later.sections)
    (finished : later.finished ≠ s.finished) :
    Sections.Consistent (program c) later.sections later.map := by
  obtain same | moved := moved
  · exact absurd (congrArg Sections.State.finished same) finished
  · obtain ⟨-, same⟩ | ⟨_, _, _, -, -, -, consistent, -⟩ := follows.consistent.step moved
    · exact absurd same finished
    · exact consistent

variable [Fintype Thread]

theorem Lined.valid (lined : Lined s) {call : Call} {job : Job c} {code : Code c}
    (doing : s.doing t = .working call job code) : Valid call ∧ Stage call job := by
  have paired := lined.paired t
  rw [doing] at paired
  generalize s.locks.thread t = place at paired
  cases paired with
  | reading valid stage | writing valid stage => exact ⟨valid, stage⟩

/-- Nothing follows a section that writes. -/
theorem Lined.nothing_follows (lined : Lined s) {call : Call} {job : Job c} {answer : Answer c}
    (doing : s.doing t = .working call job (.done answer))
    (writing : (s.locks.thread t).point = .writing) : next call answer = none := by
  obtain ⟨-, stage⟩ := lined.valid doing
  obtain ⟨before, after, performed⟩ := lined.performed t call job answer doing
  have inside : (s.doing t).inside = some (job, .done answer) := by rw [doing, Doing.inside]
  cases follow : next (c := c) call answer with
  | none => rfl
  | some job' =>
    obtain ⟨-, reading⟩ | ⟨phase, -⟩ := (lined.paired t).inside inside
    · rw [writing] at reading
      contradiction
    · have more := (next_stage stage performed follow).2
      rw [stage.last phase] at more
      contradiction

/-- A section that ends happens in `Map.Concurrent`. -/
theorem Follows.leave (follows : Follows s coarse) (lined : Lined s) {call : Call} {job : Job c}
    {answer : Answer c} (here : s.doing t = .working call job (.done answer)) {doing : Doing c}
    (moved : later.doing = Function.update s.doing t doing) (same : doing.pc = nextPc call answer)
    (map : later.map = s.map)
    (consistent : Sections.Consistent (program c) later.sections later.map) :
    ∃ action coarse', Concurrent.Step coarse action coarse' ∧ Follows later coarse' := by
  obtain ⟨valid, stage⟩ := lined.valid here
  have inside : s.sections.inside t = some (job, .done answer) := by
    simp [State.sections, here, Doing.inside]
  have performed : perform job coarse.map = some (answer, later.map) := by
    rw [map]
    exact perform_eq ⟨_, follows.consistent.running t job _ inside, rfl⟩
  have at_t : coarse.pc t = stagePc call job := by rw [follows.pc t, here, Doing.pc]
  obtain ⟨action, h⟩ := stage.commit valid follows.usable at_t performed
  refine ⟨action, _, h, consistent, ?_, ?_⟩
  · rw [← same]
    exact pc_moved follows.pc moved
  · exact (perform_invalid performed).trans follows.usable

theorem Follows.step (follows : Follows s coarse) (lined : Lined s) (h : Step s t later) :
    Follows later coarse ∨
      ∃ action coarse', Concurrent.Step coarse action coarse' ∧ Follows later coarse' := by
  have lined' := step_lined lined h
  have moved := step_sections lined'.protocol lined'.paired h
  cases h with
  | begin call idle =>
    refine .inl (follows.still rfl ?_ (follows.consistent_still moved rfl))
    rw [idle]
    exact stagePc_first call
  | protocol => exact .inl ⟨follows.consistent, follows.pc, follows.usable⟩
  | enter doing =>
    refine .inl (follows.still rfl ?_ (follows.consistent_still moved rfl))
    rw [doing, Doing.pc, Doing.pc]
  | work doing =>
    refine .inl (follows.still rfl ?_ (follows.consistent_still moved rfl))
    rw [doing, Doing.pc, Doing.pc]
  | leaveReading doing =>
    exact .inr (follows.leave lined doing rfl rfl rfl
      (follows.consistent_leave moved (by simp [State.move])))
  | @doneWriting call job answer todo doing writing =>
    refine .inr (follows.leave lined doing rfl ?_ rfl
      (follows.consistent_leave moved (by simp [State.move])))
    rw [nextPc, lined.nothing_follows doing (by rw [writing]), Option.elim_none, Doing.pc]
  | goOn doing follow =>
    refine .inl (follows.still rfl ?_ (follows.consistent_still moved rfl))
    rw [doing, Doing.pc, Doing.pc, nextPc, follow, Option.elim_some]
  | ret doing ends =>
    refine .inl (follows.still rfl ?_ (follows.consistent_still moved rfl))
    rw [doing, Doing.pc, Doing.pc, nextPc, ends, Option.elim_none]

/-- Every state of the threads is one of `Map.Concurrent`, with its threads
where the calls are; and where no thread is in a section that writes, with its
map. -/
theorem follows_concurrent (reached : Transition.Reachable Step (State.start c Thread) s) :
    ∃ coarse : Concurrent.State c Thread,
      Transition.Reachable Concurrent.Step (Concurrent.State.start c Thread) coarse ∧
        (∀ t, coarse.pc t = (s.doing t).pc) ∧
        ((∀ t, ¬ s.locks.Writing t) → coarse.map = s.map) := by
  obtain ⟨lined, coarse, run, follows⟩ : Lined s ∧ ∃ coarse : Concurrent.State c Thread,
      Transition.Reachable Concurrent.Step (Concurrent.State.start c Thread) coarse ∧
        Follows s coarse := by
    refine reached.invariant (fun s => Lined s ∧ ∃ coarse : Concurrent.State c Thread,
      Transition.Reachable Concurrent.Step (Concurrent.State.start c Thread) coarse ∧
        Follows s coarse) ⟨lined_start c, _, Run.refl _, follows_start c⟩ ?_
    intro s later t inv _ h
    obtain ⟨lined, coarse, run, follows⟩ := inv
    refine ⟨step_lined lined h, ?_⟩
    obtain still | ⟨action, coarse', moved, follows'⟩ := follows.step lined h
    · exact ⟨coarse, run, still⟩
    · exact ⟨coarse', run.next moved, follows'⟩
  exact ⟨coarse, run, follows.pc, fun nobody => (lined.settled nobody follows.consistent).symm⟩

theorem lookup_followed :
    ∃ coarse : Concurrent.State twoSlots Bool,
      Transition.Reachable Concurrent.Step (Concurrent.State.start twoSlots Bool) coarse ∧
        coarse.pc false = .found ⟨3, [97]⟩ := by
  obtain ⟨s, reached, -, looked⟩ := put_then_lookup
  obtain ⟨coarse, run, pc, -⟩ := follows_concurrent reached
  exact ⟨coarse, run, (pc false).trans (by rw [looked]; rfl)⟩

end LinuxSystem.Map.Interleaved
