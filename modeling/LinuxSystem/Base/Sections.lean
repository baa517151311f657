import LinuxSystem.Base.Transition
import Mathlib.Tactic

/-!
# Sections run one statement at a time

Threads share a memory, and each does jobs inside sections, a statement to a
step. A section that may write has no other beside it; sections that only read
overlap. Then the memory and the answers are those of the finished jobs done one
after another, in the order in which they ended.
-/

namespace Sections

open Transition

variable {Thread Job Code Answer Memory : Type*}

/-- The code of the jobs: where each starts, what its next statement does, and
its answer once there is none. Code that only reads goes on only reading. -/
structure Program (Job Code Answer Memory : Type*) where
  start : Job → Code
  statement : Code → Memory → Code × Memory
  answer : Code → Option Answer
  reads : Job → Prop
  reading : Code → Prop
  starts {job : Job} : reads job → reading (start job)
  keeps {code : Code} (memory : Memory) : reading code →
    (statement code memory).2 = memory ∧ reading (statement code memory).1

variable (program : Program Job Code Answer Memory)

/-- Alone, the job gets from `before` to this code and memory. -/
inductive Runs (job : Job) (before : Memory) : Code → Memory → Prop where
  | start : Runs job before (program.start job) before
  | next {code : Code} {memory : Memory} : Runs job before code memory →
      Runs job before (program.statement code memory).1 (program.statement code memory).2

/-- Alone, the job gives this answer and leaves this memory. -/
def Performs (job : Job) (before : Memory) (answer : Answer) (after : Memory) : Prop :=
  ∃ code, Runs program job before code after ∧ program.answer code = some answer

/-- Alone, code and memory get to an answer. -/
inductive Ends : Code → Memory → Prop where
  | done {code : Code} {memory : Memory} {answer : Answer} : program.answer code = some answer →
      Ends code memory
  | next {code : Code} {memory : Memory} :
      Ends (program.statement code memory).1 (program.statement code memory).2 → Ends code memory

/-- The jobs one after another. -/
inductive Serial (first : Memory) : List (Thread × Job × Answer) → Memory → Prop where
  | nil : Serial first [] first
  | snoc {events : List (Thread × Job × Answer)} {before after : Memory} {t : Thread} {job : Job}
      {answer : Answer} : Serial first events before → Performs program job before answer after →
      Serial first (events ++ [(t, job, answer)]) after

variable {program}

theorem Runs.reading {job : Job} {before after : Memory} {code : Code} (reads : program.reads job)
    (runs : Runs program job before code after) : after = before ∧ program.reading code := by
  induction runs with
  | start => exact ⟨rfl, program.starts reads⟩
  | next _ ih =>
    obtain ⟨same, reading⟩ := ih
    obtain ⟨kept, onwards⟩ := program.keeps _ reading
    exact ⟨kept.trans same, onwards⟩

/-- What the rest of the code comes to, if no statement changes it, is what the
whole job comes to. -/
theorem Performs.finish {Result : Type*} (finish : Code → Memory → Result)
    (keeps : ∀ code memory,
      finish (program.statement code memory).1 (program.statement code memory).2 =
        finish code memory)
    {job : Job} {before after : Memory} {answer : Answer}
    (performs : Performs program job before answer after) :
    ∃ code, program.answer code = some answer ∧
      finish code after = finish (program.start job) before := by
  obtain ⟨code, runs, answered⟩ := performs
  refine ⟨code, answered, ?_⟩
  clear answered
  induction runs with
  | start => rfl
  | next _ ih => exact (keeps _ _).trans ih

theorem Runs.ends {job : Job} {before memory : Memory} {code : Code}
    (runs : Runs program job before code memory) (ends : Ends program code memory) :
    ∃ answer after, Performs program job before answer after := by
  induction ends with
  | done answered => exact ⟨_, _, _, runs, answered⟩
  | next _ ih => exact ih (.next runs)

/-! ## Threads -/

/-- `finished` keeps the jobs that ended, in order. -/
structure State (Thread Job Code Answer Memory : Type*) where
  memory : Memory
  inside : Thread → Option (Job × Code)
  finished : List (Thread × Job × Answer)

def State.first (memory : Memory) : State Thread Job Code Answer Memory :=
  ⟨memory, fun _ => none, []⟩

variable (program) in
/-- The job may begin: those inside and it only read, or there is nobody. -/
def State.Admits (s : State Thread Job Code Answer Memory) (job : Job) : Prop :=
  ∀ u job' code, s.inside u = some (job', code) → program.reads job' ∧ program.reads job

section Steps

variable [DecidableEq Thread]

variable (program) in
inductive Step : State Thread Job Code Answer Memory → Thread →
    State Thread Job Code Answer Memory → Prop where
  | enter {s t job} : s.inside t = none → s.Admits program job →
      Step s t { s with inside := Function.update s.inside t (some (job, program.start job)) }
  | work {s t job code} : s.inside t = some (job, code) →
      Step s t ⟨(program.statement code s.memory).2,
        Function.update s.inside t (some (job, (program.statement code s.memory).1)), s.finished⟩
  | leave {s t job code answer} : s.inside t = some (job, code) →
      program.answer code = some answer →
      Step s t ⟨s.memory, Function.update s.inside t none, s.finished ++ [(t, job, answer)]⟩

end Steps

/-- `committed` is the memory after the finished jobs. Each job inside is as far
as if it were alone with it, and a job that may write is alone. -/
structure Consistent (program : Program Job Code Answer Memory)
    (s : State Thread Job Code Answer Memory) (committed : Memory) : Prop where
  running : ∀ t job code, s.inside t = some (job, code) →
    Runs program job committed code s.memory
  settled : (∀ t job code, s.inside t = some (job, code) → program.reads job) →
    s.memory = committed
  alone : ∀ t job code, s.inside t = some (job, code) → ¬ program.reads job →
    ∀ u ≠ t, s.inside u = none

theorem consistent_first (memory : Memory) :
    Consistent program (State.first memory : State Thread Job Code Answer Memory) memory where
  running t job code h := by simp [State.first] at h
  settled _ := rfl
  alone t job code h := by simp [State.first] at h

/-- Two jobs inside both read. -/
theorem Consistent.overlap {s : State Thread Job Code Answer Memory} {committed : Memory}
    (consistent : Consistent program s committed) {t u : Thread} (apart : u ≠ t)
    {job job' : Job} {code code' : Code} (here : s.inside t = some (job, code))
    (there : s.inside u = some (job', code')) : program.reads job := by
  by_contra writes
  have := consistent.alone t job code here writes u apart
  rw [there] at this
  contradiction

variable [DecidableEq Thread]

theorem Consistent.enter {s : State Thread Job Code Answer Memory} {committed : Memory}
    (consistent : Consistent program s committed) {t : Thread} {job : Job}
    (admits : s.Admits program job) :
    Consistent program
      { s with inside := Function.update s.inside t (some (job, program.start job)) }
      committed := by
  have settled : s.memory = committed :=
    consistent.settled fun u job' code h => (admits u job' code h).1
  constructor
  · intro u job' code h
    by_cases eq : u = t
    · subst eq
      simp only [Function.update_self, Option.some.injEq, Prod.mk.injEq] at h
      obtain ⟨rfl, rfl⟩ := h
      exact settled ▸ .start
    · exact consistent.running u job' code (by simpa [eq] using h)
  · exact fun _ => settled
  · intro u job' code h writes v apart
    by_cases eq : u = t
    · subst eq
      simp only [Function.update_self, Option.some.injEq, Prod.mk.injEq] at h
      obtain ⟨rfl, -⟩ := h
      simp only [Function.update_of_ne apart]
      cases other : s.inside v with
      | none => rfl
      | some there => exact absurd (admits v _ _ other).2 writes
    · have there : s.inside u = some (job', code) := by simpa [eq] using h
      exact absurd (admits u _ _ there).1 writes

theorem Consistent.work {s : State Thread Job Code Answer Memory} {committed : Memory}
    (consistent : Consistent program s committed) {t : Thread} {job : Job} {code : Code}
    (here : s.inside t = some (job, code)) :
    Consistent program ⟨(program.statement code s.memory).2,
      Function.update s.inside t (some (job, (program.statement code s.memory).1)), s.finished⟩
      committed := by
  have runs := consistent.running t job code here
  have same (reads : program.reads job) : (program.statement code s.memory).2 = s.memory :=
    (program.keeps _ (runs.reading reads).2).1
  constructor
  · intro u job' code' h
    by_cases eq : u = t
    · subst eq
      simp only [Function.update_self, Option.some.injEq, Prod.mk.injEq] at h
      obtain ⟨rfl, rfl⟩ := h
      exact .next runs
    · have there : s.inside u = some (job', code') := by simpa [eq] using h
      show Runs program job' committed code' (program.statement code s.memory).2
      rw [same (consistent.overlap eq here there)]
      exact consistent.running u job' code' there
  · intro all
    have reads := all t job _ (Function.update_self ..)
    show (program.statement code s.memory).2 = committed
    rw [same reads]
    exact (runs.reading reads).1
  · intro u job' code' h writes v apart
    by_cases eq : u = t
    · subst eq
      simp only [Function.update_self, Option.some.injEq, Prod.mk.injEq] at h
      obtain ⟨rfl, -⟩ := h
      simpa [apart] using consistent.alone u job code here writes v apart
    · have there : s.inside u = some (job', code') := by simpa [eq] using h
      exact absurd (consistent.overlap (Ne.symm eq) there here) writes

theorem Consistent.leave {s : State Thread Job Code Answer Memory} {committed : Memory}
    (consistent : Consistent program s committed) {t : Thread} {job : Job} {code : Code}
    (here : s.inside t = some (job, code)) (events : List (Thread × Job × Answer)) :
    Consistent program ⟨s.memory, Function.update s.inside t none, events⟩ s.memory := by
  have elsewhere {u : Thread} {found : Job × Code}
      (h : Function.update s.inside t none u = some found) : u ≠ t ∧ s.inside u = some found := by
    by_cases eq : u = t
    · subst eq
      simp at h
    · exact ⟨eq, by simpa [eq] using h⟩
  constructor
  · intro u job' code' h
    obtain ⟨apart, there⟩ := elsewhere h
    have reads := consistent.overlap apart here there
    have settled := ((consistent.running t job code here).reading reads).1
    show Runs program job' s.memory code' s.memory
    nth_rewrite 1 [settled]
    exact consistent.running u job' code' there
  · exact fun _ => rfl
  · intro u job' code' h writes
    obtain ⟨apart, there⟩ := elsewhere h
    exact absurd (consistent.overlap (Ne.symm apart) there here) writes

/-- A step commits nothing, or the one job that ends with it. -/
theorem Consistent.step {s later : State Thread Job Code Answer Memory} {committed : Memory}
    {t : Thread} (consistent : Consistent program s committed) (h : Step program s t later) :
    (Consistent program later committed ∧ later.finished = s.finished) ∨
      ∃ job code answer, s.inside t = some (job, code) ∧ program.answer code = some answer ∧
        Performs program job committed answer later.memory ∧
        Consistent program later later.memory ∧
        later.finished = s.finished ++ [(t, job, answer)] := by
  cases h with
  | enter _ admits => exact .inl ⟨consistent.enter admits, rfl⟩
  | work here => exact .inl ⟨consistent.work here, rfl⟩
  | @leave job code answer here answered =>
    have runs := consistent.running t job code here
    exact .inr ⟨job, code, answer, here, answered, ⟨code, runs, answered⟩,
      consistent.leave here _, rfl⟩

/-- The finished jobs are a serial history, and where those inside only read,
the memory is the one after it. -/
theorem serialises {memory : Memory} {s : State Thread Job Code Answer Memory}
    (run : Reachable (Step program) (.first memory) s) :
    ∃ committed, Serial program memory s.finished committed ∧ Consistent program s committed := by
  refine run.invariant (fun s => ∃ committed, Serial program memory s.finished committed ∧
    Consistent program s committed) ⟨memory, .nil, consistent_first memory⟩ ?_
  intro s later t inv _ h
  obtain ⟨committed, serial, consistent⟩ := inv
  obtain ⟨still, same⟩ | ⟨job, _, answer, -, -, performs, onwards, finished⟩ := consistent.step h
  · exact ⟨committed, same ▸ serial, still⟩
  · exact ⟨later.memory, finished ▸ .snoc serial performs, onwards⟩

end Sections
