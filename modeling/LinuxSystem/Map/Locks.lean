import LinuxSystem.Base.Threads
import LinuxSystem.Base.Transition

/-!
# The readers-writer protocol of the map

`get` and `get_true_index` are readers: under `fields_lock` each counts itself
in and out, the first locking `write_lock` and the last unlocking it. `put`, the
final section of `delete` and `clear_map` lock `write_lock` themselves. Every
lock, unlock, increment, decrement and test is one step of its thread.
-/

namespace LinuxSystem.Map.Locks

open Transition Threads

inductive Phase where
  | read
  | write
  deriving DecidableEq

inductive Op where
  | get
  | put
  | delete
  | clearMap

/-- A delete reads in `get`, reads again in `get_true_index`, and then writes. -/
def Op.phases : Op → List Phase
  | .get => [.read]
  | .put => [.write]
  | .delete => [.read, .read, .write]
  | .clearMap => [.write]

/-- The point of a thread, named for what it does next. -/
inductive Point where
  | out
  | incrementing
  | testingFirst
  | lockingWrite
  | leavingEntry
  | reading
  | decrementing
  | testingLast
  | unlockingWrite
  | leavingExit
  | writing
  deriving DecidableEq

structure Local where
  point : Point
  todo : List Phase

/-- `write_lock` also keeps on whose behalf it is held, which no step reads. -/
structure State (Thread : Type) where
  fieldsLock : Bool
  writeLock : Option Phase
  numReaders : Int
  thread : Thread → Local

def State.start (Thread : Type) : State Thread := ⟨false, none, 0, fun _ => ⟨.out, []⟩⟩

variable {Thread : Type}

section Steps

variable [DecidableEq Thread]

def State.place (s : State Thread) (t : Thread) (l : Local) : State Thread :=
  { s with thread := Function.update s.thread t l }

/-- One step of thread `t`. -/
inductive Step : State Thread → Thread → State Thread → Prop where
  | begin {s t} (op : Op) : s.thread t = ⟨.out, []⟩ → Step s t (s.place t ⟨.out, op.phases⟩)
  | lockFields {s t todo} : s.thread t = ⟨.out, .read :: todo⟩ → s.fieldsLock = false →
      Step s t ({ s with fieldsLock := true }.place t ⟨.incrementing, todo⟩)
  | increment {s t todo} : s.thread t = ⟨.incrementing, todo⟩ →
      Step s t ({ s with numReaders := s.numReaders + 1 }.place t ⟨.testingFirst, todo⟩)
  | first {s t todo} : s.thread t = ⟨.testingFirst, todo⟩ → s.numReaders = 1 →
      Step s t (s.place t ⟨.lockingWrite, todo⟩)
  | notFirst {s t todo} : s.thread t = ⟨.testingFirst, todo⟩ → s.numReaders ≠ 1 →
      Step s t (s.place t ⟨.leavingEntry, todo⟩)
  | lockWrite {s t todo} : s.thread t = ⟨.lockingWrite, todo⟩ → s.writeLock = none →
      Step s t ({ s with writeLock := some .read }.place t ⟨.leavingEntry, todo⟩)
  | leaveEntry {s t todo} : s.thread t = ⟨.leavingEntry, todo⟩ →
      Step s t ({ s with fieldsLock := false }.place t ⟨.reading, todo⟩)
  | relockFields {s t todo} : s.thread t = ⟨.reading, todo⟩ → s.fieldsLock = false →
      Step s t ({ s with fieldsLock := true }.place t ⟨.decrementing, todo⟩)
  | decrement {s t todo} : s.thread t = ⟨.decrementing, todo⟩ →
      Step s t ({ s with numReaders := s.numReaders - 1 }.place t ⟨.testingLast, todo⟩)
  | last {s t todo} : s.thread t = ⟨.testingLast, todo⟩ → s.numReaders = 0 →
      Step s t (s.place t ⟨.unlockingWrite, todo⟩)
  | notLast {s t todo} : s.thread t = ⟨.testingLast, todo⟩ → s.numReaders ≠ 0 →
      Step s t (s.place t ⟨.leavingExit, todo⟩)
  | unlockWrite {s t todo} : s.thread t = ⟨.unlockingWrite, todo⟩ →
      Step s t ({ s with writeLock := none }.place t ⟨.leavingExit, todo⟩)
  -- a delete whose search failed has nothing more to do
  | leaveExit {s t todo rest} : s.thread t = ⟨.leavingExit, todo⟩ → rest = todo ∨ rest = [] →
      Step s t ({ s with fieldsLock := false }.place t ⟨.out, rest⟩)
  | write {s t todo} : s.thread t = ⟨.out, .write :: todo⟩ → s.writeLock = none →
      Step s t ({ s with writeLock := some .write }.place t ⟨.writing, todo⟩)
  | doneWriting {s t todo} : s.thread t = ⟨.writing, todo⟩ →
      Step s t ({ s with writeLock := none }.place t ⟨.out, todo⟩)

/-- A thread inside an operation goes on, unless it waits for a lock. -/
theorem goes_on {s : State Thread} {t : Thread} (busy : (s.thread t).point ≠ .out)
    (fields : (s.thread t).point = .reading → s.fieldsLock = false)
    (write : (s.thread t).point = .lockingWrite → s.writeLock = none) :
    ∃ later, Step s t later := by
  cases h : s.thread t with
  | mk point todo =>
    rw [h] at busy fields write
    cases point with
    | out => contradiction
    | incrementing => exact ⟨_, .increment h⟩
    | testingFirst =>
      by_cases one : s.numReaders = 1
      · exact ⟨_, .first h one⟩
      · exact ⟨_, .notFirst h one⟩
    | lockingWrite => exact ⟨_, .lockWrite h (write rfl)⟩
    | leavingEntry => exact ⟨_, .leaveEntry h⟩
    | reading => exact ⟨_, .relockFields h (fields rfl)⟩
    | decrementing => exact ⟨_, .decrement h⟩
    | testingLast =>
      by_cases zero : s.numReaders = 0
      · exact ⟨_, .last h zero⟩
      · exact ⟨_, .notLast h zero⟩
    | unlockingWrite => exact ⟨_, .unlockWrite h⟩
    | leavingExit => exact ⟨_, .leaveExit h (.inl rfl)⟩
    | writing => exact ⟨_, .doneWriting h⟩

end Steps

/-! ## The invariant -/

/-- Incremented and not yet decremented. -/
def Local.counted (l : Local) : Bool :=
  match l.point with
  | .testingFirst | .lockingWrite | .leavingEntry | .reading | .decrementing => true
  | _ => false

def Local.holdsFields (l : Local) : Bool :=
  match l.point with
  | .out | .reading | .writing => false
  | _ => true

def Local.writes (l : Local) : Bool := l.point = .writing

/-- What the thread that holds `fields_lock` knows of the counter and of whether
the readers hold `write_lock` (`covered`). -/
def Local.Agrees (l : Local) (covered : Prop) (readers : Int) : Prop :=
  match l.point with
  | .testingFirst => covered ↔ readers ≠ 1
  | .lockingWrite => ¬ covered ∧ readers = 1
  | .testingLast => covered
  | .unlockingWrite => covered ∧ readers = 0
  | .incrementing | .leavingEntry | .decrementing | .leavingExit => covered ↔ readers ≠ 0
  | .out | .reading | .writing => True

theorem agrees_of_not_holding {l : Local} (h : l.holdsFields = false) (covered : Prop)
    (readers : Int) : l.Agrees covered readers := by
  obtain ⟨point, todo⟩ := l
  cases point <;> trivial

variable [Fintype Thread]

structure Protocol (s : State Thread) : Prop where
  readers : s.numReaders = count Local.counted s.thread
  fields : count Local.holdsFields s.thread = s.fieldsLock.toNat
  writers : count Local.writes s.thread = if s.writeLock = some .write then 1 else 0
  agrees : ∀ t, (s.thread t).Agrees (s.writeLock = some .read) s.numReaders
  settled : s.fieldsLock = false → (s.writeLock = some .read ↔ s.numReaders ≠ 0)

theorem protocol_start : Protocol (State.start Thread) where
  readers := by simp [State.start, count, Local.counted]
  fields := by simp [State.start, count, Local.holdsFields]
  writers := by simp [State.start, count, Local.writes]
  agrees t := trivial
  settled := by simp [State.start]

theorem Protocol.locked {s : State Thread} (inv : Protocol s) {t : Thread}
    (h : (s.thread t).holdsFields = true) : s.fieldsLock = true := by
  have some := count_pos.mpr ⟨t, h⟩
  rw [inv.fields] at some
  cases lock : s.fieldsLock with
  | true => rfl
  | false => simp [lock] at some

theorem Protocol.present {s : State Thread} (inv : Protocol s) {t : Thread}
    (h : (s.thread t).counted = true) : 1 ≤ s.numReaders := by
  have := count_pos.mpr ⟨t, h⟩
  have := inv.readers
  omega

theorem Protocol.writing {s : State Thread} (inv : Protocol s) {t : Thread}
    (h : (s.thread t).writes = true) : s.writeLock = some .write := by
  have some := count_pos.mpr ⟨t, h⟩
  rw [inv.writers] at some
  split at some
  · assumption
  · contradiction

/-! ## Exclusion -/

/-- A thread at `fields_lock` that is not counted alone finds the readers in
possession of `write_lock`. -/
theorem Local.Agrees.covered {l : Local} {covered : Prop} {readers : Int}
    (agrees : l.Agrees covered readers) (holds : l.holdsFields = true) (some : 1 ≤ readers)
    (more : l.counted = true → 2 ≤ readers) : covered := by
  obtain ⟨point, todo⟩ := l
  cases point with
  | out | reading | writing => contradiction
  | testingFirst =>
    have := more rfl
    exact agrees.mpr (by omega)
  | lockingWrite =>
    have := more rfl
    have : readers = 1 := agrees.2
    omega
  | testingLast => exact agrees
  | unlockingWrite => exact agrees.1
  | incrementing | leavingEntry | decrementing | leavingExit => exact agrees.mpr (by omega)

/-- The readers hold `write_lock` while one of them is inside. -/
theorem Protocol.covered {s : State Thread} (inv : Protocol s) {t : Thread}
    (inside : (s.thread t).point = .reading) : s.writeLock = some .read := by
  have counted : (s.thread t).counted = true := by simp [Local.counted, inside]
  have present := inv.present counted
  cases lock : s.fieldsLock with
  | false => exact (inv.settled lock).mpr (by omega)
  | true =>
    have some : 0 < count Local.holdsFields s.thread := by simp [inv.fields, lock]
    obtain ⟨u, holds⟩ := count_pos.mp some
    have apart : t ≠ u := by
      rintro rfl
      simp [Local.holdsFields, inside] at holds
    apply (inv.agrees u).covered holds present
    intro counted'
    have := two_le_count apart counted counted'
    have := inv.readers
    omega

def State.Writing (s : State Thread) (t : Thread) : Prop := (s.thread t).point = .writing

/-- Between the entry and the exit protocol. -/
def State.Reading (s : State Thread) (t : Thread) : Prop := (s.thread t).point = .reading

def State.Unfinished (s : State Thread) (t : Thread) : Prop := s.thread t ≠ ⟨.out, []⟩

theorem Protocol.exclusive {s : State Thread} (inv : Protocol s) {t u : Thread}
    (writing : s.Writing t) : ¬ s.Reading u ∧ (s.Writing u → u = t) := by
  have writes {v : Thread} (h : s.Writing v) : (s.thread v).writes = true := by
    simpa [Local.writes] using show (s.thread v).point = .writing from h
  constructor
  · intro reading
    have := inv.writing (writes writing)
    rw [inv.covered reading] at this
    contradiction
  · intro writing'
    by_contra apart
    have two := two_le_count apart (writes writing') (writes writing)
    rw [inv.writers] at two
    split at two <;> omega

/-! ## Every step keeps the protocol -/

variable [DecidableEq Thread]

/-- Thread `t` goes from `old` to `new`, leaving the shared words as given. -/
theorem Protocol.update {s : State Thread} (inv : Protocol s) {t : Thread} {old new : Local}
    (at_t : s.thread t = old) {fieldsLock : Bool} {writeLock : Option Phase} {numReaders : Int}
    (readers : numReaders + old.counted.toNat = s.numReaders + new.counted.toNat)
    (fields : fieldsLock.toNat + old.holdsFields.toNat =
      s.fieldsLock.toNat + new.holdsFields.toNat)
    (writers : (if writeLock = some .write then 1 else 0) + old.writes.toNat =
      (if s.writeLock = some .write then 1 else 0) + new.writes.toNat)
    (mine : new.Agrees (writeLock = some .read) numReaders)
    (others : old.holdsFields = true ∨
      numReaders = s.numReaders ∧ (writeLock = some .read ↔ s.writeLock = some .read))
    (settled : fieldsLock = false → (writeLock = some .read ↔ numReaders ≠ 0)) :
    Protocol ⟨fieldsLock, writeLock, numReaders, Function.update s.thread t new⟩ where
  readers := by
    have moved := count_update Local.counted s.thread t new
    have := inv.readers
    rw [at_t] at moved
    simp only
    omega
  fields := by
    have moved := count_update Local.holdsFields s.thread t new
    have := inv.fields
    rw [at_t] at moved
    simp only
    omega
  writers := by
    have moved := count_update Local.writes s.thread t new
    have := inv.writers
    rw [at_t] at moved
    simp only
    omega
  agrees u := by
    by_cases eq : u = t
    · subst eq
      simpa using mine
    simp only [Function.update_of_ne eq]
    rcases others with holds | ⟨same, covered⟩
    · have most : count Local.holdsFields s.thread ≤ 1 := by
        rw [inv.fields]
        exact Bool.toNat_le _
      exact agrees_of_not_holding (alone most (at_t ▸ holds) eq) _ _
    · rw [same, covered]
      exact inv.agrees u
  settled := settled

theorem step_protocol {s later : State Thread} {t : Thread} (inv : Protocol s)
    (h : Step s t later) : Protocol later := by
  have agrees := inv.agrees t
  have locked := inv.locked (t := t)
  have present := inv.present (t := t)
  have writing := inv.writing (t := t)
  cases h with
  | begin op at_t => exact inv.update at_t rfl rfl rfl trivial (.inr ⟨rfl, Iff.rfl⟩) inv.settled
  | lockFields at_t free =>
    refine inv.update at_t rfl ?_ rfl (inv.settled free) (.inr ⟨rfl, Iff.rfl⟩) (by simp)
    simp [free, Local.holdsFields]
  | increment at_t =>
    rw [at_t] at agrees locked
    refine inv.update at_t ?_ rfl rfl ?_ (.inl rfl) (by simp [locked rfl])
    · simp [Local.counted]
    · simp only [Local.Agrees] at agrees ⊢
      rw [agrees]
      omega
  | first at_t one =>
    rw [at_t] at agrees locked
    refine inv.update at_t rfl rfl rfl ?_ (.inl rfl) (by simp [locked rfl])
    exact ⟨fun covered => agrees.mp covered one, one⟩
  | notFirst at_t more =>
    rw [at_t] at agrees locked present
    have present := present rfl
    refine inv.update at_t rfl rfl rfl ?_ (.inl rfl) (by simp [locked rfl])
    exact iff_of_true (agrees.mpr more) (by omega)
  | lockWrite at_t free =>
    rw [at_t] at agrees locked
    have one : s.numReaders = 1 := agrees.2
    refine inv.update at_t rfl rfl (by simp [free, Local.writes]) ?_ (.inl rfl) (by simp [locked rfl])
    exact iff_of_true rfl (by simp [one])
  | leaveEntry at_t =>
    rw [at_t] at agrees locked
    refine inv.update at_t rfl ?_ rfl trivial (.inl rfl) fun _ => agrees
    simp [locked rfl, Local.holdsFields]
  | relockFields at_t free =>
    refine inv.update at_t rfl ?_ rfl (inv.settled free) (.inr ⟨rfl, Iff.rfl⟩) (by simp)
    simp [free, Local.holdsFields]
  | decrement at_t =>
    rw [at_t] at agrees locked present
    have present := present rfl
    refine inv.update at_t ?_ rfl rfl ?_ (.inl rfl) (by simp [locked rfl])
    · simp [Local.counted]
    · exact agrees.mpr (by omega)
  | last at_t zero =>
    rw [at_t] at agrees locked
    exact inv.update at_t rfl rfl rfl ⟨agrees, zero⟩ (.inl rfl) (by simp [locked rfl])
  | notLast at_t more =>
    rw [at_t] at agrees locked
    exact inv.update at_t rfl rfl rfl (iff_of_true agrees more) (.inl rfl) (by simp [locked rfl])
  | unlockWrite at_t =>
    rw [at_t] at agrees locked
    obtain ⟨covered, zero⟩ := agrees
    refine inv.update at_t rfl rfl (by simp [covered, Local.writes]) ?_ (.inl rfl)
      (by simp [locked rfl])
    exact iff_of_false (by simp) (by simp [zero])
  | leaveExit at_t =>
    rw [at_t] at agrees locked
    refine inv.update at_t rfl ?_ rfl trivial (.inl rfl) fun _ => agrees
    simp [locked rfl, Local.holdsFields]
  | write at_t free =>
    refine inv.update at_t rfl rfl (by simp [free, Local.writes]) trivial
      (.inr ⟨rfl, by simp [free]⟩) fun unlocked => ?_
    simpa [free] using inv.settled unlocked
  | doneWriting at_t =>
    rw [at_t] at writing
    have writing := writing rfl
    refine inv.update at_t rfl rfl (by simp [writing, Local.writes]) trivial
      (.inr ⟨rfl, by simp [writing]⟩) fun unlocked => ?_
    simpa [writing] using inv.settled unlocked

theorem reachable_protocol {s : State Thread}
    (reached : Reachable Step (State.start Thread) s) : Protocol s :=
  reached.invariant Protocol protocol_start fun inv _ h => step_protocol inv h

/-! ## Progress -/

/-- Where some operation is unfinished, a thread with an unfinished operation
can take a step. -/
theorem Protocol.progress {s : State Thread} (inv : Protocol s) {t : Thread}
    (unfinished : s.Unfinished t) : ∃ u later, s.Unfinished u ∧ Step s u later := by
  have busy {u : Thread} (h : (s.thread u).point ≠ .out) : s.Unfinished u := by
    intro eq
    exact h (by rw [eq])
  by_cases writer : ∃ w, s.Writing w
  · obtain ⟨w, writing⟩ := writer
    have point : (s.thread w).point = .writing := writing
    obtain ⟨later, h⟩ := goes_on (s := s) (t := w) (by simp [point]) (by simp [point]) (by simp [point])
    exact ⟨w, later, busy (by simp [point]), h⟩
  have noWriter : s.writeLock ≠ some .write := by
    intro held
    have some : 0 < count Local.writes s.thread := by simp [inv.writers, held]
    obtain ⟨w, writes⟩ := count_pos.mp some
    have point : (s.thread w).point = .writing := by simpa [Local.writes] using writes
    exact writer ⟨w, point⟩
  cases lock : s.fieldsLock with
  | true =>
    have some : 0 < count Local.holdsFields s.thread := by simp [inv.fields, lock]
    obtain ⟨u, holds⟩ := count_pos.mp some
    have out : (s.thread u).point ≠ .out := by
      intro eq
      simp [Local.holdsFields, eq] at holds
    obtain ⟨later, h⟩ := goes_on out
      (fun reading => by simp [Local.holdsFields, reading] at holds)
      (fun waiting => by
        have agrees := inv.agrees u
        simp only [Local.Agrees, waiting] at agrees
        cases held : s.writeLock with
        | none => rfl
        | some phase => cases phase <;> simp_all)
    exact ⟨u, later, busy out, h⟩
  | false =>
    by_cases reader : ∃ r, s.Reading r
    · obtain ⟨r, reading⟩ := reader
      have point : (s.thread r).point = .reading := reading
      obtain ⟨later, h⟩ := goes_on (s := s) (t := r) (by simp [point]) (fun _ => lock) (by simp [point])
      exact ⟨r, later, busy (by simp [point]), h⟩
    have out (u : Thread) : (s.thread u).point = .out := by
      have free := count_eq_zero.mp (inv.fields.trans (by simp [lock])) u
      cases point : (s.thread u).point with
      | out => rfl
      | reading => exact absurd ⟨u, point⟩ reader
      | writing => exact absurd ⟨u, point⟩ writer
      | _ => simp [Local.holdsFields, point] at free
    cases at_t : s.thread t with
    | mk point todo =>
      obtain rfl : point = .out := by simpa [at_t] using out t
      cases todo with
      | nil => exact absurd at_t unfinished
      | cons phase rest =>
        cases phase with
        | read => exact ⟨t, _, unfinished, .lockFields at_t lock⟩
        | write =>
          refine ⟨t, _, unfinished, .write at_t ?_⟩
          have none : count Local.counted s.thread = 0 :=
            count_eq_zero.mpr fun u => by simp [Local.counted, out u]
          have uncovered : s.writeLock ≠ some .read := fun held =>
            (inv.settled lock).mp held (by simp [inv.readers, none])
          cases held : s.writeLock with
          | none => rfl
          | some phase => cases phase <;> contradiction

/-- Whatever the threads and the order of their steps: a writer inside excludes
every reader inside and every other writer; `num_readers` counts the readers
that have incremented and not yet decremented it; and while an operation is
unfinished, a thread with one can take a step. -/
theorem readers_writer_safe {s : State Thread} (reached : Reachable Step (State.start Thread) s) :
    (∀ t u, s.Writing t → ¬ s.Reading u ∧ (s.Writing u → u = t)) ∧
    s.numReaders = count Local.counted s.thread ∧
    ∀ t, s.Unfinished t → ∃ u later, s.Unfinished u ∧ Step s u later :=
  have inv := reachable_protocol reached
  ⟨fun _ _ writing => inv.exclusive writing, inv.readers, fun _ => inv.progress⟩

/-- A reader is inside while a writer waits. -/
theorem reader_inside_goes_on :
    ∃ s : State Bool, s.Reading true ∧ s.Unfinished false ∧
      ∃ u later, s.Unfinished u ∧ Step s u later := by
  have start : Reachable Step (State.start Bool) _ := Run.refl _
  have locked := (start.next (.begin (t := true) .get rfl)).next (.lockFields (t := true) rfl rfl)
  have counted := (locked.next (.increment (t := true) rfl)).next (.first (t := true) rfl rfl)
  have inside := (counted.next (.lockWrite (t := true) rfl rfl)).next (.leaveEntry (t := true) rfl)
  obtain ⟨s, waited, reading, waiting⟩ : ∃ s : State Bool, Reachable Step (State.start Bool) s ∧
      s.Reading true ∧ (s.thread false).todo = [.write] :=
    ⟨_, inside.next (.begin (t := false) .put rfl), rfl, rfl⟩
  have unfinished : s.Unfinished false := fun done => by simp [done] at waiting
  exact ⟨s, reading, unfinished, (readers_writer_safe waited).2.2 false unfinished⟩

end LinuxSystem.Map.Locks
