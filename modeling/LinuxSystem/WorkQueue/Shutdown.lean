import LinuxSystem.WorkQueue.Fifo

/-!
# Shutting the queue down

`enqueue` and `dequeue` test `invalid` before they lock or wait, and
`invalidate_queue` leaves the semaphore as it is. A thread past its test then
links an item into the dead queue, or pops from it. The shutdown loses nothing
when no thread is between its test and its section, save dequeues that the
semaphore holds back.
-/

namespace LinuxSystem.WorkQueue.Shutdown

open Threads Transition

/-- As in the plain model, with a point for a dequeue past its test. -/
inductive Point where
  | idle
  | append (tmp : Nat)
  | post
  | wait
  | pop

/-- `holder` has the lock between the append and the post. `destroyed` records
the items passed to `destroy_function`, `readNull` that a dequeue went through a
NULL front. -/
structure State (Thread : Type) where
  queue : Queue
  invalid : Bool
  items : Nat
  holder : Option Thread
  point : Thread → Point
  invalidating : Bool
  appended : List Nat
  popped : List Nat
  destroyed : List Nat
  readNull : Bool

inductive Action (Thread : Type) where
  | thread (t : Thread)
  | checkInvalid
  | invalidate

variable {Thread : Type}

def State.start (Thread : Type) : State Thread :=
  ⟨createQueue, false, 0, none, fun _ => .idle, false, [], [], [], false⟩

/-- The loop of `invalidate_queue`: the items destroyed and what is left. -/
def drain : Nat → Queue → Option (List Nat × Queue)
  | 0, _ => none
  | fuel + 1, queue =>
    if queue.front = 0 then some ([], queue)
    else do
      let (item, queue) ← popSection queue
      let (items, queue) ← drain fuel queue
      some (item :: items, queue)

variable [DecidableEq Thread]

def State.place (s : State Thread) (t : Thread) (point : Point) : State Thread :=
  { s with point := Function.update s.point t point }

def State.itemOf (s : State Thread) (tmp : Nat) : Nat := ((s.queue.nodes tmp).map (·.item)).getD 0

inductive Step : State Thread → Action Thread → State Thread → Prop where
  | refuse {s t} : s.point t = .idle → Step s (.thread t) s
  | enqueue {s t} (tmp item : Nat) : s.point t = .idle → s.invalid = false → item ≠ 0 → tmp ≠ 0 →
      s.queue.nodes tmp = none →
      Step s (.thread t) ({ s with queue := newNode s.queue tmp item }.place t (.append tmp))
  | append {s t tmp queue} : s.point t = .append tmp → s.holder = none →
      appendSection s.queue tmp = some queue →
      Step s (.thread t) ({ s with
        queue := queue
        appended := s.appended ++ [s.itemOf tmp]
        holder := some t }.place t .post)
  | post {s t} : s.point t = .post →
      Step s (.thread t) ({ s with items := s.items + 1, holder := none }.place t .idle)
  | dequeue {s t} : s.point t = .idle → s.invalid = false → Step s (.thread t) (s.place t .wait)
  | wait {s t} : s.point t = .wait → 0 < s.items →
      Step s (.thread t) ({ s with items := s.items - 1 }.place t .pop)
  | pop {s t item queue} : s.point t = .pop → s.holder = none →
      popSection s.queue = some (item, queue) →
      Step s (.thread t) ({ s with queue := queue, popped := s.popped ++ [item] }.place t .idle)
  | popNull {s t} : s.point t = .pop → s.holder = none → s.queue.front = 0 →
      Step s (.thread t) ({ s with readNull := true }.place t .idle)
  | checkInvalid {s} : s.invalidating = false → s.invalid = false →
      Step s .checkInvalid { s with invalidating := true }
  | invalidate {s fuel items queue} : s.invalidating = true → s.holder = none →
      drain fuel s.queue = some (items, queue) →
      Step s .invalidate { s with
        queue := { queue with front := 0, rear := 0 }
        invalid := true
        destroyed := s.destroyed ++ items
        invalidating := false }

/-- No dequeue went through a NULL front, and every item appended was popped by
one dequeue, or is on the path from the front of a queue that is not
invalidated, or was destroyed once. -/
def Accounted (s : State Thread) : Prop :=
  s.readNull = false ∧ ∃ path, IsPath s.queue path ∧ (s.invalid = true → path = []) ∧
    s.appended.Perm (s.popped ++ path.map s.itemOf ++ s.destroyed)

/-- The queue is shut down while no enqueue is about to append and no dequeue is
about to pop, nor can go on to pop. -/
def Quiet (s : State Thread) : Action Thread → Prop
  | .invalidate => (∀ t tmp, s.point t ≠ .append tmp) ∧ (∀ t, s.point t ≠ .pop) ∧
      (s.items = 0 ∨ ∀ t, s.point t ≠ .wait)
  | _ => True

/-! ## Before the shutdown -/

def Point.plain : Point → WorkQueue.Point
  | .idle => .idle
  | .append tmp => .append tmp
  | .post => .post
  | .wait => .idle
  | .pop => .pop

/-- The state of the plain model, which has no test and no shutdown. -/
def State.plain (s : State Thread) : WorkQueue.State Thread :=
  ⟨s.queue, s.items, fun t => (s.point t).plain, s.appended, s.popped⟩

theorem place_plain (s : State Thread) (t : Thread) (point : Point) :
    (s.place t point).plain = s.plain.place t point.plain := by
  have moved : (fun u => (Function.update s.point t point u).plain) =
      Function.update (fun u => (s.point u).plain) t point.plain :=
    Function.comp_update Point.plain s.point t point
  simp only [State.plain, State.place, WorkQueue.State.place, moved]

/-- A step of a thread that reads no NULL is a step of the plain model, or none. -/
theorem step_plain {s later : State Thread} {t : Thread} (h : Step s (.thread t) later)
    (sane : later.readNull = s.readNull) (intact : s.readNull = false) :
    later.plain = s.plain ∨ WorkQueue.Step s.plain t later.plain := by
  have at_plain {point} (at_t : s.point t = point) : s.plain.point t = point.plain :=
    congrArg Point.plain at_t
  cases h with
  | refuse => exact .inl rfl
  | enqueue tmp item idle _ item_ne base free =>
    rw [place_plain]
    exact .inr (.calloc tmp item (at_plain idle) item_ne base free)
  | append at_t _ h =>
    rw [place_plain]
    exact .inr (.append (at_plain at_t) h)
  | post at_t =>
    rw [place_plain]
    exact .inr (.post (at_plain at_t))
  | dequeue idle =>
    have same : Function.update s.plain.point t Point.wait.plain = s.plain.point :=
      Function.update_eq_self_iff.mpr (at_plain idle).symm
    rw [place_plain, WorkQueue.State.place, same]
    exact .inl rfl
  | wait at_t some =>
    rw [place_plain]
    exact .inr (.wait (at_plain at_t) some)
  | pop at_t _ h =>
    rw [place_plain]
    exact .inr (.pop (at_plain at_t) h)
  | popNull => simp [State.place, intact] at sane

variable [Fintype Thread]

structure Running (s : State Thread) : Prop where
  valid : s.invalid = false
  intact : s.readNull = false
  kept : s.destroyed = []
  locked : ∀ t, s.point t = .post → s.holder = some t
  fifo : ∃ path, Fifo s.plain path

omit [DecidableEq Thread] in
theorem running_start : Running (State.start Thread) where
  valid := rfl
  intact := rfl
  kept := rfl
  locked t h := by simp [State.start] at h
  fifo := ⟨[], fifo_start⟩

omit [DecidableEq Thread] in
/-- A thread past `sem_wait` finds a node at `front`. -/
theorem Running.front {s : State Thread} (running : Running s) {t : Thread}
    (pops : s.point t = .pop) : s.queue.front ≠ 0 := by
  obtain ⟨path, fifo⟩ := running.fifo
  have some : 0 < count WorkQueue.Point.pops s.plain.point :=
    count_pos.mpr ⟨t, by simp [State.plain, pops, Point.plain, WorkQueue.Point.pops]⟩
  have balance := fifo.balance
  intro null
  have empty : path = [] := fifo.isPath.front_eq_zero.mp null
  rw [empty, List.length_nil] at balance
  omega

omit [Fintype Thread] in
theorem locked_place {s : State Thread} {t : Thread} {point : Point}
    (keeps : ∀ u ≠ t, s.point u = .post → s.holder = some u)
    (mine : point = .post → s.holder = some t) (u : Thread)
    (h : (s.place t point).point u = .post) : (s.place t point).holder = some u := by
  by_cases eq : u = t
  · subst eq
    exact mine (by simpa [State.place] using h)
  · exact keeps u eq (by simpa [State.place, eq] using h)

omit [Fintype Thread] in
/-- The thread at the post is the one that has the lock. -/
theorem step_locked {s later : State Thread} {action : Action Thread}
    (locked : ∀ t, s.point t = .post → s.holder = some t) (h : Step s action later) :
    ∀ t, later.point t = .post → later.holder = some t := by
  cases h with
  | refuse => exact locked
  | enqueue => exact locked_place (fun u _ h => locked u h) nofun
  | append _ free => exact locked_place (fun u _ h => by simp [locked u h] at free) fun _ => rfl
  | post at_t =>
    refine locked_place (fun u ne h => ?_) nofun
    have one := (locked u h).symm.trans (locked _ at_t)
    exact absurd (Option.some.inj one) ne
  | dequeue => exact locked_place (fun u _ h => locked u h) nofun
  | wait => exact locked_place (fun u _ h => locked u h) nofun
  | pop => exact locked_place (fun u _ h => locked u h) nofun
  | popNull => exact locked_place (fun u _ h => locked u h) nofun
  | checkInvalid => exact locked
  | invalidate => exact locked

theorem Running.thread {s later : State Thread} {t : Thread} (running : Running s)
    (h : Step s (.thread t) later) : Running later := by
  obtain ⟨path, fifo⟩ := running.fifo
  have locked := step_locked running.locked h
  have frame : later.invalid = s.invalid ∧ later.readNull = s.readNull ∧
      later.destroyed = s.destroyed := by
    cases h with
    | popNull at_t _ null => exact absurd null (running.front at_t)
    | _ => exact ⟨rfl, rfl, rfl⟩
  obtain ⟨invalid, readNull, destroyed⟩ := frame
  refine ⟨invalid.trans running.valid, readNull.trans running.intact,
    destroyed.trans running.kept, locked, ?_⟩
  obtain same | step := step_plain h readNull running.intact
  · exact ⟨path, same ▸ fifo⟩
  · exact step_fifo fifo step

/-! ## The shutdown -/

/-- The loop destroys the items on the path, in order. -/
theorem drain_eq {fuel : Nat} {queue left : Queue} {path items : List Nat}
    (isPath : IsPath queue path) (h : drain fuel queue = some (items, left)) :
    items = path.map fun a => ((queue.nodes a).map (·.item)).getD 0 := by
  induction fuel generalizing queue path items with
  | zero => cases h
  | succ fuel ih =>
    unfold drain at h
    cases path with
    | nil =>
      rw [if_pos (isPath.front_eq_zero.mpr rfl)] at h
      cases h
      rfl
    | cons a path =>
      have full : queue.front ≠ 0 := fun null => by simpa using isPath.front_eq_zero.mp null
      obtain ⟨node, queue', at_a, popped, isPath', same⟩ := isPath.pop
      simp only [if_neg full, popped, Option.bind_eq_bind, Option.bind_some,
        Option.bind_eq_some_iff] at h
      obtain ⟨⟨items', left'⟩, rest, eq⟩ := h
      cases eq
      have distinct := List.nodup_cons.mp isPath.distinct
      rw [ih isPath' rest, List.map_cons, at_a]
      refine congrArg _ (List.map_congr_left fun b hb => ?_)
      rw [same b fun eq => distinct.1 (eq ▸ hb)]

/-- The loop comes to an end: it pops each node once. -/
theorem drain_ends {queue : Queue} {path : List Nat} (isPath : IsPath queue path) :
    ∃ items left, drain (path.length + 1) queue = some (items, left) := by
  induction path generalizing queue with
  | nil =>
    unfold drain
    rw [if_pos (isPath.front_eq_zero.mpr rfl)]
    exact ⟨_, _, rfl⟩
  | cons a path ih =>
    have full : queue.front ≠ 0 := fun null => by simpa using isPath.front_eq_zero.mp null
    obtain ⟨node, queue', at_a, popped, isPath', same⟩ := isPath.pop
    obtain ⟨items, left, rest⟩ := ih isPath'
    refine ⟨node.item :: items, left, ?_⟩
    rw [List.length_cons, drain, if_neg full, popped]
    simp [rest]

/-- After a quiet shutdown no thread can go on to append or pop. -/
structure Closed (s : State Thread) : Prop where
  invalid : s.invalid = true
  done : s.invalidating = false
  intact : s.readNull = false
  isPath : IsPath s.queue []
  accounted : s.appended = s.popped ++ s.destroyed
  still : ∀ t, s.point t = .idle ∨ s.point t = .wait ∧ s.items = 0

theorem Running.invalidate {s later : State Thread} (running : Running s)
    (quiet : Quiet s .invalidate) (h : Step s .invalidate later) : Closed later := by
  obtain ⟨path, fifo⟩ := running.fifo
  obtain ⟨noAppend, noPop, noWait⟩ := quiet
  cases h with
  | invalidate ready free drained =>
    refine ⟨rfl, rfl, running.intact, ⟨rfl, .singleton 0, .nil, by simp, by simp⟩, ?_,
      fun t => ?_⟩
    · have destroyed := drain_eq fifo.isPath drained
      have order : s.appended = s.popped ++ path.map s.itemOf := fifo.order
      rw [running.kept, List.nil_append, destroyed]
      exact order
    · cases at_t : s.point t with
      | idle => exact .inl rfl
      | append tmp => exact absurd at_t (noAppend t tmp)
      | post => simp [running.locked t at_t] at free
      | wait => exact .inr ⟨rfl, noWait.resolve_right fun none => none t at_t⟩
      | pop => exact absurd at_t (noPop t)

omit [Fintype Thread] in
theorem Closed.step {s later : State Thread} {action : Action Thread} (closed : Closed s)
    (h : Step s action later) : later = s := by
  have still {t point} (at_t : s.point t = point) : point = .idle ∨ point = .wait ∧ s.items = 0 :=
    at_t ▸ closed.still t
  have invalid := closed.invalid
  cases h with
  | refuse => rfl
  | enqueue _ _ _ valid => simp [invalid] at valid
  | append at_t => simpa using still at_t
  | post at_t => simpa using still at_t
  | dequeue _ valid => simp [invalid] at valid
  | wait at_t some => simp [(still at_t).resolve_left nofun] at some
  | pop at_t => simpa using still at_t
  | popNull at_t => simpa using still at_t
  | checkInvalid _ valid => simp [invalid] at valid
  | invalidate ready => simp [closed.done] at ready

theorem step_running_or_closed {s later : State Thread} {action : Action Thread}
    (inv : Running s ∨ Closed s) (quiet : Quiet s action) (h : Step s action later) :
    Running later ∨ Closed later := by
  obtain running | closed := inv
  · cases action with
    | thread t => exact .inl (running.thread h)
    | checkInvalid =>
      cases h with
      | checkInvalid =>
        exact .inl ⟨running.valid, running.intact, running.kept, running.locked, running.fifo⟩
    | invalidate => exact .inr (running.invalidate quiet h)
  · exact .inr (closed.step h ▸ closed)

/-- In every run that is shut down quietly, no dequeue reads through a NULL front
and every item is accounted for. -/
theorem shutdown_loses_nothing {s : State Thread} (run : Run Step Quiet (State.start Thread) s) :
    Accounted s := by
  have inv : Running s ∨ Closed s :=
    run.invariant (fun s => Running s ∨ Closed s) (.inl running_start) step_running_or_closed
  obtain running | closed := inv
  · obtain ⟨path, fifo⟩ := running.fifo
    have order : s.appended = s.popped ++ path.map s.itemOf := fifo.order
    refine ⟨running.intact, path, fifo.isPath, fun invalid => ?_, ?_⟩
    · simp [running.valid] at invalid
    · rw [running.kept, List.append_nil, order]
  · exact ⟨closed.intact, [], closed.isPath, fun _ => rfl, by simp [closed.accounted]⟩

/-- The condition is exact: after any other shutdown some thread can go on to
break the account. -/
theorem loud_shutdown_breaks {s : State Thread} (running : Running s)
    (ready : s.invalidating = true) (free : s.holder = none) (loud : ¬ Quiet s .invalidate) :
    ∃ shut later, Step s .invalidate shut ∧ Reachable Step shut later ∧ ¬ Accounted later := by
  obtain ⟨path, fifo⟩ := running.fifo
  obtain ⟨items, left, drained⟩ := drain_ends fifo.isPath
  obtain ⟨shut, step, points, count, unlocked, null, invalid⟩ :
      ∃ shut, Step s .invalidate shut ∧ shut.point = s.point ∧ shut.items = s.items ∧
        shut.holder = none ∧ shut.queue.front = 0 ∧ shut.invalid = true :=
    ⟨_, .invalidate ready free drained, rfl, rfl, free, rfl, rfl⟩
  have broken {later : State Thread} (run : Reachable Step shut later)
      (read : later.readNull = true) :
      ∃ shut later, Step s .invalidate shut ∧ Reachable Step shut later ∧ ¬ Accounted later :=
    ⟨shut, later, step, run, fun accounted => nomatch read.symm.trans accounted.1⟩
  by_cases appends : ∃ t tmp, s.point t = .append tmp
  · obtain ⟨t, tmp, at_t⟩ := appends
    have base := (fifo.fresh t tmp (congrArg Point.plain at_t)).1
    refine ⟨shut, _, step, (Run.refl _).next
      (.append (points ▸ at_t) unlocked (if_pos null)) trivial, ?_⟩
    rintro ⟨-, path, isPath, empty, -⟩
    exact base (isPath.front_eq_zero.mpr (empty invalid))
  by_cases pops : ∃ t, s.point t = .pop
  · obtain ⟨t, at_t⟩ := pops
    exact broken ((Run.refl _).next (.popNull (points ▸ at_t) unlocked null) trivial) rfl
  · have waits : 0 < s.items ∧ ∃ t, s.point t = .wait := by
      by_contra still
      refine loud ⟨fun t tmp at_t => appends ⟨t, tmp, at_t⟩, fun t at_t => pops ⟨t, at_t⟩, ?_⟩
      by_cases none : s.items = 0
      · exact .inl none
      · exact .inr fun t at_t => still ⟨by omega, t, at_t⟩
    obtain ⟨some, t, at_t⟩ := waits
    have waited : Reachable Step shut _ :=
      (Run.refl _).next (.wait (points ▸ at_t) (count ▸ some)) trivial
    exact broken (waited.next (.popNull (t := t) (by simp [State.place]) unlocked null)) rfl

/-- One item is destroyed by the shutdown. -/
theorem quiet_shutdown_accounts :
    ∃ s : State Bool, s.invalid = true ∧ s.appended = [7] ∧ s.destroyed = [7] ∧ Accounted s := by
  have start : Run Step Quiet (State.start Bool) _ := Run.refl _
  have posted := ((start.next (.enqueue (t := true) 16 7 rfl rfl (by decide) (by decide) rfl)
    trivial).next (.append (t := true) rfl rfl rfl) trivial).next (.post (t := true) rfl) trivial
  have checked := posted.next (.checkInvalid rfl rfl) trivial
  refine ⟨_, rfl, rfl, rfl, shutdown_loses_nothing (checked.next
    (.invalidate rfl rfl (rfl : drain 2 _ = _)) ⟨fun t _ => ?_, fun t => ?_, .inr fun t => ?_⟩)⟩ <;>
    cases t <;> simp [State.place, State.start]

/-- A dequeue passes its test, one item is in the queue, and the queue is shut
down: the semaphore lets the dequeue through to a NULL front. -/
theorem dequeue_reads_null :
    ¬ ∀ s : State Bool, Reachable Step (State.start Bool) s → Accounted s := by
  intro h
  have start : Reachable Step (State.start Bool) _ := Run.refl _
  have posted := ((start.next (.enqueue (t := true) 16 7 rfl rfl (by decide) (by decide) rfl)).next
    (.append (t := true) rfl rfl rfl)).next (.post (t := true) rfl)
  have shut := ((posted.next (.dequeue (t := false) rfl rfl)).next (.checkInvalid rfl rfl)).next
    (.invalidate rfl rfl (rfl : drain 2 _ = _))
  have reached := (shut.next (.wait (t := false) rfl (by decide))).next
    (.popNull (t := false) rfl rfl rfl)
  exact nomatch (h _ reached).1

end LinuxSystem.WorkQueue.Shutdown
