import LinuxSystem.Map.ReadYourWrite

/-!
# Responses of GET

The workers serve GET, PUT, EVICT and CLEAR on one map. `handle_get` writes the
value buffer it got from the map after the map's lock is free again, so another
request can have that buffer destroyed in between.
-/

namespace LinuxSystem.Server

open LinuxSystem.Map Transition

/-- What a worker is in the middle of. `responding val since` is a GET that has
looked up `val` when `since` entries had been destroyed, and not yet written it;
`found` and `indexed` are the sections of an EVICT. -/
inductive Worker (c : Config) where
  | idle
  | responding (val : MapVal) (since : Nat)
  | found (key : MapKey)
  | indexed (key : MapKey) (index : Fin c.capacity)

/-- The entries given to `free_map` so far are kept in order. -/
structure State (c : Config) (Thread : Type) where
  map : Hashmap c
  worker : Thread → Worker c
  destroyed : List (MapKey × MapVal)

inductive Action (Thread : Type) where
  | put (t : Thread) (key : MapKey) (val : MapVal)
  | get (t : Thread) (key : MapKey)
  | respond (t : Thread)
  | lookup (t : Thread) (key : MapKey)
  | search (t : Thread)
  | tombstone (t : Thread)
  | clear (t : Thread)

variable {c : Config} {Thread : Type} [DecidableEq Thread]

def State.start (c : Config) (Thread : Type) : State c Thread :=
  ⟨createMap c, fun _ => .idle, []⟩

def State.move (s : State c Thread) (t : Thread) (worker : Worker c) : State c Thread :=
  { s with worker := Function.update s.worker t worker }

def State.leave {α : Type} (s : State c Thread) (outcome : Outcome c α) : State c Thread :=
  { s with map := outcome.self, destroyed := s.destroyed ++ outcome.destroyed }

/-- `handle_put` always forces. A request that finds no value is answered at
once, with no value bytes. -/
inductive Step : State c Thread → Action Thread → State c Thread → Prop where
  | put {s outcome} (t key val) : s.worker t = .idle →
      Map.put s.map key val true = some outcome → Step s (.put t key val) (s.leave outcome)
  | notFound {s} (t key) : s.worker t = .idle → (Map.get s.map key).ret.valBase = 0 →
      Step s (.get t key) s
  | get {s} (t key) : s.worker t = .idle → (Map.get s.map key).ret.valBase ≠ 0 →
      Step s (.get t key) (s.move t (.responding (Map.get s.map key).ret s.destroyed.length))
  | respond {s val since} (t) : s.worker t = .responding val since →
      Step s (.respond t) (s.move t .idle)
  | refused {s} (t key) : s.worker t = .idle → deleteRefuses s.map key = true →
      Step s (.lookup t key) s
  | lookup {s} (t key) : s.worker t = .idle → deleteRefuses s.map key = false →
      Step s (.lookup t key) (s.move t (.found key))
  | missed {s key} (t) : s.worker t = .found key → getTrueIndex s.map key = none →
      Step s (.search t) (s.move t .idle)
  | search {s key index} (t) : s.worker t = .found key → getTrueIndex s.map key = some index →
      Step s (.search t) (s.move t (.indexed key index))
  | tombstone {s key index} (t) : s.worker t = .indexed key index →
      Step s (.tombstone t) ((s.leave (deleteSection s.map index)).move t .idle)
  | clear {s} (t) : s.worker t = .idle → Step s (.clear t) (s.leave (clearMap s.map))

/-- No value buffer that waits to be written has been destroyed since its
lookup. -/
def Intact (s : State c Thread) : Prop :=
  ∀ t val since, s.worker t = .responding val since →
    ∀ entry ∈ s.destroyed.drop since, entry.2.valBase ≠ val.valBase

/-- A PUT on a full map does not take the slot of a value that waits to be
written, and there is no CLEAR while a keyed slot has such a value. -/
def Spares (s : State c Thread) : Action Thread → Prop
  | .put _ key val => key.keyBase ≠ 0 → val.valBase ≠ 0 → c.capacity ≤ s.map.size →
      ∀ u val' since, s.worker u = .responding val' since →
        (s.map.nodes (getIndex c key)).val.valBase ≠ val'.valBase
  | .clear _ => ∀ u val since, s.worker u = .responding val since →
      ∀ i, Keyed s.map.nodes i → (s.map.nodes i).val.valBase ≠ val.valBase
  | _ => True

/-- A put destroys the one entry it evicts. -/
theorem put_destroyed {self : Hashmap c} {key : MapKey} {val : MapVal} {force : Bool}
    {outcome : Outcome c Bool} (h : Map.put self key val force = some outcome)
    {entry : MapKey × MapVal} (mem : entry ∈ outcome.destroyed) :
    key.keyBase ≠ 0 ∧ val.valBase ≠ 0 ∧ c.capacity ≤ self.size ∧
      entry.2 = (self.nodes (getIndex c key)).val := by
  rcases put_cases h with rfl | ⟨base, value, effect⟩
  · simp [Hashmap.refuse] at mem
  cases effect with
  | full => simp [Hashmap.refuse] at mem
  | store => simp at mem
  | evict noRoom =>
    obtain rfl := List.mem_singleton.mp mem
    exact ⟨base, value, noRoom, rfl⟩

theorem clearMap_destroyed {self : Hashmap c} {entry : MapKey × MapVal}
    (mem : entry ∈ (clearMap self).destroyed) :
    ∃ i, Keyed self.nodes i ∧ entry.2 = (self.nodes i).val := by
  unfold clearMap at mem
  split at mem
  · simp [Hashmap.refuse] at mem
  · obtain ⟨i, -, h⟩ := List.mem_filterMap.mp mem
    obtain ⟨cleared, eq⟩ := Option.ite_none_right_eq_some.mp h
    obtain rfl := Option.some.inj eq
    simp only [clears, Bool.and_eq_true, decide_eq_true_eq] at cleared
    exact ⟨i, cleared.1, rfl⟩

/-- With every lookup recorded before now, destroying buffers that nobody waits
to write keeps the rest intact. -/
structure Recorded (s : State c Thread) : Prop where
  past : ∀ t val since, s.worker t = .responding val since → since ≤ s.destroyed.length
  intact : Intact s

omit [DecidableEq Thread] in
theorem Recorded.leave {α : Type} {s : State c Thread} (recorded : Recorded s)
    {outcome : Outcome c α}
    (spared : ∀ t val since, s.worker t = .responding val since →
      ∀ entry ∈ outcome.destroyed, entry.2.valBase ≠ val.valBase) :
    Recorded (s.leave outcome) where
  past t val since h := by
    have := recorded.past t val since h
    simp only [State.leave, List.length_append]
    omega
  intact t val since h entry mem := by
    rw [State.leave, List.drop_append_of_le_length (recorded.past t val since h)] at mem
    rcases List.mem_append.mp mem with old | new
    · exact recorded.intact t val since h entry old
    · exact spared t val since h entry new

theorem Recorded.move {s : State c Thread} (recorded : Recorded s) {t : Thread} {worker : Worker c}
    (now : ∀ val since, worker = .responding val since → since = s.destroyed.length) :
    Recorded (s.move t worker) := by
  have earlier (u val since) (h : (s.move t worker).worker u = .responding val since) :
      since = s.destroyed.length ∨ s.worker u = .responding val since := by
    by_cases eq : u = t
    · exact .inl (now val since (by simpa [State.move, eq] using h))
    · exact .inr (by simpa [State.move, eq] using h)
  constructor
  · intro u val since h
    rcases earlier u val since h with rfl | old
    · exact Nat.le_refl _
    · exact recorded.past u val since old
  · intro u val since h entry mem
    rcases earlier u val since h with rfl | old
    · simp [State.move] at mem
    · exact recorded.intact u val since old entry mem

theorem step_recorded {s later : State c Thread} {action : Action Thread} (recorded : Recorded s)
    (spares : Spares s action) (h : Step s action later) : Recorded later := by
  cases h with
  | put t key val _ h =>
    apply recorded.leave
    intro u val' since responding entry mem
    obtain ⟨base, value, noRoom, eq⟩ := put_destroyed h mem
    rw [eq]
    exact spares base value noRoom u val' since responding
  | notFound => exact recorded
  | get => exact recorded.move fun val since eq => (Worker.responding.inj eq).2.symm
  | respond => exact recorded.move (by simp)
  | refused => exact recorded
  | lookup => exact recorded.move (by simp)
  | missed => exact recorded.move (by simp)
  | search => exact recorded.move (by simp)
  | @tombstone key index =>
    have left : Recorded (s.leave (deleteSection s.map index)) :=
      recorded.leave (by simp [deleteSection])
    exact left.move (by simp)
  | clear =>
    apply recorded.leave
    intro u val since responding entry mem
    obtain ⟨i, keyed, eq⟩ := clearMap_destroyed mem
    rw [eq]
    exact spares u val since responding i keyed

/-- In a run that spares the values waiting to be written, every GET writes a
buffer that has not been destroyed since its lookup. -/
theorem responses_are_intact {s : State c Thread} (run : Run Step Spares (State.start c Thread) s) :
    Intact s :=
  (run.invariant Recorded ⟨by simp [State.start], by simp [Intact, State.start]⟩ step_recorded).intact

theorem response_is_intact :
    ∃ s : State twoSlots Bool, s.worker true = .responding ⟨2, [1]⟩ 0 ∧
      s.map.size = 2 ∧ Intact s := by
  have start : Run Step Spares (State.start twoSlots Bool) _ := Run.refl _
  have put := start.next (.put true ⟨1, [97]⟩ ⟨2, [1]⟩ rfl rfl) fun _ _ full =>
    absurd full (by decide)
  have get := put.next (.get true ⟨5, [97]⟩ rfl (by decide)) trivial
  have run := get.next (.put false ⟨3, [98]⟩ ⟨4, [2]⟩ rfl rfl) fun _ _ full =>
    absurd full (by decide)
  exact ⟨_, rfl, rfl, responses_are_intact run⟩

/-- A PUT on a full map destroys the value that a GET is about to write. -/
theorem evicted_value_sent :
    ¬ ∀ (c : Config) (s : State c Bool), Transition.Reachable Step (State.start c Bool) s →
      Intact s := by
  intro h
  have start : Transition.Reachable Step (State.start twoSlots Bool) _ := Run.refl _
  have filled := (start.next (.put true ⟨1, [97]⟩ ⟨2, [1]⟩ rfl rfl)).next
    (.put true ⟨3, [98]⟩ ⟨4, [2]⟩ rfl rfl)
  have looked := filled.next (.get true ⟨5, [97]⟩ rfl (by decide))
  have reached := looked.next (.put false ⟨6, [99]⟩ ⟨7, [3]⟩ rfl rfl)
  exact h _ _ reached true _ _ rfl (⟨1, [97]⟩, ⟨2, [1]⟩) (by decide) rfl

end LinuxSystem.Server
