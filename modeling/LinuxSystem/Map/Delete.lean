import LinuxSystem.Map.ReadYourWrite

/-!
# Concurrent deletes

Any number of threads use one map, and each section under a lock is one step.
`delete` has three: the lookup, the index search and the tombstone write. It
lets go of the lock between them, so the index can go stale.
-/

namespace LinuxSystem.Map.Concurrent

open Transition

/-- Where a thread is: in no operation, or in a `delete` whose lookup found a
value, or in one that has its index. -/
inductive Pc (c : Config) where
  | idle
  | found (key : MapKey)
  | indexed (key : MapKey) (index : Fin c.capacity)

structure State (c : Config) (Thread : Type) where
  map : Hashmap c
  pc : Thread → Pc c

inductive Action (Thread : Type) where
  | put (t : Thread) (key : MapKey) (val : MapVal) (force : Bool)
  | get (t : Thread) (key : MapKey)
  | clearMap (t : Thread)
  | lookup (t : Thread) (key : MapKey)
  | search (t : Thread)
  | tombstone (t : Thread)

variable {c : Config} {Thread : Type} [DecidableEq Thread]

def State.start (c : Config) (Thread : Type) : State c Thread := ⟨createMap c, fun _ => .idle⟩

def State.move (s : State c Thread) (t : Thread) (pc : Pc c) : State c Thread :=
  { s with pc := Function.update s.pc t pc }

def State.set (s : State c Thread) (map : Hashmap c) : State c Thread := { s with map := map }

inductive Step : State c Thread → Action Thread → State c Thread → Prop where
  | put {s outcome} (t key val force) : s.pc t = .idle →
      Map.put s.map key val force = some outcome → Step s (.put t key val force) (s.set outcome.self)
  | get {s} (t key) : s.pc t = .idle → Step s (.get t key) s
  | clearMap {s} (t) : s.pc t = .idle → Step s (.clearMap t) (s.set (Map.clearMap s.map).self)
  | refused {s} (t key) : s.pc t = .idle → deleteRefuses s.map key = true →
      Step s (.lookup t key) s
  | lookup {s} (t key) : s.pc t = .idle → deleteRefuses s.map key = false →
      Step s (.lookup t key) (s.move t (.found key))
  | missed {s key} (t) : s.pc t = .found key → getTrueIndex s.map key = none →
      Step s (.search t) (s.move t .idle)
  | search {s key index} (t) : s.pc t = .found key → getTrueIndex s.map key = some index →
      Step s (.search t) (s.move t (.indexed key index))
  | tombstone {s key index} (t) : s.pc t = .indexed key index →
      Step s (.tombstone t) ((s.set (deleteSection s.map index).self).move t .idle)

/-- Every delete that has its index, and whose next step is the tombstone, has
the index of a live slot with its key. -/
def DeletesAim (s : State c Thread) : Prop :=
  ∀ t key index, s.pc t = .indexed key index → Holds s.map.nodes index key

/-- No step takes slot `index` from a delete that has its index: no other thread
tombstones it, no forced put of another key evicts it, and nobody clears the
map. -/
def Undisturbed (s : State c Thread) : Action Thread → Prop
  | .put _ key val force => key.keyBase ≠ 0 → val.valBase ≠ 0 →
      s.map.size = c.capacity → force = true →
      ∀ u key', s.pc u = .indexed key' (getIndex c key) → key'.bytes = key.bytes
  | .clearMap _ => ∀ u key index, s.pc u ≠ .indexed key index
  | .tombstone t => ∀ u ≠ t, ∀ key index key', s.pc t = .indexed key index →
      s.pc u ≠ .indexed key' index
  | _ => True

theorem DeletesAim.move {s : State c Thread} (aim : DeletesAim s) {t : Thread} {pc : Pc c}
    (mine : ∀ key index, pc = .indexed key index → Holds s.map.nodes index key) :
    DeletesAim (s.move t pc) := by
  intro u key index h
  by_cases eq : u = t
  · subst eq
    exact mine key index (by simpa [State.move] using h)
  · exact aim u key index (by simpa [State.move, eq] using h)

theorem step_sound {s later : State c Thread} {action : Action Thread} (sound : Sound s.map)
    (aim : DeletesAim s) (h : Step s action later) : Sound later.map := by
  cases h with
  | put _ _ _ _ _ h => exact put_sound sound h
  | get => exact sound
  | clearMap =>
    simp only [State.set, clearMap_eq sound]
    exact clearSection_sound sound
  | refused => exact sound
  | lookup => exact sound
  | missed => exact sound
  | search => exact sound
  | tombstone _ indexed => exact deleteSection_sound sound (aim _ _ _ indexed).1

theorem step_aims {s later : State c Thread} {action : Action Thread} (sound : Sound s.map)
    (aim : DeletesAim s) (undisturbed : Undisturbed s action) (h : Step s action later) :
    DeletesAim later := by
  cases h with
  | put t key val force _ h =>
    intro u key' index indexed
    rcases put_cases h with rfl | ⟨base, value, effect⟩
    · exact aim u key' index indexed
    apply effect.keeps base (aim u key' index indexed)
    intro noRoom forced eq
    subst eq
    have full := Nat.le_antisymm sound.bounded noRoom
    exact undisturbed base value full (forced full) u key' indexed
  | get => exact aim
  | clearMap => exact fun u key index indexed => absurd indexed (undisturbed u key index)
  | refused => exact aim
  | lookup => exact aim.move (by simp)
  | missed => exact aim.move (by simp)
  | search t found h =>
    apply aim.move
    intro key index eq
    obtain ⟨rfl, rfl⟩ := Pc.indexed.inj eq
    exact getTrueIndex_holds sound h
  | @tombstone key index t indexed =>
    intro u key' index' h
    by_cases eq : u = t
    · simp [State.move, eq] at h
    · have there : s.pc u = .indexed key' index' := by simpa [State.move, State.set, eq] using h
      have apart : index' ≠ index := by
        rintro rfl
        exact undisturbed u eq key index' key' indexed there
      have kept := aim u key' index' there
      simpa [State.move, State.set, deleteSection, Holds, apart] using kept

/-- In a run that disturbs no delete, each delete tombstones a live slot with
its key, and `size` is at least the number of live slots. -/
theorem undisturbed_deletes_aim {s : State c Thread}
    (run : Run Step Undisturbed (State.start c Thread) s) :
    DeletesAim s ∧ (liveSlots s.map).card ≤ s.map.size := by
  obtain ⟨sound, aim⟩ : Sound s.map ∧ DeletesAim s :=
    run.invariant (fun s => Sound s.map ∧ DeletesAim s)
      ⟨sound_create c, fun t key index h => by simp [State.start] at h⟩
      fun inv undisturbed h => ⟨step_sound inv.1 inv.2 h, step_aims inv.1 inv.2 undisturbed h⟩
  exact ⟨aim, sound.counted⟩

/-- Thread `false` puts another key between the search of `true` and its tombstone, and
has its own index when that is written. -/
theorem undisturbed_delete_aims :
    ∃ s : State twoSlots Bool, (s.map.nodes ⟨0, by decide⟩).tombstone = true ∧
      s.pc true = .idle ∧ s.pc false = .indexed ⟨5, [98]⟩ ⟨1, by decide⟩ ∧ s.map.size = 1 ∧
      Holds s.map.nodes ⟨1, by decide⟩ ⟨5, [98]⟩ ∧ (liveSlots s.map).card ≤ 1 := by
  have start : Run Step Undisturbed (State.start twoSlots Bool) _ := Run.refl _
  have put := start.next (.put true ⟨1, [97]⟩ ⟨2, [1]⟩ true rfl rfl)
    fun _ _ full => absurd full (by decide)
  have found := put.next (.lookup true ⟨3, [97]⟩ rfl rfl) trivial
  have indexed := found.next (.search true rfl rfl) trivial
  have other := indexed.next (.put false ⟨4, [98]⟩ ⟨6, [2]⟩ false rfl rfl)
    fun _ _ full => absurd full (by decide)
  have looked := other.next (.lookup false ⟨5, [98]⟩ rfl rfl) trivial
  have searched := looked.next (.search false rfl rfl) trivial
  have deleted := searched.next (.tombstone true rfl) fun u apart key index key' mine theirs => by
    cases u with
    | true => exact apart rfl
    | false =>
      injection mine with _ first
      injection theirs with _ second
      exact absurd (first.trans second.symm) (by decide)
  have aims := undisturbed_deletes_aim deleted
  exact ⟨_, rfl, rfl, rfl, rfl, aims.1 false _ _ rfl, aims.2⟩

/-- Two threads delete one key, and the second writes its tombstone over a slot
that is dead already: the size falls below the number of live slots. -/
theorem racing_deletes_miscount :
    ¬ ∀ (c : Config) (s : State c Bool), Transition.Reachable Step (State.start c Bool) s →
      DeletesAim s ∧ (liveSlots s.map).card ≤ s.map.size := by
  intro h
  have start : Transition.Reachable Step (State.start twoSlots Bool) _ := Run.refl _
  have filled := (start.next (.put true ⟨1, [97]⟩ ⟨2, [1]⟩ true rfl rfl)).next
    (.put true ⟨3, [98]⟩ ⟨4, [2]⟩ true rfl rfl)
  have looked := (filled.next (.lookup true ⟨5, [97]⟩ rfl rfl)).next (.lookup false ⟨6, [97]⟩ rfl rfl)
  have searched := (looked.next (.search true rfl rfl)).next (.search false rfl rfl)
  have reached := (searched.next (.tombstone true rfl)).next (.tombstone false rfl)
  have counted := (h _ _ reached).2
  revert counted
  decide

end LinuxSystem.Map.Concurrent
