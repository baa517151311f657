import LinuxSystem.Map.ReadYourWrite

/-!
# Invalidating the map

Every operation tests `invalid` before it locks and never again under the lock,
so `invalidate_map` can free the array while a thread is past its test. The
array is safe when no such thread is about to read or write it.
-/

namespace LinuxSystem.Map.Invalidate

open Transition

/-- What a thread does next: nothing, a section under the lock, or one of the
two checks of `invalid` inside `delete`, in its `get` and its `get_true_index`. -/
inductive Pc (c : Config) where
  | idle
  | put (key : MapKey) (val : MapVal) (force : Bool)
  | get (key : MapKey)
  | clear
  | checkGet (key : MapKey)
  | lookup (key : MapKey)
  | checkSearch (key : MapKey)
  | search (key : MapKey)
  | tombstone (index : Fin c.capacity)

/-- `touched` records that a section used the array after it was freed. -/
structure State (c : Config) (Thread : Type) where
  map : Hashmap c
  freed : Bool
  touched : Bool
  pc : Thread → Pc c
  invalidating : Bool

inductive Action (Thread : Type) where
  | thread (t : Thread)
  | checkInvalid
  | invalidate

variable {c : Config} {Thread : Type}

def State.start (c : Config) (Thread : Type) : State c Thread :=
  ⟨createMap c, false, false, fun _ => .idle, false⟩

/-- The entry check of a call. -/
def enter (map : Hashmap c) : Call → Pc c
  | .put key val force =>
    if map.invalid = true ∨ key.keyBase = 0 ∨ val.valBase = 0 then .idle else .put key val force
  | .get key => if map.invalid = true ∨ key.keyBase = 0 then .idle else .get key
  | .delete key => if map.invalid = true ∨ key.keyBase = 0 then .idle else .checkGet key
  | .clearMap => if map.invalid = true then .idle else .clear

/-- The checks of `invalid` in the calls `delete` makes. -/
def recheck (map : Hashmap c) : Pc c → Option (Pc c)
  | .checkGet key => some (if map.invalid = true then .idle else .lookup key)
  | .checkSearch key => some (if map.invalid = true then .idle else .search key)
  | _ => none

/-- The section a thread is about to run under the lock. -/
def lockedSection (map : Hashmap c) : Pc c → Option (Hashmap c × Pc c)
  | .put key val force => (putSection map key val force).map fun outcome => (outcome.self, .idle)
  | .get _ => some (map, .idle)
  | .clear => some ((clearSection map).self, .idle)
  | .lookup key =>
    some (map, if (getSection map key).valBase = 0 then .idle else .checkSearch key)
  | .search key => some (map, (getTrueIndexSection map key).elim .idle .tombstone)
  | .tombstone index => some ((deleteSection map index).self, .idle)
  | _ => none

/-- The section reads or writes `nodes`; a put refused for lack of room does not. -/
def Touches (map : Hashmap c) : Pc c → Prop
  | .put _ _ force => ¬ (c.capacity = map.size ∧ force = false)
  | .get _ | .clear | .lookup _ | .search _ | .tombstone _ => True
  | _ => False

variable [DecidableEq Thread]

def State.move (s : State c Thread) (t : Thread) (pc : Pc c) : State c Thread :=
  { s with pc := Function.update s.pc t pc }

inductive Step : State c Thread → Action Thread → State c Thread → Prop where
  | enter {s : State c Thread} (t call) : s.pc t = .idle →
      Step s (.thread t) (s.move t (enter s.map call))
  | recheck {s : State c Thread} {next} (t) : recheck s.map (s.pc t) = some next →
      Step s (.thread t) (s.move t next)
  | lockedSection {s : State c Thread} {map next} (t) :
      lockedSection s.map (s.pc t) = some (map, next) →
      s.freed = false ∨ ¬ Touches s.map (s.pc t) →
      Step s (.thread t) ({ s with map := map }.move t next)
  | stray {s : State c Thread} (t) : s.freed = true → Touches s.map (s.pc t) →
      Step s (.thread t) ({ s with touched := true }.move t .idle)
  | checkInvalid {s : State c Thread} : s.invalidating = false → s.map.invalid = false →
      Step s .checkInvalid { s with invalidating := true }
  | invalidate {s : State c Thread} : s.invalidating = true →
      Step s .invalidate
        { s with map := { s.map with invalid := true }, freed := true, invalidating := false }

/-- When the array is freed no thread is about to use it. A delete may stand before the
checks of its `get` or its `get_true_index`. -/
def NonePending (s : State c Thread) : Action Thread → Prop
  | .invalidate => ∀ t, ¬ Touches s.map (s.pc t)
  | _ => True

structure Barred (s : State c Thread) : Prop where
  untouched : s.touched = false
  invalid : s.freed = true → s.map.invalid = true
  none : s.freed = true → ∀ t, ¬ Touches s.map (s.pc t)

theorem enter_invalid {map : Hashmap c} (invalid : map.invalid = true) (call : Call) :
    enter map call = .idle := by
  cases call <;> simp [enter, invalid]

theorem recheck_invalid {map : Hashmap c} (invalid : map.invalid = true) {pc next : Pc c}
    (h : recheck map pc = some next) : next = .idle := by
  cases pc with
  | checkGet key => simpa [recheck, invalid] using h.symm
  | checkSearch key => simpa [recheck, invalid] using h.symm
  | _ => cases h

/-- A section that does not use the array is a put that is refused. -/
theorem lockedSection_refused {map map' : Hashmap c} {pc next : Pc c} (spared : ¬ Touches map pc)
    (h : lockedSection map pc = some (map', next)) : map' = map ∧ next = .idle := by
  cases pc with
  | put key val force =>
    have full : c.capacity = map.size ∧ force = false := not_not.mp spared
    simp only [lockedSection, putSection, full, and_self, ↓reduceIte, Option.map_some,
      Option.some.injEq, Prod.mk.injEq] at h
    exact ⟨h.1.symm, h.2.symm⟩
  | idle => cases h
  | checkGet => cases h
  | checkSearch => cases h
  | _ => exact absurd trivial spared

theorem Barred.move {s : State c Thread} (barred : Barred s) (t : Thread) {pc : Pc c}
    (idle : s.freed = true → pc = .idle) : Barred (s.move t pc) where
  untouched := barred.untouched
  invalid := barred.invalid
  none freed u := by
    by_cases eq : u = t
    · subst eq
      simp [State.move, idle freed, Touches]
    · simpa [State.move, eq] using barred.none freed u

theorem step_barred {s later : State c Thread} {action : Action Thread} (barred : Barred s)
    (alone : NonePending s action) (h : Step s action later) : Barred later := by
  cases h with
  | enter t call =>
    exact barred.move t fun freed => enter_invalid (barred.invalid freed) call
  | recheck t h => exact barred.move t fun freed => recheck_invalid (barred.invalid freed) h
  | @lockedSection map next t h safe =>
    obtain intact | spared := safe
    · have freed : ¬ s.freed = true := by simp [intact]
      exact ⟨barred.untouched, fun f => absurd f freed, fun f => absurd f freed⟩
    · obtain ⟨rfl, rfl⟩ := lockedSection_refused spared h
      exact barred.move t fun _ => rfl
  | stray t freed touches => exact absurd touches (barred.none freed t)
  | checkInvalid => exact ⟨barred.untouched, barred.invalid, barred.none⟩
  | invalidate =>
    refine ⟨barred.untouched, fun _ => rfl, fun _ t => ?_⟩
    have spared := alone t
    revert spared
    cases s.pc t <;> exact id

/-- In every run whose invalidation finds no thread about to use the array, no
section uses it after it was freed. -/
theorem no_use_after_free {s : State c Thread}
    (run : Run Step NonePending (State.start c Thread) s) : s.touched = false := by
  have barred : Barred s := run.invariant Barred
    ⟨rfl, fun freed => by simp [State.start] at freed, fun freed => by simp [State.start] at freed⟩
    fun inv alone h => step_barred inv alone h
  exact barred.untouched

/-- A put and a get come before the invalidation. A delete that is past its own check,
and a get that comes later, are refused. -/
theorem quiet_invalidation_is_safe :
    ∃ s : State twoSlots Bool, s.map.size = 1 ∧ s.freed = true ∧ s.pc true = .idle ∧
      s.pc false = .idle ∧ s.touched = false := by
  have start : Run Step NonePending (State.start twoSlots Bool) _ := Run.refl _
  have put := (start.next (.enter true (.put ⟨1, [97]⟩ ⟨2, [1]⟩ false) rfl) trivial).next
    (.lockedSection true rfl (.inl rfl)) trivial
  have got := (put.next (.enter false (.get ⟨3, [97]⟩) rfl) trivial).next
    (.lockedSection false rfl (.inl rfl)) trivial
  have checked := (got.next (.enter false (.delete ⟨3, [97]⟩) rfl) trivial).next
    (.checkInvalid rfl rfl) trivial
  have freed := checked.next (Step.invalidate rfl) fun t => by cases t <;> exact id
  have refused := (freed.next (.recheck false rfl) trivial).next
    (.enter true (.get ⟨5, [97]⟩) rfl) trivial
  exact ⟨_, rfl, rfl, rfl, rfl, no_use_after_free refused⟩

/-- The condition is exact: a thread about to use the array can do so right
after it is freed. -/
theorem pending_section_strays {s : State c Thread} {t : Thread} (ready : s.invalidating = true)
    (pending : Touches s.map (s.pc t)) :
    ∃ freed later, Step s .invalidate freed ∧ Step freed (.thread t) later ∧
      later.touched = true := by
  refine ⟨_, _, .invalidate ready, .stray t rfl ?_, rfl⟩
  revert pending
  cases s.pc t <;> exact id

/-- A get passes its check, the map is invalidated, and the get then walks the
freed array. -/
theorem get_walks_freed_array :
    ¬ ∀ (c : Config) (s : State c Bool), Transition.Reachable Step (State.start c Bool) s →
      s.touched = false := by
  intro h
  have start : Transition.Reachable Step (State.start twoSlots Bool) _ := Run.refl _
  have reached := (((start.next (.enter true (.get ⟨1, [97]⟩) rfl)).next
    (.checkInvalid rfl rfl)).next (.invalidate rfl)).next (.stray true rfl trivial)
  have untouched := h _ _ reached
  simp [State.move] at untouched

end LinuxSystem.Map.Invalidate
