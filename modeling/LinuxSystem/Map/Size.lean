import LinuxSystem.Map.ReadYourWrite

/-!
# What the size field says

`size` is never below the number of live slots, so `put` finds a slot it can
use and a delete never decrements zero. It is the number of live slots as long
as no put updates its key in place: an update counts its entry again.
-/

namespace LinuxSystem.Map

open Probing Transition

variable {c : Config}

/-- In every state a sequential run reaches: every put returns, its endless
probe loop after at most `capacity` visits, and every delete that reaches the
decrement finds a size of at least 1. -/
theorem put_ends_and_size_lasts {self : Hashmap c} (reached : Reachable self) :
    (∀ key val force, ∃ outcome, put self key val force = some outcome) ∧
    (∀ key val, self.size < c.capacity → ∃ visits ≤ c.capacity, ∃ nodes,
      Leaves (putVisit self.nodes key val) (getIndex c key) visits nodes) ∧
    ∀ key i, deleteRefuses self key = false → getTrueIndex self key = some i →
      1 ≤ self.size ∧ (delete self key).self.size + 1 = self.size := by
  have sound := reachable_sound reached
  refine ⟨put_returns sound, fun key val room => ?_, fun key i carried slot => ?_⟩
  · obtain ⟨nodes, found⟩ := put_probe_returns sound key val room
    obtain ⟨visits, enough, leaves⟩ := probe_leaves.mp found
    exact ⟨visits, enough, nodes, leaves⟩
  · obtain ⟨positive, size⟩ := size_deleteSection sound (getTrueIndex_holds sound slot).1
    have eq : delete self key = deleteSection self i := by simp [delete, carried, slot]
    rw [eq, size]
    omega

theorem first_put_ends :
    (∃ visits ≤ 2, ∃ nodes, Leaves (putVisit (createMap twoSlots).nodes ⟨1, [97]⟩ ⟨2, [1]⟩)
      (getIndex twoSlots ⟨1, [97]⟩) visits nodes) ∧
    ∃ self : Hashmap twoSlots, deleteRefuses self ⟨3, [97]⟩ = false ∧ 1 ≤ self.size := by
  have start : Reachable (createMap twoSlots) := Run.refl _
  have stored := start.next (.put (rfl : put _ ⟨1, [97]⟩ ⟨2, [1]⟩ false = _))
  refine ⟨(put_ends_and_size_lasts start).2.1 _ _ (by decide), _, ?_,
    ((put_ends_and_size_lasts stored).2.2 ⟨3, [97]⟩ ⟨0, by decide⟩
      (by decide) (by decide)).1⟩
  decide

/-! ## Size as a count of entries -/

/-- The put does not stop at a live copy of its key: a slot it can reuse lies
before every one. -/
def StoresAnew (self : Hashmap c) (key : MapKey) : Prop :=
  self.size < c.capacity → ∀ i, Holds self.nodes i key →
    ¬ Before (fun j => Live (self.nodes j)) (getIndex c key) i

/-- The calls of a run in which no put updates its key in place. -/
def NoUpdates (self : Hashmap c) : Call → Prop
  | .put key val _ => key.keyBase ≠ 0 → val.valBase ≠ 0 → StoresAnew self key
  | _ => True

def Counted (self : Hashmap c) : Prop := self.size = (liveSlots self).card

theorem counted_create (c : Config) : Counted (createMap c) := by
  simp [Counted, liveSlots, Live, createMap, MapNode.zero, MapKey.null]

theorem Counted.full {self : Hashmap c} (counted : Counted self) (noRoom : c.capacity ≤ self.size) :
    liveSlots self = Finset.univ := by
  refine Finset.eq_univ_of_card _ (Nat.le_antisymm (Finset.card_le_univ _) ?_)
  rw [Fintype.card_fin, ← counted]
  exact noRoom

theorem liveSlots_update {self : Hashmap c} {i : Fin c.capacity} {node : MapNode} {size : Nat}
    (live : Live node) :
    liveSlots { self with nodes := Function.update self.nodes i node, size := size } =
      insert i (liveSlots self) := by
  ext j
  rw [Finset.mem_insert, mem_liveSlots, mem_liveSlots]
  by_cases eq : j = i <;> simp [eq, live]

/-- The put reuses a slot that is not live exactly when it stores anew. -/
theorem storesAnew_iff {self : Hashmap c} {key stored : MapKey} {i : Fin c.capacity}
    (room : self.size < c.capacity)
    (path : Before (fun j => Live (self.nodes j) ∧ ¬ Holds self.nodes j key) (getIndex c key) i)
    (slot : stored = key ∧ ¬ Live (self.nodes i) ∨
      stored = (self.nodes i).key ∧ Holds self.nodes i key) :
    StoresAnew self key ↔ ¬ Live (self.nodes i) := by
  constructor
  · intro anew
    obtain ⟨-, dead⟩ | ⟨-, holds⟩ := slot
    · exact dead
    · exact absurd (path.mono fun _ h => h.1) (anew room i holds)
  · intro dead _ j holds live
    obtain ⟨d, hd, rfl⟩ := exists_ahead (getIndex c key) i
    obtain ⟨e, he, rfl⟩ := exists_ahead (getIndex c key) j
    obtain first | rfl | last := lt_trichotomy d e
    · exact dead ((before_ahead he).mp live d first)
    · exact dead holds.1
    · exact ((before_ahead hd).mp path e last).2 holds

/-- Of a map whose size counts its live slots, a put with room keeps it so
exactly when it stores anew. -/
theorem PutEffect.counted_iff {self : Hashmap c} (sound : Sound self) (counted : Counted self)
    {key : MapKey} {val : MapVal} {force : Bool} {outcome : Outcome c Bool}
    (base : key.keyBase ≠ 0) (effect : PutEffect self key val force outcome) :
    Counted outcome.self ↔ StoresAnew self key := by
  cases effect with
  | full size =>
    simp [Hashmap.refuse, counted, StoresAnew, size]
  | store i stored room path slot =>
    have live : Live ⟨stored, val, false⟩ := by
      obtain ⟨rfl, -⟩ | ⟨rfl, holds⟩ := slot
      · exact ⟨base, rfl⟩
      · exact ⟨holds.keyed, rfl⟩
    rw [storesAnew_iff room path slot, ← mem_liveSlots, Counted, liveSlots_update live,
      increment_eq room, counted]
    by_cases mem : i ∈ liveSlots self <;> simp [mem]
  | evict noRoom forced =>
    rw [Counted, liveSlots_update ⟨base, rfl⟩, counted.full noRoom]
    simp [StoresAnew, Nat.le_antisymm sound.bounded noRoom]

theorem step_counted {self later : Hashmap c} {call : Call} (sound : Sound self)
    (counted : Counted self) (anew : NoUpdates self call) (h : Step self call later) :
    Counted later := by
  cases h with
  | put h =>
    obtain rfl | ⟨base, value, effect⟩ := put_cases h
    · exact counted
    · exact (effect.counted_iff sound counted base).mpr (anew base value)
  | get => rwa [get_self]
  | delete =>
    obtain ⟨same, -⟩ | ⟨i, holds, eq⟩ := delete_cases sound _
    · rwa [same]
    · have live := mem_liveSlots.mpr holds.1
      rw [eq, Counted, liveSlots_deleteSection, (size_deleteSection sound holds.1).2,
        Finset.card_erase_of_mem live, counted]
  | clearMap =>
    rw [clearMap_eq sound, Counted, liveSlots, Finset.filter_eq_empty_iff.mpr]
    · rfl
    · exact fun i _ live => clearSection_keyed sound i live.1

/-- As long as no put updates its key in place, the size counts the live slots,
and a put is refused for lack of room or evicts only when every slot is live. -/
theorem size_counts_entries {self : Hashmap c} (run : Run Step NoUpdates (createMap c) self) :
    self.size = (liveSlots self).card ∧
    ∀ key val force outcome, put self key val force = some outcome →
      outcome.errno = some .ENOMEM ∨ outcome.destroyed ≠ [] → ∀ i, Live (self.nodes i) := by
  obtain ⟨sound, counted⟩ : Sound self ∧ Counted self :=
    run.invariant (fun map => Sound map ∧ Counted map)
      ⟨sound_create c, counted_create c⟩
      fun inv anew h => ⟨step_sound inv.1 h, step_counted inv.1 inv.2 anew h⟩
  refine ⟨counted, fun key val force outcome returned noticed i => ?_⟩
  have full : c.capacity ≤ self.size := by
    obtain rfl | ⟨-, -, effect⟩ := put_cases returned
    · simp [Hashmap.refuse] at noticed
    cases effect with
    | full size => exact size.ge
    | store => simp at noticed
    | evict noRoom => exact noRoom
  exact mem_liveSlots.mp (Counted.full counted full ▸ Finset.mem_univ i)

theorem two_entries_counted :
    ∃ self : Hashmap twoSlots, self.size = 2 ∧ self.size = (liveSlots self).card := by
  have anew : NoUpdates (createMap twoSlots) (.put ⟨1, [97]⟩ ⟨2, [1]⟩ false) :=
    fun _ _ _ i holds => absurd rfl holds.keyed
  have first := (Run.refl _).next (Step.put rfl) anew
  have second := first.next (@Step.put _ _ ⟨3, [98]⟩ ⟨4, [2]⟩ false _ rfl)
    fun _ _ _ i holds => absurd holds (by revert i; decide)
  exact ⟨_, rfl, (size_counts_entries second).1⟩

/-- One key is put twice: the size says 2, one of the two slots is NULL, and the
next put is refused. -/
theorem update_counts_twice :
    ¬ ∀ (c : Config) (self : Hashmap c), Reachable self →
      self.size = (liveSlots self).card ∧
      ∀ key val force outcome, put self key val force = some outcome →
        outcome.errno = some .ENOMEM ∨ outcome.destroyed ≠ [] → ∀ i, Live (self.nodes i) := by
  intro h
  have start : Reachable (createMap twoSlots) := Run.refl _
  have reached := (start.next (.put (rfl : put _ ⟨1, [97]⟩ ⟨2, [1]⟩ false = _))).next
    (.put (rfl : put _ ⟨3, [97]⟩ ⟨4, [2]⟩ false = _))
  have full := (h _ _ reached).2 ⟨5, [98]⟩ ⟨6, [3]⟩ false _ rfl (.inl rfl) ⟨1, by decide⟩
  revert full
  decide

end LinuxSystem.Map
