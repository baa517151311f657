import LinuxSystem.Map.ReadYourWrite

/-!
# One live copy of each key

`put` takes the first slot of the probe path it can reuse. When that is a
tombstone in front of a live copy of the same key, the key is live twice, and
deleting one copy brings back the value of the other.
-/

namespace LinuxSystem.Map

open Probing Transition

variable {c : Config}

def OneCopy (nodes : Fin c.capacity → MapNode) : Prop :=
  ∀ i j key, Holds nodes i key → Holds nodes j key → i = j

/-- Where the key is live already, the put reaches that slot: no tombstone lies
before it on the path, or it is the slot a forced put on a full map takes. -/
def ReachesCopy (self : Hashmap c) (key : MapKey) (force : Bool) : Prop :=
  ∀ j, Holds self.nodes j key →
    if self.size < c.capacity then
      Before (fun i => (self.nodes i).tombstone = false) (getIndex c key) j
    else force = true → j = getIndex c key

/-- The calls of a run: every put that passes its entry check reaches the live
copy of its key. -/
def ReachesCopies (self : Hashmap c) : Call → Prop
  | .put key val force => key.keyBase ≠ 0 → val.valBase ≠ 0 → ReachesCopy self key force
  | _ => True

/-- A second copy of `key` can only be in slot `i`, where `key` is written. -/
theorem oneCopy_update {nodes : Fin c.capacity → MapNode} (one : OneCopy nodes)
    {i : Fin c.capacity} {node : MapNode} (live : Live node) :
    OneCopy (Function.update nodes i node) ↔ ∀ j, Holds nodes j node.key → j = i := by
  constructor
  · intro after j holds
    by_contra apart
    refine apart (after j i node.key ?_ ?_)
    · rwa [holds_update, if_neg apart]
    · simp [holds_update, live]
  · intro only j k key hj hk
    rw [holds_update] at hj hk
    have moved {l : Fin c.capacity} (h : Holds nodes l key) (same : key.bytes = node.key.bytes) :
        l = i := only l ⟨h.1, sameKey_iff.mpr (same.symm.trans h.bytes)⟩
    split at hj <;> split at hk <;> rename_i eqj eqk
    · exact eqj.trans eqk.symm
    · exact eqj.trans (moved hk hj.2).symm
    · exact (moved hj hk.2).trans eqk.symm
    · exact one j k key hj hk

/-- A put that is carried out keeps one copy of each key exactly when it reaches
the copy there is. -/
theorem PutEffect.oneCopy_iff {self : Hashmap c} (sound : Sound self) (one : OneCopy self.nodes)
    {key : MapKey} {val : MapVal} {force : Bool} {outcome : Outcome c Bool}
    (base : key.keyBase ≠ 0) (effect : PutEffect self key val force outcome)
    (accepted : outcome.ret = true) :
    OneCopy outcome.self.nodes ↔ ReachesCopy self key force := by
  cases effect with
  | full => simp [Hashmap.refuse] at accepted
  | store i stored room path slot =>
    have fits : stored.keyBase ≠ 0 ∧ stored.bytes = key.bytes := by
      rcases slot with ⟨rfl, -⟩ | ⟨rfl, holds⟩
      · exact ⟨base, rfl⟩
      · exact ⟨holds.keyed, holds.bytes.symm⟩
    have same (j) : Holds self.nodes j stored ↔ Holds self.nodes j key := by
      simp [Holds, fits.2]
    rw [oneCopy_update one ⟨fits.1, rfl⟩]
    simp only [same, ReachesCopy, if_pos room]
    refine forall₂_congr fun j holds => ⟨fun eq => ?_, fun reaches => ?_⟩
    · subst eq
      exact path.mono fun k h => h.1.2
    -- the slot written and the copy lie on one path; neither may come first
    obtain ⟨d, hd, rfl⟩ := exists_ahead (getIndex c key) i
    obtain ⟨e, he, rfl⟩ := exists_ahead (getIndex c key) j
    rcases lt_trichotomy d e with first | rfl | last
    · have live : Live (self.nodes (ahead (getIndex c key) d)) :=
        ⟨(before_ahead he).mp (sound.path holds) d first, (before_ahead he).mp reaches d first⟩
      rcases slot with ⟨-, dead⟩ | ⟨-, holds'⟩
      · exact absurd live dead
      · exact one _ _ key holds holds'
    · rfl
    · exact absurd holds ((before_ahead hd).mp path e last).2
  | evict noRoom forced =>
    have full : self.size = c.capacity := Nat.le_antisymm sound.bounded noRoom
    rw [oneCopy_update one ⟨base, rfl⟩]
    simp [ReachesCopy, full, forced full]

theorem oneCopy_deleteSection {self : Hashmap c} (one : OneCopy self.nodes) (i : Fin c.capacity) :
    OneCopy (deleteSection self i).self.nodes := by
  have old {j key} (h : Holds (deleteSection self i).self.nodes j key) :
      Holds self.nodes j key := by
    have h := holds_update.mp h
    split at h
    · simp [Live] at h
    · exact h
  exact fun j k key hj hk => one j k key (old hj) (old hk)

theorem step_oneCopy {self later : Hashmap c} {call : Call} (sound : Sound self)
    (one : OneCopy self.nodes) (reaches : ReachesCopies self call) (h : Step self call later) :
    OneCopy later.nodes := by
  cases h with
  | @put key val force outcome h =>
    rcases put_cases h with rfl | ⟨base, value, effect⟩
    · exact one
    cases accepted : outcome.ret with
    | true => exact (effect.oneCopy_iff sound one base accepted).mpr (reaches base value)
    | false => cases effect <;> first | exact one | contradiction
  | get => rwa [get_self]
  | delete =>
    rcases delete_cases sound _ with ⟨same, -⟩ | ⟨i, -, eq⟩
    · rwa [same]
    · rw [eq]
      exact oneCopy_deleteSection one i
  | clearMap =>
    rw [clearMap_eq sound]
    exact fun i j key hi => absurd hi.keyed (clearSection_keyed sound i)

/-! ## After a delete -/

def Absent (nodes : Fin c.capacity → MapNode) (key : MapKey) : Prop := ∀ i, ¬ Holds nodes i key

/-- The call is a put of `key` that succeeds. -/
def Stores (key : MapKey) (self : Hashmap c) : Call → Prop
  | .put key' val force => key'.bytes = key.bytes ∧
      ∃ outcome, put self key' val force = some outcome ∧ outcome.ret = true
  | _ => False

theorem delete_absent {self : Hashmap c} (sound : Sound self) (one : OneCopy self.nodes)
    {key : MapKey} (base : key.keyBase ≠ 0) : Absent (delete self key).self.nodes key := by
  rcases delete_cases sound key with ⟨same, absent⟩ | ⟨i, holds, eq⟩
  · rw [same]
    exact absent base
  · rw [eq]
    intro j after
    have after := holds_update.mp after
    split at after
    · simp [Live] at after
    · rename_i apart
      exact apart (one j i key after holds)

theorem PutEffect.absent {self : Hashmap c} {key other : MapKey} {val : MapVal} {force : Bool}
    {outcome : Outcome c Bool} (effect : PutEffect self key val force outcome)
    (absent : Absent self.nodes other)
    (quiet : ¬ (key.bytes = other.bytes ∧ outcome.ret = true)) :
    Absent outcome.self.nodes other := by
  by_cases accepted : outcome.ret = true
  · have ne : other.bytes ≠ key.bytes := fun eq => quiet ⟨eq.symm, accepted⟩
    intro j after
    have unchanged := effect.frame ne (fun _ => absent _) j (.inr after)
    unfold Holds at after
    rw [unchanged] at after
    exact absent j after
  · cases effect with
    | full => exact absent
    | store => exact absurd rfl accepted
    | evict => exact absurd rfl accepted

theorem step_absent {self later : Hashmap c} {call : Call} {key : MapKey} (sound : Sound self)
    (absent : Absent self.nodes key) (quiet : ¬ Stores key self call) (h : Step self call later) :
    Absent later.nodes key := by
  cases h with
  | put h =>
    rcases put_cases h with rfl | ⟨-, -, effect⟩
    · exact absent
    · exact effect.absent absent fun ⟨same, accepted⟩ => quiet ⟨same, _, h, accepted⟩
  | get => rwa [get_self]
  | delete =>
    rcases delete_cases sound _ with ⟨same, -⟩ | ⟨i, -, eq⟩
    · rwa [same]
    · rw [eq]
      intro j after
      have after := holds_update.mp after
      split at after
      · simp [Live] at after
      · exact absent j after
  | clearMap =>
    rw [clearMap_eq sound]
    exact fun i holds => clearSection_keyed sound i holds.keyed

/-- As long as every put reaches the live copy of its key, no key is live twice,
and what a delete removed stays away until the key is put again. -/
theorem no_stale_value {self : Hashmap c} (run : Run Step ReachesCopies (createMap c) self) :
    OneCopy self.nodes ∧
    ∀ key later, Run Step (fun map call => ¬ Stores key map call) (delete self key).self later →
      (get later key).ret = .null := by
  obtain ⟨sound, one⟩ : Sound self ∧ OneCopy self.nodes :=
    run.invariant (fun map => Sound map ∧ OneCopy map.nodes)
      ⟨sound_create c, fun i _ _ holds => absurd rfl holds.keyed⟩
      fun inv reaches h => ⟨step_sound inv.1 h, step_oneCopy inv.1 inv.2 reaches h⟩
  refine ⟨one, fun key later after => ?_⟩
  by_cases base : key.keyBase = 0
  · simp [get, base, Hashmap.refuse]
  obtain ⟨sound', absent⟩ : Sound later ∧ Absent later.nodes key :=
    after.invariant (fun map => Sound map ∧ Absent map.nodes key)
      ⟨delete_sound sound key, delete_absent sound one base⟩
      fun inv quiet h => ⟨step_sound inv.1 h, step_absent inv.1 inv.2 quiet h⟩
  rw [get_eq sound', if_neg base, liveSlot_eq_none.mpr absent]
  rfl

theorem deleted_key_stays_away :
    ∃ self : Hashmap twoSlots, (get self ⟨3, [97]⟩).ret = ⟨2, [1]⟩ ∧
      (get (delete self ⟨3, [97]⟩).self ⟨3, [97]⟩).ret = .null := by
  have reaches : ReachesCopies (createMap twoSlots) (.put ⟨1, [97]⟩ ⟨2, [1]⟩ false) :=
    fun _ _ _ holds => absurd rfl holds.keyed
  have run := (Run.refl _).next (Step.put rfl) reaches
  exact ⟨_, rfl, (no_stale_value run).2 _ _ (Run.refl _)⟩

/-- Two keys collide, the first is deleted, and the second is put again in front
of itself: deleting it once brings its old value back. -/
theorem stale_value_comes_back :
    ¬ ∀ (c : Config) (self : Hashmap c), Reachable self →
      OneCopy self.nodes ∧
      ∀ key later, Run Step (fun map call => ¬ Stores key map call) (delete self key).self later →
        (get later key).ret = .null := by
  intro h
  have start : Reachable (createMap twoSlots) := Run.refl _
  have reached := (((start.next
    (.put (rfl : put _ ⟨1, [97]⟩ ⟨2, [1]⟩ false = _))).next
    (.put (rfl : put _ ⟨3, [98]⟩ ⟨4, [2]⟩ false = _))).next
    (@Step.delete _ _ ⟨5, [97]⟩)).next
    (.put (rfl : put _ ⟨6, [98]⟩ ⟨7, [3]⟩ false = _))
  have gone := (h _ _ reached).2 ⟨8, [98]⟩ _ (Run.refl _)
  revert gone
  decide

end LinuxSystem.Map
