import LinuxSystem.Map.Lookup

/-!
# Soundness over whole runs

`put_effect` says all that an accepted put can do. Every section keeps the map
sound, and so does every sequential call; in a sound map `put` always returns.
-/

namespace LinuxSystem.Map

open Probing

variable {c : Config}

/-! ## What a put does -/

/-- The effect of a put whose arguments passed the entry check. -/
inductive PutEffect (self : Hashmap c) (key : MapKey) (val : MapVal) (force : Bool) :
    Outcome c Bool → Prop where
  | full (size : self.size = c.capacity) (gentle : force = false) :
      PutEffect self key val force (self.refuse false .ENOMEM)
  | store (i : Fin c.capacity) (stored : MapKey) (room : self.size < c.capacity)
      (path : Before (fun j => Live (self.nodes j) ∧ ¬ Holds self.nodes j key) (getIndex c key) i)
      (slot : stored = key ∧ ¬ Live (self.nodes i) ∨
        stored = (self.nodes i).key ∧ Holds self.nodes i key) :
      PutEffect self key val force ⟨true, none, [],
        { self with
          nodes := Function.update self.nodes i ⟨stored, val, false⟩
          size := increment self.size }⟩
  | evict (noRoom : c.capacity ≤ self.size) (forced : self.size = c.capacity → force = true) :
      PutEffect self key val force ⟨true, none,
        [((self.nodes (getIndex c key)).key, (self.nodes (getIndex c key)).val)],
        { self with nodes := Function.update self.nodes (getIndex c key) ⟨key, val, false⟩ }⟩

theorem putVisit_eq_none {nodes : Fin c.capacity → MapNode} {key : MapKey} {val : MapVal}
    {i : Fin c.capacity} :
    putVisit nodes key val i = none ↔ Live (nodes i) ∧ ¬ Holds nodes i key := by
  unfold putVisit Holds Live
  by_cases base : (nodes i).key.keyBase = 0 <;> by_cases tomb : (nodes i).tombstone = true <;>
    by_cases same : sameKey key (nodes i).key = true <;> simp [base, tomb, same]

theorem putVisit_eq_some {nodes nodes' : Fin c.capacity → MapNode} {key : MapKey} {val : MapVal}
    {i : Fin c.capacity} (h : putVisit nodes key val i = some nodes') :
    ∃ stored, (stored = key ∧ ¬ Live (nodes i) ∨ stored = (nodes i).key ∧ Holds nodes i key) ∧
      nodes' = Function.update nodes i ⟨stored, val, false⟩ := by
  simp only [putVisit] at h
  split at h
  · rename_i reusable
    refine ⟨key, .inl ⟨rfl, fun live => ?_⟩, (Option.some.inj h).symm⟩
    rcases reusable with null | tomb
    · exact live.1 null
    · simp [live.2] at tomb
  · rename_i live
    split at h
    · rename_i same
      simp only [not_or, Bool.not_eq_true] at live
      exact ⟨_, .inr ⟨rfl, live, same⟩, (Option.some.inj h).symm⟩
    · contradiction

theorem putSection_effect {self : Hashmap c} {key : MapKey} {val : MapVal} {force : Bool}
    {outcome : Outcome c Bool} (h : putSection self key val force = some outcome) :
    PutEffect self key val force outcome := by
  unfold putSection at h
  split at h
  · rename_i full
    obtain rfl := Option.some.inj h
    exact .full full.1.symm full.2
  rename_i full
  split at h
  · rename_i room
    obtain ⟨nodes, found, rfl⟩ := Option.map_eq_some_iff.mp h
    obtain ⟨d, hd, here, before⟩ := probe_eq_some.mp found
    obtain ⟨stored, slot, rfl⟩ := putVisit_eq_some here
    exact .store _ stored room
      ((before_ahead hd).mpr fun e he => putVisit_eq_none.mp (before e he)) slot
  · rename_i noRoom
    obtain rfl := Option.some.inj h
    exact .evict (by omega) fun size => by simpa [size] using full

/-- A put that fails its entry check changes nothing. -/
theorem put_cases {self : Hashmap c} {key : MapKey} {val : MapVal} {force : Bool}
    {outcome : Outcome c Bool} (h : put self key val force = some outcome) :
    outcome = self.refuse false .EINVAL ∨
      key.keyBase ≠ 0 ∧ val.valBase ≠ 0 ∧ PutEffect self key val force outcome := by
  unfold put at h
  split at h
  · exact .inl (Option.some.inj h).symm
  · rename_i checked
    simp only [not_or] at checked
    exact .inr ⟨checked.2.1, checked.2.2, putSection_effect h⟩

/-! ## What keeps a map sound -/

theorem keyed_update {nodes : Fin c.capacity → MapNode} {i j : Fin c.capacity} {node : MapNode}
    (base : node.key.keyBase ≠ 0) (h : Keyed nodes j) : Keyed (Function.update nodes i node) j := by
  by_cases eq : j = i
  · simpa [Keyed, eq] using base
  · simpa [Keyed, Function.update_of_ne eq] using h

theorem mem_liveSlots {self : Hashmap c} {i : Fin c.capacity} :
    i ∈ liveSlots self ↔ Live (self.nodes i) := by
  simp [liveSlots]

theorem increment_eq {size : Nat} (h : size < c.capacity) : increment size = size + 1 := by
  have := c.small
  exact if_neg (by omega)

theorem decrement_eq {size : Nat} (h : 0 < size) : decrement size = size - 1 :=
  if_neg (by omega)

theorem sound_create (c : Config) : Sound (createMap c) where
  valid := rfl
  anchored i keyed := absurd rfl keyed
  valued i keyed := absurd rfl keyed
  counted := by simp [liveSlots, Live, createMap, MapNode.zero, MapKey.null]
  bounded := Nat.zero_le _

/-- Writing a live entry for `stored` into a slot its path reaches. -/
theorem Sound.store {self : Hashmap c} (sound : Sound self) {i : Fin c.capacity} {stored : MapKey}
    {val : MapVal} {size : Nat} (base : stored.keyBase ≠ 0) (value : val.valBase ≠ 0)
    (path : Before (Keyed self.nodes) (getIndex c stored) i)
    (counted : (insert i (liveSlots self)).card ≤ size) (bounded : size ≤ c.capacity) :
    Sound { self with nodes := Function.update self.nodes i ⟨stored, val, false⟩, size := size } where
  valid := sound.valid
  anchored j keyed := by
    by_cases eq : j = i
    · subst eq
      simpa using path.mono fun _ => keyed_update base
    · simp only [Keyed, Function.update_of_ne eq] at keyed ⊢
      exact (sound.anchored j keyed).mono fun _ => keyed_update base
  valued j keyed := by
    by_cases eq : j = i
    · simpa [eq] using value
    · simp only [Keyed, Function.update_of_ne eq] at keyed ⊢
      exact sound.valued j keyed
  counted := by
    refine (Finset.card_le_card fun j hj => ?_).trans counted
    rw [mem_liveSlots] at hj
    rw [Finset.mem_insert, mem_liveSlots]
    by_cases eq : j = i
    · exact .inl eq
    · exact .inr (by simpa [Function.update_of_ne eq] using hj)
  bounded := bounded

theorem PutEffect.sound {self : Hashmap c} (sound : Sound self) {key : MapKey} {val : MapVal}
    {force : Bool} {outcome : Outcome c Bool} (base : key.keyBase ≠ 0) (value : val.valBase ≠ 0)
    (h : PutEffect self key val force outcome) : Sound outcome.self := by
  cases h with
  | full => exact sound
  | store i stored room path slot =>
    have keyed : stored.keyBase ≠ 0 ∧ getIndex c stored = getIndex c key := by
      rcases slot with ⟨rfl, -⟩ | ⟨rfl, holds⟩
      · exact ⟨base, rfl⟩
      · exact ⟨holds.keyed, getIndex_congr holds.bytes.symm⟩
    refine sound.store keyed.1 value (keyed.2 ▸ path.mono fun j h => h.1.1) ?_ ?_
    · rw [increment_eq room]
      have := Finset.card_insert_le i (liveSlots self)
      have := sound.counted
      omega
    · rw [increment_eq room]
      exact room
  | evict noRoom =>
    refine sound.store base value before_self ?_ sound.bounded
    exact ((Finset.card_le_univ _).trans (by simp)).trans noRoom

/-- A delete changes no key and no value. -/
theorem deleteSection_entry (self : Hashmap c) (i j : Fin c.capacity) :
    ((deleteSection self i).self.nodes j).key = (self.nodes j).key ∧
      ((deleteSection self i).self.nodes j).val = (self.nodes j).val := by
  by_cases eq : j = i <;> simp [deleteSection, eq]

theorem deleteSection_keyed (self : Hashmap c) (i : Fin c.capacity) :
    Keyed (deleteSection self i).self.nodes = Keyed self.nodes := by
  funext j
  simp only [Keyed, (deleteSection_entry self i j).1]

theorem liveSlots_deleteSection (self : Hashmap c) (i : Fin c.capacity) :
    liveSlots (deleteSection self i).self = (liveSlots self).erase i := by
  ext j
  rw [Finset.mem_erase, mem_liveSlots, mem_liveSlots]
  by_cases eq : j = i <;> simp [deleteSection, eq, Live]

theorem size_deleteSection {self : Hashmap c} (sound : Sound self) {i : Fin c.capacity}
    (live : Live (self.nodes i)) :
    0 < self.size ∧ (deleteSection self i).self.size = self.size - 1 := by
  have mem : i ∈ liveSlots self := mem_liveSlots.mpr live
  have positive : 0 < self.size := (Finset.card_pos.mpr ⟨i, mem⟩).trans_le sound.counted
  exact ⟨positive, decrement_eq positive⟩

theorem deleteSection_sound {self : Hashmap c} (sound : Sound self) {i : Fin c.capacity}
    (live : Live (self.nodes i)) : Sound (deleteSection self i).self := by
  have valid := sound.valid
  have counted := sound.counted
  have bounded := sound.bounded
  obtain ⟨positive, size⟩ := size_deleteSection sound live
  refine ⟨valid, fun j h => ?_, fun j h => ?_, ?_, ?_⟩
  · rw [deleteSection_keyed] at h ⊢
    rw [(deleteSection_entry self i j).1]
    exact sound.anchored j h
  · rw [deleteSection_keyed] at h
    rw [(deleteSection_entry self i j).2]
    exact sound.valued j h
  · rw [liveSlots_deleteSection, size, Finset.card_erase_of_mem (mem_liveSlots.mpr live)]
    omega
  · omega

theorem clearSection_keyed {self : Hashmap c} (sound : Sound self) (i : Fin c.capacity) :
    ¬ Keyed (clearSection self).self.nodes i := by
  by_cases keyed : Keyed self.nodes i
  · have clears : clears (self.nodes i) = true := by
      simpa [clears] using ⟨keyed, sound.valued i keyed⟩
    simp [Keyed, clearSection, clearNode, clears, MapKey.null]
  · have kept : clears (self.nodes i) = false := by
      simp only [Keyed, not_not] at keyed
      simp [clears, keyed]
    simpa [Keyed, clearSection, clearNode, kept] using keyed

theorem clearSection_sound {self : Hashmap c} (sound : Sound self) :
    Sound (clearSection self).self where
  valid := sound.valid
  anchored i keyed := absurd keyed (clearSection_keyed sound i)
  valued i keyed := absurd keyed (clearSection_keyed sound i)
  counted := by
    rw [liveSlots, Finset.filter_eq_empty_iff.mpr fun i _ live => clearSection_keyed sound i live.1]
    rfl
  bounded := Nat.zero_le _

/-! ## Sequential calls -/

/-- In a sound map a delete either finds no slot with its key and is refused,
or tombstones the first one. -/
theorem delete_effect {self : Hashmap c} (sound : Sound self) (key : MapKey) :
    (delete self key = self.refuse .zero .EINVAL ∧
      (key.keyBase ≠ 0 → ∀ i, ¬ Holds self.nodes i key)) ∨
    ∃ i, Holds self.nodes i key ∧ delete self key = deleteSection self i := by
  unfold delete
  split
  · rename_i refused
    refine .inl ⟨rfl, fun base => ?_⟩
    simp only [deleteRefuses, sound.valid, base, decide_false, Bool.false_or,
      decide_eq_true_eq] at refused
    exact (get_null_iff sound base).mp refused
  · cases slot : getTrueIndex self key with
    | none => exact .inl ⟨rfl, fun base => (getTrueIndex_eq_none sound base).mp slot⟩
    | some i => exact .inr ⟨i, getTrueIndex_holds sound slot, rfl⟩

theorem delete_cases {self : Hashmap c} (sound : Sound self) (key : MapKey) :
    ((delete self key).self = self ∧ (key.keyBase ≠ 0 → ∀ i, ¬ Holds self.nodes i key)) ∨
      ∃ i, Holds self.nodes i key ∧ delete self key = deleteSection self i := by
  obtain ⟨eq, absent⟩ | deleted := delete_effect sound key
  · exact .inl ⟨by rw [eq]; rfl, absent⟩
  · exact .inr deleted

theorem put_sound {self : Hashmap c} (sound : Sound self) {key : MapKey} {val : MapVal}
    {force : Bool} {outcome : Outcome c Bool} (h : put self key val force = some outcome) :
    Sound outcome.self := by
  rcases put_cases h with rfl | ⟨base, value, effect⟩
  · exact sound
  · exact effect.sound sound base value

theorem delete_sound {self : Hashmap c} (sound : Sound self) (key : MapKey) :
    Sound (delete self key).self := by
  rcases delete_cases sound key with ⟨same, -⟩ | ⟨i, holds, eq⟩
  · rwa [same]
  · rw [eq]
    exact deleteSection_sound sound holds.1

theorem get_self (self : Hashmap c) (key : MapKey) : (get self key).self = self := by
  unfold get
  split <;> rfl

theorem clearMap_eq {self : Hashmap c} (sound : Sound self) : clearMap self = clearSection self := by
  simp [clearMap, sound.valid]

theorem step_sound {self later : Hashmap c} {call : Call} (sound : Sound self)
    (h : Step self call later) : Sound later := by
  cases h with
  | put h => exact put_sound sound h
  | get => rwa [get_self]
  | delete => exact delete_sound sound _
  | clearMap =>
    rw [clearMap_eq sound]
    exact clearSection_sound sound

theorem reachable_sound {self : Hashmap c} (reached : Reachable self) : Sound self :=
  reached.invariant Sound (sound_create c) fun sound _ h => step_sound sound h

/-- The probe loop of `put` meets a slot it can use within one turn. -/
theorem put_probe_returns {self : Hashmap c} (sound : Sound self) (key : MapKey) (val : MapVal)
    (room : self.size < c.capacity) :
    ∃ nodes, probe (putVisit self.nodes key val) c.capacity (getIndex c key) = some nodes := by
  have dead : ∃ i, ¬ Live (self.nodes i) := by
    by_contra all
    push Not at all
    have full : liveSlots self = Finset.univ := by
      ext i
      simpa [mem_liveSlots] using all i
    have := sound.counted
    rw [full, Finset.card_univ, Fintype.card_fin] at this
    omega
  obtain ⟨i, dead⟩ := dead
  cases found : probe (putVisit self.nodes key val) c.capacity (getIndex c key) with
  | some nodes => exact ⟨_, rfl⟩
  | none =>
    obtain ⟨d, hd, rfl⟩ := exists_ahead (getIndex c key) i
    exact absurd (putVisit_eq_none.mp (probe_eq_none.mp found d hd)).1 dead

theorem put_returns {self : Hashmap c} (sound : Sound self) (key : MapKey) (val : MapVal)
    (force : Bool) : ∃ outcome, put self key val force = some outcome := by
  unfold put putSection
  split
  · exact ⟨_, rfl⟩
  split
  · exact ⟨_, rfl⟩
  split
  · rename_i room
    obtain ⟨nodes, found⟩ := put_probe_returns sound key val room
    exact ⟨_, by rw [found]; rfl⟩
  · exact ⟨_, rfl⟩

end LinuxSystem.Map
