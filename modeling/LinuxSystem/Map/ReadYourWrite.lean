import LinuxSystem.Map.Sound

/-!
# Read your write

`reads_its_writes` is the contract of the map over all sequential runs: a put
is read back, and neither a put nor a delete changes what any other key reads,
but for the entry a forced put on a full map evicts. `lookups_agree` compares
the two lookups a delete makes.
-/

namespace LinuxSystem.Map

open Probing

variable {c : Config}

theorem holds_update {nodes : Fin c.capacity → MapNode} {i j : Fin c.capacity} {node : MapNode}
    {key : MapKey} : Holds (Function.update nodes i node) j key ↔
      if j = i then Live node ∧ key.bytes = node.key.bytes else Holds nodes j key := by
  by_cases eq : j = i
  · simp [Holds, eq]
  · simp [Holds, eq]

/-- After a write no earlier slot of the path hides the one written. -/
theorem liveSlot_update {nodes : Fin c.capacity → MapNode} {i : Fin c.capacity} {node : MapNode}
    {key : MapKey} (live : Live node) (same : key.bytes = node.key.bytes)
    (path : Before (fun j => ¬ Holds nodes j key) (getIndex c key) i) :
    liveSlot (Function.update nodes i node) key = some i := by
  obtain ⟨d, hd, rfl⟩ := exists_ahead (getIndex c key) i
  refine liveSlot_eq_some.mpr ⟨d, hd, rfl, ?_, fun e he => ?_⟩
  · simp [holds_update, live, same]
  · have apart : ahead (getIndex c key) e ≠ ahead (getIndex c key) d := fun eq => by
      have := ahead_inj (by omega) hd eq
      omega
    rw [holds_update, if_neg apart]
    exact (before_ahead hd).mp path e he

theorem get_update {self : Hashmap c} {i : Fin c.capacity} {node : MapNode} {size : Nat}
    {key : MapKey} (base : key.keyBase ≠ 0) (live : Live node) (same : key.bytes = node.key.bytes)
    (path : Before (fun j => ¬ Holds self.nodes j key) (getIndex c key) i)
    (sound : Sound { self with nodes := Function.update self.nodes i node, size := size }) :
    (get { self with nodes := Function.update self.nodes i node, size := size } key).ret =
      node.val := by
  rw [get_eq sound, if_neg base, liveSlot_update live same path]
  simp

theorem PutEffect.get_key {self : Hashmap c} (sound : Sound self) {key : MapKey} {val : MapVal}
    {force : Bool} {outcome : Outcome c Bool} (base : key.keyBase ≠ 0) (value : val.valBase ≠ 0)
    (effect : PutEffect self key val force outcome) (accepted : outcome.ret = true) :
    (get outcome.self key).ret = val := by
  have sound' := effect.sound sound base value
  cases effect with
  | full => simp [Hashmap.refuse] at accepted
  | store i stored room path slot =>
    have fits : stored.keyBase ≠ 0 ∧ key.bytes = stored.bytes := by
      rcases slot with ⟨rfl, -⟩ | ⟨rfl, holds⟩
      · exact ⟨base, rfl⟩
      · exact ⟨holds.keyed, holds.bytes⟩
    exact get_update base ⟨fits.1, rfl⟩ fits.2 (path.mono fun j h => h.2) sound'
  | evict => exact get_update base ⟨base, rfl⟩ rfl before_self sound'

/-- A put leaves alone every slot that holds another key, before or after it,
unless it evicts that key. -/
theorem PutEffect.frame {self : Hashmap c} {key other : MapKey} {val : MapVal} {force : Bool}
    {outcome : Outcome c Bool} (effect : PutEffect self key val force outcome)
    (ne : other.bytes ≠ key.bytes)
    (spared : c.capacity ≤ self.size → ¬ Holds self.nodes (getIndex c key) other)
    (j : Fin c.capacity) (holds : Holds self.nodes j other ∨ Holds outcome.self.nodes j other) :
    outcome.self.nodes j = self.nodes j := by
  cases effect with
  | full => rfl
  | store i stored room path slot =>
    refine Function.update_of_ne (fun eq => ?_) _ _
    subst eq
    rcases holds with before | after
    · rcases slot with ⟨-, dead⟩ | ⟨-, same⟩
      · exact dead before.1
      · exact ne (before.bytes.trans same.bytes.symm)
    · have same := (holds_update.mp after)
      simp only [↓reduceIte] at same
      rcases slot with ⟨rfl, -⟩ | ⟨rfl, same'⟩
      · exact ne same.2
      · exact ne (same.2.trans same'.bytes.symm)
  | evict noRoom =>
    refine Function.update_of_ne (fun eq => ?_) _ _
    subst eq
    rcases holds with before | after
    · exact spared noRoom before
    · have same := (holds_update.mp after)
      simp only [↓reduceIte] at same
      exact ne same.2

/-- A put keeps a live entry whose slot it does not evict for another key. -/
theorem PutEffect.keeps {self : Hashmap c} {key other : MapKey} {val : MapVal} {force : Bool}
    {outcome : Outcome c Bool} (effect : PutEffect self key val force outcome)
    (base : key.keyBase ≠ 0) {i : Fin c.capacity} (holds : Holds self.nodes i other)
    (spared : c.capacity ≤ self.size → (self.size = c.capacity → force = true) →
      i = getIndex c key → other.bytes = key.bytes) :
    Holds outcome.self.nodes i other := by
  cases effect with
  | full => exact holds
  | store j stored room path slot =>
    rw [holds_update]
    split
    · rename_i eq
      subst eq
      rcases slot with ⟨-, dead⟩ | ⟨rfl, -⟩
      · exact absurd holds.1 dead
      · exact ⟨⟨holds.keyed, rfl⟩, holds.bytes⟩
    · exact holds
  | evict noRoom forced =>
    rw [holds_update]
    split
    · rename_i eq
      exact ⟨⟨base, rfl⟩, spared noRoom forced eq⟩
    · exact holds

theorem deleteSection_frame {self : Hashmap c} {key other : MapKey} {i : Fin c.capacity}
    (held : Holds self.nodes i key) (ne : other.bytes ≠ key.bytes) (j : Fin c.capacity)
    (holds : Holds self.nodes j other ∨ Holds (deleteSection self i).self.nodes j other) :
    (deleteSection self i).self.nodes j = self.nodes j := by
  refine Function.update_of_ne (fun eq => ?_) _ _
  subst eq
  rcases holds with before | after
  · exact ne (before.bytes.trans held.bytes.symm)
  · have live := after.1
    simp [deleteSection, Live] at live

/-- In every state a sequential run reaches: `put` returns; after one that
succeeds its key reads the new value and every other key reads what it read
before, save one that held the slot a forced put on a full map takes; and a
delete changes what no other key reads. -/
theorem reads_its_writes {self : Hashmap c} (reached : Reachable self) :
    (∀ key val force, ∃ outcome, put self key val force = some outcome ∧
      (outcome.ret = true →
        (get outcome.self key).ret = val ∧
        ∀ other, other.bytes ≠ key.bytes →
          ¬ (self.size = c.capacity ∧ Holds self.nodes (getIndex c key) other) →
          (get outcome.self other).ret = (get self other).ret)) ∧
    ∀ key other, other.bytes ≠ key.bytes →
      (get (delete self key).self other).ret = (get self other).ret := by
  have sound := reachable_sound reached
  constructor
  · intro key val force
    obtain ⟨outcome, returned⟩ := put_returns sound key val force
    refine ⟨outcome, returned, fun accepted => ?_⟩
    rcases put_cases returned with rfl | ⟨base, value, effect⟩
    · simp [Hashmap.refuse] at accepted
    refine ⟨effect.get_key sound base value accepted, fun other ne spared => ?_⟩
    refine get_congr sound (effect.sound sound base value) (effect.frame ne fun noRoom => ?_)
    exact fun holds => spared ⟨Nat.le_antisymm sound.bounded noRoom, holds⟩
  · intro key other ne
    rcases delete_cases sound key with ⟨same, -⟩ | ⟨i, holds, eq⟩
    · rw [same]
    · rw [eq]
      exact get_congr sound (deleteSection_sound sound holds.1) (deleteSection_frame holds ne)

/-- Two slots, and every probe starts at the first. -/
def twoSlots : Config := ⟨2, fun _ => 0, by decide, by decide⟩

/-- A key is there before another one is put and deleted. -/
theorem reads_its_first_write :
    ∃ self outcome, Reachable self ∧ (get self ⟨5, [98]⟩).ret = ⟨4, [2]⟩ ∧
      @put twoSlots self ⟨1, [97]⟩ ⟨2, [1]⟩ false = some outcome ∧
      (get outcome.self ⟨1, [97]⟩).ret = ⟨2, [1]⟩ ∧ (get outcome.self ⟨5, [98]⟩).ret = ⟨4, [2]⟩ ∧
      (get (delete outcome.self ⟨7, [97]⟩).self ⟨5, [98]⟩).ret = ⟨4, [2]⟩ := by
  have start : @Reachable twoSlots _ := Transition.Run.refl _
  have reached : Reachable _ := start.next
    (.put (rfl : put _ ⟨3, [98]⟩ ⟨4, [2]⟩ false = _))
  obtain ⟨outcome, returned, read⟩ := (reads_its_writes reached).1 ⟨1, [97]⟩ ⟨2, [1]⟩ false
  have accepted : some true = some outcome.ret :=
    congrArg (Option.map Outcome.ret) returned
  obtain ⟨own, others⟩ := read (Option.some.inj accepted).symm
  have other := others ⟨5, [98]⟩ (by decide) fun full => absurd full.1 (by decide)
  have later := (reads_its_writes (reached.next (.put returned))).2 ⟨7, [97]⟩ ⟨5, [98]⟩ (by decide)
  exact ⟨_, outcome, reached, rfl, returned, own, other, later.trans other⟩

/-! ## The two lookups of delete -/

/-- `get_true_index` and `get` miss the same keys, and the slot of a key they find
is live and holds the key and the value `get` returns. So a `delete` that passes
its entry check always finds its slot. -/
theorem lookups_agree {self : Hashmap c} (reached : Reachable self) (key : MapKey) :
    (getTrueIndex self key = none ↔ (get self key).ret.valBase = 0) ∧
    (∀ i, getTrueIndex self key = some i →
      Holds self.nodes i key ∧ (self.nodes i).val = (get self key).ret) ∧
    (deleteRefuses self key = false →
      ∃ i, getTrueIndex self key = some i ∧ delete self key = deleteSection self i) := by
  have sound := reachable_sound reached
  have missing : getTrueIndex self key = none ↔ (get self key).ret.valBase = 0 := by
    by_cases null : key.keyBase = 0
    · simp [getTrueIndex_eq sound, get_eq sound, null, MapVal.null]
    · rw [getTrueIndex_eq_none sound null, get_null_iff sound null]
  refine ⟨missing, ?_, ?_⟩
  · intro i found
    refine ⟨getTrueIndex_holds sound found, ?_⟩
    rw [getTrueIndex_eq sound] at found
    split at found
    · cases found
    · rename_i base
      rw [get_eq sound, if_neg base, found]
      rfl
  · intro admitted
    have present : getTrueIndex self key ≠ none := by
      intro absent
      have null := missing.1 absent
      simp [deleteRefuses, null] at admitted
    obtain ⟨i, found⟩ := Option.ne_none_iff_exists'.1 present
    exact ⟨i, found, by rw [delete, if_neg (by simp [admitted]), found]⟩

/-- The key of a map with one entry. -/
theorem lookups_agree_on_first_entry :
    ∃ self : Hashmap twoSlots, (get self ⟨1, [97]⟩).ret = ⟨2, [1]⟩ ∧
      ∃ i, getTrueIndex self ⟨1, [97]⟩ = some i ∧ delete self ⟨1, [97]⟩ = deleteSection self i := by
  have start : Reachable (createMap twoSlots) := Transition.Run.refl _
  have reached := start.next (.put (rfl : put _ ⟨1, [97]⟩ ⟨2, [1]⟩ false = _))
  exact ⟨_, rfl, (lookups_agree reached ⟨1, [97]⟩).2.2 rfl⟩

end LinuxSystem.Map
