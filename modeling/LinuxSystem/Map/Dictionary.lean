import LinuxSystem.Map.OneCopy

/-!
# The map as a dictionary

What the map is for: a value for each key. It keeps to that as long as there is
room for one more entry at every put, and no key that has a value is put again
once a key has been removed; a clear takes back both.
-/

namespace LinuxSystem.Map

open Probing

variable {c : Config}

/-- `count` goes up with every put, a key that has a value included, and down
with every delete that removes one, as `size` does. `removed` tells whether there
was such a delete. -/
structure Dictionary where
  find : List UInt8 → Option (List UInt8)
  count : Nat
  removed : Bool

namespace Dictionary

def empty : Dictionary := ⟨fun _ => none, 0, false⟩

def put (d : Dictionary) (key val : List UInt8) : Dictionary :=
  ⟨Function.update d.find key (some val), d.count + 1, d.removed⟩

def delete (d : Dictionary) (key : List UInt8) : Dictionary :=
  if d.find key = none then d else ⟨Function.update d.find key none, d.count - 1, true⟩

/-- A put that finds room, and no tombstone in front of the key. -/
def Accepts (capacity : Nat) (d : Dictionary) (key : List UInt8) : Prop :=
  d.count < capacity ∧ (d.removed = true → d.find key = none)

instance (capacity : Nat) (d : Dictionary) (key : List UInt8) :
    Decidable (d.Accepts capacity key) :=
  inferInstanceAs (Decidable (_ ∧ _))

end Dictionary

/-- The bytes that `get` hands out. -/
def valueOf (val : MapVal) : Option (List UInt8) :=
  if val.valBase = 0 then none else some val.bytes

structure Represents (map : Hashmap c) (d : Dictionary) : Prop where
  sound : Sound map
  one : OneCopy map.nodes
  find : ∀ key : MapKey, key.keyBase ≠ 0 → valueOf (get map key).ret = d.find key.bytes
  count : map.size = d.count
  untouched : d.removed = false → ∀ i, Keyed map.nodes i → (map.nodes i).tombstone = false

variable {self : Hashmap c} {d : Dictionary}

theorem absent_find (represents : Represents self d) {key : MapKey} (base : key.keyBase ≠ 0) :
    d.find key.bytes = none ↔ ∀ i, ¬ Holds self.nodes i key := by
  rw [← represents.find key base, ← get_null_iff represents.sound base]
  simp [valueOf]

/-- A new map represents the empty dictionary, and so does a cleared one. -/
theorem represents_empty (sound : Sound self) (size : self.size = 0)
    (nothing : ∀ i, ¬ Keyed self.nodes i) : Represents self .empty where
  sound := sound
  one i _ _ holds := absurd holds.keyed (nothing i)
  find key base := by
    have null := (get_null_iff sound base).mpr fun i holds => nothing i holds.keyed
    simp [valueOf, null, Dictionary.empty]
  count := size
  untouched _ i keyed := absurd keyed (nothing i)

theorem represents_create (c : Config) : Represents (createMap c) .empty :=
  represents_empty (sound_create c) rfl fun _ keyed => keyed rfl

/-- The put reaches the copy there is, if there is one. -/
theorem Represents.reaches (represents : Represents self d) {key : MapKey} (base : key.keyBase ≠ 0)
    (accepts : d.Accepts c.capacity key.bytes) (force : Bool) : ReachesCopy self key force := by
  intro j holds
  rw [if_pos (represents.count ▸ accepts.1)]
  cases removed : d.removed with
  | true => exact absurd holds ((absent_find represents base).mp (accepts.2 removed) j)
  | false => exact (represents.sound.path holds).mono (represents.untouched removed)

/-- `get` looks at the bytes of the key only. -/
theorem get_bytes (sound : Sound self) {key key' : MapKey} (base : key.keyBase ≠ 0)
    (base' : key'.keyBase ≠ 0) (same : key'.bytes = key.bytes) :
    (get self key').ret = (get self key).ret := by
  have holds (i) : Holds self.nodes i key' ↔ Holds self.nodes i key := by simp [Holds, same]
  have slot : liveSlot self.nodes key' = liveSlot self.nodes key := by
    simp only [liveSlot, holds, getIndex_congr same]
  rw [get_eq sound, get_eq sound, if_neg base, if_neg base', slot]

theorem Represents.put (represents : Represents self d) (key : MapKey) (val : MapVal)
    (base : key.keyBase ≠ 0) (value : val.valBase ≠ 0)
    (accepts : d.Accepts c.capacity key.bytes) (force : Bool) :
    ∃ outcome, Map.put self key val force = some outcome ∧ outcome.ret = true ∧
      Represents outcome.self (d.put key.bytes val.bytes) := by
  have sound := represents.sound
  have room : self.size < c.capacity := represents.count ▸ accepts.1
  obtain ⟨outcome, returned⟩ := put_returns sound key val force
  have effect : PutEffect self key val force outcome := by
    apply putSection_effect
    rwa [Map.put, if_neg (by simp [sound.valid, base, value])] at returned
  have accepted : outcome.ret = true := by
    cases effect with
    | full size => omega
    | store | evict => rfl
  have sound' := effect.sound sound base value
  have find (other : MapKey) (otherBase : other.keyBase ≠ 0) :
      valueOf (get outcome.self other).ret = (d.put key.bytes val.bytes).find other.bytes := by
    by_cases same : other.bytes = key.bytes
    · rw [get_bytes sound' base otherBase same, effect.get_key sound base value accepted]
      simp [valueOf, value, Dictionary.put, same]
    · rw [get_congr sound sound' (effect.frame same fun noRoom => by omega),
        represents.find other otherBase]
      simp [Dictionary.put, same]
  refine ⟨outcome, returned, accepted, sound', ?_, find, ?_, fun intact => ?_⟩
  · exact (effect.oneCopy_iff sound represents.one base accepted).mpr
      (represents.reaches base accepts force)
  · cases effect with
    | full size => omega
    | store => exact (increment_eq room).trans (congrArg (· + 1) represents.count)
    | evict => omega
  · cases effect with
    | full size => omega
    | evict => omega
    | store i =>
      intro j keyed
      by_cases eq : j = i
      · simp [eq]
      · simp only [Keyed, Function.update_of_ne eq] at keyed ⊢
        exact represents.untouched intact j keyed

theorem Represents.delete (represents : Represents self d) (key : MapKey) (base : key.keyBase ≠ 0) :
    Represents (Map.delete self key).self (d.delete key.bytes) := by
  have sound := represents.sound
  rcases delete_cases sound key with ⟨same, absent⟩ | ⟨i, holds, eq⟩
  · rw [same, Dictionary.delete, if_pos ((absent_find represents base).mpr (absent base))]
    exact represents
  have found : d.find key.bytes ≠ none := fun none =>
    (absent_find represents base).mp none i holds
  have sound' := delete_sound sound key
  have gone := delete_absent sound represents.one base
  rw [eq] at sound' gone ⊢
  rw [Dictionary.delete, if_neg found]
  refine ⟨sound', oneCopy_deleteSection represents.one i, fun other otherBase => ?_, ?_, nofun⟩
  · by_cases same : other.bytes = key.bytes
    · rw [get_bytes sound' base otherBase same]
      simp [valueOf, (get_null_iff sound' base).mpr gone, same]
    · rw [get_congr sound sound' (deleteSection_frame holds same), represents.find other otherBase]
      simp [same]
  · rw [(size_deleteSection sound holds.1).2, represents.count]

theorem Represents.clear (represents : Represents self d) : Represents (clearMap self).self .empty := by
  rw [clearMap_eq represents.sound]
  exact represents_empty (clearSection_sound represents.sound) rfl
    (clearSection_keyed represents.sound)

end LinuxSystem.Map
