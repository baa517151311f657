import LinuxSystem.Map.Model
import Mathlib.Data.Fintype.Card

/-!
# What a lookup finds

In a sound map no slot that keeps a key lies behind a NULL slot on that key's
probe path. So a lookup that stops at NULL finds the first live slot with the
key, as one that visited every slot would (`liveSlot`).
-/

namespace LinuxSystem.Map

open Probing

variable {c : Config}

def Live (node : MapNode) : Prop := node.key.keyBase ≠ 0 ∧ node.tombstone = false

instance (node : MapNode) : Decidable (Live node) := inferInstanceAs (Decidable (_ ∧ _))

/-- Slot `i` is live and its key equals `key`. -/
def Holds (nodes : Fin c.capacity → MapNode) (i : Fin c.capacity) (key : MapKey) : Prop :=
  Live (nodes i) ∧ sameKey key (nodes i).key = true

instance (nodes : Fin c.capacity → MapNode) (i : Fin c.capacity) (key : MapKey) :
    Decidable (Holds nodes i key) :=
  inferInstanceAs (Decidable (_ ∧ _))

def liveSlots (self : Hashmap c) : Finset (Fin c.capacity) :=
  Finset.univ.filter fun i => Live (self.nodes i)

def Keyed (nodes : Fin c.capacity → MapNode) (i : Fin c.capacity) : Prop :=
  (nodes i).key.keyBase ≠ 0

structure Sound (map : Hashmap c) : Prop where
  valid : map.invalid = false
  anchored : ∀ i, Keyed map.nodes i →
    Before (Keyed map.nodes) (getIndex c (map.nodes i).key) i
  valued : ∀ i, Keyed map.nodes i → (map.nodes i).val.valBase ≠ 0
  counted : (liveSlots map).card ≤ map.size
  bounded : map.size ≤ c.capacity

@[simp] theorem sameKey_iff {a b : MapKey} : sameKey a b = true ↔ a.bytes = b.bytes := by
  simp [sameKey]

theorem getIndex_congr {a b : MapKey} (h : a.bytes = b.bytes) : getIndex c a = getIndex c b := by
  simp [getIndex, h]

theorem Holds.keyed {nodes : Fin c.capacity → MapNode} {i : Fin c.capacity} {key : MapKey}
    (h : Holds nodes i key) : Keyed nodes i := h.1.1

theorem Holds.bytes {nodes : Fin c.capacity → MapNode} {i : Fin c.capacity} {key : MapKey}
    (h : Holds nodes i key) : key.bytes = (nodes i).key.bytes := sameKey_iff.mp h.2

theorem Sound.path {self : Hashmap c} (sound : Sound self) {i : Fin c.capacity} {key : MapKey}
    (h : Holds self.nodes i key) : Before (Keyed self.nodes) (getIndex c key) i := by
  rw [getIndex_congr h.bytes]
  exact sound.anchored i h.keyed

/-! ## The first live slot -/

/-- The first slot on the path of `key` that holds it, past NULL slots too. -/
def liveSlot (nodes : Fin c.capacity → MapNode) (key : MapKey) : Option (Fin c.capacity) :=
  probe (fun i => if Holds nodes i key then some i else none) c.capacity (getIndex c key)

theorem liveSlot_eq_some {nodes : Fin c.capacity → MapNode} {key : MapKey} {i : Fin c.capacity} :
    liveSlot nodes key = some i ↔
      ∃ d < c.capacity, ahead (getIndex c key) d = i ∧ Holds nodes i key ∧
        ∀ e < d, ¬ Holds nodes (ahead (getIndex c key) e) key := by
  rw [liveSlot, probe_eq_some]
  constructor
  · rintro ⟨d, hd, found, before⟩
    obtain ⟨holds, eq⟩ := Option.ite_none_right_eq_some.mp found
    obtain rfl := Option.some.inj eq
    exact ⟨d, hd, rfl, holds, fun e he => by simpa using before e he⟩
  · rintro ⟨d, hd, rfl, holds, before⟩
    exact ⟨d, hd, if_pos holds, fun e he => if_neg (before e he)⟩

theorem liveSlot_eq_none {nodes : Fin c.capacity → MapNode} {key : MapKey} :
    liveSlot nodes key = none ↔ ∀ i, ¬ Holds nodes i key := by
  rw [liveSlot, probe_eq_none]
  constructor
  · intro h i
    obtain ⟨d, hd, rfl⟩ := exists_ahead (getIndex c key) i
    simpa using h d hd
  · intro h d _
    exact if_neg (h _)

theorem liveSlot_congr {nodes nodes' : Fin c.capacity → MapNode} {key : MapKey}
    (same : ∀ i, Holds nodes i key ↔ Holds nodes' i key) :
    liveSlot nodes key = liveSlot nodes' key := by
  simp only [liveSlot, same]

/-- A search that passes live slots of other keys and keyed tombstones, answers
`answer i` where the key is live, and may stop at a NULL slot with `missing`. -/
structure Searches {α : Type} (nodes : Fin c.capacity → MapNode) (key : MapKey)
    (visit : Fin c.capacity → Option α) (missing : α) (answer : Fin c.capacity → α) : Prop where
  hit : ∀ i, Holds nodes i key → visit i = some (answer i)
  pass : ∀ i, Keyed nodes i → ¬ Holds nodes i key → visit i = none
  stop : ∀ i, ¬ Keyed nodes i → visit i = none ∨ visit i = some missing

theorem Searches.probe_eq {α : Type} {self : Hashmap c} (sound : Sound self) {key : MapKey}
    {visit : Fin c.capacity → Option α} {missing : α} {answer : Fin c.capacity → α}
    (search : Searches self.nodes key visit missing answer) :
    (probe visit c.capacity (getIndex c key)).getD missing =
      (liveSlot self.nodes key).elim missing answer := by
  cases found : liveSlot self.nodes key with
  | none =>
    have none := liveSlot_eq_none.mp found
    cases h : probe visit c.capacity (getIndex c key) with
    | none => rfl
    | some r =>
      obtain ⟨d, -, at_d, -⟩ := probe_eq_some.mp h
      by_cases keyed : Keyed self.nodes (ahead (getIndex c key) d)
      · rw [search.pass _ keyed (none _)] at at_d
        contradiction
      · rcases search.stop _ keyed with eq | eq <;> rw [eq] at at_d
        · contradiction
        · exact (Option.some.inj at_d).symm
  | some i =>
    obtain ⟨d, hd, rfl, holds, before⟩ := liveSlot_eq_some.mp found
    have keyed := (before_ahead hd).mp (sound.path holds)
    rw [probe_eq_some.mpr ⟨d, hd, search.hit _ holds, fun e he =>
      search.pass _ (keyed e he) (before e he)⟩]
    rfl

theorem getVisit_searches (nodes : Fin c.capacity → MapNode) (key : MapKey) :
    Searches nodes key (getVisit nodes key) .null fun i => (nodes i).val where
  hit i h := by
    obtain ⟨⟨keyed, live⟩, same⟩ := h
    simp [getVisit, keyed, live, same]
  pass i keyed h := by
    have keyed' : (nodes i).key.keyBase ≠ 0 := keyed
    simp only [getVisit, keyed', ↓reduceIte]
    split
    · rfl
    · rename_i live
      exact if_neg fun same => h ⟨⟨keyed, by simpa using live⟩, same⟩
  stop i keyed := by
    have null : (nodes i).key.keyBase = 0 := not_not.mp keyed
    exact .inr (by simp [getVisit, null])

theorem getTrueIndexVisit_searches (nodes : Fin c.capacity → MapNode) (key : MapKey) :
    Searches nodes key (getTrueIndexVisit nodes key) none some where
  hit i h := by
    obtain ⟨⟨keyed, live⟩, same⟩ := h
    simp [getTrueIndexVisit, keyed, live, same]
  pass i keyed h := by
    have keyed' : (nodes i).key.keyBase ≠ 0 := keyed
    simp only [getTrueIndexVisit, keyed', ↓reduceIte]
    split
    · rfl
    · rename_i live
      exact if_neg fun same => h ⟨⟨keyed, by simpa using live⟩, same⟩
  stop i keyed := by
    have null : (nodes i).key.keyBase = 0 := not_not.mp keyed
    cases h : (nodes i).tombstone <;> simp [getTrueIndexVisit, null, h]

theorem getSection_eq {self : Hashmap c} (sound : Sound self) (key : MapKey) :
    getSection self key =
      (liveSlot self.nodes key).elim .null fun i => (self.nodes i).val :=
  (getVisit_searches self.nodes key).probe_eq sound

theorem getTrueIndexSection_eq {self : Hashmap c} (sound : Sound self) (key : MapKey) :
    getTrueIndexSection self key = liveSlot self.nodes key := by
  apply ((getTrueIndexVisit_searches self.nodes key).probe_eq sound).trans
  cases liveSlot self.nodes key <;> rfl

theorem getTrueIndex_eq {self : Hashmap c} (sound : Sound self) (key : MapKey) :
    getTrueIndex self key = if key.keyBase = 0 then none else liveSlot self.nodes key := by
  by_cases null : key.keyBase = 0
  · simp [getTrueIndex, null]
  · simp [getTrueIndex, null, sound.valid, getTrueIndexSection_eq sound]

theorem getTrueIndex_holds {self : Hashmap c} (sound : Sound self) {key : MapKey}
    {i : Fin c.capacity} (h : getTrueIndex self key = some i) : Holds self.nodes i key := by
  rw [getTrueIndex_eq sound] at h
  split at h
  · contradiction
  · obtain ⟨-, -, -, holds, -⟩ := liveSlot_eq_some.mp h
    exact holds

theorem getTrueIndex_eq_none {self : Hashmap c} (sound : Sound self) {key : MapKey}
    (base : key.keyBase ≠ 0) :
    getTrueIndex self key = none ↔ ∀ i, ¬ Holds self.nodes i key := by
  rw [getTrueIndex_eq sound, if_neg base, liveSlot_eq_none]

theorem get_eq {self : Hashmap c} (sound : Sound self) (key : MapKey) :
    (get self key).ret =
      if key.keyBase = 0 then .null
      else (liveSlot self.nodes key).elim .null fun i => (self.nodes i).val := by
  unfold get
  by_cases null : key.keyBase = 0
  · simp [null, Hashmap.refuse]
  · simp [null, sound.valid, getSection_eq sound]

/-- A lookup depends only on the slots that hold its key. -/
theorem get_congr {self later : Hashmap c} (sound : Sound self) (sound' : Sound later)
    {key : MapKey}
    (same : ∀ i, Holds self.nodes i key ∨ Holds later.nodes i key →
      later.nodes i = self.nodes i) :
    (get later key).ret = (get self key).ret := by
  have slot : liveSlot later.nodes key = liveSlot self.nodes key := by
    refine liveSlot_congr fun i => ⟨fun h => ?_, fun h => ?_⟩
    · have eq := same i (.inr h)
      unfold Holds at h ⊢
      rwa [eq] at h
    · have eq := same i (.inl h)
      unfold Holds at h ⊢
      rwa [eq]
  rw [get_eq sound, get_eq sound', slot]
  split
  · rfl
  · cases found : liveSlot self.nodes key with
    | none => rfl
    | some i =>
      obtain ⟨-, -, -, holds, -⟩ := liveSlot_eq_some.mp found
      simp [same i (.inl holds)]

theorem get_null_iff {self : Hashmap c} (sound : Sound self) {key : MapKey}
    (base : key.keyBase ≠ 0) :
    (get self key).ret.valBase = 0 ↔ ∀ i, ¬ Holds self.nodes i key := by
  rw [get_eq sound, if_neg base, ← liveSlot_eq_none]
  cases found : liveSlot self.nodes key with
  | none => simp [MapVal.null]
  | some i =>
    obtain ⟨-, -, -, holds, -⟩ := liveSlot_eq_some.mp found
    simpa using sound.valued i holds.keyed

end LinuxSystem.Map
