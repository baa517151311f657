import LinuxSystem.Map.Size
import Mathlib.Algebra.Order.Group.Multiset

/-!
# Who owns a buffer

A buffer that a put took is referenced by a live slot, handed back by a delete
or destroyed. No entry is lost or counted twice as long as no put updates its
key in place, which drops the caller's key and the old value, and `clear_map`
meets no tombstoned slot whose entry was handed back.
-/

namespace LinuxSystem.Map

open Probing Transition

variable {c : Config}

abbrev Entry := MapKey × MapVal

def entry (nodes : Fin c.capacity → MapNode) (i : Fin c.capacity) : Entry :=
  ((nodes i).key, (nodes i).val)

def liveEntries (self : Hashmap c) : Multiset Entry :=
  (liveSlots self).val.map (entry self.nodes)

/-! ## Runs with their ledger -/

/-- A map with the entries its puts took, its deletes handed back, and it passed
to `destroy_function`. -/
structure Ledger (c : Config) where
  map : Hashmap c
  accepted : List Entry
  handed : List Entry
  destroyed : List Entry

def Ledger.start (c : Config) : Ledger c := ⟨createMap c, [], [], []⟩

/-- The put brings buffers of its own. -/
def Ledger.Fresh (s : Ledger c) (key : MapKey) (val : MapVal) : Prop :=
  key.keyBase ∉ s.accepted.map (·.1.keyBase) ∧ val.valBase ∉ s.accepted.map (·.2.valBase)

instance (s : Ledger c) (key : MapKey) (val : MapVal) : Decidable (s.Fresh key val) :=
  inferInstanceAs (Decidable (_ ∧ _))

inductive Ledger.Step : Ledger c → Call → Ledger c → Prop where
  | put {s : Ledger c} {key val force outcome} : s.Fresh key val →
      put s.map key val force = some outcome →
      Step s (.put key val force) ⟨outcome.self,
        if outcome.ret = true then (key, val) :: s.accepted else s.accepted,
        s.handed, outcome.destroyed ++ s.destroyed⟩
  | get {s : Ledger c} {key} : Step s (.get key) { s with map := (get s.map key).self }
  | delete {s : Ledger c} {key outcome} : delete s.map key = outcome →
      Step s (.delete key) ⟨outcome.self, s.accepted,
        if outcome.errno = none then (outcome.ret.key, outcome.ret.val) :: s.handed else s.handed,
        outcome.destroyed ++ s.destroyed⟩
  | clearMap {s : Ledger c} {outcome} : clearMap s.map = outcome →
      Step s .clearMap { s with map := outcome.self, destroyed := outcome.destroyed ++ s.destroyed }

/-- How often a buffer is referenced by a live slot, was handed back or was
destroyed; `uses` tells the entries with the buffer. -/
def Ledger.owners (s : Ledger c) (uses : Entry → Bool) : Nat :=
  ((liveSlots s.map).filter fun i => uses (entry s.map.nodes i) = true).card +
    s.handed.countP uses + s.destroyed.countP uses

/-- The call drops no pointer and destroys none twice. -/
def Ledger.Keeps (s : Ledger c) (call : Call) : Prop :=
  NoUpdates s.map call ∧
    (call = .clearMap → ∀ i, Keyed s.map.nodes i → (s.map.nodes i).tombstone = false)

theorem Ledger.Step.map_step {s t : Ledger c} {call : Call} (h : Ledger.Step s call t) :
    Map.Step s.map call t.map := by
  cases h with
  | put _ h => exact .put h
  | get => exact .get
  | delete h => exact h ▸ .delete
  | clearMap h => exact h ▸ .clearMap

/-! ## The entries of the live slots -/

def entriesBut (self : Hashmap c) (i : Fin c.capacity) : Multiset Entry :=
  ((liveSlots self).erase i).val.map (entry self.nodes)

theorem liveEntries_of_live (self : Hashmap c) {i : Fin c.capacity} (live : Live (self.nodes i)) :
    liveEntries self = entry self.nodes i ::ₘ entriesBut self i := by
  have mem := mem_liveSlots.mpr live
  rw [liveEntries, entriesBut, ← Multiset.map_cons, ← Finset.insert_val_of_notMem (by simp),
    Finset.insert_erase mem]

theorem liveEntries_of_dead {self : Hashmap c} {i : Fin c.capacity}
    (dead : ¬ Live (self.nodes i)) : liveEntries self = entriesBut self i := by
  rw [liveEntries, entriesBut, Finset.erase_eq_of_notMem fun mem => dead (mem_liveSlots.mp mem)]

theorem liveEntries_update {self : Hashmap c} {i : Fin c.capacity} {node : MapNode} (size : Nat)
    (live : Live node) :
    liveEntries { self with nodes := Function.update self.nodes i node, size := size } =
      (node.key, node.val) ::ₘ entriesBut self i := by
  have live' : Live (Function.update self.nodes i node i) := by simpa using live
  rw [liveEntries_of_live { self with nodes := _, size := size } live']
  have here : entry (Function.update self.nodes i node) i = (node.key, node.val) := by
    simp [entry]
  rw [here, entriesBut, liveSlots_update live, Finset.erase_insert_eq_erase]
  congr 1
  apply Multiset.map_congr rfl
  intro j hj
  have apart : j ≠ i := Finset.ne_of_mem_erase (Finset.mem_val.mp hj)
  simp [entry, Function.update_of_ne apart]

theorem liveEntries_deleteSection (self : Hashmap c) (i : Fin c.capacity) :
    liveEntries (deleteSection self i).self = entriesBut self i := by
  have same : entry (deleteSection self i).self.nodes = entry self.nodes := by
    funext j
    obtain ⟨key, val⟩ := deleteSection_entry self i j
    simp only [entry, key, val]
  rw [liveEntries, liveSlots_deleteSection, same, entriesBut]

theorem liveEntries_clearSection {self : Hashmap c} (sound : Sound self) :
    liveEntries (clearSection self).self = 0 := by
  rw [liveEntries, liveSlots, Finset.filter_eq_empty_iff.mpr]
  · rfl
  · exact fun i _ live => clearSection_keyed sound i live.1

/-- A clear that meets no tombstoned key destroys what is live, each entry once. -/
theorem clearSection_destroys {self : Hashmap c} (sound : Sound self)
    (untouched : ∀ i, Keyed self.nodes i → (self.nodes i).tombstone = false) :
    ((clearSection self).destroyed : Multiset Entry) = liveEntries self := by
  have live (i) : clears (self.nodes i) = decide (Live (self.nodes i)) := by
    rw [Bool.eq_iff_iff, decide_eq_true_iff]
    constructor
    · intro cleared
      have keyed : Keyed self.nodes i := by
        simp only [clears, Bool.and_eq_true, decide_eq_true_eq] at cleared
        exact cleared.1
      exact ⟨keyed, untouched i keyed⟩
    · intro live
      simpa [clears] using ⟨live.1, sound.valued i live.1⟩
  have listed (l : List (Fin c.capacity)) :
      l.filterMap (fun i => if clears (self.nodes i) then some (entry self.nodes i) else none) =
        (l.filter fun i => Live (self.nodes i)).map (entry self.nodes) := by
    induction l with
    | nil => rfl
    | cons i l ih =>
      rw [List.filterMap_cons, List.filter_cons, ih, live]
      by_cases h : Live (self.nodes i) <;> simp [h]
  rw [liveEntries, liveSlots, Finset.filter_val, Fin.univ_def]
  exact congrArg _ (listed _)

/-! ## Conservation -/

def Conserved (s : Ledger c) : Prop :=
  liveEntries s.map + s.handed + s.destroyed = (s.accepted : Multiset Entry)

theorem conserved_start (c : Config) : Conserved (Ledger.start c) := by
  simp [Conserved, Ledger.start, liveEntries, Finset.card_eq_zero.mp (counted_create c).symm]

/-- No two entries a put took share a buffer. -/
def Apart (s : Ledger c) : Prop :=
  (s.accepted.map (·.1.keyBase)).Nodup ∧ (s.accepted.map (·.2.valBase)).Nodup

theorem PutEffect.conserves {self : Hashmap c} (counted : Counted self)
    {key : MapKey} {val : MapVal} {force : Bool} {outcome : Outcome c Bool}
    (base : key.keyBase ≠ 0) (anew : StoresAnew self key)
    (effect : PutEffect self key val force outcome) :
    liveEntries outcome.self + outcome.destroyed =
      liveEntries self + if outcome.ret = true then {(key, val)} else 0 := by
  cases effect with
  | full => simp [Hashmap.refuse]
  | store i stored room path slot =>
    have dead := (storesAnew_iff room path slot).mp anew
    obtain rfl : stored = key := by
      obtain ⟨eq, -⟩ | ⟨-, holds⟩ := slot
      · exact eq
      · exact absurd holds.1 dead
    rw [liveEntries_update _ ⟨base, rfl⟩, liveEntries_of_dead dead]
    simp [add_comm]
  | evict noRoom forced =>
    have live := mem_liveSlots.mp (counted.full noRoom ▸ Finset.mem_univ (getIndex c key))
    have evicted := liveEntries_of_live self live
    rw [liveEntries_update self.size ⟨base, rfl⟩, evicted]
    simp only [entry, ← Multiset.singleton_add, Multiset.coe_singleton, ↓reduceIte]
    abel

theorem step_conserved {s t : Ledger c} {call : Call} (sound : Sound s.map)
    (counted : Counted s.map) (conserved : Conserved s) (keeps : s.Keeps call)
    (h : Ledger.Step s call t) : Conserved t := by
  unfold Conserved at conserved ⊢
  cases h with
  | @put key val force outcome fresh h =>
    have balance : liveEntries outcome.self + outcome.destroyed =
        liveEntries s.map + if outcome.ret = true then {(key, val)} else 0 := by
      obtain rfl | ⟨base, value, effect⟩ := put_cases h
      · simp [Hashmap.refuse]
      · exact effect.conserves counted base (keeps.1 base value)
    rw [← Multiset.coe_add]
    calc liveEntries outcome.self + s.handed + (outcome.destroyed + s.destroyed)
        = liveEntries outcome.self + outcome.destroyed + s.handed + s.destroyed := by abel
      _ = liveEntries s.map + s.handed + s.destroyed +
            if outcome.ret = true then {(key, val)} else 0 := by rw [balance]; abel
      _ = _ := by
        rw [conserved]
        split
        · exact (add_comm _ _).trans (Multiset.singleton_add _ _)
        · exact add_zero _
  | get => simpa [get_self] using conserved
  | @delete key outcome h =>
    obtain ⟨eq, -⟩ | ⟨i, holds, eq⟩ := delete_effect sound key
    · obtain rfl := h.symm.trans eq
      simpa [Hashmap.refuse] using conserved
    · obtain rfl := h.symm.trans eq
      rw [← conserved, liveEntries_deleteSection, liveEntries_of_live _ holds.1]
      simp only [deleteSection, entry, ↓reduceIte, List.nil_append, ← Multiset.cons_coe,
        Multiset.add_cons, Multiset.cons_add]
  | clearMap h =>
    rw [clearMap_eq sound] at h
    subst h
    have cleared := clearSection_destroys sound (keeps.2 rfl)
    rw [← conserved, liveEntries_clearSection sound, ← Multiset.coe_add, cleared]
    abel

theorem step_apart {s t : Ledger c} {call : Call} (apart : Apart s)
    (h : Ledger.Step s call t) : Apart t := by
  cases h with
  | put fresh h =>
    unfold Apart
    split
    · exact ⟨List.nodup_cons.mpr ⟨fresh.1, apart.1⟩, List.nodup_cons.mpr ⟨fresh.2, apart.2⟩⟩
    · exact apart
  | get => exact apart
  | delete => exact apart
  | clearMap => exact apart

theorem Conserved.owners_eq {s : Ledger c} (conserved : Conserved s) (uses : Entry → Bool) :
    s.owners uses = s.accepted.countP uses := by
  have counts := congrArg (Multiset.countP fun e => uses e = true) conserved
  rw [Multiset.countP_add, Multiset.countP_add, liveEntries, Multiset.countP_map] at counts
  simpa [Ledger.owners, Finset.card, Finset.filter_val] using counts

/-- As long as every call keeps what it is given: each key buffer and each value
buffer of an accepted put is referenced by one live slot, or was handed back by
one delete, or was destroyed once. -/
theorem every_buffer_has_one_owner {s : Ledger c}
    (run : Run Ledger.Step Ledger.Keeps (Ledger.start c) s) {key : MapKey} {val : MapVal}
    (accepted : (key, val) ∈ s.accepted) :
    s.owners (·.1.keyBase = key.keyBase) = 1 ∧ s.owners (·.2.valBase = val.valBase) = 1 := by
  obtain ⟨-, -, conserved, apart⟩ : Sound s.map ∧ Counted s.map ∧ Conserved s ∧ Apart s :=
    run.invariant (fun s => Sound s.map ∧ Counted s.map ∧ Conserved s ∧ Apart s)
      ⟨sound_create c, counted_create c, conserved_start c, List.nodup_nil, List.nodup_nil⟩
      fun inv keeps h => ⟨step_sound inv.1 h.map_step,
        step_counted inv.1 inv.2.1 keeps.1 h.map_step,
        step_conserved inv.1 inv.2.1 inv.2.2.1 keeps h, step_apart inv.2.2.2 h⟩
  rw [conserved.owners_eq, conserved.owners_eq]
  constructor
  · have once := List.count_eq_one_of_mem apart.1 (List.mem_map_of_mem accepted)
    rwa [List.count, List.countP_map] at once
  · have once := List.count_eq_one_of_mem apart.2 (List.mem_map_of_mem accepted)
    rwa [List.count, List.countP_map] at once

theorem keeps_of_absent {s : Ledger c} {key : MapKey} (val : MapVal) (force : Bool)
    (absent : ∀ i, ¬ Holds s.map.nodes i key) : s.Keeps (.put key val force) :=
  ⟨fun _ _ _ i holds => absurd holds (absent i), nofun⟩

/-- The first entry is handed back by a delete, the second is destroyed by a forced
put, and the last two are live. -/
theorem first_entry_has_one_owner :
    ∃ s : Ledger twoSlots, s.handed = [(⟨1, [97]⟩, ⟨2, [1]⟩)] ∧
      s.destroyed = [(⟨5, [99]⟩, ⟨6, [3]⟩)] ∧ (∀ i, Live (s.map.nodes i)) ∧
      ∀ entry ∈ s.accepted, s.owners (·.1.keyBase = entry.1.keyBase) = 1 ∧
        s.owners (·.2.valBase = entry.2.valBase) = 1 := by
  have start : Run Ledger.Step Ledger.Keeps (Ledger.start twoSlots) _ := Run.refl _
  have first := start.next
    (.put (by decide) (rfl : put _ ⟨1, [97]⟩ ⟨2, [1]⟩ false = _)) (keeps_of_absent _ _ (by decide))
  have second := first.next
    (.put (by decide) (rfl : put _ ⟨3, [98]⟩ ⟨4, [2]⟩ false = _)) (keeps_of_absent _ _ (by decide))
  have handed := second.next (.delete (rfl : delete _ ⟨9, [97]⟩ = _)) ⟨trivial, nofun⟩
  have third := handed.next
    (.put (by decide) (rfl : put _ ⟨5, [99]⟩ ⟨6, [3]⟩ false = _)) (keeps_of_absent _ _ (by decide))
  have evicted := third.next
    (.put (by decide) (rfl : put _ ⟨7, [100]⟩ ⟨8, [4]⟩ true = _)) (keeps_of_absent _ _ (by decide))
  exact ⟨_, rfl, rfl, by decide, fun entry mem => every_buffer_has_one_owner evicted mem⟩

/-- One key is put twice: the second put keeps the first key buffer, and nothing
refers to the one it was given. -/
theorem update_drops_its_key :
    ¬ ∀ (c : Config) (s : Ledger c), Transition.Reachable Ledger.Step (Ledger.start c) s →
      ∀ key val, (key, val) ∈ s.accepted →
        s.owners (·.1.keyBase = key.keyBase) = 1 ∧ s.owners (·.2.valBase = val.valBase) = 1 := by
  intro h
  have start : Transition.Reachable Ledger.Step (Ledger.start twoSlots) _ := Run.refl _
  have reached := (start.next
    (.put (by decide) (rfl : put _ ⟨1, [97]⟩ ⟨2, [1]⟩ false = _))).next
    (.put (by decide) (rfl : put _ ⟨3, [97]⟩ ⟨4, [2]⟩ false = _))
  have owned := (h _ _ reached ⟨3, [97]⟩ ⟨4, [2]⟩ List.mem_cons_self).1
  revert owned
  decide

end LinuxSystem.Map
