import LinuxSystem.Base.Machine
import LinuxSystem.Map.ReadYourWrite

/-!
# A cleared map

`clear_map` leaves NULL slots whose tombstone is set, and the lookups test the
tombstone and the NULL key in different orders. No caller sees it: maps that
differ only in the tombstones of NULL slots answer every call alike.
-/

namespace LinuxSystem.Map

open Probing Machine

variable {c : Config}

/-- Equal but for the tombstone of a NULL slot. -/
structure AlikeNode (a b : MapNode) : Prop where
  key : a.key = b.key
  val : a.val = b.val
  tombstone : a.key.keyBase ≠ 0 → a.tombstone = b.tombstone

def AlikeNodes (nodes nodes' : Fin c.capacity → MapNode) : Prop :=
  ∀ i, AlikeNode (nodes i) (nodes' i)

structure Alike (map map' : Hashmap c) : Prop where
  sound : Sound map
  sound' : Sound map'
  size : map.size = map'.size
  nodes : AlikeNodes map.nodes map'.nodes

theorem AlikeNode.refl (node : MapNode) : AlikeNode node node := ⟨rfl, rfl, fun _ => rfl⟩

theorem AlikeNode.eq {a b : MapNode} (alike : AlikeNode a b) (keyed : a.key.keyBase ≠ 0) :
    a = b := by
  obtain ⟨key, val, tombstone⟩ := alike
  cases a
  cases b
  simp_all

theorem AlikeNode.live_iff {a b : MapNode} (alike : AlikeNode a b) : Live a ↔ Live b := by
  constructor
  · intro live
    rwa [← alike.eq live.1]
  · intro live
    have keyed : a.key.keyBase ≠ 0 := alike.key ▸ live.1
    rwa [alike.eq keyed]

theorem AlikeNodes.holds_iff {nodes nodes' : Fin c.capacity → MapNode}
    (alike : AlikeNodes nodes nodes') (i : Fin c.capacity) (key : MapKey) :
    Holds nodes i key ↔ Holds nodes' i key := by
  unfold Holds
  rw [(alike i).live_iff, (alike i).key]

theorem AlikeNodes.update {nodes nodes' : Fin c.capacity → MapNode}
    (alike : AlikeNodes nodes nodes') (i : Fin c.capacity) {node node' : MapNode}
    (same : AlikeNode node node') :
    AlikeNodes (Function.update nodes i node) (Function.update nodes' i node') := by
  intro j
  by_cases eq : j = i
  · simpa [eq] using same
  · simpa [eq] using alike j

theorem AlikeNodes.liveSlot_eq {nodes nodes' : Fin c.capacity → MapNode}
    (alike : AlikeNodes nodes nodes') (key : MapKey) : liveSlot nodes key = liveSlot nodes' key :=
  liveSlot_congr fun i => alike.holds_iff i key

/-! ## Each call -/

theorem putVisit_alike {nodes nodes' : Fin c.capacity → MapNode}
    (alike : AlikeNodes nodes nodes') (key : MapKey) (val : MapVal) (i : Fin c.capacity) :
    Option.Rel AlikeNodes (putVisit nodes key val i) (putVisit nodes' key val i) := by
  by_cases keyed : (nodes i).key.keyBase = 0
  · have keyed' : (nodes' i).key.keyBase = 0 := (alike i).key ▸ keyed
    simp only [putVisit, keyed, keyed', true_or, ↓reduceIte]
    exact .some (alike.update i (.refl _))
  · simp only [putVisit, (alike i).eq keyed]
    split
    · exact .some (alike.update i (.refl _))
    split
    · exact .some (alike.update i (.refl _))
    · exact .none

theorem put_alike {self other : Hashmap c} (alike : Alike self other) (key : MapKey)
    (val : MapVal) (force : Bool) :
    Agree Alike (act self (.put key val force)) (act other (.put key val force)) := by
  have kept : Agree (fun a b => a.size = b.size ∧ AlikeNodes a.nodes b.nodes)
      (act self (.put key val force)) (act other (.put key val force)) := by
    simp only [act, put, alike.sound.valid, alike.sound'.valid, putSection, alike.size]
    split
    · exact .some ⟨rfl, alike.size, alike.nodes⟩
    split
    · exact .some ⟨rfl, alike.size, alike.nodes⟩
    split
    · have found := probe_rel (putVisit_alike alike.nodes key val) c.capacity (getIndex c key)
      revert found
      cases probe (putVisit self.nodes key val) c.capacity (getIndex c key) <;>
        cases probe (putVisit other.nodes key val) c.capacity (getIndex c key) <;>
        intro found <;> cases found
      · exact .none
      · rename_i found
        exact .some ⟨rfl, rfl, found⟩
    · have evicted := alike.nodes (getIndex c key)
      refine .some ⟨?_, rfl, alike.nodes.update _ (.refl _)⟩
      simp [Outcome.reply, evicted.key, evicted.val]
  obtain ⟨outcome, left⟩ := put_returns alike.sound key val force
  obtain ⟨outcome', right⟩ := put_returns alike.sound' key val force
  simp only [act, left, right] at kept ⊢
  cases kept with
  | some kept =>
    exact .some ⟨kept.1, put_sound alike.sound left, put_sound alike.sound' right, kept.2.1, kept.2.2⟩

theorem get_alike {self other : Hashmap c} (alike : Alike self other) (key : MapKey) :
    get other key = { get self key with self := other } := by
  have ret : (get self key).ret = (get other key).ret := by
    rw [get_eq alike.sound, get_eq alike.sound', alike.nodes.liveSlot_eq key]
    split
    · rfl
    · cases liveSlot other.nodes key with
      | none => rfl
      | some i => exact (alike.nodes i).val
  unfold get at ret ⊢
  rw [alike.sound.valid, alike.sound'.valid] at ret ⊢
  split at ret <;> simp_all [Hashmap.refuse]

theorem deleteSection_alike {self other : Hashmap c} (alike : Alike self other)
    {i : Fin c.capacity} (live : Live (self.nodes i)) :
    Agree Alike (some ((deleteSection self i).reply .node))
      (some ((deleteSection other i).reply .node)) := by
  have live' := (alike.nodes i).live_iff.mp live
  have same := (alike.nodes i).eq live.1
  refine .some ⟨?_, deleteSection_sound alike.sound live, deleteSection_sound alike.sound' live', ?_,
    ?_⟩
  · simp [Outcome.reply, deleteSection, same]
  · exact congrArg decrement alike.size
  · apply alike.nodes.update i
    rw [same]
    exact .refl _

theorem delete_alike {self other : Hashmap c} (alike : Alike self other) (key : MapKey) :
    Agree Alike (act self (.delete key)) (act other (.delete key)) := by
  have refuses : deleteRefuses other key = deleteRefuses self key := by
    simp [deleteRefuses, alike.sound.valid, alike.sound'.valid, get_alike alike key]
  have index : getTrueIndex other key = getTrueIndex self key := by
    simp [getTrueIndex, alike.sound.valid, alike.sound'.valid,
      getTrueIndexSection_eq alike.sound, getTrueIndexSection_eq alike.sound',
      alike.nodes.liveSlot_eq key]
  simp only [act, delete, refuses, index]
  split
  · exact .some ⟨rfl, alike⟩
  · cases slot : getTrueIndex self key with
    | none => exact .some ⟨rfl, alike⟩
    | some i => exact deleteSection_alike alike (getTrueIndex_holds alike.sound slot).1

theorem clearMap_alike {self other : Hashmap c} (alike : Alike self other) :
    Agree Alike (act self .clearMap) (act other .clearMap) := by
  simp only [act, clearMap_eq alike.sound, clearMap_eq alike.sound']
  refine .some ⟨?_, clearSection_sound alike.sound, clearSection_sound alike.sound', rfl,
    fun i => ?_⟩
  · simp [Outcome.reply, clearSection, clears, (alike.nodes _).key, (alike.nodes _).val]
  · have same := alike.nodes i
    have cleared : clears (self.nodes i) = clears (other.nodes i) := by
      simp [clears, same.key, same.val]
    simp only [Outcome.reply, clearSection, clearNode, cleared]
    split
    · exact .refl _
    · exact same

theorem act_alike {self other : Hashmap c} (alike : Alike self other) (call : Call) :
    Agree Alike (act self call) (act other call) := by
  cases call with
  | put key val force => exact put_alike alike key val force
  | get key =>
    refine .some ⟨?_, ?_⟩
    · simp [Outcome.reply, get_alike alike key]
    · simpa [Outcome.reply, get_self] using alike
  | delete key => exact delete_alike alike key
  | clearMap => exact clearMap_alike alike

/-! ## Cleared and new -/

/-- A slot without a key keeps nothing else. -/
def Blank (nodes : Fin c.capacity → MapNode) : Prop :=
  ∀ i, ¬ Keyed nodes i → (nodes i).key = .null ∧ (nodes i).val = .null

theorem Blank.update {nodes : Fin c.capacity → MapNode} (blank : Blank nodes) {i : Fin c.capacity}
    {node : MapNode} (base : node.key.keyBase ≠ 0) : Blank (Function.update nodes i node) := by
  intro j keyed
  by_cases eq : j = i
  · simp [Keyed, eq, base] at keyed
  · simp only [Keyed, Function.update_of_ne eq] at keyed ⊢
    exact blank j keyed

theorem step_blank {self later : Hashmap c} {call : Call} (sound : Sound self)
    (blank : Blank self.nodes) (h : Step self call later) : Blank later.nodes := by
  cases h with
  | put h =>
    obtain rfl | ⟨base, value, effect⟩ := put_cases h
    · exact blank
    cases effect with
    | full => exact blank
    | store i stored room path slot =>
      obtain ⟨rfl, -⟩ | ⟨rfl, holds⟩ := slot
      · exact blank.update base
      · exact blank.update holds.keyed
    | evict => exact blank.update base
  | get => rwa [get_self]
  | delete =>
    obtain ⟨same, -⟩ | ⟨i, holds, eq⟩ := delete_cases sound _
    · rwa [same]
    · rw [eq]
      exact blank.update holds.keyed
  | clearMap =>
    rw [clearMap_eq sound]
    intro i keyed
    simp only [clearSection, clearNode]
    split
    · exact ⟨rfl, rfl⟩
    · rename_i kept
      refine blank i fun keyed => kept ?_
      simpa [clears] using ⟨keyed, sound.valued i keyed⟩

theorem cleared_alike {self : Hashmap c} (sound : Sound self) (blank : Blank self.nodes) :
    Alike (clearMap self).self (createMap c) := by
  rw [clearMap_eq sound]
  refine ⟨clearSection_sound sound, sound_create c, rfl, fun i => ?_⟩
  have entry : ((clearSection self).self.nodes i).key = .null ∧
      ((clearSection self).self.nodes i).val = .null := by
    simp only [clearSection, clearNode]
    split
    · exact ⟨rfl, rfl⟩
    · rename_i kept
      refine blank i fun keyed => kept ?_
      simpa [clears] using ⟨keyed, sound.valued i keyed⟩
  exact ⟨entry.1, entry.2, fun keyed => absurd keyed (clearSection_keyed sound i)⟩

/-- After any sequential run, a cleared map replies to every sequence of calls
as a new map does. -/
theorem cleared_like_new {self : Hashmap c} (reached : Reachable self) (calls : List Call) :
    replies act (clearMap self).self calls = replies act (createMap c) calls := by
  obtain ⟨sound, blank⟩ : Sound self ∧ Blank self.nodes :=
    reached.invariant (fun map => Sound map ∧ Blank map.nodes)
      ⟨sound_create c, fun _ _ => ⟨rfl, rfl⟩⟩
      fun inv _ h => ⟨step_sound inv.1 h, step_blank inv.1 inv.2 h⟩
  exact replies_eq (fun _ _ call alike => act_alike alike call) (cleared_alike sound blank) calls

theorem cleared_like_new_once :
    ∃ self : Hashmap twoSlots, self.size = 1 ∧
      replies act (clearMap self).self [.get ⟨3, [97]⟩] =
        replies act (createMap twoSlots) [.get ⟨3, [97]⟩] := by
  have start : Reachable (createMap twoSlots) := Transition.Run.refl _
  have stored := start.next (.put (rfl : put _ ⟨1, [97]⟩ ⟨2, [1]⟩ false = _))
  exact ⟨_, rfl, cleared_like_new stored _⟩

end LinuxSystem.Map
