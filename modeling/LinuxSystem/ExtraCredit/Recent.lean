import LinuxSystem.ExtraCredit.TimeToLive

/-!
# No value is too old

Whatever is stamped, expired, overwritten or found again behind a tombstone: a
value that `get` returns was put under its key since the last clear, and not
longer ago than the time to live.
-/

namespace LinuxSystem.ExtraCredit

open Probing Map Transition

variable {c : Config}

/-- `stores` keeps the key, the value and the reading of every put that was
accepted since the last clear. -/
structure Recorded (c : Config) where
  clocked : Clocked c
  stores : List (List UInt8 × MapVal × Nat)

def Recorded.start (c : Config) : Recorded c := ⟨Clocked.start c, []⟩

/-- What a step does to the record. -/
def record (s : Clocked c) (stores : List (List UInt8 × MapVal × Nat)) :
    Call → List (List UInt8 × MapVal × Nat)
  | .put key val force clock =>
    if (put s.map key val force clock).any (·.ret) = true then (key.bytes, val, clock) :: stores
    else stores
  | .clearMap => []
  | _ => stores

inductive Records : Recorded c → Call → Recorded c → Prop where
  | step {s call later} : Step s.clocked call later →
      Records s call ⟨later, record s.clocked s.stores call⟩

/-- The slot keeps what a put on record has stored, stamped no later. -/
def Sourced (stores : List (List UInt8 × MapVal × Nat)) (tmp : MapNode) : Prop :=
  tmp.key.keyBase ≠ 0 → tmp.val.valBase ≠ 0 ∧
    ∃ t, (tmp.key.bytes, tmp.val, t) ∈ stores ∧ tmp.start ≤ t

theorem Fades.sourced {stores : List (List UInt8 × MapVal × Nat)} {later : Nat}
    {tmp tmp' : MapNode} (h : Fades later tmp tmp') (sourced : Sourced stores tmp) :
    Sourced stores tmp' := by
  unfold Sourced
  rw [h.key, h.val, h.start]
  exact sourced

theorem Sourced.bury {stores : List (List UInt8 × MapVal × Nat)} {tmp : MapNode}
    (sourced : Sourced stores tmp) : Sourced stores tmp.bury := sourced

theorem sourced_update {stores : List (List UInt8 × MapVal × Nat)}
    {nodes : Fin c.capacity → MapNode} {node : MapNode} (kept : ∀ i, Sourced stores (nodes i))
    (new : Sourced stores node) (index i : Fin c.capacity) :
    Sourced stores (Function.update nodes index node i) := by
  by_cases eq : i = index
  · rwa [eq, Function.update_self]
  · rw [Function.update_of_ne eq]
    exact kept i

/-- A put leaves the other slots as they are and stores its own value in one, with
its own reading or an older stamp. -/
theorem put_sourced {map : Hashmap c} {key : MapKey} {val : MapVal} {force : Bool} {clock : Nat}
    {outcome : Outcome c Bool} {stores : List (List UInt8 × MapVal × Nat)}
    (older : ∀ i, (map.nodes i).start ≤ clock) (sourced : ∀ i, Sourced stores (map.nodes i))
    (h : put map key val force clock = some outcome) (i : Fin c.capacity) :
    Sourced (if outcome.ret = true then (key.bytes, val, clock) :: stores else stores)
      (outcome.self.nodes i) := by
  unfold put at h
  split at h
  · obtain rfl := Option.some.inj h
    exact sourced i
  rename_i checked
  simp only [not_or] at checked
  split at h
  · obtain rfl := Option.some.inj h
    exact sourced i
  have grown (j) : Sourced ((key.bytes, val, clock) :: stores) (map.nodes j) := fun keyed => by
    obtain ⟨value, t, mem, stamp⟩ := sourced j keyed
    exact ⟨value, t, List.mem_cons_of_mem _ mem, stamp⟩
  split at h
  · obtain ⟨nodes, found, rfl⟩ := Option.map_eq_some_iff.mp h
    obtain ⟨d, within, here, before⟩ := probe_eq_some.mp found
    obtain ⟨stored, base, same, rfl⟩ := putVisit_eq_some checked.2.1 here
    have bytes : key.bytes = stored.bytes := of_decide_eq_true same
    exact sourced_update grown (fun _ => ⟨checked.2.2, clock, by simp [bytes], le_rfl⟩) _ i
  · obtain rfl := Option.some.inj h
    have new : Sourced ((key.bytes, val, clock) :: stores)
        ⟨key, val, (map.nodes (getIndex c key)).start, false⟩ :=
      fun _ => ⟨checked.2.2, clock, by simp, older _⟩
    exact sourced_update grown new _ i

theorem delete_sourced {map : Hashmap c} {key : MapKey} {now later : Nat} {clock : Nat → Nat}
    {stores : List (List UInt8 × MapVal × Nat)} (readings : Readings c now clock later)
    (sourced : ∀ i, Sourced stores (map.nodes i)) (i : Fin c.capacity) :
    Sourced stores ((delete map key clock).self.nodes i) := by
  obtain ⟨-, faded⟩ := get_fades map key readings
  have kept (j) := (faded j).sourced (sourced j)
  simp only [delete]
  split
  · exact sourced i
  split
  · exact kept i
  split
  · exact kept i
  · rename_i index _
    exact sourced_update kept (kept index).bury index i

structure Traced (s : Recorded c) : Prop where
  timed : Timed s.clocked
  sourced : ∀ i, Sourced s.stores (s.clocked.map.nodes i)

theorem step_traced {s later : Recorded c} {call : Call} (traced : Traced s)
    (h : Records s call later) : Traced later := by
  obtain ⟨timed, sourced⟩ := traced
  obtain ⟨h⟩ := h
  refine ⟨step_timed timed h, fun i => ?_⟩
  cases h with
  | put rises h =>
    have kept := put_sourced (fun i => (timed.older i).trans rises) sourced h i
    simpa [record, h] using kept
  | get readings =>
    obtain ⟨-, faded⟩ := get_fades _ _ readings
    exact (faded i).sourced (sourced i)
  | delete readings => exact delete_sourced readings sourced i
  | clearMap =>
    -- a slot that has a key has a value too, and is cleared
    intro keyed
    have nodes : (clearMap s.clocked.map).self.nodes i = clearNode (s.clocked.map.nodes i) := by
      rw [clearMap, if_neg (by simp [timed.valid])]
    rw [nodes, clearNode] at keyed
    split at keyed
    · exact absurd rfl keyed
    · next spared =>
      refine absurd ?_ spared
      simp [clears, keyed, (sourced i keyed).1]

theorem reachable_traced {s : Recorded c} (reached : Reachable Records (Recorded.start c) s) :
    Traced s :=
  reached.invariant Traced
    ⟨⟨rfl, fun _ => Nat.zero_le _⟩, fun _ keyed => absurd rfl keyed⟩
    fun traced _ h => step_traced traced h

/-- What a get returns, at readings from the last one on, was put under that key
since the last clear, and has not outlived `TTL` at the reading of some slot that the
get visits. -/
theorem values_are_recent {s : Recorded c} (reached : Reachable Records (Recorded.start c) s)
    (key : MapKey) {clock : Nat → Nat} {later : Nat} (readings : Readings c s.clocked.now clock later)
    (found : (get s.clocked.map key clock).ret.valBase ≠ 0) :
    ∃ t, ∃ visit < c.capacity,
      (key.bytes, (get s.clocked.map key clock).ret, t) ∈ s.stores ∧
        expired (clock visit) t = false := by
  have traced := reachable_traced reached
  unfold get at found ⊢
  split at found
  · exact absurd rfl found
  rename_i ready
  rw [if_neg ready]
  dsimp only at found ⊢
  obtain missing | ⟨j, e, matched, young, eq⟩ := getLoop_found
  · exact absurd (congrArg MapVal.valBase missing) found
  obtain ⟨value, t, mem, stamp⟩ := traced.sourced j matched.1
  have bytes : key.bytes = (s.clocked.map.nodes j).key.bytes := of_decide_eq_true matched.2.2
  refine ⟨t, min e (c.capacity - 1), ?_, ?_, ?_⟩
  · have := c.positive
    omega
  · rw [eq, bytes]
    exact mem
  · rw [← Bool.not_eq_true] at young ⊢
    exact fun old => young (expired_mono (readings.rises (min_le_left _ _)) stamp old)

/-- The value of a forced put on the full map, with the stamp of the slot it
overwrites. -/
theorem overwriting_value_is_recent :
    ∃ s : Recorded oneSlot, s.stores = [([98], ⟨4, [2]⟩, 9), ([97], ⟨2, [1]⟩, 7)] ∧
      ∃ t, ∃ visit < 1, ([98], (⟨4, [2]⟩ : MapVal), t) ∈ s.stores ∧
        expired ((fun _ : Nat => 6000000) visit) t = false := by
  have first : Reachable Records (Recorded.start oneSlot) _ := (Run.refl _).next
    (.step (.put (Nat.zero_le 7) (rfl : put _ ⟨1, [97]⟩ ⟨2, [1]⟩ false 7 = _))) trivial
  have second := first.next
    (.step (.put (by decide : 7 ≤ 9) (rfl : put _ ⟨3, [98]⟩ ⟨4, [2]⟩ true 9 = _)))
  have readings : Readings oneSlot 9 (fun _ => 6000000) 6000000 :=
    ⟨fun _ _ _ => le_rfl, by decide, fun _ _ => le_rfl⟩
  exact ⟨_, rfl, values_are_recent second ⟨5, [98]⟩ readings (by decide)⟩

end LinuxSystem.ExtraCredit
