import LinuxSystem.ExtraCredit.Model
import LinuxSystem.Map.ReadYourWrite
import Mathlib.Order.Monotone.Basic

/-!
# Time to live

An entry is found until it expires, measured from the reading `put` stamps it
with, whatever else the gets in between expire on their way. A put that
overwrites a slot of a full map does not stamp it, and its entry lives from the
stamp it finds there.
-/

namespace LinuxSystem.ExtraCredit

open Probing Map Transition

variable {c : Config}

/-! ## Runs with a clock -/

/-- A map and the last reading of `clock()`. -/
structure Clocked (c : Config) where
  map : Hashmap c
  now : Nat

def Clocked.start (c : Config) : Clocked c := ⟨createMap c, 0⟩

/-- What `clock()` may return at the visits of one call, the last by `later`. -/
structure Readings (c : Config) (now : Nat) (clock : Nat → Nat) (later : Nat) : Prop where
  rises : Monotone clock
  after : now ≤ clock 0
  upTo : ∀ i < c.capacity, clock i ≤ later

inductive Step : Clocked c → Call → Clocked c → Prop where
  | put {s : Clocked c} {key val force clock outcome} : s.now ≤ clock →
      put s.map key val force clock = some outcome →
      Step s (.put key val force clock) ⟨outcome.self, clock⟩
  | get {s : Clocked c} {key clock later} : Readings c s.now clock later →
      Step s (.get key clock) ⟨(get s.map key clock).self, later⟩
  | delete {s : Clocked c} {key clock later} : Readings c s.now clock later →
      Step s (.delete key clock) ⟨(delete s.map key clock).self, later⟩
  | clearMap {s : Clocked c} : Step s .clearMap ⟨(clearMap s.map).self, s.now⟩

def OnlyGets (_ : Clocked c) : Call → Prop
  | .get _ _ => True
  | _ => False

/-! ## Expiry -/

theorem expired_mono {clock clock' start start' : Nat} (later : clock ≤ clock')
    (older : start' ≤ start) (h : expired clock start = true) : expired clock' start' = true := by
  simp only [expired, decide_eq_true_eq] at h ⊢
  refine lt_of_lt_of_le h (Int.tdiv_le_tdiv (by decide) ?_)
  omega

/-- The slot is live and its key equals `key`. -/
def Matches (tmp : MapNode) (key : MapKey) : Prop :=
  tmp.key.keyBase ≠ 0 ∧ tmp.tombstone = false ∧ sameKey key tmp.key = true

theorem bury_not_matches (tmp : MapNode) (key : MapKey) : ¬ Matches tmp.bury key :=
  fun h => by simp [Matches, MapNode.bury] at h

/-- What a get does to a slot: nothing, or it buries one that has expired. -/
def Fades (later : Nat) (tmp tmp' : MapNode) : Prop :=
  tmp' = tmp ∨ tmp' = tmp.bury ∧ expired later tmp.start = true

theorem Fades.start {later : Nat} {tmp tmp' : MapNode} (h : Fades later tmp tmp') :
    tmp'.start = tmp.start := by
  obtain rfl | ⟨rfl, -⟩ := h <;> rfl

theorem Fades.key {later : Nat} {tmp tmp' : MapNode} (h : Fades later tmp tmp') :
    tmp'.key = tmp.key := by
  obtain rfl | ⟨rfl, -⟩ := h <;> rfl

theorem Fades.val {later : Nat} {tmp tmp' : MapNode} (h : Fades later tmp tmp') :
    tmp'.val = tmp.val := by
  obtain rfl | ⟨rfl, -⟩ := h <;> rfl

theorem Fades.matches {later : Nat} {tmp tmp' : MapNode} {key : MapKey} (h : Fades later tmp tmp')
    (matched : Matches tmp' key) : Matches tmp key := by
  obtain rfl | ⟨rfl, -⟩ := h
  · exact matched
  · exact absurd matched (bury_not_matches _ _)

theorem Fades.bury {later : Nat} {tmp tmp' : MapNode} (h : Fades later tmp.bury tmp') :
    tmp' = tmp.bury := by
  obtain rfl | ⟨rfl, -⟩ := h <;> rfl

theorem getLoop_succ (clock : Nat → Nat) (key : MapKey) (allowance i : Nat)
    (index : Fin c.capacity) (nodes : Fin c.capacity → MapNode) :
    getLoop clock key (allowance + 1) i index nodes =
      if (nodes index).key.keyBase = 0 then (.null, nodes)
      else if (nodes index).tombstone = true ∨ expired (clock i) (nodes index).start = true then
        getLoop clock key allowance (i + 1) (next index)
          (Function.update nodes index (nodes index).bury)
      else if sameKey key (nodes index).key then ((nodes index).val, nodes)
      else getLoop clock key allowance (i + 1) (next index) nodes := rfl

theorem getLoop_fades {clock : Nat → Nat} {later : Nat} {key : MapKey} {allowance i : Nat}
    (upTo : ∀ e < i + allowance, clock e ≤ later) (index : Fin c.capacity)
    (nodes : Fin c.capacity → MapNode) (j : Fin c.capacity) :
    Fades later (nodes j) ((getLoop clock key allowance i index nodes).2 j) := by
  induction allowance generalizing i index nodes with
  | zero => exact .inl rfl
  | succ allowance ih =>
    have rest := fun index nodes => @ih (i + 1) (fun e he => upTo e (by omega)) index nodes
    rw [getLoop_succ]
    split
    · exact .inl rfl
    split
    · rename_i gone
      have faded := rest (next index) (Function.update nodes index (nodes index).bury)
      by_cases here : j = index
      · subst here
        rw [Function.update_self] at faded
        rw [faded.bury]
        obtain buried | old := gone
        · exact .inl (bury_of_tombstone buried)
        · exact .inr ⟨rfl, expired_mono (upTo i (by omega)) le_rfl old⟩
      · rwa [Function.update_of_ne here] at faded
    split
    · exact .inl rfl
    · exact rest (next index) nodes

/-- A loop that meets no entry of its key that may still live finds none. -/
theorem getLoop_missing {clock : Nat → Nat} {key : MapKey} (rises : Monotone clock)
    {allowance i : Nat} {index : Fin c.capacity} {nodes : Fin c.capacity → MapNode}
    (old : ∀ j, Matches (nodes j) key → expired (clock i) (nodes j).start = true) :
    (getLoop clock key allowance i index nodes).1 = .null := by
  induction allowance generalizing i index nodes with
  | zero => rfl
  | succ allowance ih =>
    have later : clock i ≤ clock (i + 1) := rises (Nat.le_succ i)
    rw [getLoop_succ]
    split
    · rfl
    rename_i keyed
    split
    · apply ih
      intro j matched
      by_cases here : j = index
      · subst here
        rw [Function.update_self] at matched
        exact absurd matched (bury_not_matches _ _)
      · rw [Function.update_of_ne here] at matched ⊢
        exact expired_mono later le_rfl (old j matched)
    rename_i young
    split
    · rename_i same
      simp only [not_or, Bool.not_eq_true] at young
      have := old index ⟨keyed, young.1, same⟩
      simp [young.2] at this
    · exact ih fun j matched => expired_mono later le_rfl (old j matched)

/-! ## A stamped entry -/

/-- Slot `d` places after `index` keeps a value stored at `t`, live or expired,
and no slot before it is NULL or keeps a live entry of the same key. -/
structure Stored (nodes : Fin c.capacity → MapNode) (index : Fin c.capacity) (d : Nat)
    (key : MapKey) (val : MapVal) (t : Nat) : Prop where
  within : d < c.capacity
  path : ∀ e < d, (nodes (ahead index e)).key.keyBase ≠ 0 ∧ ¬ Matches (nodes (ahead index e)) key
  keyed : (nodes (ahead index d)).key.keyBase ≠ 0
  same : sameKey key (nodes (ahead index d)).key = true
  val_eq : (nodes (ahead index d)).val = val
  start_eq : (nodes (ahead index d)).start = t
  older : ∀ j, (nodes j).start ≤ t

theorem Stored.next {nodes : Fin c.capacity → MapNode} {index : Fin c.capacity} {d : Nat}
    {key : MapKey} {val : MapVal} {t : Nat} (stored : Stored nodes index (d + 1) key val t) :
    Stored nodes (next index) d key val t where
  within := by have := stored.within; omega
  path e he := stored.path (e + 1) (by omega)
  keyed := stored.keyed
  same := stored.same
  val_eq := stored.val_eq
  start_eq := stored.start_eq
  older := stored.older

theorem Stored.fades {nodes nodes' : Fin c.capacity → MapNode} {index : Fin c.capacity} {d : Nat}
    {key : MapKey} {val : MapVal} {t later : Nat} (stored : Stored nodes index d key val t)
    (faded : ∀ j, Fades later (nodes j) (nodes' j)) : Stored nodes' index d key val t where
  within := stored.within
  path e he := by
    rw [(faded _).key]
    exact ⟨(stored.path e he).1, fun matched => (stored.path e he).2 ((faded _).matches matched)⟩
  keyed := by rw [(faded _).key]; exact stored.keyed
  same := by rw [(faded _).key]; exact stored.same
  val_eq := by rw [(faded _).val]; exact stored.val_eq
  start_eq := by rw [(faded _).start]; exact stored.start_eq
  older j := by rw [(faded j).start]; exact stored.older j

theorem Stored.congr {nodes : Fin c.capacity → MapNode} {index : Fin c.capacity} {d : Nat}
    {key key' : MapKey} {val : MapVal} {t : Nat} (stored : Stored nodes index d key val t)
    (same : key.bytes = key'.bytes) : Stored nodes index d key' val t := by
  obtain ⟨within, path, keyed, matched, val_eq, start_eq, older⟩ := stored
  simp only [Matches, sameKey, same] at path matched
  exact ⟨within, path, keyed, matched, val_eq, start_eq, older⟩

theorem update_fades {nodes : Fin c.capacity → MapNode} {index : Fin c.capacity} {later : Nat}
    (gone : (nodes index).tombstone = true ∨ expired later (nodes index).start = true)
    (j : Fin c.capacity) :
    Fades later (nodes j) (Function.update nodes index (nodes index).bury j) := by
  by_cases here : j = index
  · subst here
    rw [Function.update_self]
    obtain buried | old := gone
    · exact .inl (bury_of_tombstone buried)
    · exact .inr ⟨rfl, old⟩
  · exact .inl (Function.update_of_ne here _ _)

/-- The loop that reaches the slot answers by the reading it makes there. -/
theorem getLoop_stored {clock : Nat → Nat} {key : MapKey} {val : MapVal} {t : Nat}
    (rises : Monotone clock) {d allowance i : Nat} (reach : d < allowance) {index : Fin c.capacity}
    {nodes : Fin c.capacity → MapNode} (stored : Stored nodes index d key val t)
    (gone : (nodes (ahead index d)).tombstone = true → expired (clock (i + d)) t = true) :
    (getLoop clock key allowance i index nodes).1 =
      if expired (clock (i + d)) t then .null else val := by
  induction d generalizing allowance i index nodes with
  | zero =>
    obtain ⟨allowance, rfl⟩ : ∃ more, allowance = more + 1 := ⟨allowance - 1, by omega⟩
    obtain ⟨-, -, keyed, same, val_eq, start_eq, older⟩ := stored
    simp only [ahead_zero, Nat.add_zero] at keyed same val_eq start_eq gone ⊢
    rw [getLoop_succ, if_neg keyed, start_eq, same, if_pos rfl]
    by_cases old : expired (clock i) t = true
    · rw [if_pos (.inr old), if_pos old]
      have passed : expired (clock i) (nodes index).start = true := start_eq ▸ old
      refine getLoop_missing rises fun j _ => expired_mono (rises (Nat.le_succ i)) ?_ old
      rw [(update_fades (.inr passed) j).start]
      exact older j
    · have young : ¬ ((nodes index).tombstone = true ∨ expired (clock i) t = true) :=
        fun h => old (h.elim gone id)
      rw [if_neg young, if_neg old]
      exact val_eq
  | succ d ih =>
    obtain ⟨allowance, rfl⟩ : ∃ more, allowance = more + 1 := ⟨allowance - 1, by omega⟩
    obtain ⟨keyed, other⟩ := stored.path 0 (by omega)
    simp only [ahead_zero] at keyed other
    have shift : i + (d + 1) = i + 1 + d := by omega
    rw [shift] at gone ⊢
    rw [getLoop_succ, if_neg keyed]
    split
    · rename_i passed
      have apart : ahead index (d + 1) ≠ index := fun eq => by
        have := ahead_inj (e := 0) stored.within (by have := stored.within; omega) eq
        omega
      apply ih (by omega) (stored.next.fades (update_fades passed))
      rwa [ahead_next, Function.update_of_ne apart]
    · rename_i young
      have different : ¬ sameKey key (nodes index).key = true := fun same => by
        simp only [not_or, Bool.not_eq_true] at young
        exact other ⟨keyed, young.1, same⟩
      rw [if_neg different]
      exact ih (by omega) stored.next gone

/-! ## Runs -/

/-- The map is valid and no slot was stamped after the last reading. -/
structure Timed (s : Clocked c) : Prop where
  valid : s.map.invalid = false
  older : ∀ i, (s.map.nodes i).start ≤ s.now

theorem get_fades (map : Hashmap c) (key : MapKey) {now later : Nat} {clock : Nat → Nat}
    (readings : Readings c now clock later) :
    (get map key clock).self.invalid = map.invalid ∧
      ∀ j, Fades later (map.nodes j) ((get map key clock).self.nodes j) := by
  unfold get
  split
  · exact ⟨rfl, fun _ => .inl rfl⟩
  · exact ⟨rfl, getLoop_fades (fun e he => readings.upTo e (by omega)) _ _⟩

theorem Readings.le {now later : Nat} {clock : Nat → Nat} (readings : Readings c now clock later) :
    now ≤ later :=
  readings.after.trans (readings.upTo 0 c.positive)

/-- Writing an entry stamped `start` into the slot `d` places on. -/
theorem stored_update {nodes : Fin c.capacity → MapNode} {index : Fin c.capacity} {d : Nat}
    {key stored : MapKey} {val : MapVal} {t : Nat} (within : d < c.capacity)
    (path : ∀ e < d, (nodes (ahead index e)).key.keyBase ≠ 0 ∧ ¬ Matches (nodes (ahead index e)) key)
    (base : stored.keyBase ≠ 0) (same : sameKey key stored = true)
    (older : ∀ j, (nodes j).start ≤ t) :
    Stored (Function.update nodes (ahead index d) ⟨stored, val, t, false⟩) index d key val t where
  within := within
  path e he := by
    have apart : ahead index e ≠ ahead index d := fun eq => by
      have := ahead_inj (by omega) within eq
      omega
    rw [Function.update_of_ne apart]
    exact path e he
  keyed := by rw [Function.update_self]; exact base
  same := by rw [Function.update_self]; exact same
  val_eq := by rw [Function.update_self]
  start_eq := by rw [Function.update_self]
  older j := by
    by_cases here : j = ahead index d
    · rw [here, Function.update_self]
    · rw [Function.update_of_ne here]
      exact older j

theorem putVisit_eq_none {nodes : Fin c.capacity → MapNode} {key : MapKey} {val : MapVal}
    {clock : Nat} {i : Fin c.capacity} (h : putVisit nodes key val clock i = none) :
    (nodes i).key.keyBase ≠ 0 ∧ ¬ Matches (nodes i) key := by
  simp only [putVisit] at h
  split at h
  · contradiction
  split at h
  · contradiction
  · rename_i taken different
    rw [not_or] at taken
    exact ⟨taken.1, fun matched => different matched.2.2⟩

theorem putVisit_eq_some {nodes nodes' : Fin c.capacity → MapNode} {key : MapKey} {val : MapVal}
    {clock : Nat} {i : Fin c.capacity} (base : key.keyBase ≠ 0)
    (h : putVisit nodes key val clock i = some nodes') :
    ∃ stored, stored.keyBase ≠ 0 ∧ sameKey key stored = true ∧
      nodes' = Function.update nodes i ⟨stored, val, clock, false⟩ := by
  simp only [putVisit] at h
  split at h
  · exact ⟨key, base, by simp [sameKey], (Option.some.inj h).symm⟩
  split at h
  · rename_i taken same
    rw [not_or] at taken
    exact ⟨_, taken.1, same, (Option.some.inj h).symm⟩
  · contradiction

/-- The slot was stamped at `t`: the map had room, or the slot it overwrites
happens to carry that stamp. -/
def Stamps (map : Hashmap c) (key : MapKey) (t : Nat) : Prop :=
  map.size < c.capacity ∨ (map.nodes (getIndex c key)).start = t

/-- A put at `t` stamps nothing later, and where it stores and stamps its entry
the entry is the first of its key on the path. -/
theorem put_stores {map : Hashmap c} {key : MapKey} {val : MapVal} {force : Bool} {t : Nat}
    {outcome : Outcome c Bool} (valid : map.invalid = false) (older : ∀ i, (map.nodes i).start ≤ t)
    (h : put map key val force t = some outcome) :
    outcome.self.invalid = false ∧ (∀ i, (outcome.self.nodes i).start ≤ t) ∧
      (outcome.ret = true → Stamps map key t →
        ∃ d, Stored outcome.self.nodes (getIndex c key) d key val t ∧
          (outcome.self.nodes (ahead (getIndex c key) d)).tombstone = false) := by
  unfold put at h
  split at h
  · obtain rfl := Option.some.inj h
    exact ⟨valid, older, nofun⟩
  rename_i checked
  simp only [not_or] at checked
  split at h
  · obtain rfl := Option.some.inj h
    exact ⟨valid, older, nofun⟩
  split at h
  · obtain ⟨nodes, found, rfl⟩ := Option.map_eq_some_iff.mp h
    obtain ⟨d, within, here, before⟩ := probe_eq_some.mp found
    obtain ⟨stored, base, same, rfl⟩ := putVisit_eq_some checked.2.1 here
    have entry : Stored (Function.update map.nodes _ ⟨stored, val, t, false⟩) _ d key val t :=
      stored_update within (fun e he => putVisit_eq_none (before e he)) base same older
    exact ⟨valid, entry.older, fun _ _ => ⟨d, entry, by simp⟩⟩
  · rename_i noRoom
    obtain rfl := Option.some.inj h
    refine ⟨valid, fun i => ?_, fun _ stamps => ⟨0, ?_, by simp⟩⟩
    · by_cases here : i = getIndex c key
      · simpa [here] using older (getIndex c key)
      · simpa [here] using older i
    · obtain room | stamped := stamps
      · exact absurd room noRoom
      · rw [stamped]
        exact stored_update c.positive (by simp) checked.2.1 (by simp [sameKey]) older

theorem delete_starts {map : Hashmap c} {key : MapKey} {now later : Nat} {clock : Nat → Nat}
    (readings : Readings c now clock later) :
    (delete map key clock).self.invalid = map.invalid ∧
      ∀ j, ((delete map key clock).self.nodes j).start = (map.nodes j).start := by
  obtain ⟨same, faded⟩ := get_fades map key readings
  have starts (j) := (faded j).start
  simp only [delete]
  split
  · exact ⟨rfl, fun _ => rfl⟩
  split
  · exact ⟨same, starts⟩
  split
  · exact ⟨same, starts⟩
  · refine ⟨same, fun j => ?_⟩
    rename_i index _
    by_cases here : j = index
    · simpa [deleteSection, here, MapNode.bury] using starts index
    · simpa [deleteSection, here] using starts j

theorem clearMap_starts (map : Hashmap c) :
    (clearMap map).self.invalid = map.invalid ∧
      ∀ j, ((clearMap map).self.nodes j).start = (map.nodes j).start := by
  unfold clearMap
  split
  · exact ⟨rfl, fun _ => rfl⟩
  · refine ⟨rfl, fun j => ?_⟩
    simp only [clearNode]
    split <;> rfl

theorem step_timed {s later : Clocked c} {call : Call} (timed : Timed s) (h : Step s call later) :
    Timed later := by
  obtain ⟨valid, older⟩ := timed
  cases h with
  | put rises h =>
    obtain ⟨valid, older, -⟩ := put_stores valid (fun i => (older i).trans rises) h
    exact ⟨valid, older⟩
  | get readings =>
    obtain ⟨same, faded⟩ := get_fades _ _ readings
    exact ⟨same.trans valid, fun i => (faded i).start ▸ (older i).trans readings.le⟩
  | delete readings =>
    obtain ⟨same, starts⟩ := delete_starts readings
    exact ⟨same.trans valid, fun i => (starts i).trans_le ((older i).trans readings.le)⟩
  | clearMap =>
    obtain ⟨same, starts⟩ := clearMap_starts s.map
    exact ⟨same.trans valid, fun i => (starts i).trans_le (older i)⟩

theorem reachable_timed {s : Clocked c} (reached : Reachable Step (Clocked.start c) s) : Timed s :=
  reached.invariant Timed ⟨rfl, fun _ => Nat.zero_le _⟩ fun inv _ h => step_timed inv h

/-- The entry of `key` after gets up to the reading `now`. -/
structure Kept (s : Clocked c) (key : MapKey) (val : MapVal) (t d : Nat) : Prop where
  valid : s.map.invalid = false
  stored : Stored s.map.nodes (getIndex c key) d key val t
  gone : (s.map.nodes (ahead (getIndex c key) d)).tombstone = true → expired s.now t = true

theorem step_kept {s later : Clocked c} {call : Call} {key : MapKey} {val : MapVal} {t d : Nat}
    (kept : Kept s key val t d) (reads : OnlyGets s call) (h : Step s call later) :
    Kept later key val t d := by
  cases h with
  | get readings =>
    obtain ⟨same, faded⟩ := get_fades _ _ readings
    refine ⟨same.trans kept.valid, kept.stored.fades faded, fun buried => ?_⟩
    obtain eq | ⟨-, old⟩ := faded (ahead (getIndex c key) d)
    · rw [eq] at buried
      exact expired_mono readings.le le_rfl (kept.gone buried)
    · rwa [kept.stored.start_eq] at old
  | put => exact reads.elim
  | delete => exact reads.elim
  | clearMap => exact reads.elim

/-- In every state a run reaches, after a put at `t` that stamps its entry and
any gets: a get of the key returns the value as long as `TTL` has not passed at
the reading it makes at the entry's slot, and nothing once it has. -/
theorem entry_lives_for_ttl {s : Clocked c} (reached : Reachable Step (Clocked.start c) s)
    {key : MapKey} {val : MapVal} {force : Bool} {t : Nat} {outcome : Outcome c Bool}
    (rises : s.now ≤ t) (returned : put s.map key val force t = some outcome)
    (accepted : outcome.ret = true) (stamps : Stamps s.map key t) {later : Clocked c}
    (gets : Run Step OnlyGets ⟨outcome.self, t⟩ later) :
    ∃ visit < c.capacity, ∀ key' clock until_, key'.keyBase ≠ 0 → key'.bytes = key.bytes →
      Readings c later.now clock until_ →
      (get later.map key' clock).ret = if expired (clock visit) t then .null else val := by
  have timed := reachable_timed reached
  obtain ⟨valid, -, stored⟩ :=
    put_stores timed.valid (fun i => (timed.older i).trans rises) returned
  obtain ⟨d, stored, live⟩ := stored accepted stamps
  have kept : Kept later key val t d :=
    gets.invariant (Kept · key val t d) ⟨valid, stored, by simp [live]⟩
      fun inv reads h => step_kept inv reads h
  refine ⟨d, kept.stored.within, fun key' clock until_ base same readings => ?_⟩
  have stored' := kept.stored.congr same.symm
  have gone : (later.map.nodes (ahead (getIndex c key) d)).tombstone = true →
      expired (clock (0 + d)) t = true := fun buried =>
    expired_mono (readings.after.trans (readings.rises (Nat.zero_le _))) le_rfl (kept.gone buried)
  have found := getLoop_stored readings.rises kept.stored.within stored' gone
  simpa [get, kept.valid, base, getIndex_congr same] using found

/-! ## An entry that is not stamped -/

theorem expired_iff {clock start : Nat} : expired clock start = true ↔ start + 6000000 ≤ clock := by
  simp only [expired, ttl, clocksPerSec, decide_eq_true_eq, gt_iff_lt]
  by_cases h : start ≤ clock
  · rw [Int.tdiv_eq_ediv_of_nonneg (by omega)]
    omega
  · have negative : ((clock : Int) - start).tdiv 1000000 ≤ (0 : Int).tdiv 1000000 :=
      Int.tdiv_le_tdiv (by decide) (by omega)
    rw [Int.zero_tdiv] at negative
    omega

/-- What a loop finds is the value of an entry that has not expired. -/
theorem getLoop_found {clock : Nat → Nat} {key : MapKey} {allowance i : Nat}
    {index : Fin c.capacity} {nodes : Fin c.capacity → MapNode} :
    (getLoop clock key allowance i index nodes).1 = .null ∨
      ∃ j e, Matches (nodes j) key ∧ expired (clock e) (nodes j).start = false ∧
        (getLoop clock key allowance i index nodes).1 = (nodes j).val := by
  induction allowance generalizing i index nodes with
  | zero => exact .inl rfl
  | succ allowance ih =>
    rw [getLoop_succ]
    split
    · exact .inl rfl
    rename_i keyed
    split
    · rename_i passed
      obtain missing | ⟨j, e, matched, young, eq⟩ := @ih (i + 1) (next index)
        (Function.update nodes index (nodes index).bury)
      · exact .inl missing
      · have faded := update_fades passed j
        rw [faded.start] at young
        rw [faded.val] at eq
        exact .inr ⟨j, e, faded.matches matched, young, eq⟩
    rename_i young
    split
    · rename_i same
      simp only [not_or, Bool.not_eq_true] at young
      exact .inr ⟨index, i, ⟨keyed, young.1, same⟩, young.2, rfl⟩
    · exact ih

/-- The condition is exact: a put that does not stamp its entry, with a value
the key does not have elsewhere, is followed by a get that misses it in time. -/
theorem unstamped_entry_is_lost {s : Clocked c} (reached : Reachable Step (Clocked.start c) s)
    {key : MapKey} {val : MapVal} {force : Bool} {t : Nat} {outcome : Outcome c Bool}
    (rises : s.now ≤ t) (returned : put s.map key val force t = some outcome)
    (accepted : outcome.ret = true) (unstamped : ¬ Stamps s.map key t)
    (fresh : ∀ i, Matches (s.map.nodes i) key → (s.map.nodes i).val ≠ val) :
    ∃ u, t ≤ u ∧ expired u t = false ∧ (get outcome.self key fun _ => u).ret ≠ val := by
  have timed := reachable_timed reached
  have older := timed.older (getIndex c key)
  unfold Stamps at unstamped
  rw [not_or] at unstamped
  unfold put at returned
  split at returned
  · obtain rfl := Option.some.inj returned
    contradiction
  rename_i checked
  simp only [not_or] at checked
  split at returned
  · obtain rfl := Option.some.inj returned
    contradiction
  rw [if_neg unstamped.1] at returned
  obtain rfl := Option.some.inj returned
  -- the first reading at which the overwritten stamp has expired
  refine ⟨max t ((s.map.nodes (getIndex c key)).start + 6000000), le_max_left _ _, ?_, ?_⟩
  · rw [← Bool.not_eq_true, expired_iff]
    omega
  · intro found
    have ready : ¬ (s.map.invalid = true ∨ key.keyBase = 0) := by simp [checked]
    simp only [get, if_neg ready] at found
    obtain missing | ⟨j, e, matched, young, eq⟩ := getLoop_found
    · exact checked.2.2 (by rw [← found, missing]; rfl)
    by_cases here : j = getIndex c key
    · subst here
      rw [Function.update_self, ← Bool.not_eq_true, expired_iff] at young
      exact young (le_max_right _ _)
    · rw [Function.update_of_ne here] at matched eq
      exact fresh j matched (eq.symm.trans found)

/-- One slot. -/
def oneSlot : Config := ⟨1, fun _ => 0, by decide, by decide⟩

theorem a_stamped_entry_lives :
    ∃ later : Clocked oneSlot, ∃ visit < 1,
      (get later.map ⟨3, [97]⟩ fun _ => 6000000).ret =
        if expired ((fun _ : Nat => 6000000) visit) 7 then .null else ⟨2, [1]⟩ := by
  obtain ⟨visit, within, law⟩ :=
    entry_lives_for_ttl (s := Clocked.start oneSlot) (Run.refl _) (Nat.zero_le 7)
      (rfl : put _ ⟨1, [97]⟩ ⟨2, [1]⟩ false 7 = _) rfl (.inl (by decide)) (Run.refl _)
  exact ⟨_, visit, within, law ⟨3, [97]⟩ (fun _ => 6000000) 6000000 (by decide) rfl
    ⟨fun _ _ _ => le_rfl, by decide, fun _ _ => le_rfl⟩⟩

/-- A forced put on the full map at 6 s keeps the stamp 0 of the slot: its entry
is gone at once. -/
theorem overwrite_is_not_stamped :
    ¬ ∀ (c : Config) (s : Clocked c), Reachable Step (Clocked.start c) s →
      ∀ key val force t outcome, s.now ≤ t → put s.map key val force t = some outcome →
      outcome.ret = true → ∀ later, Run Step OnlyGets ⟨outcome.self, t⟩ later →
      ∃ visit < c.capacity, ∀ key' clock until_, key'.keyBase ≠ 0 → key'.bytes = key.bytes →
        Readings c later.now clock until_ →
        (get later.map key' clock).ret = if expired (clock visit) t then .null else val := by
  intro h
  have reached : Reachable Step (Clocked.start oneSlot) _ :=
    (Run.refl _).next (Step.put (Nat.zero_le 0) (rfl : put _ ⟨1, [97]⟩ ⟨2, [1]⟩ false 0 = _)) trivial
  obtain ⟨visit, -, law⟩ := h _ _ reached ⟨3, [98]⟩ ⟨4, [2]⟩ true 6000000 _ (Nat.zero_le _) rfl rfl _
    (Run.refl _)
  have missed := law ⟨3, [98]⟩ (fun _ => 6000000) 6000000 (by decide) rfl
    ⟨fun _ _ _ => le_rfl, le_rfl, fun _ _ => le_rfl⟩
  revert missed
  decide

end LinuxSystem.ExtraCredit
