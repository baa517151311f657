import LinuxSystem.ExtraCredit.TimeToLive

/-!
# Gets that overlap

`get` sets tombstones while it only holds the lock as one of its readers. Here any
number of threads are in it at once, and each read of a slot and of the clock and
each tombstone is a step of its own. So is each visit of `get_true_index`, in which a
`delete` looks for its index as one more reader. The sections that need the lock alone
are one step each, when no thread is in a `get` or a `get_true_index`.
-/

namespace LinuxSystem.ExtraCredit.Overlap

open Probing Map Transition

/-- The local variables of the loop, with the readings at its visits so far. The
reading at a tombstone is the one `clock()` would have given. -/
structure Local (c : Config) where
  key : MapKey
  i : Nat
  index : Fin c.capacity
  readings : List Nat

variable {c : Config} {Thread : Type}

def Local.next (v : Local c) : Local c := { v with i := v.i + 1, index := Probing.next v.index }

def Local.read (v : Local c) (clock : Nat) : Local c := { v with readings := v.readings ++ [clock] }

def Local.clock (v : Local c) (e : Nat) : Nat := v.readings.getD e 0

/-- Where a thread is: outside, at the `while`, past a tombstone that is not set,
about to set one, or done with the loop; `seeking` is the loop of `get_true_index`. -/
inductive Point (c : Config) where
  | out
  | loop (v : Local c)
  | young (v : Local c)
  | old (v : Local c)
  | matched (v : Local c)
  | found (v : Local c) (rtn : MapVal)
  | seeking (key : MapKey) (i : Nat) (index : Fin c.capacity)

/-- A section that has a place in the order; `tombstone` is the last one of `delete`,
for any index that its search may have come to. -/
inductive Op (c : Config) where
  | put (key : MapKey) (val : MapVal) (force : Bool) (clock : Nat)
  | get (key : MapKey) (readings : List Nat)
  | tombstone (index : Fin c.capacity)
  | clearMap

def Op.run (map : Hashmap c) : Op c → Option (Reply × Hashmap c)
  | .put key val force clock => (ExtraCredit.put map key val force clock).map (·.reply .flag)
  | .get key readings => some ((ExtraCredit.get map key fun e => readings.getD e 0).reply .val)
  | .tombstone index => some ((deleteSection map index).reply fun rtn => .node rtn.plain)
  | .clearMap => some ((ExtraCredit.clearMap map).reply .flag)

/-- What a thread that holds the lock alone may do. -/
def Op.Writes (now : Nat) : Op c → Prop
  | .put _ _ _ clock => clock = now
  | .get _ _ => False
  | .tombstone _ | .clearMap => True

abbrev Entry (c : Config) (Thread : Type) := Thread × Op c × Reply

/-- `history` has a `get` from the step on that settles its answer, and `returned`
from its end on. -/
structure State (c : Config) (Thread : Type) where
  map : Hashmap c
  now : Nat
  point : Thread → Point c
  history : List (Entry c Thread)
  returned : List (Entry c Thread)

def State.start (c : Config) (Thread : Type) : State c Thread :=
  ⟨createMap c, 0, fun _ => .out, [], []⟩

def gets (t : Thread) (v : Local c) (rtn : MapVal) : Entry c Thread :=
  (t, .get v.key v.readings, ⟨.val rtn, none, []⟩)

section Steps

variable [DecidableEq Thread]

def State.go (s : State c Thread) (t : Thread) (point : Point c) : State c Thread :=
  { s with point := Function.update s.point t point }

def State.settle (s : State c Thread) (t : Thread) (v : Local c) (rtn : MapVal) : State c Thread :=
  { s with history := s.history ++ [gets t v rtn] }

/-- One step of a thread, or of the clock. The key of a slot and its value are
only written by a thread that holds the lock alone. -/
inductive Step : State c Thread → Option Thread → State c Thread → Prop where
  | tick {s} (now : Nat) : s.now ≤ now → Step s none { s with now := now }
  | enter {s t} (key : MapKey) : s.point t = .out → s.map.invalid = false → key.keyBase ≠ 0 →
      Step s (some t) (s.go t (.loop ⟨key, 0, getIndex c key, []⟩))
  | all {s t v} : s.point t = .loop v → ¬ v.i < c.capacity →
      Step s (some t) ((s.settle t v .null).go t (.found v .null))
  | null {s t v} : s.point t = .loop v → v.i < c.capacity →
      (s.map.nodes v.index).key.keyBase = 0 →
      Step s (some t) ((s.settle t v .null).go t (.found v .null))
  | buried {s t v} : s.point t = .loop v → v.i < c.capacity →
      (s.map.nodes v.index).key.keyBase ≠ 0 → (s.map.nodes v.index).tombstone = true →
      Step s (some t) (s.go t (.old (v.read s.now)))
  | unburied {s t v} : s.point t = .loop v → v.i < c.capacity →
      (s.map.nodes v.index).key.keyBase ≠ 0 → (s.map.nodes v.index).tombstone = false →
      Step s (some t) (s.go t (.young v))
  | expired {s t v} : s.point t = .young v →
      expired s.now (s.map.nodes v.index).start = true →
      Step s (some t) (s.go t (.old (v.read s.now)))
  | same {s t v} : s.point t = .young v → expired s.now (s.map.nodes v.index).start = false →
      sameKey v.key (s.map.nodes v.index).key = true →
      Step s (some t) ((s.settle t (v.read s.now) (s.map.nodes v.index).val).go t
        (.matched (v.read s.now)))
  | other {s t v} : s.point t = .young v → expired s.now (s.map.nodes v.index).start = false →
      sameKey v.key (s.map.nodes v.index).key = false →
      Step s (some t) (s.go t (.loop (v.read s.now).next))
  | bury {s t v} : s.point t = .old v →
      Step s (some t) ({ s with
        map := { s.map with
          nodes := Function.update s.map.nodes v.index (s.map.nodes v.index).bury } }.go t
        (.loop v.next))
  | value {s t v} : s.point t = .matched v →
      Step s (some t) (s.go t (.found v (s.map.nodes v.index).val))
  | leave {s t v rtn} : s.point t = .found v rtn →
      Step s (some t) ({ s with returned := s.returned ++ [gets t v rtn] }.go t .out)
  | seek {s t} (key : MapKey) : s.point t = .out → s.map.invalid = false → key.keyBase ≠ 0 →
      Step s (some t) (s.go t (.seeking key 0 (getIndex c key)))
  | pass {s t key i index} : s.point t = .seeking key i index → i < c.capacity →
      getTrueIndexVisit s.map.nodes key index = none →
      Step s (some t) (s.go t (.seeking key (i + 1) (Probing.next index)))
  -- the index, or -1 at a NULL key or after all slots, goes to the delete of the thread
  | located {s t key i index found} : s.point t = .seeking key i index → i < c.capacity →
      getTrueIndexVisit s.map.nodes key index = some found → Step s (some t) (s.go t .out)
  | missed {s t key i index} : s.point t = .seeking key i index → ¬ i < c.capacity →
      Step s (some t) (s.go t .out)
  | write {s t op reply map} : (∀ u, s.point u = .out) → Op.Writes s.now op →
      op.run s.map = some (reply, map) →
      Step s (some t) { s with
        map := map
        history := s.history ++ [(t, op, reply)]
        returned := s.returned ++ [(t, op, reply)] }

end Steps

/-- One section after the other gives these replies. -/
inductive Replayed : List (Op c × Reply) → Hashmap c → Prop where
  | nil : Replayed [] (createMap c)
  | snoc {history map op reply after} : Replayed history map → op.run map = some (reply, after) →
      Replayed (history ++ [(op, reply)]) after

/-! ## A walk -/

/-- The loop goes on past this slot. -/
def Passes (nodes : Fin c.capacity → MapNode) (key : MapKey) (clock : Nat) (x : Fin c.capacity) :
    Prop :=
  (nodes x).key.keyBase ≠ 0 ∧ ((nodes x).tombstone = true ∨
    expired clock (nodes x).start = true ∨ sameKey key (nodes x).key = false)

/-- The walk has met the slot at a time when it had expired. -/
def Met (nodes : Fin c.capacity → MapNode) (start : Fin c.capacity) (clock : Nat → Nat) (i : Nat)
    (x : Fin c.capacity) : Prop :=
  ∃ e < i, ahead start e = x ∧ expired (clock e) (nodes x).start = true

instance (nodes : Fin c.capacity → MapNode) (start : Fin c.capacity) (clock : Nat → Nat) (i : Nat)
    (x : Fin c.capacity) : Decidable (Met nodes start clock i x) :=
  inferInstanceAs (Decidable (∃ e < i, _ ∧ _))

def walked (nodes : Fin c.capacity → MapNode) (start : Fin c.capacity) (clock : Nat → Nat) (i : Nat)
    (x : Fin c.capacity) : MapNode :=
  if Met nodes start clock i x then (nodes x).bury else nodes x

section Walk

variable {nodes : Fin c.capacity → MapNode} {start x : Fin c.capacity} {clock : Nat → Nat} {i : Nat}
  {key : MapKey}

theorem met_succ : Met nodes start clock (i + 1) x ↔
    Met nodes start clock i x ∨ ahead start i = x ∧ expired (clock i) (nodes x).start = true := by
  simp only [Met, Nat.lt_succ_iff_lt_or_eq, or_and_right, exists_or, exists_eq_left]

/-- The slots of a walk are all different. -/
theorem not_met_ahead (below : i < c.capacity) : ¬ Met nodes start clock i (ahead start i) := by
  rintro ⟨e, before, here, -⟩
  exact Nat.ne_of_lt before (ahead_inj (Nat.lt_trans before below) below here)

theorem walked_ahead (below : i < c.capacity) :
    walked nodes start clock i (ahead start i) = nodes (ahead start i) :=
  if_neg (not_met_ahead below)

theorem walked_bury (below : i < c.capacity)
    (gone : (nodes (ahead start i)).tombstone = true ∨
      expired (clock i) (nodes (ahead start i)).start = true) :
    Function.update (walked nodes start clock i) (ahead start i) (nodes (ahead start i)).bury =
      walked nodes start clock (i + 1) := by
  funext x
  by_cases here : x = ahead start i
  · subst here
    rw [Function.update_self, walked]
    by_cases old : expired (clock i) (nodes (ahead start i)).start = true
    · rw [if_pos (met_succ.mpr (.inr ⟨rfl, old⟩))]
    · have unmet : ¬ Met nodes start clock (i + 1) (ahead start i) := by
        rw [met_succ, not_or, not_and]
        exact ⟨not_met_ahead below, fun _ => old⟩
      rw [if_neg unmet, bury_of_tombstone (gone.resolve_right old)]
  · rw [Function.update_of_ne here, walked, walked]
    have same : Met nodes start clock (i + 1) x ↔ Met nodes start clock i x := by
      rw [met_succ]
      exact or_iff_left fun eq => here eq.1.symm
    rw [if_congr same rfl rfl]

/-- The loop up to visit `i`. -/
theorem getLoop_walk (within : i ≤ c.capacity)
    (passed : ∀ e < i, Passes nodes key (clock e) (ahead start e)) :
    getLoop clock key c.capacity 0 start nodes =
      getLoop clock key (c.capacity - i) i (ahead start i) (walked nodes start clock i) := by
  induction i with
  | zero =>
    have same : walked nodes start clock 0 = nodes := by
      funext x
      exact if_neg fun ⟨e, before, _⟩ => absurd before (Nat.not_lt_zero e)
    rw [same]
    rfl
  | succ i ih =>
    have below : i < c.capacity := within
    rw [ih (Nat.le_of_lt below) fun e before => passed e (Nat.lt_succ_of_lt before),
      show c.capacity - i = c.capacity - (i + 1) + 1 by omega, getLoop_succ, walked_ahead below,
      ahead_succ]
    obtain ⟨keyed, goes⟩ := passed i (Nat.lt_succ_self i)
    rw [if_neg keyed]
    by_cases gone : (nodes (ahead start i)).tombstone = true ∨
        expired (clock i) (nodes (ahead start i)).start = true
    · rw [if_pos gone, walked_bury below gone]
    · obtain ⟨unburied, young⟩ := not_or.mp gone
      have other := (goes.resolve_left unburied).resolve_left young
      have same : walked nodes start clock (i + 1) = walked nodes start clock i := by
        funext x
        have unmet : Met nodes start clock (i + 1) x ↔ Met nodes start clock i x := by
          rw [met_succ]
          exact or_iff_left fun ⟨eq, old⟩ => young (eq ▸ old)
        rw [walked, walked, if_congr unmet rfl rfl]
      rw [if_neg gone, if_neg (by simp [other]), same]

/-- How the loop ends at visit `i`. -/
inductive Ends (nodes : Fin c.capacity → MapNode) (key : MapKey) (clock : Nat → Nat) :
    Nat → MapVal → Prop where
  | all : Ends nodes key clock c.capacity .null
  | null {i : Nat} : i < c.capacity → (nodes (ahead (getIndex c key) i)).key.keyBase = 0 →
      Ends nodes key clock i .null
  | same {i : Nat} : i < c.capacity → Matches (nodes (ahead (getIndex c key) i)) key →
      expired (clock i) (nodes (ahead (getIndex c key) i)).start = false →
      Ends nodes key clock i (nodes (ahead (getIndex c key) i)).val

theorem Ends.le {rtn : MapVal} (ends : Ends nodes key clock i rtn) : i ≤ c.capacity := by
  cases ends with
  | all => exact Nat.le_refl _
  | null below => exact Nat.le_of_lt below
  | same below => exact Nat.le_of_lt below

/-- What a `get` answers, and the slots it buries. -/
theorem getLoop_ends {rtn : MapVal}
    (passed : ∀ e < i, Passes nodes key (clock e) (ahead (getIndex c key) e))
    (ends : Ends nodes key clock i rtn) :
    getLoop clock key c.capacity 0 (getIndex c key) nodes =
      (rtn, walked nodes (getIndex c key) clock i) := by
  rw [getLoop_walk ends.le passed]
  cases ends with
  | all =>
    rw [Nat.sub_self]
    rfl
  | null below empty =>
    rw [show c.capacity - i = c.capacity - (i + 1) + 1 by omega, getLoop_succ, walked_ahead below,
      if_pos empty]
  | same below matched young =>
    obtain ⟨keyed, live, same⟩ := matched
    rw [show c.capacity - i = c.capacity - (i + 1) + 1 by omega, getLoop_succ, walked_ahead below,
      if_neg keyed, if_neg (by simp [live, young]), if_pos same]

theorem run_get {map : Hashmap c} {readings : List Nat} {rtn : MapVal}
    (usable : map.invalid = false) (base : key.keyBase ≠ 0)
    (passed : ∀ e < i, Passes map.nodes key (readings.getD e 0) (ahead (getIndex c key) e))
    (ends : Ends map.nodes key (fun e => readings.getD e 0) i rtn) :
    (Op.get key readings).run map = some (⟨.val rtn, none, []⟩, { map with
      nodes := walked map.nodes (getIndex c key) (fun e => readings.getD e 0) i }) := by
  rw [Op.run, ExtraCredit.get, if_neg (by simp [usable, base]), getLoop_ends passed ends]
  rfl

end Walk

end LinuxSystem.ExtraCredit.Overlap
