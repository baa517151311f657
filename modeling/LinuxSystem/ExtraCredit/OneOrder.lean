import LinuxSystem.ExtraCredit.Overlap
import Mathlib.Data.List.GetD

/-!
# One order for gets that overlap

A `get` takes its place in the order at the step that settles its answer. Until
then the slots it has buried are owed: the map has their tombstones, and the map
that the order leaves does not. What is owed has expired, so a `get` that meets
the tombstone would have passed the slot without it.
-/

namespace LinuxSystem.ExtraCredit.Overlap

open Probing Map Transition

variable {c : Config} {Thread : Type}

/-! ## The map and the replay -/

def Local.Met (v : Local c) (nodes : Fin c.capacity → MapNode) (x : Fin c.capacity) : Prop :=
  Overlap.Met nodes (getIndex c v.key) v.clock v.i x

/-- The thread has buried the slot, and its `get` is not in the history yet. -/
def Point.Owes (nodes : Fin c.capacity → MapNode) (x : Fin c.capacity) : Point c → Prop
  | .loop v | .young v | .old v => v.Met nodes x
  | _ => False

def Owed (nodes : Fin c.capacity → MapNode) (point : Thread → Point c) (x : Fin c.capacity) : Prop :=
  ∃ t, (point t).Owes nodes x

/-- The map is the replayed one, with the slots that are owed buried. -/
structure Shadows (map replayed : Hashmap c) (owed : Fin c.capacity → Prop) : Prop where
  size : map.size = replayed.size
  invalid : map.invalid = replayed.invalid
  met : ∀ x, owed x → map.nodes x = (replayed.nodes x).bury
  unmet : ∀ x, ¬ owed x → map.nodes x = replayed.nodes x

structure Walk (map : Hashmap c) (now : Nat) (v : Local c) : Prop where
  usable : map.invalid = false
  base : v.key.keyBase ≠ 0
  index : v.index = ahead (getIndex c v.key) v.i
  within : v.i ≤ c.capacity
  passed : ∀ e < v.i, Passes map.nodes v.key (v.clock e) (ahead (getIndex c v.key) e)
  past : ∀ e, v.clock e ≤ now

structure Visit (map : Hashmap c) (now : Nat) (v : Local c) : Prop extends Walk map now v where
  below : v.i < c.capacity
  keyed : (map.nodes v.index).key.keyBase ≠ 0

def Point.Agrees (map : Hashmap c) (now : Nat) : Point c → Prop
  | .loop v => v.readings.length = v.i ∧ Walk map now v
  -- a tombstone that has been set since is that of an expired slot
  | .young v => v.readings.length = v.i ∧ Visit map now v ∧
      ((map.nodes v.index).tombstone = true → expired now (map.nodes v.index).start = true)
  | .old v => v.readings.length = v.i + 1 ∧ Visit map now v ∧
      ((map.nodes v.index).tombstone = true ∨
        expired (v.clock v.i) (map.nodes v.index).start = true)
  | _ => True

def Point.pending (nodes : Fin c.capacity → MapNode) (t : Thread) : Point c → List (Entry c Thread)
  | .matched v => [gets t v (nodes v.index).val]
  | .found v rtn => [gets t v rtn]
  | _ => []

structure Kept [DecidableEq Thread] (s : State c Thread) (replayed : Hashmap c) : Prop where
  history : Replayed (s.history.map (·.2)) replayed
  shadows : Shadows s.map replayed (Owed replayed.nodes s.point)
  agrees : ∀ t, (s.point t).Agrees replayed s.now
  calls : ∀ t, s.returned.filter (·.1 = t) ++ (s.point t).pending s.map.nodes t =
    s.history.filter (·.1 = t)

section Shadows

variable {map replayed : Hashmap c} {owed : Fin c.capacity → Prop} {x : Fin c.capacity}

theorem Shadows.cases (shadows : Shadows map replayed owed) (x : Fin c.capacity) :
    map.nodes x = replayed.nodes x ∨ map.nodes x = (replayed.nodes x).bury := by
  by_cases met : owed x
  · exact .inr (shadows.met x met)
  · exact .inl (shadows.unmet x met)

theorem Shadows.key (shadows : Shadows map replayed owed) (x : Fin c.capacity) :
    (map.nodes x).key = (replayed.nodes x).key := by
  rcases shadows.cases x with same | buried
  · rw [same]
  · rw [buried]
    rfl

theorem Shadows.val (shadows : Shadows map replayed owed) (x : Fin c.capacity) :
    (map.nodes x).val = (replayed.nodes x).val := by
  rcases shadows.cases x with same | buried
  · rw [same]
  · rw [buried]
    rfl

theorem Shadows.start (shadows : Shadows map replayed owed) (x : Fin c.capacity) :
    (map.nodes x).start = (replayed.nodes x).start := by
  rcases shadows.cases x with same | buried
  · rw [same]
  · rw [buried]
    rfl

theorem Shadows.live (shadows : Shadows map replayed owed)
    (live : (map.nodes x).tombstone = false) : (replayed.nodes x).tombstone = false := by
  rcases shadows.cases x with same | buried
  · rwa [same] at live
  · rw [buried] at live
    cases live

theorem Shadows.tombstone (shadows : Shadows map replayed owed)
    (set : (map.nodes x).tombstone = true) : (replayed.nodes x).tombstone = true ∨ owed x := by
  by_cases met : owed x
  · exact .inr met
  · rw [shadows.unmet x met] at set
    exact .inl set

/-- Nothing is owed when all threads are out. -/
theorem Shadows.eq (shadows : Shadows map replayed owed) (none : ∀ x, ¬ owed x) : map = replayed := by
  have nodes : map.nodes = replayed.nodes := funext fun x => shadows.unmet x (none x)
  have size := shadows.size
  have invalid := shadows.invalid
  cases map
  cases replayed
  simp_all

end Shadows

/-! ## What a step keeps -/

section Fading

variable {map map' : Hashmap c} {now now' : Nat} {v : Local c} {point : Point c}

theorem Passes.fades {nodes nodes' : Fin c.capacity → MapNode} {key : MapKey} {clock : Nat}
    {x : Fin c.capacity} (passes : Passes nodes key clock x)
    (faded : Fades now' (nodes x) (nodes' x)) : Passes nodes' key clock x := by
  rcases faded with same | ⟨buried, -⟩
  · rwa [Passes, same]
  · rw [Passes, buried]
    exact ⟨passes.1, .inl rfl⟩

theorem Walk.fades (later : now ≤ now') (usable : map'.invalid = false)
    (faded : ∀ x, Fades now' (map.nodes x) (map'.nodes x)) (walk : Walk map now v) :
    Walk map' now' v where
  usable := usable
  base := walk.base
  index := walk.index
  within := walk.within
  passed e before := (walk.passed e before).fades (faded _)
  past e := Nat.le_trans (walk.past e) later

theorem Visit.fades (later : now ≤ now') (usable : map'.invalid = false)
    (faded : ∀ x, Fades now' (map.nodes x) (map'.nodes x)) (visit : Visit map now v) :
    Visit map' now' v where
  toWalk := visit.toWalk.fades later usable faded
  below := visit.below
  keyed := by
    rw [(faded v.index).key]
    exact visit.keyed

theorem Point.Agrees.fades (later : now ≤ now') (usable : map.invalid = false → map'.invalid = false)
    (faded : ∀ x, Fades now' (map.nodes x) (map'.nodes x)) (agrees : point.Agrees map now) :
    point.Agrees map' now' := by
  cases point with
  | out => trivial
  | matched v => trivial
  | found v rtn => trivial
  | seeking key i index => trivial
  | loop v =>
    obtain ⟨read, walk⟩ := agrees
    exact ⟨read, walk.fades later (usable walk.usable) faded⟩
  | young v =>
    obtain ⟨read, visit, since⟩ := agrees
    refine ⟨read, visit.fades later (usable visit.usable) faded, fun set => ?_⟩
    rw [(faded v.index).start]
    rcases faded v.index with same | ⟨-, old⟩
    · rw [same] at set
      exact expired_mono later (Nat.le_refl _) (since set)
    · exact old
  | old v =>
    obtain ⟨read, visit, gone⟩ := agrees
    refine ⟨read, visit.fades later (usable visit.usable) faded, ?_⟩
    rw [(faded v.index).start]
    rcases faded v.index with same | ⟨buried, -⟩
    · rwa [same]
    · rw [buried]
      exact .inl rfl

end Fading

section Debts

variable {nodes nodes' : Fin c.capacity → MapNode} {x : Fin c.capacity} {v : Local c}

theorem met_congr (start : ∀ x, (nodes' x).start = (nodes x).start) :
    v.Met nodes' x ↔ v.Met nodes x := by
  simp only [Local.Met, Overlap.Met, start]

theorem owes_congr (start : ∀ x, (nodes' x).start = (nodes x).start) {point : Point c} :
    point.Owes nodes' x ↔ point.Owes nodes x := by
  cases point <;> simp only [Point.Owes, met_congr start]

theorem clock_read (read : v.readings.length = v.i) {e now : Nat} (before : e < v.i) :
    (v.read now).clock e = v.clock e :=
  List.getD_append _ _ _ _ (by omega)

theorem clock_read_last (read : v.readings.length = v.i) (now : Nat) :
    (v.read now).clock v.i = now := by
  rw [← read, Local.clock, Local.read, List.getD_append_right _ _ _ _ (Nat.le_refl _), Nat.sub_self]
  rfl

theorem met_read (read : v.readings.length = v.i) {now : Nat} :
    (v.read now).Met nodes x ↔ v.Met nodes x := by
  simp only [Local.Met, Overlap.Met]
  refine exists_congr fun e => and_congr_right fun before => ?_
  rw [clock_read read before]
  rfl

/-- One more visit is one more debt, of a slot that had expired. -/
theorem met_next : v.next.Met nodes x ↔ v.Met nodes x ∨
    ahead (getIndex c v.key) v.i = x ∧ expired (v.clock v.i) (nodes x).start = true :=
  met_succ

end Debts

section Walking

variable {map : Hashmap c} {now : Nat} {v : Local c}

theorem Walk.read (walk : Walk map now v) (read : v.readings.length = v.i) :
    Walk map now (v.read now) where
  usable := walk.usable
  base := walk.base
  index := walk.index
  within := walk.within
  passed e before := by
    rw [clock_read read before]
    exact walk.passed e before
  past e := by
    rcases Nat.lt_or_ge e v.readings.length with before | after
    · rw [clock_read read (read ▸ before)]
      exact walk.past e
    · rw [Local.clock, Local.read, List.getD_append_right _ _ _ _ after]
      rcases e - v.readings.length with _ | rest
      · exact Nat.le_refl now
      · exact Nat.zero_le now

theorem Visit.read (visit : Visit map now v) (read : v.readings.length = v.i) :
    Visit map now (v.read now) where
  toWalk := visit.toWalk.read read
  below := visit.below
  keyed := visit.keyed

/-- The walk goes on past the slot of a visit. -/
theorem Visit.next (visit : Visit map now v)
    (passes : Passes map.nodes v.key (v.clock v.i) v.index) : Walk map now v.next where
  usable := visit.usable
  base := visit.base
  index := by
    rw [Local.next, visit.index, ahead_succ]
  within := visit.below
  passed e before := by
    rcases Nat.lt_succ_iff_lt_or_eq.mp before with earlier | rfl
    · exact visit.passed e earlier
    · rw [visit.index] at passes
      exact passes
  past := visit.past

/-- What a walk has met has expired by now. -/
theorem Walk.met_expired (walk : Walk map now v) {x : Fin c.capacity} (met : v.Met map.nodes x) :
    expired now (map.nodes x).start = true := by
  obtain ⟨e, -, -, old⟩ := met
  exact expired_mono (walk.past e) (Nat.le_refl _) old

theorem Point.Agrees.owes_expired {point : Point c} (agrees : point.Agrees map now)
    {x : Fin c.capacity} (owes : point.Owes map.nodes x) : expired now (map.nodes x).start = true := by
  cases point with
  | out => exact owes.elim
  | matched v => exact owes.elim
  | found v rtn => exact owes.elim
  | seeking key i index => exact owes.elim
  | loop v => exact agrees.2.met_expired owes
  | young v => exact agrees.2.1.met_expired owes
  | old v => exact agrees.2.1.met_expired owes

end Walking

section Steps

variable [DecidableEq Thread] {s : State c Thread} {replayed : Hashmap c} {t : Thread}

theorem owed_update {nodes : Fin c.capacity → MapNode} {point : Thread → Point c} {p : Point c}
    {x : Fin c.capacity} : Owed nodes (Function.update point t p) x ↔
      p.Owes nodes x ∨ ∃ u, u ≠ t ∧ (point u).Owes nodes x := by
  constructor
  · rintro ⟨u, owes⟩
    by_cases self : u = t
    · subst self
      rw [Function.update_self] at owes
      exact .inl owes
    · rw [Function.update_of_ne self] at owes
      exact .inr ⟨u, self, owes⟩
  · rintro (owes | ⟨u, other, owes⟩)
    · exact ⟨t, by rwa [Function.update_self]⟩
    · exact ⟨u, by rwa [Function.update_of_ne other]⟩

theorem owed_iff {nodes : Fin c.capacity → MapNode} {point : Thread → Point c} (t : Thread)
    {x : Fin c.capacity} : Owed nodes point x ↔
      (point t).Owes nodes x ∨ ∃ u, u ≠ t ∧ (point u).Owes nodes x := by
  rw [← owed_update, Function.update_eq_self]

omit [DecidableEq Thread] in
theorem pending_congr {nodes nodes' : Fin c.capacity → MapNode}
    (val : ∀ x, (nodes' x).val = (nodes x).val) (point : Point c) :
    point.pending nodes' t = point.pending nodes t := by
  cases point <;> simp only [Point.pending, val]

theorem Kept.at_point (kept : Kept s replayed) {p : Point c} (eq : s.point t = p) :
    p.Agrees replayed s.now :=
  eq ▸ kept.agrees t

/-- What is owed has expired. -/
theorem Kept.owed_expired (kept : Kept s replayed) {x : Fin c.capacity}
    (owed : Owed replayed.nodes s.point x) : expired s.now (replayed.nodes x).start = true := by
  obtain ⟨u, owes⟩ := owed
  exact (kept.agrees u).owes_expired owes

/-- A step of one thread that leaves the map and its debts alone. -/
theorem Kept.go (kept : Kept s replayed) {p : Point c}
    (owes : ∀ x, p.Owes replayed.nodes x ↔ (s.point t).Owes replayed.nodes x)
    (agrees : p.Agrees replayed s.now)
    (pending : p.pending s.map.nodes t = (s.point t).pending s.map.nodes t) :
    Kept (s.go t p) replayed where
  history := kept.history
  shadows := by
    have same : Owed replayed.nodes (Function.update s.point t p) = Owed replayed.nodes s.point := by
      funext x
      rw [owed_update, owes, ← owed_iff]
    show Shadows s.map replayed (Owed replayed.nodes (Function.update s.point t p))
    rw [same]
    exact kept.shadows
  agrees u := by
    by_cases self : u = t
    · subst self
      simpa [State.go] using agrees
    · simpa [State.go, self] using kept.agrees u
  calls u := by
    by_cases self : u = t
    · subst self
      simpa [State.go, pending] using kept.calls u
    · simpa [State.go, self] using kept.calls u

theorem Kept.tick (kept : Kept s replayed) {now : Nat} (later : s.now ≤ now) :
    Kept { s with now := now } replayed where
  history := kept.history
  shadows := kept.shadows
  agrees u := (kept.agrees u).fades later id fun _ => .inl rfl
  calls := kept.calls

/-- The slots of a walk that is settled fade. -/
theorem walked_fades {v : Local c} {nodes : Fin c.capacity → MapNode} {now : Nat}
    (past : ∀ e, v.clock e ≤ now) (x : Fin c.capacity) :
    Fades now (nodes x) (walked nodes (getIndex c v.key) v.clock v.i x) := by
  rw [walked]
  split
  · rename_i met
    obtain ⟨e, -, -, old⟩ := met
    exact .inr ⟨rfl, expired_mono (past e) (Nat.le_refl _) old⟩
  · exact .inl rfl

/-- The debts of a walk are paid when its answer is settled. -/
theorem Shadows.settle {map : Hashmap c} {point : Thread → Point c} {p : Point c} {v : Local c}
    (shadows : Shadows map replayed (Owed replayed.nodes point))
    (owes : ∀ x, (point t).Owes replayed.nodes x ↔ v.Met replayed.nodes x)
    (paid : ∀ nodes x, ¬ p.Owes nodes x) (past : ∀ e, v.clock e ≤ now) :
    Shadows map { replayed with nodes := walked replayed.nodes (getIndex c v.key) v.clock v.i }
      (Owed (walked replayed.nodes (getIndex c v.key) v.clock v.i) (Function.update point t p)) := by
  have faded : ∀ x, Fades now (replayed.nodes x) _ := walked_fades past
  have others : ∀ x, Owed (walked replayed.nodes (getIndex c v.key) v.clock v.i)
      (Function.update point t p) x ↔ ∃ u, u ≠ t ∧ (point u).Owes replayed.nodes x := by
    intro x
    rw [owed_update, or_iff_right (paid _ x)]
    exact exists_congr fun u => and_congr_right fun _ => owes_congr fun y => (faded y).start
  refine ⟨shadows.size, shadows.invalid, fun x owed => ?_, fun x unowed => ?_⟩
  · rw [shadows.met x ((owed_iff t).mpr (.inr ((others x).mp owed)))]
    show _ = (walked replayed.nodes (getIndex c v.key) v.clock v.i x).bury
    rcases faded x with same | ⟨buried, -⟩
    · rw [same]
    · rw [buried]
      rfl
  · rw [others] at unowed
    show _ = walked replayed.nodes (getIndex c v.key) v.clock v.i x
    rw [walked]
    split
    · rename_i met
      exact shadows.met x ((owed_iff t).mpr (.inl ((owes x).mpr met)))
    · rename_i unmet
      refine shadows.unmet x fun owed => ?_
      rcases (owed_iff t).mp owed with self | other
      · exact unmet ((owes x).mp self)
      · exact unowed other

/-- The step that settles the answer of a `get` is where it stands in the replay. -/
theorem Kept.settle (kept : Kept s replayed) {p : Point c} {v : Local c} {rtn : MapVal}
    (walk : Walk replayed s.now v) (ends : Ends replayed.nodes v.key v.clock v.i rtn)
    (owes : ∀ x, (s.point t).Owes replayed.nodes x ↔ v.Met replayed.nodes x)
    (none : (s.point t).pending s.map.nodes t = [])
    (paid : ∀ nodes x, ¬ p.Owes nodes x) (agrees : ∀ map, p.Agrees map s.now)
    (pending : p.pending s.map.nodes t = [gets t v rtn]) :
    Kept ((s.settle t v rtn).go t p)
      { replayed with nodes := walked replayed.nodes (getIndex c v.key) v.clock v.i } where
  history := by
    simp only [State.go, State.settle, List.map_append, List.map_cons, List.map_nil]
    exact kept.history.snoc (run_get walk.usable walk.base walk.passed ends)
  shadows := kept.shadows.settle owes paid walk.past
  agrees u := by
    by_cases self : u = t
    · subst self
      simpa [State.go, State.settle] using agrees _
    · have still : (s.point u).Agrees
          { replayed with nodes := walked replayed.nodes (getIndex c v.key) v.clock v.i } s.now := by
        refine Point.Agrees.fades (Nat.le_refl s.now) ?_ ?_ (kept.agrees u)
        · exact id
        · exact walked_fades walk.past
      simpa [State.go, State.settle, self] using still
  calls u := by
    have before := kept.calls u
    by_cases self : u = t
    · subst self
      rw [none, List.append_nil] at before
      simp [State.go, State.settle, pending, before, gets]
    · have other : ¬ t = u := fun eq => self eq.symm
      simp [State.go, State.settle, self, before, gets, other]

/-- Setting a tombstone is a debt when the slot has none, and nothing when it has. -/
theorem Kept.bury (kept : Kept s replayed) {v : Local c} (at_old : s.point t = .old v) :
    Kept ({ s with
      map := { s.map with
        nodes := Function.update s.map.nodes v.index (s.map.nodes v.index).bury } }.go t
      (.loop v.next)) replayed := by
  obtain ⟨read, visit, gone⟩ := kept.at_point at_old
  have owed : ∀ x, Owed replayed.nodes (Function.update s.point t (.loop v.next)) x ↔
      Owed replayed.nodes s.point x ∨
        v.index = x ∧ expired (v.clock v.i) (replayed.nodes x).start = true := by
    intro x
    rw [owed_update, owed_iff t, at_old]
    simp only [Point.Owes, met_next, ← visit.index]
    exact or_right_comm
  have node : ∀ x, x ≠ v.index →
      Function.update s.map.nodes v.index (s.map.nodes v.index).bury x = s.map.nodes x :=
    fun x other => Function.update_of_ne other _ _
  have here : Function.update s.map.nodes v.index (s.map.nodes v.index).bury v.index =
      (replayed.nodes v.index).bury := by
    rw [Function.update_self]
    rcases kept.shadows.cases v.index with same | buried
    · rw [same]
    · rw [buried]
      rfl
  refine ⟨kept.history, ⟨kept.shadows.size, kept.shadows.invalid, ?_, ?_⟩, ?_, ?_⟩
  · intro x owes
    by_cases self : x = v.index
    · subst self
      exact here
    · refine (node x self).trans (kept.shadows.met x ?_)
      exact ((owed x).mp owes).resolve_right fun new => self new.1.symm
  · intro x unowed
    have clear := fun owes => unowed ((owed x).mpr owes)
    by_cases self : x = v.index
    · subst self
      refine here.trans (bury_of_tombstone (gone.resolve_right fun old => clear (.inr ⟨rfl, old⟩)))
    · exact (node x self).trans (kept.shadows.unmet x fun owes => clear (.inl owes))
  · intro u
    by_cases self : u = t
    · subst self
      have passes : Passes replayed.nodes v.key (v.clock v.i) v.index :=
        ⟨visit.keyed, gone.elim .inl fun old => .inr (.inl old)⟩
      show (Function.update s.point u (.loop v.next) u).Agrees replayed s.now
      rw [Function.update_self]
      exact ⟨read, visit.next passes⟩
    · simpa [State.go, self] using kept.agrees u
  · intro u
    have vals : ∀ x, (Function.update s.map.nodes v.index (s.map.nodes v.index).bury x).val =
        (s.map.nodes x).val := by
      intro x
      by_cases self : x = v.index
      · subst self
        rw [Function.update_self]
        rfl
      · rw [node x self]
    have before := kept.calls u
    by_cases self : u = t
    · subst self
      simpa [State.go, at_old, Point.pending] using before
    · simpa [State.go, self, pending_congr vals] using before

theorem Kept.leave (kept : Kept s replayed) {v : Local c} {rtn : MapVal}
    (at_found : s.point t = .found v rtn) :
    Kept ({ s with returned := s.returned ++ [gets t v rtn] }.go t .out) replayed := by
  have gone : Kept (s.go t (.found v rtn)) replayed :=
    kept.go (fun x => by rw [at_found]) trivial (by rw [at_found])
  have same : Owed replayed.nodes (Function.update s.point t .out) = Owed replayed.nodes s.point := by
    funext x
    rw [owed_update, owed_iff t, at_found]
    rfl
  refine ⟨kept.history, ?_, ?_, ?_⟩
  · show Shadows s.map replayed (Owed replayed.nodes (Function.update s.point t .out))
    rw [same]
    exact kept.shadows
  · intro u
    by_cases self : u = t
    · subst self
      simp [State.go, Point.Agrees]
    · simpa [State.go, self] using kept.agrees u
  · intro u
    have before := kept.calls u
    by_cases self : u = t
    · subst self
      simpa [State.go, at_found, Point.pending, gets] using before
    · have other : ¬ t = u := fun eq => self eq.symm
      simpa [State.go, self, gets, other] using before

theorem Kept.write (kept : Kept s replayed) (out : ∀ u, s.point u = .out) {op : Op c} {reply : Reply}
    {map : Hashmap c} (run : op.run s.map = some (reply, map)) :
    Kept { s with
      map := map
      history := s.history ++ [(t, op, reply)]
      returned := s.returned ++ [(t, op, reply)] } map := by
  have none : ∀ nodes x, ¬ Owed nodes s.point x := by
    rintro nodes x ⟨u, owes⟩
    rw [out u] at owes
    exact owes
  have eq : s.map = replayed := kept.shadows.eq (none _)
  refine ⟨?_, ⟨rfl, rfl, fun x owed => absurd owed (none _ x), fun _ _ => rfl⟩, fun u => ?_, fun u => ?_⟩
  · rw [List.map_append]
    exact kept.history.snoc (eq ▸ run)
  · show (s.point u).Agrees _ _
    rw [out u]
    trivial
  · have before := kept.calls u
    rw [out u] at before
    simp only [Point.pending, List.append_nil] at before
    simp [out u, Point.pending, before]

theorem Kept.step (kept : Kept s replayed) {label : Option Thread} {s' : State c Thread}
    (step : Step s label s') : ∃ replayed', Kept s' replayed' := by
  cases step with
  | tick now later => exact ⟨_, kept.tick later⟩
  | @enter t key at_out usable base =>
    refine ⟨_, kept.go (fun x => ?_) ⟨rfl, ?_⟩ (by rw [at_out]; rfl)⟩
    · rw [at_out]
      exact iff_of_false (fun ⟨e, before, _⟩ => absurd before (Nat.not_lt_zero e)) id
    · exact ⟨kept.shadows.invalid ▸ usable, base, rfl, Nat.zero_le _,
        fun e before => absurd before (Nat.not_lt_zero e), fun e => Nat.zero_le _⟩
  | @all t v at_loop full =>
    obtain ⟨-, walk⟩ := kept.at_point at_loop
    have last : v.i = c.capacity := Nat.le_antisymm walk.within (Nat.not_lt.mp full)
    exact ⟨_, kept.settle walk (last ▸ .all) (fun x => by rw [at_loop]; rfl) (by rw [at_loop]; rfl)
      (fun _ _ => id) (fun _ => trivial) rfl⟩
  | @null t v at_loop below empty =>
    obtain ⟨-, walk⟩ := kept.at_point at_loop
    rw [kept.shadows.key, walk.index] at empty
    exact ⟨_, kept.settle walk (.null below empty) (fun x => by rw [at_loop]; rfl)
      (by rw [at_loop]; rfl) (fun _ _ => id) (fun _ => trivial) rfl⟩
  | @buried t v at_loop below keyed set =>
    obtain ⟨read, walk⟩ := kept.at_point at_loop
    rw [kept.shadows.key] at keyed
    have visit : Visit replayed s.now v := ⟨walk, below, keyed⟩
    -- the thread that set it read a clock that is not later
    have gone : (replayed.nodes v.index).tombstone = true ∨
        expired ((v.read s.now).clock v.i) (replayed.nodes v.index).start = true := by
      rw [clock_read_last read]
      exact (kept.shadows.tombstone set).imp id kept.owed_expired
    refine ⟨_, kept.go (fun x => ?_) ⟨?_, visit.read read, gone⟩ (by rw [at_loop]; rfl)⟩
    · rw [at_loop]
      exact met_read read
    · simp [Local.read, read]
  | @unburied t v at_loop below keyed live =>
    obtain ⟨read, walk⟩ := kept.at_point at_loop
    rw [kept.shadows.key] at keyed
    refine ⟨_, kept.go (fun x => by rw [at_loop]; rfl) ⟨read, ⟨walk, below, keyed⟩, fun set => ?_⟩
      (by rw [at_loop]; rfl)⟩
    rw [kept.shadows.live live] at set
    cases set
  | @expired t v at_young old =>
    obtain ⟨read, visit, -⟩ := kept.at_point at_young
    rw [kept.shadows.start, ← clock_read_last read s.now] at old
    refine ⟨_, kept.go (fun x => ?_) ⟨?_, visit.read read, .inr old⟩ (by rw [at_young]; rfl)⟩
    · rw [at_young]
      exact met_read read
    · simp [Local.read, read]
  | @same t v at_young young same =>
    obtain ⟨read, visit, since⟩ := kept.at_point at_young
    rw [kept.shadows.start] at young
    rw [kept.shadows.key] at same
    have live : (replayed.nodes v.index).tombstone = false := by
      rw [← Bool.not_eq_true]
      intro set
      rw [since set] at young
      cases young
    rw [← clock_read_last read s.now, visit.index] at young
    have ends : Ends replayed.nodes v.key (v.read s.now).clock v.i _ :=
      .same visit.below (visit.index ▸ ⟨visit.keyed, live, same⟩) young
    rw [← visit.index, ← kept.shadows.val] at ends
    exact ⟨_, kept.settle (visit.read read).toWalk ends
      (fun x => by rw [at_young]; exact (met_read read).symm) (by rw [at_young]; rfl)
      (fun _ _ => id) (fun _ => trivial) rfl⟩
  | @other t v at_young young other =>
    obtain ⟨read, visit, -⟩ := kept.at_point at_young
    rw [kept.shadows.key] at other
    rw [kept.shadows.start, ← clock_read_last read s.now] at young
    refine ⟨_, kept.go (fun x => ?_) ⟨?_, (visit.read read).next ⟨visit.keyed, .inr (.inr other)⟩⟩
      (by rw [at_young]; rfl)⟩
    · rw [at_young]
      have fresh : ¬ (ahead (getIndex c v.key) v.i = x ∧
          expired ((v.read s.now).clock v.i) (replayed.nodes x).start = true) := by
        rintro ⟨rfl, old⟩
        rw [← visit.index, young] at old
        cases old
      exact (met_next.trans (or_iff_left fresh)).trans (met_read read)
    · simp [Local.next, Local.read, read]
  | bury at_old => exact ⟨_, kept.bury at_old⟩
  | @value t v at_matched =>
    exact ⟨_, kept.go (fun x => by rw [at_matched]; rfl) trivial (by rw [at_matched]; rfl)⟩
  | leave at_found => exact ⟨_, kept.leave at_found⟩
  | seek key at_out =>
    exact ⟨_, kept.go (fun x => by rw [at_out]; rfl) trivial (by rw [at_out]; rfl)⟩
  | pass at_seeking | located at_seeking | missed at_seeking =>
    exact ⟨_, kept.go (fun x => by rw [at_seeking]; rfl) trivial (by rw [at_seeking]; rfl)⟩
  | write out _ run => exact ⟨_, kept.write out run⟩

theorem kept_start : Kept (State.start c Thread) (createMap c) where
  history := .nil
  shadows := ⟨rfl, rfl, fun _ ⟨_, owes⟩ => owes.elim, fun _ _ => rfl⟩
  agrees _ := trivial
  calls _ := rfl

theorem reachable_kept (reach : Reachable Step (.start c Thread) s) : ∃ replayed, Kept s replayed :=
  Run.invariant reach (fun s => ∃ replayed, Kept s replayed) ⟨_, kept_start⟩
    fun ⟨_, kept⟩ _ step => kept.step step

/-- However the gets overlap, with each other and with the searches of deletes, there is
an order of the gets and of the sections that hold the lock alone in which one after the
other they give the same answers: each has its place in it between its first and its
last step. When no thread is inside the map is the one this order leaves. The search of
a delete has no place in the order: it may see some tombstones of a `get` and not the
others. -/
theorem gets_linearize (reach : Reachable Step (.start c Thread) s) :
    ∃ replayed, Replayed (s.history.map (·.2)) replayed ∧
      (∀ t, s.returned.filter (·.1 = t) <+: s.history.filter (·.1 = t)) ∧
      (∀ t, s.point t = .out → s.returned.filter (·.1 = t) = s.history.filter (·.1 = t)) ∧
      ((∀ t, s.point t = .out) → s.map = replayed) := by
  obtain ⟨replayed, kept⟩ := reachable_kept reach
  refine ⟨replayed, kept.history, fun t => ⟨_, kept.calls t⟩, fun t out => ?_, fun out => ?_⟩
  · have calls := kept.calls t
    simpa [out, Point.pending] using calls
  · refine kept.shadows.eq ?_
    rintro x ⟨t, owes⟩
    rw [out t] at owes
    exact owes

end Steps

/-- Two gets of one entry. The first one looks at it in time, and returns its value
after the second has buried it; in between the search of a delete passes the tombstone. -/
theorem value_behind_a_tombstone : ∃ s : State oneSlot Bool,
    s.returned = [(true, .put ⟨1, [97]⟩ ⟨2, [1]⟩ false 0, ⟨.flag true, none, []⟩),
      (false, .get ⟨3, [97]⟩ [7000000], ⟨.val .null, none, []⟩),
      (true, .get ⟨1, [97]⟩ [5], ⟨.val ⟨2, [1]⟩, none, []⟩)] ∧
    s.history = [(true, .put ⟨1, [97]⟩ ⟨2, [1]⟩ false 0, ⟨.flag true, none, []⟩),
      (true, .get ⟨1, [97]⟩ [5], ⟨.val ⟨2, [1]⟩, none, []⟩),
      (false, .get ⟨3, [97]⟩ [7000000], ⟨.val .null, none, []⟩)] ∧
    ∃ replayed, Replayed (s.history.map (·.2)) replayed ∧
      (∀ t, s.returned.filter (·.1 = t) <+: s.history.filter (·.1 = t)) ∧
      (∀ t, s.point t = .out → s.returned.filter (·.1 = t) = s.history.filter (·.1 = t)) ∧
      ((∀ t, s.point t = .out) → s.map = replayed) := by
  have now : Op.Writes 0 (.put ⟨1, [97]⟩ ⟨2, [1]⟩ false 0 : Op oneSlot) := rfl
  have stored : Reachable Step (State.start oneSlot Bool) _ := (Run.refl _).next
    (.write (t := true) (fun _ => rfl) now rfl) trivial
  have looking := (stored.next (.enter (t := true) ⟨1, [97]⟩ rfl rfl (by decide))).next
    (.unburied (t := true) rfl (by decide) (by decide) rfl)
  have seen := (looking.next (.tick 5 (by decide))).next (.same (t := true) rfl (by decide) (by decide))
  have late := ((seen.next (.enter (t := false) ⟨3, [97]⟩ rfl rfl (by decide))).next
    (.unburied (t := false) rfl (by decide) (by decide) rfl)).next (.tick 7000000 (by decide))
  have buried := (late.next (.expired (t := false) rfl (by decide))).next (.bury (t := false) rfl)
  have missed := (buried.next (.all (t := false) rfl (by decide))).next (.leave (t := false) rfl)
  have sought := ((missed.next (.seek (t := false) ⟨3, [97]⟩ rfl rfl (by decide))).next
    (.pass (t := false) rfl (by decide) rfl)).next (.missed (t := false) rfl (by decide))
  have reach := (sought.next (.value (t := true) rfl)).next (.leave (t := true) rfl)
  exact ⟨_, rfl, rfl, gets_linearize reach⟩

end LinuxSystem.ExtraCredit.Overlap
