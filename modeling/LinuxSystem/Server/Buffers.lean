import LinuxSystem.Base.Owned
import LinuxSystem.Map.ReadYourWrite

/-!
# The buffers of the server

The workers take buffers from `malloc` for the keys and values they read, and
`free_map` gives back those of the entries that the map destroys. `malloc` may
give an address again as soon as it was freed.
-/

namespace LinuxSystem.Server.Buffers

open LinuxSystem.Map Owned Probing Transition

/-- A worker between the statements of a request, with the buffers it filled.
`found` and `indexed` are the sections of an EVICT. -/
inductive Worker (c : Config) where
  | idle
  | putting (key : MapKey) (val : MapVal)
  | getting (key : MapKey)
  | responding (val : MapVal)
  | evicting (key : MapKey)
  | found (key : MapKey)
  | indexed (key : MapKey) (index : Fin c.capacity)

/-- `puts` keeps the keys and values of the PUTs that reached the map. -/
structure State (c : Config) (Thread : Type) where
  map : Hashmap c
  worker : Thread → Worker c
  heap : Heap (List UInt8)
  puts : List (List UInt8 × List UInt8)

variable {c : Config} {Thread : Type}

def State.start (c : Config) (Thread : Type) : State c Thread :=
  ⟨createMap c, fun _ => .idle, ⟨∅, fun _ => [], 0⟩, []⟩

/-- A request that has been read and has not reached the map. -/
def Worker.Received : Worker c → Prop
  | .putting .. | .getting _ | .evicting _ => True
  | _ => False

/-- The key buffer, which only a PUT leaves to the map. -/
def Worker.key : Worker c → MapKey
  | .putting key _ | .getting key | .evicting key | .found key | .indexed key _ => key
  | _ => .null

def Worker.val : Worker c → MapVal
  | .putting _ val => val
  | _ => .null

/-- `free_map` on every entry that is destroyed. -/
def freed (destroyed : List (MapKey × MapVal)) : List Nat :=
  destroyed.flatMap fun entry => [entry.1.keyBase, entry.2.valBase]

def State.leave {α : Type} (s : State c Thread) (outcome : Outcome c α) : State c Thread :=
  { s with map := outcome.self, heap := s.heap.freeAll (freed outcome.destroyed) }

def Fresh (heap : Heap (List UInt8)) (a : Nat) : Prop := a ≠ 0 ∧ a ∉ heap.allocated

section Steps

variable [DecidableEq Thread]

def State.move (s : State c Thread) (t : Thread) (worker : Worker c) : State c Thread :=
  { s with worker := Function.update s.worker t worker }

/-- Worker `t` takes a key buffer and fills it. -/
def State.read (s : State c Thread) (t : Thread) (key : MapKey) (worker : Worker c) :
    State c Thread :=
  { s with heap := s.heap.take key.keyBase key.bytes }.move t worker

/-- One step of worker `t`. The key and value buffers of a PUT are its own until
the put, so that reading into them is part of taking them. -/
inductive Step : State c Thread → Thread → State c Thread → Prop where
  | receivePut {s t} (key : MapKey) (val : MapVal) : s.worker t = .idle →
      Fresh s.heap key.keyBase → Fresh (s.heap.take key.keyBase key.bytes) val.valBase →
      Step s t ({ s with
        heap := (s.heap.take key.keyBase key.bytes).take val.valBase val.bytes }.move t
          (.putting key val))
  | receiveGet {s t} (key : MapKey) : s.worker t = .idle → Fresh s.heap key.keyBase →
      Step s t (s.read t key (.getting key))
  | receiveEvict {s t} (key : MapKey) : s.worker t = .idle → Fresh s.heap key.keyBase →
      Step s t (s.read t key (.evicting key))
  -- a key or value of a wrong size, or a connection that fails
  | giveUp {s t} : (s.worker t).Received → Step s t (s.move t .idle)
  | put {s t key val outcome} : s.worker t = .putting key val →
      Map.put s.map key val true = some outcome →
      Step s t (({ s with puts := (key.bytes, val.bytes) :: s.puts }.leave outcome).move t .idle)
  | notFound {s t key} : s.worker t = .getting key → (Map.get s.map key).ret.valBase = 0 →
      Step s t (s.move t .idle)
  | get {s t key} : s.worker t = .getting key → (Map.get s.map key).ret.valBase ≠ 0 →
      Step s t (s.move t (.responding (Map.get s.map key).ret))
  | respond {s t val} : s.worker t = .responding val → Step s t (s.move t .idle)
  | refused {s t key} : s.worker t = .evicting key → deleteRefuses s.map key = true →
      Step s t (s.move t .idle)
  | lookup {s t key} : s.worker t = .evicting key → deleteRefuses s.map key = false →
      Step s t (s.move t (.found key))
  | missed {s t key} : s.worker t = .found key → getTrueIndex s.map key = none →
      Step s t (s.move t .idle)
  | search {s t key index} : s.worker t = .found key → getTrueIndex s.map key = some index →
      Step s t (s.move t (.indexed key index))
  | tombstone {s t key index} : s.worker t = .indexed key index →
      Step s t ((s.leave (deleteSection s.map index)).move t .idle)
  | clear {s t} : s.worker t = .idle → Step s t (s.leave (clearMap s.map))
  -- somebody writes to memory that is not allocated here
  | spoil {s t heap} : s.heap.Spoilt heap → Step s t { s with heap := heap }

end Steps

/-! ## Who holds a buffer -/

inductive Holder (c : Config) (Thread : Type) where
  | slotKey (i : Fin c.capacity)
  | slotVal (i : Fin c.capacity)
  | workKey (t : Thread)
  | workVal (t : Thread)
  deriving DecidableEq

def State.held (s : State c Thread) : Holder c Thread → Nat × List UInt8
  | .slotKey i => ((s.map.nodes i).key.keyBase, (s.map.nodes i).key.bytes)
  | .slotVal i => ((s.map.nodes i).val.valBase, (s.map.nodes i).val.bytes)
  | .workKey t => ((s.worker t).key.keyBase, (s.worker t).key.bytes)
  | .workVal t => ((s.worker t).val.valBase, (s.worker t).val.bytes)

/-- The buffers of the map and of the workers are allocated, each held once, and
filled as the model has it. Every entry comes from a PUT. -/
structure Kept (s : State c Thread) : Prop where
  exclusive : Exclusive s.held s.heap
  faultless : s.heap.faults = 0
  put : ∀ i, Keyed s.map.nodes i → ((s.map.nodes i).key.bytes, (s.map.nodes i).val.bytes) ∈ s.puts

theorem kept_start (c : Config) : Kept (State.start c Thread) := by
  have nothing (h : Holder c Thread) : ((State.start c Thread).held h).1 = 0 := by cases h <;> rfl
  refine ⟨⟨?_, ?_, ?_⟩, rfl, ?_⟩
  · exact fun h has => absurd (nothing h) has
  · exact fun h has => absurd (nothing h) has
  · exact fun h _ has => absurd (nothing h) has
  · exact fun i keyed => absurd rfl keyed

/-- Where the buffers go when worker `t` stores into slot `i`, with its key only
where the entry is new. -/
def storing [DecidableEq Thread] (i : Fin c.capacity) (t : Thread) (anew : Prop) [Decidable anew] :
    Holder c Thread → Option (Holder c Thread)
  | .slotKey j => if j = i ∧ anew then some (.workKey t) else some (.slotKey j)
  | .slotVal j => if j = i then some (.workVal t) else some (.slotVal j)
  | .workKey u => if u = t then none else some (.workKey u)
  | .workVal u => if u = t then none else some (.workVal u)

section Keeping

variable [DecidableEq Thread] {s later : State c Thread} {t : Thread}

theorem storing_once {i : Fin c.capacity} {anew : Prop} [Decidable anew] {h h' g : Holder c Thread}
    (eq : storing i t anew h = some g) (eq' : storing i t anew h' = some g) : h = h' := by
  cases h <;> cases h' <;> simp only [storing] at eq eq' <;> grind

/-- The worker that stores leaves with nothing. -/
theorem storing_comes {i : Fin c.capacity} {key stored : MapKey} {val : MapVal} {anew : Prop}
    [Decidable anew] (working : s.worker t = .putting key val)
    (nodes : later.map.nodes = Function.update s.map.nodes i ⟨stored, val, false⟩)
    (worker : later.worker = Function.update s.worker t .idle)
    (slot : stored = if anew then key else (s.map.nodes i).key) (h : Holder c Thread)
    (has : (later.held h).1 ≠ 0) :
    ∃ g, storing i t anew h = some g ∧ later.held h = s.held g := by
  cases h with
  | slotKey j =>
    by_cases eq : j = i
    · subst eq
      by_cases new : anew
      · exact ⟨.workKey t, by simp [storing, new], by
          simp [State.held, nodes, slot, new, working, Worker.key]⟩
      · exact ⟨.slotKey j, by simp [storing, new], by simp [State.held, nodes, slot, new]⟩
    · exact ⟨.slotKey j, by simp [storing, eq], by simp [State.held, nodes, eq]⟩
  | slotVal j =>
    by_cases eq : j = i
    · subst eq
      exact ⟨.workVal t, by simp [storing], by simp [State.held, nodes, working, Worker.val]⟩
    · exact ⟨.slotVal j, by simp [storing, eq], by simp [State.held, nodes, eq]⟩
  | workKey u =>
    by_cases eq : u = t
    · subst eq
      simp [State.held, worker, Worker.key, MapKey.null] at has
    · exact ⟨.workKey u, by simp [storing, eq], by simp [State.held, worker, eq]⟩
  | workVal u =>
    by_cases eq : u = t
    · subst eq
      simp [State.held, worker, Worker.val, MapVal.null] at has
    · exact ⟨.workVal u, by simp [storing, eq], by simp [State.held, worker, eq]⟩

/-- A request that goes on keeps its key buffer, and no other one. -/
theorem held_move {worker : Worker c} (key : worker.key = (s.worker t).key ∨ worker.key = .null)
    (val : worker.val = (s.worker t).val ∨ worker.val = .null) (h : Holder c Thread)
    (has : ((s.move t worker).held h).1 ≠ 0) : (s.move t worker).held h = s.held h := by
  cases h with
  | slotKey | slotVal => rfl
  | workKey u =>
    by_cases eq : u = t
    · subst eq
      rcases key with same | null
      · simp [State.held, State.move, same]
      · simp [State.held, State.move, null, MapKey.null] at has
    · simp [State.held, State.move, eq]
  | workVal u =>
    by_cases eq : u = t
    · subst eq
      rcases val with same | null
      · simp [State.held, State.move, same]
      · simp [State.held, State.move, null, MapVal.null] at has
    · simp [State.held, State.move, eq]

theorem Kept.move (kept : Kept s) {worker : Worker c}
    (key : worker.key = (s.worker t).key ∨ worker.key = .null)
    (val : worker.val = (s.worker t).val ∨ worker.val = .null) : Kept (s.move t worker) where
  exclusive := kept.exclusive.forget (held_move key val)
  faultless := kept.faultless
  put := kept.put

theorem Kept.read (kept : Kept s) {key : MapKey} (idle : s.worker t = .idle)
    (fresh : Fresh s.heap key.keyBase) {worker : Worker c} (has : worker.key = key)
    (no : worker.val = .null) : Kept (s.read t key worker) where
  exclusive := by
    refine (kept.exclusive.take (h := .workKey t) fresh.2).forget fun h _ => ?_
    cases h with
    | slotKey | slotVal => rfl
    | workKey u =>
      by_cases eq : u = t
      · subst eq
        simp [State.held, State.read, State.move, has]
      · simp [State.held, State.read, State.move, eq]
    | workVal u =>
      by_cases eq : u = t
      · subst eq
        have nothing : (s.worker u).val = .null := by rw [idle]; rfl
        simp [State.held, State.read, State.move, no, nothing]
      · simp [State.held, State.read, State.move, eq]
  faultless := kept.faultless
  put := kept.put

theorem Kept.receivePut (kept : Kept s) {key : MapKey} {val : MapVal}
    (fresh : Fresh s.heap key.keyBase)
    (fresh' : Fresh (s.heap.take key.keyBase key.bytes) val.valBase) :
    Kept ({ s with heap := (s.heap.take key.keyBase key.bytes).take val.valBase val.bytes }.move t
      (.putting key val)) where
  exclusive := by
    have key_taken := kept.exclusive.take (h := .workKey t) (x := key.bytes) fresh.2
    refine (key_taken.take (h := .workVal t) fresh'.2).forget fun h _ => ?_
    cases h with
    | slotKey | slotVal => rfl
    | workKey u =>
      by_cases eq : u = t
      · subst eq
        simp [State.held, State.move, Worker.key]
      · simp [State.held, State.move, eq]
    | workVal u =>
      by_cases eq : u = t
      · subst eq
        simp [State.held, State.move, Worker.val]
      · simp [State.held, State.move, eq]
  faultless := kept.faultless
  put := kept.put

/-- The put brings the entry it leaves in slot `i`. -/
theorem put_kept {puts : List (List UInt8 × List UInt8)} {nodes : Fin c.capacity → MapNode}
    (kept : ∀ j, Keyed nodes j → ((nodes j).key.bytes, (nodes j).val.bytes) ∈ puts)
    (i : Fin c.capacity) {key stored : MapKey} {val : MapVal} (same : stored.bytes = key.bytes)
    (j : Fin c.capacity) (keyed : Keyed (Function.update nodes i ⟨stored, val, false⟩) j) :
    ((Function.update nodes i ⟨stored, val, false⟩ j).key.bytes,
      (Function.update nodes i ⟨stored, val, false⟩ j).val.bytes) ∈
        (key.bytes, val.bytes) :: puts := by
  by_cases eq : j = i
  · subst eq
    simp [same]
  · simp only [Keyed, Function.update_of_ne eq] at keyed ⊢
    exact List.mem_cons_of_mem _ (kept j keyed)

theorem Kept.put_effect (kept : Kept s) {key : MapKey} {val : MapVal} {outcome : Outcome c Bool}
    (working : s.worker t = .putting key val) (effect : PutEffect s.map key val true outcome) :
    Kept (({ s with puts := (key.bytes, val.bytes) :: s.puts }.leave outcome).move t .idle) := by
  cases effect with
  | full size gentle => contradiction
  | store i stored room path slot =>
    have same : stored.bytes = key.bytes := by
      obtain ⟨rfl, -⟩ | ⟨rfl, holds⟩ := slot
      · rfl
      · exact (of_decide_eq_true holds.2).symm
    refine ⟨?_, kept.faultless, put_kept kept.put i same⟩
    obtain ⟨eq, -⟩ | ⟨eq, -⟩ := slot
    · exact kept.exclusive.release (storing i t True) (fun _ _ _ => storing_once)
        (storing_comes working rfl rfl (by simpa using eq)) [] (by simp)
    · exact kept.exclusive.release (storing i t False) (fun _ _ _ => storing_once)
        (storing_comes working rfl rfl (by simpa using eq)) [] (by simp)
  | evict noRoom forced =>
    let freed : List (Holder c Thread) := [.slotKey (getIndex c key), .slotVal (getIndex c key)]
    refine ⟨?_, ?_, put_kept kept.put _ rfl⟩
    · refine kept.exclusive.release (storing (getIndex c key) t True)
        (fun _ _ _ => storing_once) (storing_comes working rfl rfl (by simp)) freed ?_
      intro h g mem
      simp only [freed, List.mem_cons, List.not_mem_nil, or_false] at mem
      rcases mem with rfl | rfl <;> cases h <;> simp only [storing] <;> grind
    · exact (freeAll_faults freed (by simp [freed]) kept.exclusive.apart
        fun h _ => kept.exclusive.allocated h).trans kept.faultless

theorem Kept.put_step (kept : Kept s) {key : MapKey} {val : MapVal} {outcome : Outcome c Bool}
    (working : s.worker t = .putting key val) (h : Map.put s.map key val true = some outcome) :
    Kept (({ s with puts := (key.bytes, val.bytes) :: s.puts }.leave outcome).move t .idle) := by
  rcases put_cases h with rfl | ⟨-, -, effect⟩
  · refine ⟨kept.exclusive.forget ?_, kept.faultless, ?_⟩
    · exact held_move (.inr rfl) (.inr rfl)
    · exact fun i keyed => List.mem_cons_of_mem _ (kept.put i keyed)
  · exact kept.put_effect working effect

end Keeping

section Clearing

variable {s : State c Thread}

/-- The holders whose buffers a clear frees. -/
def cleared (self : Hashmap c) : List (Holder c Thread) :=
  ((List.finRange c.capacity).filter fun i => clears (self.nodes i)).flatMap
    fun i => [.slotKey i, .slotVal i]

theorem freed_cleared (s : State c Thread) :
    freed (clearSection s.map).destroyed = (cleared s.map).map fun h => (s.held h).1 := by
  have listed (l : List (Fin c.capacity)) :
      freed (l.filterMap fun i => if clears (s.map.nodes i) then
        some ((s.map.nodes i).key, (s.map.nodes i).val) else none) =
      ((l.filter fun i => clears (s.map.nodes i)).flatMap
        fun i => ([.slotKey i, .slotVal i] : List (Holder c Thread))).map fun h => (s.held h).1 := by
    induction l with
    | nil => rfl
    | cons i l ih =>
      rw [List.filterMap_cons, List.filter_cons]
      cases clears (s.map.nodes i)
      · simpa using ih
      · simpa [freed, State.held] using ih
  exact listed _

/-- A clear keeps the buffers of the workers and of the slots it passes by. -/
def clearing (self : Hashmap c) : Holder c Thread → Option (Holder c Thread)
  | .slotKey j => if clears (self.nodes j) then none else some (.slotKey j)
  | .slotVal j => if clears (self.nodes j) then none else some (.slotVal j)
  | .workKey u => some (.workKey u)
  | .workVal u => some (.workVal u)

theorem cleared_once (self : Hashmap c) : (cleared self : List (Holder c Thread)).Nodup := by
  refine List.nodup_flatMap.mpr ⟨fun i _ => by simp, ?_⟩
  refine ((List.nodup_finRange _).filter _).imp fun {i j} apart => ?_
  simp [Function.onFun, apart.symm]

theorem clearing_once {self : Hashmap c} {h h' g : Holder c Thread}
    (eq : clearing self h = some g) (eq' : clearing self h' = some g) : h = h' := by
  cases h <;> cases h' <;> simp only [clearing] at eq eq' <;> grind

theorem clearing_spares (h : Holder c Thread) :
    ∀ g ∈ (cleared s.map : List (Holder c Thread)), clearing s.map h ≠ some g := by
  intro g mem eq
  obtain ⟨i, slot, mem⟩ := List.mem_flatMap.mp mem
  have clears := (List.mem_filter.mp slot).2
  simp only [List.mem_cons, List.not_mem_nil, or_false] at mem
  rcases mem with rfl | rfl <;> cases h <;> simp only [clearing] at eq <;> grind

theorem clearing_comes {heap : Heap (List UInt8)} (h : Holder c Thread)
    (has : ((⟨(clearSection s.map).self, s.worker, heap, s.puts⟩ : State c Thread).held h).1 ≠ 0) :
    ∃ g, clearing s.map h = some g ∧
      (⟨(clearSection s.map).self, s.worker, heap, s.puts⟩ : State c Thread).held h = s.held g := by
  cases h with
  | slotKey j =>
    cases cleared : clears (s.map.nodes j) with
    | false => exact ⟨.slotKey j, by simp [clearing, cleared], by
        simp [State.held, clearSection, clearNode, cleared]⟩
    | true => simp [State.held, clearSection, clearNode, cleared, MapKey.null] at has
  | slotVal j =>
    cases cleared : clears (s.map.nodes j) with
    | false => exact ⟨.slotVal j, by simp [clearing, cleared], by
        simp [State.held, clearSection, clearNode, cleared]⟩
    | true => simp [State.held, clearSection, clearNode, cleared, MapVal.null] at has
  | workKey u => exact ⟨.workKey u, rfl, rfl⟩
  | workVal u => exact ⟨.workVal u, rfl, rfl⟩

theorem Kept.clear (kept : Kept s) : Kept (s.leave (clearMap s.map)) := by
  by_cases invalid : s.map.invalid = true
  · rw [clearMap, if_pos invalid]
    exact ⟨kept.exclusive, kept.faultless, kept.put⟩
  rw [clearMap, if_neg invalid, State.leave, freed_cleared]
  refine ⟨kept.exclusive.release (clearing s.map) (fun _ _ _ => clearing_once)
    clearing_comes _ clearing_spares, ?_, fun i keyed => ?_⟩
  · exact (freeAll_faults _ (cleared_once s.map) kept.exclusive.apart
      fun h _ => kept.exclusive.allocated h).trans kept.faultless
  · have node : clearNode (s.map.nodes i) = s.map.nodes i := by
      by_contra changed
      have cleared : clears (s.map.nodes i) = true := by
        by_contra kept
        exact changed (if_neg kept)
      simp [Keyed, clearSection, clearNode, cleared, MapKey.null] at keyed
    simp only [Keyed, clearSection, node] at keyed ⊢
    exact kept.put i keyed

end Clearing

/-! ## Runs -/

variable [DecidableEq Thread] {s later : State c Thread} {t : Thread}

theorem step_kept (kept : Kept s) (h : Step s t later) : Kept later := by
  cases h with
  | receivePut key val _ fresh fresh' => exact kept.receivePut fresh fresh'
  | receiveGet key idle fresh => exact kept.read idle fresh rfl rfl
  | receiveEvict key idle fresh => exact kept.read idle fresh rfl rfl
  | giveUp | respond | notFound | refused | missed => exact kept.move (.inr rfl) (.inr rfl)
  | get => exact kept.move (.inr rfl) (.inr rfl)
  | put working h => exact kept.put_step working h
  | lookup evicting => exact kept.move (.inl (by rw [evicting]; rfl)) (.inr rfl)
  | search found => exact kept.move (.inl (by rw [found]; rfl)) (.inr rfl)
  | @tombstone key index =>
    have entries := deleteSection_entry s.map index
    refine Kept.move (s := s.leave (deleteSection s.map index)) ⟨?_, kept.faultless, ?_⟩
      (.inr rfl) (.inr rfl)
    · refine kept.exclusive.forget fun h _ => ?_
      cases h with
      | slotKey i => simp only [State.held, State.leave, entries i]
      | slotVal i => simp only [State.held, State.leave, entries i]
      | workKey | workVal => rfl
    · intro i keyed
      simp only [State.leave, Keyed, entries i] at keyed ⊢
      exact kept.put i keyed
  | clear => exact kept.clear
  | spoil spoilt =>
    exact ⟨kept.exclusive.spoilt spoilt, spoilt.2.1.trans kept.faultless, kept.put⟩

theorem reachable_kept (reached : Transition.Reachable Step (State.start c Thread) s) : Kept s :=
  reached.invariant Kept (kept_start c) fun kept _ h => step_kept kept h

/-- Whatever the workers do and whenever `malloc` gives a freed address again: `free`
gets no address that is not allocated, and the buffers of the slots, dead ones
included, and of the requests that are worked on are allocated. -/
theorem no_double_free (reached : Transition.Reachable Step (State.start c Thread) s) :
    s.heap.faults = 0 ∧
      (∀ i, ((s.map.nodes i).key.keyBase ≠ 0 → (s.map.nodes i).key.keyBase ∈ s.heap.allocated) ∧
        ((s.map.nodes i).val.valBase ≠ 0 → (s.map.nodes i).val.valBase ∈ s.heap.allocated)) ∧
      ∀ t, ((s.worker t).key.keyBase ≠ 0 → (s.worker t).key.keyBase ∈ s.heap.allocated) ∧
        ((s.worker t).val.valBase ≠ 0 → (s.worker t).val.valBase ∈ s.heap.allocated) := by
  have kept := reachable_kept reached
  refine ⟨kept.faultless, fun i => ⟨?_, ?_⟩, fun t => ⟨?_, ?_⟩⟩
  · exact kept.exclusive.allocated (.slotKey i)
  · exact kept.exclusive.allocated (.slotVal i)
  · exact kept.exclusive.allocated (.workKey t)
  · exact kept.exclusive.allocated (.workVal t)

theorem getVisit_val {nodes : Fin c.capacity → MapNode} {key : MapKey} {i : Fin c.capacity}
    {rtn : MapVal} (visit : getVisit nodes key i = some rtn) (found : rtn.valBase ≠ 0) :
    Holds nodes i key ∧ rtn = (nodes i).val := by
  simp only [getVisit] at visit
  split at visit
  · obtain rfl := Option.some.inj visit
    exact absurd rfl found
  · next keyed =>
    split at visit
    · contradiction
    · next live =>
      obtain ⟨same, eq⟩ := Option.ite_none_right_eq_some.mp visit
      exact ⟨⟨⟨keyed, by simpa using live⟩, same⟩, (Option.some.inj eq).symm⟩

theorem get_slot {self : Hashmap c} {key : MapKey} (found : (Map.get self key).ret.valBase ≠ 0) :
    ∃ i, Holds self.nodes i key ∧ (Map.get self key).ret = (self.nodes i).val := by
  unfold Map.get at found ⊢
  split at found
  · exact absurd rfl found
  · next accepted =>
    rw [if_neg accepted]
    simp only [getSection] at found ⊢
    cases search : probe (getVisit self.nodes key) c.capacity (getIndex c key) with
    | none => simp [search, MapVal.null] at found
    | some rtn =>
      rw [search, Option.getD_some] at found
      obtain ⟨d, -, visit, -⟩ := probe_eq_some.mp search
      exact ⟨_, getVisit_val visit found⟩

/-- A lookup that finds a value finds an allocated buffer, and in it what a PUT
of the same key brought. -/
theorem lookup_finds_a_put (reached : Transition.Reachable Step (State.start c Thread) s)
    (key : MapKey) (found : (Map.get s.map key).ret.valBase ≠ 0) :
    (Map.get s.map key).ret.valBase ∈ s.heap.allocated ∧
      (key.bytes, s.heap.content (Map.get s.map key).ret.valBase) ∈ s.puts := by
  have kept := reachable_kept reached
  obtain ⟨i, holds, eq⟩ := get_slot found
  rw [eq] at found ⊢
  refine ⟨kept.exclusive.allocated (.slotVal i) found, ?_⟩
  have content := kept.exclusive.kept (.slotVal i) found
  simp only [State.held] at content
  rw [content, holds.bytes]
  exact kept.put i holds.keyed

/-- Two PUTs of one key, the second with the addresses a CLEAR gave back. -/
theorem put_clear_put :
    ∃ s : State twoSlots Bool, Transition.Reachable Step (State.start twoSlots Bool) s ∧
      s.puts = [([97], [7]), ([97], [5])] ∧
      (Map.get s.map ⟨9, [97]⟩).ret.valBase = 1 := by
  have start : Transition.Reachable Step (State.start twoSlots Bool) _ := Run.refl _
  have first := (start.next (.receivePut (t := true) ⟨1, [97]⟩ ⟨2, [5]⟩ rfl
    ⟨by decide, by decide⟩ ⟨by decide, by decide⟩)).next (.put (t := true) rfl rfl)
  have cleared := first.next (.clear (t := true) rfl)
  have second := (cleared.next (.receivePut (t := false) ⟨2, [97]⟩ ⟨1, [7]⟩ rfl
    ⟨by decide, by decide⟩ ⟨by decide, by decide⟩)).next (.put (t := false) rfl rfl)
  exact ⟨_, second, rfl, by decide⟩

theorem put_clear_put_faultless :
    ∃ s : State twoSlots Bool, s.puts.length = 2 ∧ s.heap.faults = 0 ∧
      ∀ i, (s.map.nodes i).key.keyBase ≠ 0 → (s.map.nodes i).key.keyBase ∈ s.heap.allocated := by
  obtain ⟨s, reached, puts, -⟩ := put_clear_put
  obtain ⟨faultless, slots, -⟩ := no_double_free reached
  exact ⟨s, by rw [puts]; rfl, faultless, fun i => (slots i).1⟩

theorem put_clear_put_found :
    ∃ s : State twoSlots Bool, 1 ∈ s.heap.allocated ∧ ([97], s.heap.content 1) ∈ s.puts := by
  obtain ⟨s, reached, -, base⟩ := put_clear_put
  have found := lookup_finds_a_put reached ⟨9, [97]⟩ (by rw [base]; exact one_ne_zero)
  rw [base] at found
  exact ⟨s, found⟩

end LinuxSystem.Server.Buffers
