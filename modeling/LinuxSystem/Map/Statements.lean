import LinuxSystem.Base.Sections
import LinuxSystem.Map.Locks
import LinuxSystem.Map.Model

/-!
# The sections of the map, statement by statement

What `put`, `get`, `get_true_index`, `delete` and `clear_map` do between taking
the locks and letting them go: each visit of a slot, each assignment and each
call of `destroy_function` is one statement. `Map.Model` does every section in
one go, and what is left of a section at any point comes to the same.
-/

namespace LinuxSystem.Map

open Probing Locks

inductive Job (c : Config) where
  | put (key : MapKey) (val : MapVal) (force : Bool)
  | get (key : MapKey)
  | getTrueIndex (key : MapKey)
  | delete (index : Fin c.capacity)
  | clearMap

/-- What a section leaves its caller with. -/
inductive Answer (c : Config) where
  | put (ret : Bool) (errno : Option Errno) (destroyed : List (MapKey × MapVal))
  | get (rtn : MapVal)
  | getTrueIndex (index : Option (Fin c.capacity))
  | delete (tombstone : Bool)
  | clearMap (destroyed : List (MapKey × MapVal))
  deriving DecidableEq

/-- The next statement of a section and its local variables. `evicted` is the
entry a put destroyed, if it met a full map. -/
inductive Code (c : Config) where
  | refusal (key : MapKey) (val : MapVal) (force : Bool)
  | room (key : MapKey) (val : MapVal)
  | putLoop (key : MapKey) (val : MapVal) (index : Fin c.capacity)
  | evict (key : MapKey) (val : MapVal) (index : Fin c.capacity)
  | setKey (key : MapKey) (val : MapVal) (index : Fin c.capacity)
      (evicted : Option (MapKey × MapVal))
  | setVal (val : MapVal) (index : Fin c.capacity) (evicted : Option (MapKey × MapVal))
  | revive (index : Fin c.capacity) (evicted : Option (MapKey × MapVal))
  | countIn
  | getLoop (key : MapKey) (index : Fin c.capacity) (i : Nat)
  | indexLoop (key : MapKey) (index : Fin c.capacity) (i : Nat)
  | readTombstone (index : Fin c.capacity)
  | bury (index : Fin c.capacity) (t : Bool)
  | countOut (t : Bool)
  | clearLoop (i : Nat) (destroyed : List (MapKey × MapVal))
  | buryCleared (index : Fin c.capacity) (destroyed : List (MapKey × MapVal))
  | destroy (index : Fin c.capacity) (destroyed : List (MapKey × MapVal))
  | nullKey (index : Fin c.capacity) (destroyed : List (MapKey × MapVal))
  | nullVal (index : Fin c.capacity) (destroyed : List (MapKey × MapVal))
  | emptyKey (index : Fin c.capacity) (destroyed : List (MapKey × MapVal))
  | emptyVal (index : Fin c.capacity) (destroyed : List (MapKey × MapVal))
  | resetSize (destroyed : List (MapKey × MapVal))
  | done (answer : Answer c)

variable {c : Config}

def Job.phase : Job c → Phase
  | .get _ | .getTrueIndex _ => .read
  | .put .. | .delete _ | .clearMap => .write

/-- The sections of `Map.Model`, whose bodies these are. -/
def perform : Job c → Hashmap c → Option (Answer c × Hashmap c)
  | .put key val force, self => (putSection self key val force).map fun outcome =>
      (.put outcome.ret outcome.errno outcome.destroyed, outcome.self)
  | .get key, self => some (.get (getSection self key), self)
  | .getTrueIndex key, self => some (.getTrueIndex (getTrueIndexSection self key), self)
  | .delete index, self =>
    some (.delete (deleteSection self index).ret.tombstone, (deleteSection self index).self)
  | .clearMap, self => some (.clearMap (clearSection self).destroyed, (clearSection self).self)

def Job.start : Job c → Code c
  | .put key val force => .refusal key val force
  | .get key => .getLoop key (getIndex c key) 0
  | .getTrueIndex key => .indexLoop key (getIndex c key) 0
  | .delete index => .readTombstone index
  | .clearMap => .clearLoop 0 []

/-- Slot `index` becomes what `f` makes of it. -/
def Hashmap.change (self : Hashmap c) (index : Fin c.capacity) (f : MapNode → MapNode) :
    Hashmap c :=
  { self with nodes := Function.update self.nodes index (f (self.nodes index)) }

def Code.statement : Code c → Hashmap c → Code c × Hashmap c
  | .refusal key val force, self =>
    if c.capacity = self.size ∧ force = false then (.done (.put false (some .ENOMEM) []), self)
    else (.room key val, self)
  | .room key val, self =>
    if self.size < c.capacity then (.putLoop key val (getIndex c key), self)
    else (.evict key val (getIndex c key), self)
  | .putLoop key val index, self =>
    let tmp := self.nodes index
    if tmp.key.keyBase = 0 ∨ tmp.tombstone = true then (.setKey key val index none, self)
    else if sameKey key tmp.key then (.setVal val index none, self)
    else (.putLoop key val (next index), self)
  | .evict key val index, self =>
    let tmp := self.nodes index
    (.setKey key val index (some (tmp.key, tmp.val)), self)
  | .setKey key val index evicted, self =>
    (.setVal val index evicted, self.change index fun tmp => { tmp with key := key })
  | .setVal val index evicted, self =>
    (.revive index evicted, self.change index fun tmp => { tmp with val := val })
  | .revive index evicted, self =>
    (match evicted with
      | none => .countIn
      | some entry => .done (.put true none [entry]),
      self.change index fun tmp => { tmp with tombstone := false })
  | .countIn, self => (.done (.put true none []), { self with size := increment self.size })
  | .getLoop key index i, self =>
    if i < c.capacity then
      match getVisit self.nodes key index with
      | some rtn => (.done (.get rtn), self)
      | none => (.getLoop key (next index) (i + 1), self)
    else (.done (.get .null), self)
  | .indexLoop key index i, self =>
    if i < c.capacity then
      match getTrueIndexVisit self.nodes key index with
      | some found => (.done (.getTrueIndex found), self)
      | none => (.indexLoop key (next index) (i + 1), self)
    else (.done (.getTrueIndex none), self)
  | .readTombstone index, self => (.bury index (self.nodes index).tombstone, self)
  | .bury index t, self =>
    (.countOut t, self.change index fun rtn => { rtn with tombstone := true })
  | .countOut t, self => (.done (.delete t), { self with size := decrement self.size })
  | .clearLoop i destroyed, self =>
    if h : i < c.capacity then
      if clears (self.nodes ⟨i, h⟩) then (.buryCleared ⟨i, h⟩ destroyed, self)
      else (.clearLoop (i + 1) destroyed, self)
    else (.resetSize destroyed, self)
  | .buryCleared index destroyed, self =>
    (.destroy index destroyed, self.change index fun tmp => { tmp with tombstone := true })
  | .destroy index destroyed, self =>
    let tmp := self.nodes index
    (.nullKey index (destroyed ++ [(tmp.key, tmp.val)]), self)
  | .nullKey index destroyed, self =>
    (.nullVal index destroyed,
      self.change index fun tmp => { tmp with key := { tmp.key with keyBase := 0 } })
  | .nullVal index destroyed, self =>
    (.emptyKey index destroyed,
      self.change index fun tmp => { tmp with val := { tmp.val with valBase := 0 } })
  | .emptyKey index destroyed, self =>
    (.emptyVal index destroyed,
      self.change index fun tmp => { tmp with key := { tmp.key with bytes := [] } })
  | .emptyVal index destroyed, self =>
    (.clearLoop (index + 1) destroyed,
      self.change index fun tmp => { tmp with val := { tmp.val with bytes := [] } })
  | .resetSize destroyed, self => (.done (.clearMap destroyed), { self with size := 0 })
  | .done answer, self => (.done answer, self)

def Code.answer : Code c → Option (Answer c)
  | .done answer => some answer
  | _ => none

def Code.reading : Code c → Bool
  | .getLoop .. | .indexLoop .. | .done _ => true
  | _ => false

theorem Code.reading_keeps {code : Code c} (self : Hashmap c) (reading : code.reading = true) :
    (code.statement self).2 = self ∧ (code.statement self).1.reading = true := by
  cases code with
  | getLoop key index i =>
    simp only [Code.statement]
    split
    · cases getVisit self.nodes key index <;> exact ⟨rfl, rfl⟩
    · exact ⟨rfl, rfl⟩
  | indexLoop key index i =>
    simp only [Code.statement]
    split
    · cases getTrueIndexVisit self.nodes key index <;> exact ⟨rfl, rfl⟩
    · exact ⟨rfl, rfl⟩
  | done => exact ⟨rfl, rfl⟩
  | _ => contradiction

def program (c : Config) : Sections.Program (Job c) (Code c) (Answer c) (Hashmap c) where
  start := Job.start
  statement := Code.statement
  answer := Code.answer
  reads job := job.phase = .read
  reading code := code.reading = true
  starts {job} reads := by
    cases job with
    | get | getTrueIndex => rfl
    | _ => contradiction
  keeps := Code.reading_keeps

/-! ## What is left of a section -/

/-- The entries that a clear destroys from slot `i` on. -/
def clearedFrom (self : Hashmap c) (i : Nat) : List (MapKey × MapVal) :=
  ((List.finRange c.capacity).drop i).filterMap fun j =>
    if clears (self.nodes j) then some ((self.nodes j).key, (self.nodes j).val) else none

/-- The map after a clear that still has to do slot `i` and those after it. -/
def clearFrom (self : Hashmap c) (i : Nat) : Hashmap c :=
  { self with
    nodes := fun j => if i ≤ j.val then clearNode (self.nodes j) else self.nodes j
    size := 0 }

def settle (evicted : Option (MapKey × MapVal)) (self : Hashmap c) : Answer c × Hashmap c :=
  match evicted with
  | none => (.put true none [], { self with size := increment self.size })
  | some entry => (.put true none [entry], self)

def clearRest (index : Fin c.capacity) (destroyed : List (MapKey × MapVal)) (self : Hashmap c)
    (f : MapNode → MapNode) : Option (Answer c × Hashmap c) :=
  let changed := self.change index f
  some (.clearMap (destroyed ++ clearedFrom changed (index + 1)), clearFrom changed (index + 1))

/-- The answer and the map at the end, if the section goes on alone. -/
def Code.finish : Code c → Hashmap c → Option (Answer c × Hashmap c)
  | .refusal key val force, self => perform (.put key val force) self
  | .room key val, self => perform (.put key val true) self
  | .putLoop key val index, self =>
    (probe (putVisit self.nodes key val) c.capacity index).map fun nodes =>
      settle none { self with nodes := nodes }
  | .evict key val index, self =>
    let tmp := self.nodes index
    some (settle (some (tmp.key, tmp.val)) (self.change index fun _ => ⟨key, val, false⟩))
  | .setKey key val index evicted, self =>
    some (settle evicted (self.change index fun _ => ⟨key, val, false⟩))
  | .setVal val index evicted, self =>
    some (settle evicted (self.change index fun tmp => ⟨tmp.key, val, false⟩))
  | .revive index evicted, self =>
    some (settle evicted (self.change index fun tmp => { tmp with tombstone := false }))
  | .countIn, self => some (settle none self)
  | .getLoop key index i, self =>
    some (.get ((probe (getVisit self.nodes key) (c.capacity - i) index).getD .null), self)
  | .indexLoop key index i, self =>
    some (.getTrueIndex ((probe (getTrueIndexVisit self.nodes key) (c.capacity - i) index).getD
      none), self)
  | .readTombstone index, self => perform (.delete index) self
  | .bury index t, self => some (.delete t, (deleteSection self index).self)
  | .countOut t, self => some (.delete t, { self with size := decrement self.size })
  | .clearLoop i destroyed, self =>
    some (.clearMap (destroyed ++ clearedFrom self i), clearFrom self i)
  | .buryCleared index destroyed, self =>
    let tmp := self.nodes index
    clearRest index (destroyed ++ [(tmp.key, tmp.val)]) self fun _ => ⟨.null, .null, true⟩
  | .destroy index destroyed, self =>
    let tmp := self.nodes index
    clearRest index (destroyed ++ [(tmp.key, tmp.val)]) self fun tmp =>
      ⟨.null, .null, tmp.tombstone⟩
  | .nullKey index destroyed, self =>
    clearRest index destroyed self fun tmp => ⟨.null, .null, tmp.tombstone⟩
  | .nullVal index destroyed, self =>
    clearRest index destroyed self fun tmp =>
      ⟨{ tmp.key with bytes := [] }, .null, tmp.tombstone⟩
  | .emptyKey index destroyed, self =>
    clearRest index destroyed self fun tmp =>
      ⟨{ tmp.key with bytes := [] }, { tmp.val with bytes := [] }, tmp.tombstone⟩
  | .emptyVal index destroyed, self =>
    clearRest index destroyed self fun tmp => { tmp with val := { tmp.val with bytes := [] } }
  | .resetSize destroyed, self => some (.clearMap destroyed, { self with size := 0 })
  | .done answer, self => some (answer, self)

@[simp] theorem change_nodes (self : Hashmap c) (index : Fin c.capacity) (f : MapNode → MapNode) :
    (self.change index f).nodes index = f (self.nodes index) := by
  simp [Hashmap.change]

theorem change_change (self : Hashmap c) (index : Fin c.capacity) (f g : MapNode → MapNode) :
    (self.change index f).change index g = self.change index fun tmp => g (f tmp) := by
  simp [Hashmap.change]

theorem clearedFrom_here (self : Hashmap c) (index : Fin c.capacity) :
    clearedFrom self index = (if clears (self.nodes index) then
      [((self.nodes index).key, (self.nodes index).val)] else []) ++
        clearedFrom self (index + 1) := by
  have bound : index.val < (List.finRange c.capacity).length := by simp
  have here : (List.finRange c.capacity).drop index =
      index :: (List.finRange c.capacity).drop (index + 1) := by
    rw [List.drop_eq_getElem_cons bound, List.getElem_finRange]
    rfl
  unfold clearedFrom
  rw [here, List.filterMap_cons]
  cases clears (self.nodes index) <;> simp

/-- The slots that a clear has passed do not matter to the rest of it. -/
theorem clearedFrom_change (self : Hashmap c) (index : Fin c.capacity) (f : MapNode → MapNode) :
    clearedFrom (self.change index f) (index + 1) = clearedFrom self (index + 1) := by
  unfold clearedFrom
  refine List.filterMap_congr fun j later => ?_
  have apart : j ≠ index := by
    obtain ⟨k, hk, rfl⟩ := List.mem_iff_getElem.mp later
    intro eq
    have := congrArg Fin.val eq
    simp at this
    omega
  simp [Hashmap.change, apart]

theorem clearedFrom_end (self : Hashmap c) {i : Nat} (past : c.capacity ≤ i) :
    clearedFrom self i = [] := by
  rw [clearedFrom, List.drop_eq_nil_of_le (by simpa using past), List.filterMap_nil]

theorem clearFrom_here (self : Hashmap c) (index : Fin c.capacity) :
    clearFrom self index = clearFrom (self.change index clearNode) (index + 1) := by
  unfold clearFrom Hashmap.change
  congr 1
  funext j
  by_cases eq : j = index
  · subst eq
    simp
  · have apart : j.val ≠ index.val := fun h => eq (Fin.ext h)
    simp only [Function.update_of_ne eq]
    split <;> split <;> first | rfl | omega

theorem clearFrom_end (self : Hashmap c) {i : Nat} (past : c.capacity ≤ i) :
    clearFrom self i = { self with size := 0 } := by
  unfold clearFrom
  congr 1
  funext j
  rw [if_neg (by omega)]

theorem clearRest_change (index : Fin c.capacity) (destroyed : List (MapKey × MapVal))
    (self : Hashmap c) (f g : MapNode → MapNode) :
    clearRest index destroyed (self.change index f) g =
      clearRest index destroyed self fun tmp => g (f tmp) := by
  simp only [clearRest, change_change]

theorem finish_putLoop (key : MapKey) (val : MapVal) (index : Fin c.capacity) (self : Hashmap c) :
    ((Code.putLoop key val index).statement self).1.finish
      ((Code.putLoop key val index).statement self).2 =
      (Code.putLoop key val index).finish self := by
  have found {nodes : Fin c.capacity → MapNode} (h : putVisit self.nodes key val index = some nodes) :
      probe (putVisit self.nodes key val) c.capacity index = some nodes :=
    probe_eq_some.mpr ⟨0, c.positive, h, by simp⟩
  simp only [Code.statement]
  split
  · next free =>
    simp only [Code.finish, found (if_pos free), Option.map_some]
    rfl
  · split
    · next taken same =>
      have visit : putVisit self.nodes key val index =
          some (Function.update self.nodes index ⟨(self.nodes index).key, val, false⟩) := by
        simp only [putVisit, if_neg taken, if_pos same]
      simp only [Code.finish, found visit, Option.map_some]
      rfl
    · next taken other =>
      have visit : putVisit self.nodes key val index = none := by
        simp only [putVisit, if_neg taken, if_neg other]
      simp only [Code.finish, probe_next visit]

/-- No statement changes what its section comes to. -/
theorem finish_statement (code : Code c) (self : Hashmap c) :
    (code.statement self).1.finish (code.statement self).2 = code.finish self := by
  cases code with
  | refusal key val force =>
    simp only [Code.statement]
    split
    · next full => simp [Code.finish, perform, putSection, full, Hashmap.refuse]
    · next room => simp [Code.finish, perform, putSection, room]
  | room key val =>
    simp only [Code.statement]
    split
    · next room =>
      simp only [Code.finish, perform, putSection, if_pos room, Bool.true_eq_false, and_false,
        ↓reduceIte, Option.map_map]
      rfl
    · next full =>
      simp only [Code.finish, perform, putSection, if_neg full, Bool.true_eq_false, and_false,
        ↓reduceIte, Option.map_some]
      rfl
  | putLoop key val index => exact finish_putLoop key val index self
  | evict => rfl
  | setKey key val index evicted => simp only [Code.statement, Code.finish, change_change]
  | setVal val index evicted => simp only [Code.statement, Code.finish, change_change]
  | revive index evicted => cases evicted <;> rfl
  | countIn => rfl
  | getLoop key index i =>
    simp only [Code.statement]
    split
    · next inside =>
      have turn : c.capacity - i = c.capacity - (i + 1) + 1 := by omega
      cases visit : getVisit self.nodes key index <;>
        simp only [Code.finish, turn, probe, visit, Option.getD_some]
    · next outside =>
      have turn : c.capacity - i = 0 := by omega
      simp only [Code.finish, turn, probe, Option.getD_none]
  | indexLoop key index i =>
    simp only [Code.statement]
    split
    · next inside =>
      have turn : c.capacity - i = c.capacity - (i + 1) + 1 := by omega
      cases visit : getTrueIndexVisit self.nodes key index <;>
        simp only [Code.finish, turn, probe, visit, Option.getD_some]
    · next outside =>
      have turn : c.capacity - i = 0 := by omega
      simp only [Code.finish, turn, probe, Option.getD_none]
  | readTombstone => rfl
  | bury => rfl
  | countOut => rfl
  | clearLoop i destroyed =>
    simp only [Code.statement]
    split
    · next inside =>
      have here := clearedFrom_here self ⟨i, inside⟩
      have rest := clearFrom_here self ⟨i, inside⟩
      simp only at here rest
      split
      · next cleared =>
        have wiped : self.change ⟨i, inside⟩ clearNode =
            self.change ⟨i, inside⟩ fun _ => ⟨.null, .null, true⟩ := by
          simp only [Hashmap.change, clearNode, cleared, ↓reduceIte]
        have later := clearedFrom_change self ⟨i, inside⟩ fun _ => ⟨.null, .null, true⟩
        simp only at later
        simp only [Code.finish, clearRest, here, rest, wiped, later, cleared, List.append_assoc,
          ↓reduceIte]
      · next kept =>
        have same : self.change ⟨i, inside⟩ clearNode = self := by
          simp [Hashmap.change, clearNode, kept]
        simp [Code.finish, here, rest, same, kept]
    · next outside =>
      have past : c.capacity ≤ i := by omega
      simp only [Code.finish, clearedFrom_end self past, clearFrom_end self past, List.append_nil]
  | buryCleared => simp only [Code.statement, Code.finish, clearRest_change, change_nodes]
  | destroy => rfl
  | nullKey => simp only [Code.statement, Code.finish, clearRest_change]; rfl
  | nullVal => simp only [Code.statement, Code.finish, clearRest_change]; rfl
  | emptyKey => simp only [Code.statement, Code.finish, clearRest_change]
  | emptyVal => rfl
  | resetSize => rfl
  | done => rfl

theorem finish_start (job : Job c) (self : Hashmap c) : job.start.finish self = perform job self := by
  cases job with
  | put | delete => rfl
  | get => rfl
  | getTrueIndex => rfl
  | clearMap => simp [Job.start, Code.finish, clearedFrom, clearFrom, perform, clearSection]

/-- A section that runs alone gives what the map's model says. -/
theorem perform_eq {job : Job c} {before after : Hashmap c} {answer : Answer c}
    (performs : Sections.Performs (program c) job before answer after) :
    perform job before = some (answer, after) := by
  obtain ⟨code, answered, same⟩ := performs.finish Code.finish finish_statement
  cases code with
  | done =>
    obtain rfl := Option.some.inj answered
    exact (same.trans (finish_start job before)).symm
  | _ => exact absurd answered nofun

/-! ## Every section that has an answer gets to it -/

abbrev Ends (code : Code c) (self : Hashmap c) : Prop := Sections.Ends (program c) code self

theorem ends_done (answer : Answer c) (self : Hashmap c) : Ends (.done answer) self :=
  Sections.Ends.done (rfl : (program c).answer (.done answer) = some answer)

theorem ends_next {code : Code c} {self : Hashmap c}
    (ends : Ends (code.statement self).1 (code.statement self).2) : Ends code self :=
  .next ends

theorem ends_setVal (val : MapVal) (index : Fin c.capacity)
    (evicted : Option (MapKey × MapVal)) (self : Hashmap c) : Ends (.setVal val index evicted) self := by
  apply ends_next
  apply ends_next
  cases evicted with
  | none => exact .next (ends_done _ _)
  | some entry => exact ends_done _ _

theorem ends_putLoop {key : MapKey} {val : MapVal} {index : Fin c.capacity} {self : Hashmap c}
    {visits : Nat} {nodes : Fin c.capacity → MapNode}
    (leaves : Leaves (putVisit self.nodes key val) index visits nodes) :
    Ends (.putLoop key val index) self := by
  induction leaves with
  | @here index nodes found =>
    apply ends_next
    simp only [Code.statement]
    split
    · exact .next (ends_setVal val index none _)
    · next taken =>
      split
      · exact ends_setVal val index none self
      · next other => simp [putVisit, taken, other] at found
  | @later index visits nodes passed _ ih =>
    apply ends_next
    simp only [Code.statement]
    split
    · next free => simp [putVisit, free] at passed
    · next taken =>
      split
      · next same => simp [putVisit, taken, same] at passed
      · exact ih

theorem ends_getLoop (key : MapKey) (index : Fin c.capacity) (i : Nat) (self : Hashmap c) :
    Ends (.getLoop key index i) self := by
  induction turns : c.capacity - i generalizing index i with
  | zero =>
    apply ends_next
    simp only [Code.statement, if_neg (by omega : ¬ i < c.capacity)]
    exact ends_done _ _
  | succ turns ih =>
    apply ends_next
    simp only [Code.statement, if_pos (by omega : i < c.capacity)]
    cases getVisit self.nodes key index with
    | some rtn => exact ends_done _ _
    | none => exact ih (next index) (i + 1) (by omega)

theorem ends_indexLoop (key : MapKey) (index : Fin c.capacity) (i : Nat) (self : Hashmap c) :
    Ends (.indexLoop key index i) self := by
  induction turns : c.capacity - i generalizing index i with
  | zero =>
    apply ends_next
    simp only [Code.statement, if_neg (by omega : ¬ i < c.capacity)]
    exact ends_done _ _
  | succ turns ih =>
    apply ends_next
    simp only [Code.statement, if_pos (by omega : i < c.capacity)]
    cases getTrueIndexVisit self.nodes key index with
    | some found => exact ends_done _ _
    | none => exact ih (next index) (i + 1) (by omega)

theorem ends_clearLoop (i : Nat) (destroyed : List (MapKey × MapVal)) (self : Hashmap c) :
    Ends (.clearLoop i destroyed) self := by
  induction turns : c.capacity - i generalizing i destroyed self with
  | zero =>
    apply ends_next
    simp only [Code.statement, dif_neg (by omega : ¬ i < c.capacity)]
    exact .next (ends_done _ _)
  | succ turns ih =>
    apply ends_next
    simp only [Code.statement, dif_pos (by omega : i < c.capacity)]
    split
    · -- the six statements that clear a slot
      exact .next (.next (.next (.next (.next (.next (ih (i + 1) _ _ (by omega)))))))
    · exact ih (i + 1) destroyed self (by omega)

theorem ends_start {job : Job c} {self after : Hashmap c} {answer : Answer c}
    (performed : perform job self = some (answer, after)) : Ends job.start self := by
  cases job with
  | put key val force =>
    show Ends (.refusal key val force) self
    apply ends_next
    simp only [Code.statement]
    split
    · exact ends_done _ _
    · next accepted =>
      apply ends_next
      simp only [Code.statement]
      split
      · next room =>
        simp only [perform, putSection, if_neg accepted, if_pos room, Option.map_map] at performed
        obtain ⟨nodes, found, -⟩ := Option.map_eq_some_iff.mp performed
        obtain ⟨visits, -, leaves⟩ := probe_leaves.mp found
        exact ends_putLoop leaves
      · exact .next (.next (ends_setVal _ _ _ _))
  | get key => exact ends_getLoop key _ 0 self
  | getTrueIndex key => exact ends_indexLoop key _ 0 self
  | delete index => exact .next (.next (.next (ends_done _ _)))
  | clearMap => exact ends_clearLoop 0 [] self

/-- Statement by statement, a section that runs alone ends just where the map's
model gives it an answer, and with that answer and that map. -/
theorem performs_iff {job : Job c} {before after : Hashmap c} {answer : Answer c} :
    Sections.Performs (program c) job before answer after ↔
      perform job before = some (answer, after) := by
  constructor
  · exact perform_eq
  · intro performed
    obtain ⟨answer', after', performs⟩ := Sections.Runs.start.ends (ends_start performed)
    have same := (perform_eq performs).symm.trans performed
    obtain ⟨rfl, rfl⟩ := Prod.mk.inj (Option.some.inj same)
    exact performs

end LinuxSystem.Map
