import LinuxSystem.Map.Model

/-!
# The extra-credit map

A copy of the hash map whose entries expire. Every slot keeps the `clock()`
reading of its last store, and a `get` tombstones the expired slots it passes.
Every call is given the readings `clock()` returns in it: one to `put`, and to
`get` one for each slot it visits.
-/

namespace LinuxSystem.ExtraCredit

open Probing Map

structure MapNode where
  key : MapKey
  val : MapVal
  start : Nat
  tombstone : Bool
  deriving DecidableEq, Repr

def MapNode.zero : MapNode := ⟨.null, .null, 0, false⟩

structure Hashmap (c : Config) where
  size : Nat
  nodes : Fin c.capacity → MapNode
  invalid : Bool

structure Outcome (c : Config) (α : Type) where
  ret : α
  errno : Option Errno
  destroyed : List (MapKey × MapVal)
  self : Hashmap c

variable {c : Config}

def createMap (c : Config) : Hashmap c := ⟨0, fun _ => .zero, false⟩

def Hashmap.refuse {α : Type} (self : Hashmap c) (ret : α) (errno : Errno) : Outcome c α :=
  ⟨ret, some errno, [], self⟩

/-- The `TTL` of const.h, in seconds. -/
def ttl : Int := 5

def clocksPerSec : Int := 1000000

/-- `(clock() - start)/CLOCKS_PER_SEC > TTL` -/
def expired (clock start : Nat) : Bool := ((clock : Int) - start).tdiv clocksPerSec > ttl

/-! ## put -/

def putVisit (nodes : Fin c.capacity → MapNode) (key : MapKey) (val : MapVal) (clock : Nat)
    (index : Fin c.capacity) : Option (Fin c.capacity → MapNode) :=
  let tmp := nodes index
  if tmp.key.keyBase = 0 ∨ tmp.tombstone = true then
    some (Function.update nodes index ⟨key, val, clock, false⟩)
  else if sameKey key tmp.key then
    some (Function.update nodes index ⟨tmp.key, val, clock, false⟩)
  else none

/-- The forced overwrite leaves `start` as it is. -/
def put (self : Hashmap c) (key : MapKey) (val : MapVal) (force : Bool) (clock : Nat) :
    Option (Outcome c Bool) :=
  if self.invalid = true ∨ key.keyBase = 0 ∨ val.valBase = 0 then
    some (self.refuse false .EINVAL)
  else if c.capacity = self.size ∧ force = false then
    some (self.refuse false .ENOMEM)
  else if self.size < c.capacity then
    (probe (putVisit self.nodes key val clock) c.capacity (getIndex c key)).map fun nodes =>
      ⟨true, none, [], { self with nodes := nodes, size := increment self.size }⟩
  else
    let tmp := self.nodes (getIndex c key)
    some ⟨true, none, [(tmp.key, tmp.val)],
      { self with
        nodes := Function.update self.nodes (getIndex c key) ⟨key, val, tmp.start, false⟩ }⟩

/-! ## get -/

def MapNode.bury (tmp : MapNode) : MapNode := { tmp with tombstone := true }

theorem bury_of_tombstone {tmp : MapNode} (buried : tmp.tombstone = true) : tmp.bury = tmp := by
  cases tmp
  simp_all [MapNode.bury]

/-- The loop from its visit `i` on. Passing an expired slot sets its tombstone. -/
def getLoop (clock : Nat → Nat) (key : MapKey) :
    Nat → Nat → Fin c.capacity → (Fin c.capacity → MapNode) → MapVal × (Fin c.capacity → MapNode)
  | 0, _, _, nodes => (.null, nodes)
  | allowance + 1, i, index, nodes =>
    let tmp := nodes index
    if tmp.key.keyBase = 0 then (.null, nodes)
    else if tmp.tombstone = true ∨ expired (clock i) tmp.start = true then
      getLoop clock key allowance (i + 1) (next index) (Function.update nodes index tmp.bury)
    else if sameKey key tmp.key then (tmp.val, nodes)
    else getLoop clock key allowance (i + 1) (next index) nodes

def get (self : Hashmap c) (key : MapKey) (clock : Nat → Nat) : Outcome c MapVal :=
  if self.invalid = true ∨ key.keyBase = 0 then self.refuse .null .EINVAL
  else
    let (rtn, nodes) := getLoop clock key c.capacity 0 (getIndex c key) self.nodes
    ⟨rtn, none, [], { self with nodes := nodes }⟩

/-! ## delete -/

def getTrueIndexVisit (nodes : Fin c.capacity → MapNode) (key : MapKey)
    (index : Fin c.capacity) : Option (Option (Fin c.capacity)) :=
  let tmp := nodes index
  if tmp.tombstone = true then none
  else if tmp.key.keyBase = 0 then some none
  else if sameKey key tmp.key then some (some index)
  else none

def getTrueIndex (self : Hashmap c) (key : MapKey) : Option (Fin c.capacity) :=
  if self.invalid = true ∨ key.keyBase = 0 then none
  else (probe (getTrueIndexVisit self.nodes key) c.capacity (getIndex c key)).getD none

/-- The returned node is built anew, with `start` 0. -/
def deleteSection (self : Hashmap c) (index : Fin c.capacity) : Outcome c MapNode :=
  let rtn := self.nodes index
  ⟨⟨rtn.key, rtn.val, 0, rtn.tombstone⟩, none, [],
    { self with
      nodes := Function.update self.nodes index rtn.bury
      size := decrement self.size }⟩

def delete (self : Hashmap c) (key : MapKey) (clock : Nat → Nat) : Outcome c MapNode :=
  if self.invalid = true ∨ key.keyBase = 0 then self.refuse .zero .EINVAL
  else
    let found := get self key clock
    if found.ret.valBase = 0 then found.self.refuse .zero .EINVAL
    else
      match getTrueIndex found.self key with
      | none => found.self.refuse .zero .EINVAL
      | some index => deleteSection found.self index

/-! ## clear_map -/

def clears (tmp : MapNode) : Bool := tmp.key.keyBase ≠ 0 && tmp.val.valBase ≠ 0

def clearNode (tmp : MapNode) : MapNode :=
  if clears tmp then ⟨.null, .null, tmp.start, true⟩ else tmp

def clearMap (self : Hashmap c) : Outcome c Bool :=
  if self.invalid = true then self.refuse false .EINVAL
  else
    ⟨true, none,
      (List.finRange c.capacity).filterMap fun i =>
        if clears (self.nodes i) then some ((self.nodes i).key, (self.nodes i).val) else none,
      { self with nodes := fun i => clearNode (self.nodes i), size := 0 }⟩

/-! ## Calls and replies -/

inductive Call where
  | put (key : MapKey) (val : MapVal) (force : Bool) (clock : Nat)
  | get (key : MapKey) (clock : Nat → Nat)
  | delete (key : MapKey) (clock : Nat → Nat)
  | clearMap

/-- The same call on the map without expiry. -/
def Call.plain : Call → Map.Call
  | .put key val force _ => .put key val force
  | .get key _ => .get key
  | .delete key _ => .delete key
  | .clearMap => .clearMap

def MapNode.plain (tmp : MapNode) : Map.MapNode := ⟨tmp.key, tmp.val, tmp.tombstone⟩

def Outcome.reply {α : Type} (outcome : Outcome c α) (ret : α → Returned) : Reply × Hashmap c :=
  (⟨ret outcome.ret, outcome.errno, outcome.destroyed⟩, outcome.self)

def act (self : Hashmap c) : Call → Option (Reply × Hashmap c)
  | .put key val force clock => (put self key val force clock).map (·.reply .flag)
  | .get key clock => some ((get self key clock).reply .val)
  | .delete key clock => some ((delete self key clock).reply fun rtn => .node rtn.plain)
  | .clearMap => some ((clearMap self).reply .flag)

end LinuxSystem.ExtraCredit
