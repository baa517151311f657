import LinuxSystem.Base.Probing
import LinuxSystem.Base.Transition

/-!
# The hash map of the server

Open addressing with linear probing and tombstones. The work each operation
does under a lock is a definition of its own (`putSection` and so on), which
the concurrent models take as one step. Keys and values carry the bytes of
their buffers.
-/

namespace LinuxSystem.Map

open Probing

/-- A key buffer and its bytes; the base of NULL is 0. -/
structure MapKey where
  keyBase : Nat
  bytes : List UInt8
  deriving DecidableEq, Repr

structure MapVal where
  valBase : Nat
  bytes : List UInt8
  deriving DecidableEq, Repr

structure MapNode where
  key : MapKey
  val : MapVal
  tombstone : Bool
  deriving DecidableEq, Repr

def MapKey.null : MapKey := ⟨0, []⟩

def MapVal.null : MapVal := ⟨0, []⟩

/-- What `calloc` leaves in a slot. -/
def MapNode.zero : MapNode := ⟨.null, .null, false⟩

inductive Errno where
  | EINVAL
  | ENOMEM
  deriving DecidableEq, Repr

/-- What `create_map` fixes for good. It refuses a capacity of 0, and from
2^31 on the `int` indices would overflow. -/
structure Config where
  capacity : Nat
  hashFunction : List UInt8 → UInt32
  positive : 0 < capacity
  small : capacity < 2 ^ 31

structure Hashmap (c : Config) where
  size : Nat
  nodes : Fin c.capacity → MapNode
  invalid : Bool

/-- What a call leaves: its result, the `errno` it sets, the entries it passes
to `destroy_function`, and the map. -/
structure Outcome (c : Config) (α : Type) where
  ret : α
  errno : Option Errno
  destroyed : List (MapKey × MapVal)
  self : Hashmap c

variable {c : Config}

def createMap (c : Config) : Hashmap c := ⟨0, fun _ => .zero, false⟩

/-- `self->size++` and `self->size--` on a `uint32_t`. -/
def increment (size : Nat) : Nat := if size = 2 ^ 32 - 1 then 0 else size + 1

def decrement (size : Nat) : Nat := if size = 0 then 2 ^ 32 - 1 else size - 1

def getIndex (c : Config) (key : MapKey) : Fin c.capacity :=
  ⟨(c.hashFunction key.bytes).toNat % c.capacity, Nat.mod_lt _ c.positive⟩

/-- Equal `key_len` and `memcmp` zero. -/
def sameKey (a b : MapKey) : Bool := a.bytes = b.bytes

/-- The call changes nothing. -/
def Hashmap.refuse {α : Type} (self : Hashmap c) (ret : α) (errno : Errno) : Outcome c α :=
  ⟨ret, some errno, [], self⟩

/-! ## put -/

def putVisit (nodes : Fin c.capacity → MapNode) (key : MapKey) (val : MapVal)
    (index : Fin c.capacity) : Option (Fin c.capacity → MapNode) :=
  let tmp := nodes index
  if tmp.key.keyBase = 0 ∨ tmp.tombstone = true then
    some (Function.update nodes index ⟨key, val, false⟩)
  else if sameKey key tmp.key then
    -- the stored key buffer stays, the caller's is not kept
    some (Function.update nodes index ⟨tmp.key, val, false⟩)
  else none

/-- `none` where `while(1)` never leaves: after a whole turn every further
visit finds the same slots. -/
def putSection (self : Hashmap c) (key : MapKey) (val : MapVal) (force : Bool) :
    Option (Outcome c Bool) :=
  if c.capacity = self.size ∧ force = false then
    some (self.refuse false .ENOMEM)
  else if self.size < c.capacity then
    (probe (putVisit self.nodes key val) c.capacity (getIndex c key)).map fun nodes =>
      ⟨true, none, [], { self with nodes := nodes, size := increment self.size }⟩
  else
    let tmp := self.nodes (getIndex c key)
    some ⟨true, none, [(tmp.key, tmp.val)],
      { self with nodes := Function.update self.nodes (getIndex c key) ⟨key, val, false⟩ }⟩

def put (self : Hashmap c) (key : MapKey) (val : MapVal) (force : Bool) :
    Option (Outcome c Bool) :=
  if self.invalid = true ∨ key.keyBase = 0 ∨ val.valBase = 0 then
    some (self.refuse false .EINVAL)
  else putSection self key val force

/-! ## get -/

def getVisit (nodes : Fin c.capacity → MapNode) (key : MapKey) (index : Fin c.capacity) :
    Option MapVal :=
  let tmp := nodes index
  if tmp.key.keyBase = 0 then some .null
  else if tmp.tombstone = true then none
  else if sameKey key tmp.key then some tmp.val
  else none

def getSection (self : Hashmap c) (key : MapKey) : MapVal :=
  (probe (getVisit self.nodes key) c.capacity (getIndex c key)).getD .null

def get (self : Hashmap c) (key : MapKey) : Outcome c MapVal :=
  if self.invalid = true ∨ key.keyBase = 0 then self.refuse .null .EINVAL
  else ⟨getSection self key, none, [], self⟩

/-! ## delete -/

/-- Unlike in `get`, the tombstone is tested before the key. -/
def getTrueIndexVisit (nodes : Fin c.capacity → MapNode) (key : MapKey)
    (index : Fin c.capacity) : Option (Option (Fin c.capacity)) :=
  let tmp := nodes index
  if tmp.tombstone = true then none
  else if tmp.key.keyBase = 0 then some none
  else if sameKey key tmp.key then some (some index)
  else none

/-- `none` stands for the index -1. -/
def getTrueIndexSection (self : Hashmap c) (key : MapKey) : Option (Fin c.capacity) :=
  (probe (getTrueIndexVisit self.nodes key) c.capacity (getIndex c key)).getD none

def getTrueIndex (self : Hashmap c) (key : MapKey) : Option (Fin c.capacity) :=
  if self.invalid = true ∨ key.keyBase = 0 then none
  else getTrueIndexSection self key

/-- The returned node carries the tombstone the slot had before. -/
def deleteSection (self : Hashmap c) (index : Fin c.capacity) : Outcome c MapNode :=
  let rtn := self.nodes index
  ⟨rtn, none, [],
    { self with
      nodes := Function.update self.nodes index { rtn with tombstone := true }
      size := decrement self.size }⟩

/-- The entry check of `delete`, a whole `get` included. -/
def deleteRefuses (self : Hashmap c) (key : MapKey) : Bool :=
  self.invalid || key.keyBase = 0 || (get self key).ret.valBase = 0

def delete (self : Hashmap c) (key : MapKey) : Outcome c MapNode :=
  if deleteRefuses self key then self.refuse .zero .EINVAL
  else
    match getTrueIndex self key with
    | none => self.refuse .zero .EINVAL
    | some index => deleteSection self index

/-! ## clear_map -/

def clears (tmp : MapNode) : Bool := tmp.key.keyBase ≠ 0 && tmp.val.valBase ≠ 0

/-- The tombstone of a cleared slot is set although its key is NULL. -/
def clearNode (tmp : MapNode) : MapNode := if clears tmp then ⟨.null, .null, true⟩ else tmp

def clearSection (self : Hashmap c) : Outcome c Bool :=
  ⟨true, none,
    (List.finRange c.capacity).filterMap fun i =>
      if clears (self.nodes i) then some ((self.nodes i).key, (self.nodes i).val) else none,
    { self with nodes := fun i => clearNode (self.nodes i), size := 0 }⟩

def clearMap (self : Hashmap c) : Outcome c Bool :=
  if self.invalid = true then self.refuse false .EINVAL else clearSection self

/-! ## Runs -/

inductive Call where
  | put (key : MapKey) (val : MapVal) (force : Bool)
  | get (key : MapKey)
  | delete (key : MapKey)
  | clearMap

/-- A call that returns, and the map after it. -/
inductive Step : Hashmap c → Call → Hashmap c → Prop where
  | put {self key val force outcome} : put self key val force = some outcome →
      Step self (.put key val force) outcome.self
  | get {self key} : Step self (.get key) (get self key).self
  | delete {self key} : Step self (.delete key) (delete self key).self
  | clearMap {self} : Step self .clearMap (clearMap self).self

def Reachable (self : Hashmap c) : Prop := Transition.Reachable Step (createMap c) self

/-! ## Replies -/

inductive Returned where
  | flag (ret : Bool)
  | val (ret : MapVal)
  | node (ret : MapNode)
  deriving DecidableEq, Repr

/-- What a call shows outside the map. -/
structure Reply where
  ret : Returned
  errno : Option Errno
  destroyed : List (MapKey × MapVal)
  deriving DecidableEq, Repr

def Outcome.reply {α : Type} (outcome : Outcome c α) (ret : α → Returned) : Reply × Hashmap c :=
  (⟨ret outcome.ret, outcome.errno, outcome.destroyed⟩, outcome.self)

def act (self : Hashmap c) : Call → Option (Reply × Hashmap c)
  | .put key val force => (put self key val force).map (·.reply .flag)
  | .get key => some ((get self key).reply .val)
  | .delete key => some ((delete self key).reply .node)
  | .clearMap => some ((clearMap self).reply .flag)

end LinuxSystem.Map
