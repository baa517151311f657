import LinuxSystem.Base.Threads
import LinuxSystem.Base.Transition

/-!
# The work queue of the server

Any number of threads run `enqueue` and `dequeue`. The steps are `calloc`, the
append and the pop under the lock, and the two semaphore operations. `enqueue`
posts before it unlocks; here the post may come any time after the append, which
allows every order the lock does.
-/

namespace LinuxSystem.WorkQueue

structure QueueNode where
  item : Nat
  next : Nat
  deriving DecidableEq, Repr

/-- The two ends, NULL being 0, and the queue nodes that are allocated. -/
structure Queue where
  front : Nat
  rear : Nat
  nodes : Nat → Option QueueNode

def createQueue : Queue := ⟨0, 0, fun _ => none⟩

/-- `calloc` and the two assignments after it. -/
def newNode (self : Queue) (tmp item : Nat) : Queue :=
  { self with nodes := Function.update self.nodes tmp (some ⟨item, 0⟩) }

/-- `none` where `rear` points to no node. -/
def appendSection (self : Queue) (tmp : Nat) : Option Queue :=
  if self.front = 0 then some { self with front := tmp, rear := tmp }
  else do
    let last ← self.nodes self.rear
    some { self with
      nodes := Function.update self.nodes self.rear (some { last with next := tmp })
      rear := tmp }

/-- `none` where `front` points to no node. `rear` stays as it is. -/
def popSection (self : Queue) : Option (Nat × Queue) := do
  let node ← self.nodes self.front
  some (node.item,
    { self with
      front := node.next
      nodes := Function.update self.nodes self.front none })

/-- What a thread does next in its call: `append` its node, post the semaphore
for it, or pop. -/
inductive Point where
  | idle
  | append (tmp : Nat)
  | post
  | pop

/-- `appended` and `popped` record all items in order. -/
structure State (Thread : Type) where
  queue : Queue
  items : Nat
  point : Thread → Point
  appended : List Nat
  popped : List Nat

variable {Thread : Type}

def State.start (Thread : Type) : State Thread := ⟨createQueue, 0, fun _ => .idle, [], []⟩

variable [DecidableEq Thread]

def State.place (s : State Thread) (t : Thread) (point : Point) : State Thread :=
  { s with point := Function.update s.point t point }

/-- The item of a node that is appended. -/
def State.itemOf (s : State Thread) (tmp : Nat) : Nat := ((s.queue.nodes tmp).map (·.item)).getD 0

/-- One step of thread `t`. -/
inductive Step : State Thread → Thread → State Thread → Prop where
  -- a NULL item or a failed `calloc`
  | refuse {s t} : s.point t = .idle → Step s t s
  | calloc {s t} (tmp item : Nat) : s.point t = .idle → item ≠ 0 → tmp ≠ 0 →
      s.queue.nodes tmp = none →
      Step s t ({ s with queue := newNode s.queue tmp item }.place t (.append tmp))
  | append {s t tmp queue} : s.point t = .append tmp → appendSection s.queue tmp = some queue →
      Step s t ({ s with queue := queue, appended := s.appended ++ [s.itemOf tmp] }.place t .post)
  | post {s t} : s.point t = .post → Step s t ({ s with items := s.items + 1 }.place t .idle)
  | wait {s t} : s.point t = .idle → 0 < s.items →
      Step s t ({ s with items := s.items - 1 }.place t .pop)
  | pop {s t item queue} : s.point t = .pop → popSection s.queue = some (item, queue) →
      Step s t ({ s with queue := queue, popped := s.popped ++ [item] }.place t .idle)

end LinuxSystem.WorkQueue
