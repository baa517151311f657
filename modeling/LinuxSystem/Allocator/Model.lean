import LinuxSystem.Allocator.Memory

/-!
# The memory allocator

Every function of `sfmm.c` maps the heap to the heap after it; pointers are
addresses, meant modulo 2^64, and NULL is 0. Loops take fuel, and `abort` ends a
call with no heap.
-/

namespace LinuxSystem.Allocator

inductive Errno where
  | EINVAL
  | ENOMEM
  deriving DecidableEq, Repr

/-- How a call can end without returning; `fuel` is an end of the model only. -/
inductive Fault where
  | abort
  | fuel
  deriving DecidableEq, Repr

/-- What is assumed of `sf_sbrk`: where the heap starts, and which of its calls
succeed, the first one always. -/
structure Sbrk where
  base : Nat
  grants : Nat → Bool
  positive : 0 < base
  first : grants 0 = true

/-- `head` is `seg_free_list[n].head`, for any `n` the code may index with.
`pages` and `calls` count the pages and the calls of `sf_sbrk`. -/
structure Heap where
  mem : Nat → Nat
  head : Int → Nat
  startOfHeap : Nat
  endOfHeap : Nat
  errno : Option Errno
  pages : Nat
  calls : Nat

def Heap.write (h : Heap) (a w : Nat) : Heap := { h with mem := Function.update h.mem a w }

def Heap.setHead (h : Heap) (n : Int) (p : Nat) : Heap :=
  { h with head := Function.update h.head n p }

/-- The links of `sf_free_header` follow the header word. -/
def Heap.next (h : Heap) (p : Nat) : Nat := h.mem (p + 8)

def Heap.prev (h : Heap) (p : Nat) : Nat := h.mem (p + 16)

def Heap.setNext (h : Heap) (p q : Nat) : Heap := h.write (p + 8) q

def Heap.setPrev (h : Heap) (p q : Nat) : Heap := h.write (p + 16) q

def writeBlock (h : Heap) (ptr size requested alloc pad : Nat) : Heap :=
  let footer := ptr + size - 8
  let h := h.write ptr (setFields (h.mem ptr) alloc pad (size / 16))
  h.write footer (setRequestedSize (setFields (h.mem footer) alloc pad (size / 16)) requested)

/-! ## The free lists -/

/-- The list of a size, as `insert_seg_free_list` and `remove_seg_free_list`
choose it. -/
def listIndex (asize : Nat) : Int :=
  if 32 ≤ asize ∧ asize ≤ 128 then 0
  else if 129 ≤ asize ∧ asize ≤ 512 then 1
  else if 513 ≤ asize ∧ asize ≤ 2048 then 2
  else 3

def insertSegFreeListHelper (h : Heap) (bp : Nat) (n : Int) : Heap :=
  if h.head n = 0 then ((h.setHead n bp).setNext bp 0).setPrev bp 0
  else (((h.setNext bp (h.head n)).setPrev bp 0).setPrev (h.head n) bp).setHead n bp

def insertSegFreeList (h : Heap) (bp : Nat) : Heap :=
  insertSegFreeListHelper h bp (listIndex (blockBytes (h.mem bp)))

def removeSegFreeListHelper (h : Heap) (ptr : Nat) (n : Int) : Heap :=
  if h.prev ptr ≠ 0 ∧ h.next ptr ≠ 0 then
    let h := h.setNext (h.prev ptr) (h.next ptr)
    h.setPrev (h.next ptr) (h.prev ptr)
  else if h.prev ptr = 0 ∧ h.next ptr ≠ 0 then
    let h := h.setHead n (h.next ptr)
    let h := h.setPrev (h.head n) 0
    h.setNext (h.head n) (h.next (h.next ptr))
  else if h.prev ptr ≠ 0 ∧ h.next ptr = 0 then
    (h.setNext (h.prev ptr) 0).setPrev ptr 0
  else h.setHead n 0

def removeSegFreeList (h : Heap) (bp : Nat) : Heap :=
  removeSegFreeListHelper h bp (listIndex (blockBytes (h.mem bp)))

/-- The inner loop of `find_fit`. -/
def findInList (h : Heap) (asize : Nat) : Nat → Nat → Except Fault Nat
  | 0, _ => .error .fuel
  | fuel + 1, ptr =>
    if ptr = 0 then .ok 0
    else if allocated (h.mem ptr) = 0 ∧ asize ≤ blockBytes (h.mem ptr) then .ok ptr
    else findInList h asize fuel (h.next ptr)

/-- The outer loop, over the lists that are left. -/
def findInLists (h : Heap) (asize fuel : Nat) : List Int → Except Fault Nat
  | [] => .ok 0
  | n :: rest =>
    match findInList h asize fuel (h.head n) with
    | .ok 0 => findInLists h asize fuel rest
    | found => found

/-- `n` keeps its first value, -1, for a size below `LIST_1_MIN`. -/
def firstList (asize : Nat) : Int :=
  if 2049 ≤ asize then 3
  else if 513 ≤ asize ∧ asize ≤ 2048 then 2
  else if 129 ≤ asize ∧ asize ≤ 512 then 1
  else if 32 ≤ asize ∧ asize ≤ 128 then 0
  else -1

def findFit (h : Heap) (fuel size : Nat) : Except Fault Nat :=
  findInLists h (size + 16) fuel ([-1, 0, 1, 2, 3].filter (firstList (size + 16) ≤ ·))

/-! ## Blocks -/

/-- The `padded` and `block_size` of a request that is cut off a larger block. -/
def paddedFor (size : Nat) : Nat := if size % 16 = 0 then 0 else 1

def blockFor (size : Nat) : Nat := if size % 16 = 0 then size + 16 else size / 16 * 16 + 16 + 16

def place (h : Heap) (p size : Nat) : Heap :=
  let old := blockBytes (h.mem p)
  if old < size + 32 then removeSegFreeList (writeBlock h p old size 1 1) p
  else
    let h := removeSegFreeList h p
    let h := writeBlock h p (blockFor size) size 1 (paddedFor size)
    let h := writeBlock h (p + blockFor size) (old - blockFor size) 0 0 0
    insertSegFreeList h (p + blockFor size)

def coalescingWithHigherAddress (h : Heap) (ptr : Nat) : Heap :=
  let current := blockBytes (h.mem ptr)
  let nextHeader := ptr + blockBytes (h.mem ptr)
  if allocated (h.mem nextHeader) = 1 ∨ nextHeader = h.endOfHeap then h
  else
    let h := removeSegFreeList h nextHeader
    writeBlock h ptr (current + blockBytes (h.mem nextHeader)) 0 0 0

def coalescingWithLowerAddress (h : Heap) (ptr : Nat) : Heap :=
  let prevHeader := bytesBelow ptr (h.mem (ptr - 8))
  if allocated (h.mem prevHeader) ≠ 0 then h
  else
    let h := removeSegFreeList h prevHeader
    let h := coalescingWithHigherAddress h prevHeader
    insertSegFreeList h prevHeader

/-! ## The break -/

variable (env : Sbrk)

def getHeapEnd (h : Heap) : Nat := env.base + 4096 * h.pages

def sfSbrk (h : Heap) : Heap × Bool :=
  if env.grants h.calls then ({ h with pages := h.pages + 1, calls := h.calls + 1 }, true)
  else ({ h with calls := h.calls + 1, errno := some .ENOMEM }, false)

/-- Taking over the bounds of the heap after a call of `sf_sbrk`. -/
def updateBounds (h : Heap) : Heap :=
  { h with startOfHeap := env.base, endOfHeap := getHeapEnd env h }

/-- The first page is taken without a look at what `sf_sbrk` returned. -/
def extendHeap (h : Heap) : Heap × Nat :=
  let oldEndOfHeap := getHeapEnd env h
  if h.startOfHeap = 0 then
    let h := updateBounds env (sfSbrk env h).1
    let h := writeBlock h h.startOfHeap 4096 0 0 0
    (insertSegFreeList h h.startOfHeap, h.startOfHeap)
  else
    match sfSbrk env h with
    | (h, true) =>
      let h := writeBlock (updateBounds env h) oldEndOfHeap 4096 0 0 0
      let h := insertSegFreeList h oldEndOfHeap
      (coalescingWithLowerAddress h oldEndOfHeap, oldEndOfHeap)
    | (h, false) => (h, 0)

/-! ## sf_malloc, sf_free and sf_realloc -/

/-- The loop of `sf_malloc`: the block it finds, or 0. -/
def mallocLoop (size : Nat) : Nat → Heap → Except Fault (Heap × Nat)
  | 0, _ => .error .fuel
  | fuel + 1, h =>
    match findFit h (fuel + 1) size with
    | .error fault => .error fault
    | .ok 0 =>
      let (h, page) := extendHeap env h
      if page = 0 then .ok ({ h with errno := some .ENOMEM }, 0) else mallocLoop size fuel h
    | .ok p => .ok (h, p)

def sfMalloc (fuel : Nat) (h : Heap) (size : Nat) : Except Fault (Heap × Nat) :=
  if 4096 * 4 < size ∨ size = 0 then .ok ({ h with errno := some .EINVAL }, 0)
  else
    match mallocLoop env size fuel h with
    | .error fault => .error fault
    | .ok (h, 0) => .ok (h, 0)
    | .ok (h, p) => .ok (place h p size, p + 8)

/-- The checks of `sf_free` and `sf_realloc` on a block pointer. -/
def checkBlock (h : Heap) (ptr : Nat) : Bool :=
  let header := h.mem ptr
  let footer := h.mem (ptr + blockBytes header - 8)
  !(ptr = 0 || ptr < h.startOfHeap || h.endOfHeap < ptr || allocated header = 0) &&
  !(padded header ≠ padded footer || allocated header ≠ allocated footer) &&
  !((requestedSize footer + 16) % 2 ^ 32 ≠ 16 * blockSize footer && padded footer ≠ 1)

def sfFree (h : Heap) (ptr : Nat) : Except Fault Heap :=
  let ptr := ptr - 8
  if checkBlock h ptr then
    let h := writeBlock h ptr (blockBytes (h.mem ptr)) 0 0 0
    let h := coalescingWithHigherAddress h ptr
    .ok (insertSegFreeList h ptr)
  else .error .abort

/-- `memcpy` of `n` bytes, a multiple of 8. -/
def memcpy (h : Heap) (dst src n : Nat) : Heap :=
  { h with mem := fun a =>
      if dst ≤ a ∧ a < dst + n ∧ (a - dst) % 8 = 0 then h.mem (src + (a - dst)) else h.mem a }

def sfRealloc (fuel : Nat) (h : Heap) (ptr size : Nat) : Except Fault (Heap × Nat) :=
  let ptr := ptr - 8
  let old := blockBytes (h.mem ptr)
  if checkBlock h ptr = false then .error .abort
  else if size = 0 then (sfFree h (ptr + 8)).map fun h => (h, 0)
  else if old - 16 < size then
    match sfMalloc env fuel h size with
    | .error fault => .error fault
    | .ok (h, 0) => .ok (h, 0)
    | .ok (h, new) =>
      (sfFree (memcpy h new (ptr + 8) (old - 16)) (ptr + 8)).map fun h => (h, new)
  else if size < old - 16 then
    if old - 16 - size < 32 then .ok (writeBlock h ptr old size 1 1, ptr + 8)
    else
      let h := writeBlock h ptr (blockFor size) size 1 (paddedFor size)
      let h := writeBlock h (ptr + blockFor size) (old - blockFor size) 1 1 1
      (sfFree h (ptr + blockFor size + 8)).map fun h => (h, ptr + 8)
  else .ok (writeBlock h ptr old size 1 (paddedFor size), ptr + 8)

end LinuxSystem.Allocator
