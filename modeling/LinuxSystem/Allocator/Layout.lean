import LinuxSystem.Allocator.Model
import LinuxSystem.Base.Linked
import LinuxSystem.Base.Tiling

/-!
# The layout of a heap

What the words of a well-formed heap stand for: a run of blocks that tiles it,
and four linked lists of the free ones.
-/

namespace LinuxSystem.Allocator

open Linked Tiling

/-- A block as its header and its footer describe it. -/
structure Block where
  addr : Nat
  size : Nat
  allocated : Nat
  padded : Nat
  requested : Nat
  deriving DecidableEq, Repr

def Block.footer (b : Block) : Nat := b.addr + b.size - 8

/-- The fields that header and footer share. -/
structure Tagged (b : Block) (w : Nat) : Prop where
  allocated : allocated w = b.allocated
  padded : padded w = b.padded
  size : blockSize w = b.size / 16

structure Stored (mem : Nat → Nat) (b : Block) : Prop where
  header : Tagged b (mem b.addr)
  footer : Tagged b (mem b.footer)
  requested : requestedSize (mem b.footer) = b.requested

/-- A block has at least `LIST_1_MIN` bytes. -/
structure Block.Shaped (b : Block) : Prop where
  real : 0 < b.addr
  least : 32 ≤ b.size
  aligned : b.size % 16 = 0

/-- The free blocks of list `n`. -/
def freeOf (n : Int) (blocks : List Block) : List Nat :=
  (blocks.filter fun b => b.allocated = 0 ∧ listIndex b.size = n).map Block.addr

def used (blocks : List Block) : List Block := blocks.filter (·.allocated = 1)

/-- The links of list `n`; the link of NULL is the head. -/
def Heap.nextFrom (h : Heap) (n : Int) (x : Nat) : Nat := if x = 0 then h.head n else h.next x

/-- The blocks tile the heap, and the lists hold the free ones. -/
structure LaidOut (h : Heap) (blocks : List Block) (lists : Int → List Nat) : Prop where
  tiles : Tiles Block.addr Block.size h.startOfHeap blocks h.endOfHeap
  shaped : ∀ b ∈ blocks, b.Shaped
  stored : ∀ b ∈ blocks, Stored h.mem b
  linked : ∀ n, 0 ≤ n → n < 4 → Doubly (h.nextFrom n) h.prev 0 (lists n)
  free : ∀ n, (lists n).Perm (freeOf n blocks)

/-- Without padding, the request of a block fills it. -/
def Block.Fills (b : Block) : Prop := b.padded = 0 → b.requested + 16 = b.size

def Filled (blocks : List Block) : Prop := ∀ b ∈ used blocks, b.Fills

/-- A heap that is laid out, with blocks that their requests fill. -/
structure WellFormed (h : Heap) (blocks : List Block) (lists : Int → List Nat) : Prop
    extends laidOut : LaidOut h blocks lists where
  filled : Filled blocks

/-! ## Blocks -/

theorem listIndex_bounds (size : Nat) : 0 ≤ listIndex size ∧ listIndex size < 4 := by
  unfold listIndex
  split_ifs <;> decide

theorem mem_freeOf {n : Int} {blocks : List Block} {x : Nat} :
    x ∈ freeOf n blocks ↔
      ∃ b ∈ blocks, b.allocated = 0 ∧ listIndex b.size = n ∧ b.addr = x := by
  simp [freeOf, and_assoc]

theorem mem_used {b : Block} {blocks : List Block} :
    b ∈ used blocks ↔ b ∈ blocks ∧ b.allocated = 1 := by
  simp [used]

@[simp] theorem used_append (pre post : List Block) :
    used (pre ++ post) = used pre ++ used post :=
  List.filter_append ..

theorem used_cons_of_allocated {b : Block} (taken : b.allocated = 1) (blocks : List Block) :
    used (b :: blocks) = b :: used blocks := by
  simp [used, taken]

theorem used_cons_of_free {b : Block} (unused : b.allocated = 0) (blocks : List Block) :
    used (b :: blocks) = used blocks := by
  simp [used, unused]

theorem freeOf_append (n : Int) (pre post : List Block) :
    freeOf n (pre ++ post) = freeOf n pre ++ freeOf n post := by
  simp [freeOf]

theorem freeOf_allocated (n : Int) {b : Block} (used : b.allocated = 1) : freeOf n [b] = [] := by
  simp [freeOf, used]

theorem freeOf_free {b : Block} (unused : b.allocated = 0) (n : Int) :
    freeOf n [b] = if listIndex b.size = n then [b.addr] else [] := by
  by_cases same : listIndex b.size = n
  · simp [freeOf, unused, same]
  · simp [freeOf, same]

theorem Stored.allocated_or {mem : Nat → Nat} {b : Block} (s : Stored mem b) :
    b.allocated = 0 ∨ b.allocated = 1 := by
  have := allocated_lt (mem b.addr)
  rw [s.header.allocated] at this
  omega

theorem Stored.congr {mem mem' : Nat → Nat} {b : Block} (s : Stored mem b)
    (header : mem' b.addr = mem b.addr) (footer : mem' b.footer = mem b.footer) :
    Stored mem' b := by
  constructor
  · rw [header]; exact s.header
  · rw [footer]; exact s.footer
  · rw [footer]; exact s.requested

/-- The field holds 28 bits. -/
theorem Tagged.size_lt {b : Block} {w : Nat} (t : Tagged b w) : b.size < 2 ^ 32 := by
  have := blockSize_lt w
  rw [t.size] at this
  omega

/-- A size is read back with its list, even where it is not read back itself. -/
theorem Tagged.index {b : Block} {w : Nat} (t : Tagged b w) (aligned : b.size % 16 = 0) :
    listIndex (blockBytes w) = listIndex b.size := by
  by_cases small : b.size < 2 ^ 31
  · rw [blockBytes_eq t.size aligned small]
  · rw [blockBytes_large t.size aligned (by omega)]
    have last {size : Nat} (large : 2049 ≤ size) : listIndex size = 3 := by
      unfold listIndex
      rw [if_neg (by omega), if_neg (by omega), if_neg (by omega)]
    rw [last (by omega), last (by omega)]

theorem Tagged.bytes {b : Block} {w : Nat} (t : Tagged b w) (aligned : b.size % 16 = 0)
    (small : b.size < 2 ^ 31) : blockBytes w = b.size :=
  blockBytes_eq t.size aligned small

theorem filled_append {pre post : List Block} :
    Filled (pre ++ post) ↔ Filled pre ∧ Filled post := by
  unfold Filled
  rw [used_append]
  exact List.forall_mem_append

theorem filled_cons {b : Block} {blocks : List Block} :
    Filled (b :: blocks) ↔ (b.allocated = 1 → b.Fills) ∧ Filled blocks := by
  unfold Filled
  by_cases taken : b.allocated = 1
  · rw [used_cons_of_allocated taken, List.forall_mem_cons]
    simp [taken]
  · simp [used, taken]

/-- A block is exchanged for one that its request fills. -/
theorem Filled.replace {pre post : List Block} {b new : Block} (filled : Filled (pre ++ b :: post))
    (fills : new.allocated = 1 → new.Fills) : Filled (pre ++ new :: post) := by
  obtain ⟨before, rest⟩ := filled_append.mp filled
  exact filled_append.mpr ⟨before, filled_cons.mpr ⟨fills, (filled_cons.mp rest).2⟩⟩

theorem Filled.insert {pre post : List Block} {new : Block} (filled : Filled (pre ++ post))
    (fills : new.allocated = 1 → new.Fills) : Filled (pre ++ new :: post) := by
  obtain ⟨before, rest⟩ := filled_append.mp filled
  exact filled_append.mpr ⟨before, filled_cons.mpr ⟨fills, rest⟩⟩

theorem LaidOut.wellFormed {h : Heap} {blocks : List Block} {lists : Int → List Nat}
    (l : LaidOut h blocks lists) (filled : Filled blocks) : WellFormed h blocks lists :=
  ⟨l, filled⟩

theorem LaidOut.bytes {h : Heap} {blocks : List Block} {lists : Int → List Nat}
    (l : LaidOut h blocks lists) {b : Block} (mem : b ∈ blocks) (small : b.size < 2 ^ 31) :
    blockBytes (h.mem b.addr) = b.size :=
  (l.stored b mem).header.bytes (l.shaped b mem).aligned small

/-- A large size is not read back as a small one. -/
theorem LaidOut.size_lt {h : Heap} {blocks : List Block} {lists : Int → List Nat}
    (l : LaidOut h blocks lists) {b : Block} (mem : b ∈ blocks)
    (read : blockBytes (h.mem b.addr) < 2 ^ 31) : b.size < 2 ^ 31 := by
  by_contra large
  rw [blockBytes_large (l.stored b mem).header.size (l.shaped b mem).aligned (by omega)] at read
  omega

/-- The nodes of a list are its free blocks. -/
theorem LaidOut.mem_lists {h : Heap} {blocks : List Block} {lists : Int → List Nat}
    (l : LaidOut h blocks lists) {n : Int} {x : Nat} :
    x ∈ lists n ↔ ∃ b ∈ blocks, b.allocated = 0 ∧ listIndex b.size = n ∧ b.addr = x :=
  (l.free n).mem_iff.trans mem_freeOf

/-- The head of a list is NULL or one of its free blocks. -/
theorem LaidOut.head_block {h : Heap} {blocks : List Block} {lists : Int → List Nat}
    (l : LaidOut h blocks lists) {n : Int} (low : 0 ≤ n) (high : n < 4) (some : h.head n ≠ 0) :
    ∃ b ∈ blocks, b.allocated = 0 ∧ listIndex b.size = n ∧ b.addr = h.head n :=
  l.mem_lists.mp ((l.linked n low high).head_mem some)

/-! ## Writing a block -/

/-- All of a heap but its memory and the heads of the four lists. -/
def Heap.rest (h : Heap) : Heap :=
  { h with mem := fun _ => 0, head := fun n => if 0 ≤ n ∧ n < 4 then 0 else h.head n }

theorem startOfHeap_of_rest {h h' : Heap} (same : h'.rest = h.rest) :
    h'.startOfHeap = h.startOfHeap := by
  have := congrArg Heap.startOfHeap same
  exact this

theorem endOfHeap_of_rest {h h' : Heap} (same : h'.rest = h.rest) :
    h'.endOfHeap = h.endOfHeap := by
  have := congrArg Heap.endOfHeap same
  exact this

theorem pages_of_rest {h h' : Heap} (same : h'.rest = h.rest) : h'.pages = h.pages := by
  have := congrArg Heap.pages same
  exact this

theorem calls_of_rest {h h' : Heap} (same : h'.rest = h.rest) : h'.calls = h.calls := by
  have := congrArg Heap.calls same
  exact this

/-- The word in front of the four heads is kept. -/
theorem head_of_rest {h h' : Heap} (same : h'.rest = h.rest) : h'.head (-1) = h.head (-1) := by
  have := congrFun (congrArg Heap.head same) (-1)
  simpa [Heap.rest] using this

section Write

variable (h : Heap) (ptr size requested alloc pad : Nat)

@[simp] theorem writeBlock_head : (writeBlock h ptr size requested alloc pad).head = h.head := rfl

@[simp] theorem writeBlock_rest : (writeBlock h ptr size requested alloc pad).rest = h.rest := rfl

theorem writeBlock_mem {a : Nat} (header : a ≠ ptr) (footer : a ≠ ptr + size - 8) :
    (writeBlock h ptr size requested alloc pad).mem a = h.mem a := by
  simp [writeBlock, Heap.write, header, footer]

theorem writeBlock_header (least : 16 ≤ size) :
    (writeBlock h ptr size requested alloc pad).mem ptr =
      setFields (h.mem ptr) alloc pad (size / 16) := by
  have two : ptr ≠ ptr + size - 8 := by omega
  simp [writeBlock, Heap.write, two]

end Write

theorem stored_writeBlock (h : Heap) {b : Block} (least : 32 ≤ b.size) (limit : b.size < 2 ^ 32)
    (alloc : b.allocated < 2) (pad : b.padded < 2) (requested : b.requested < 2 ^ 32) :
    Stored (writeBlock h b.addr b.size b.requested b.allocated b.padded).mem b := by
  have two : b.addr ≠ b.addr + b.size - 8 := by omega
  have size : b.size / 16 % 2 ^ 28 = b.size / 16 := Nat.mod_eq_of_lt (by omega)
  have alloc := Nat.mod_eq_of_lt alloc
  have pad := Nat.mod_eq_of_lt pad
  have header := writeBlock_header h b.addr b.size b.requested b.allocated b.padded (by omega)
  have footer : (writeBlock h b.addr b.size b.requested b.allocated b.padded).mem b.footer =
      setRequestedSize (setFields (h.mem b.footer) b.allocated b.padded (b.size / 16))
        b.requested := by
    simp [writeBlock, Heap.write, Block.footer, two.symm]
  constructor
  · rw [header]
    constructor
    · rw [allocated_setFields, alloc]
    · rw [padded_setFields, pad]
    · rw [blockSize_setFields, size]
  · rw [footer]
    constructor
    · rw [allocated_setRequestedSize, allocated_setFields, alloc]
    · rw [padded_setRequestedSize, padded_setFields, pad]
    · rw [blockSize_setRequestedSize, blockSize_setFields, size]
  · rw [footer, requestedSize_setRequestedSize]
    exact Nat.mod_eq_of_lt requested

end LinuxSystem.Allocator
