import LinuxSystem.Allocator.FindFit

/-!
# Placing a request

`place` takes a free block off its list and turns it into an allocated block,
whole or with a free rest.
-/

namespace LinuxSystem.Allocator

open Tiling

variable {h : Heap} {pre post : List Block} {lists : Int → List Nat} {b : Block} {size : Nat}

/-- `place` cuts a rest of 16 bytes off a block of this size. -/
def LeavesSliver (blockSize size : Nat) : Prop := blockSize = blockFor size + 16

instance (blockSize size : Nat) : Decidable (LeavesSliver blockSize size) :=
  inferInstanceAs (Decidable (_ = _))

theorem blockFor_aligned (size : Nat) : blockFor size % 16 = 0 := by
  unfold blockFor
  split <;> omega

theorem blockFor_bounds (size : Nat) : size + 16 ≤ blockFor size ∧ blockFor size < size + 32 := by
  unfold blockFor
  split <;> omega

theorem paddedFor_lt (size : Nat) : paddedFor size < 2 := by
  unfold paddedFor
  split <;> decide

/-- The allocated block that a request is cut into. -/
theorem shaped_blockFor {addr : Nat} (real : 0 < addr) (positive : 1 ≤ size) :
    Block.Shaped ⟨addr, blockFor size, 1, paddedFor size, size⟩ where
  real := real
  least := by
    have := blockFor_bounds size
    have := blockFor_aligned size
    simp only
    omega
  aligned := blockFor_aligned size

theorem fills_blockFor (addr size : Nat) :
    Block.Fills ⟨addr, blockFor size, 1, paddedFor size, size⟩ := by
  intro full
  simp only [paddedFor, blockFor] at full ⊢
  split at full
  · rename_i aligned
    rw [if_pos aligned]
  · exact absurd full (by decide)

/-- What is left of `b` when a request is cut off it. -/
theorem shaped_rest {addr alloc pad requested : Nat} (real : 0 < addr) (shaped : b.Shaped)
    (least : 32 ≤ b.size - blockFor size) :
    Block.Shaped ⟨addr, b.size - blockFor size, alloc, pad, requested⟩ where
  real := real
  least := least
  aligned := by
    have := shaped.aligned
    have := blockFor_aligned size
    simp only
    omega

/-- A block that is too small to be cut is taken whole. -/
theorem place_whole (l : LaidOut h (pre ++ b :: post) lists) (limit : b.size < 2 ^ 31)
    (unused : b.allocated = 0) (fits : size + 16 ≤ b.size) (tight : b.size < size + 32) :
    LaidOut (place h b.addr size) (pre ++ ⟨b.addr, b.size, 1, 1, size⟩ :: post)
      (drop lists (listIndex b.size) b.addr) := by
  have o := l.at
  have mem : b ∈ pre ++ b :: post := by simp
  have shaped := l.shaped b mem
  have bytes := l.bytes mem limit
  have least := shaped.least
  let new : Block := ⟨b.addr, b.size, 1, 1, size⟩
  have shaped' : new.Shaped := ⟨shaped.real, least, shaped.aligned⟩
  have stored : Stored (writeBlock h b.addr b.size size 1 1).mem new :=
    stored_writeBlock h (b := new) least (by simp only [new]; omega) Nat.one_lt_two Nat.one_lt_two
      (by simp only [new]; omega)
  have written : Rewritten h (writeBlock h b.addr b.size size 1 1) b b.addr b.addr := by
    constructor
    · rfl
    · rfl
    · intro a outside
      apply writeBlock_mem
      · omega
      · omega
    · exact stored.header.index shaped'.aligned
  have removed := o.remove unused written
  have place_eq : place h b.addr size =
      removeSegFreeList (writeBlock h b.addr b.size size 1 1) b.addr := by
    rw [place, bytes]
    exact if_pos tight
  rw [← place_eq] at removed
  have kept : Stored (place h b.addr size).mem new := by
    rw [place_eq]
    apply stored.congr
    · apply o.remove_keeps unused written
      apply o.inside_offLinks
      · simp only [new]; omega
      · simp [new]
      · simp [new]
    · apply o.remove_keeps unused written
      apply o.inside_offLinks
      · simp only [new, Block.footer]; omega
      · simp only [new, Block.footer]; omega
      · simp only [new, Block.footer]; omega
  have closed := (removed.take (b := new) rfl (Nat.le_refl _) shaped' kept rfl).close
  rwa [List.append_assoc, List.singleton_append] at closed

/-- A larger block is cut in two. -/
theorem place_split (l : LaidOut h (pre ++ b :: post) lists) (limit : b.size < 2 ^ 31)
    (unused : b.allocated = 0) (positive : 1 ≤ size) (large : size + 32 ≤ b.size)
    (enough : ¬ LeavesSliver b.size size) :
    ∃ lists', LaidOut (place h b.addr size)
      (pre ++ ⟨b.addr, blockFor size, 1, paddedFor size, size⟩ ::
        ⟨b.addr + blockFor size, b.size - blockFor size, 0, 0, 0⟩ :: post) lists' := by
  have o := l.at
  have mem : b ∈ pre ++ b :: post := by simp
  have shaped := l.shaped b mem
  have bytes := l.bytes mem limit
  have bounds := blockFor_bounds size
  have aligned := blockFor_aligned size
  have least : 32 ≤ b.size - blockFor size := by
    have := shaped.aligned
    unfold LeavesSliver at enough
    omega
  have rest : Block.Shaped ⟨b.addr + blockFor size, b.size - blockFor size, 0, 0, 0⟩ :=
    shaped_rest (Nat.add_pos_left shaped.real _) shaped least
  have removed := o.remove unused o.unwritten
  have front := removed.writeAllocated (shaped_blockFor shaped.real positive) (by omega)
    (by omega) (paddedFor_lt size) (by omega)
  have back := front.writeFree rest (by omega) (by omega)
  have whole : b.addr + blockFor size + (b.size - blockFor size) = b.addr + b.size := by omega
  rw [whole] at back
  have closed := back.close
  simp only [List.append_assoc, List.singleton_append] at closed
  simp only [place, bytes, if_neg (Nat.not_lt.mpr large)]
  exact ⟨_, closed⟩

/-! ## Rests that spoil the heap -/

/-- Where the headers of a heap lead, every layout has a block. -/
theorem exists_block {h : Heap} {known blocks : List Block} {mid : Nat}
    (tiles : Tiles Block.addr Block.size h.startOfHeap known mid) (inside : mid < h.endOfHeap)
    (headers : ∀ b ∈ known, blockSize (h.mem b.addr) = b.size / 16 ∧ b.size % 16 = 0)
    (l : LaidOut h blocks lists) : ∃ c ∈ blocks, c.addr = mid := by
  apply Tiles.reach tiles l.tiles inside
  intro b hb c hc same
  have size := (l.stored c hc).header.size
  have aligned := (l.shaped c hc).aligned
  have known := headers b hb
  rw [same, size] at known
  omega

theorem Open.gap_offLinks {lo hi a : Nat} (o : Open h pre lo hi post lists) (low : lo ≤ a)
    (high : a < hi) : OffLinks (pre ++ post) a := by
  refine offLinks_iff.mpr fun c mem _ => ?_
  have outside := o.outside mem
  have least := (o.shaped c mem).least
  constructor
  · omega
  · omega

/-- Whatever is written to the window: putting it on a list writes links only. -/
theorem Open.insert_written {h' : Heap} {lo hi a : Nat} (o : Open h pre lo hi post lists)
    (heads : h'.head = h.head) (next : a ≠ lo + 8) (prev : a ≠ lo + 16)
    (off : OffLinks (pre ++ post) a) : (insertSegFreeList h' lo).mem a = h'.mem a := by
  obtain ⟨low, high⟩ := listIndex_bounds (blockBytes (h'.mem lo))
  refine insertHelper_keeps next prev (or_iff_not_imp_left.mpr fun real => ?_)
  rw [heads] at real ⊢
  exact (off _ _ ((o.free _).mem_iff.mp (o.freeLists.head_mem low high real))).2

/-- A free rest that is cut off at the end of the window has its header in the heap,
with the size that was written there, so that a layout has a block of that size. -/
theorem Open.rest_read {lo hi : Nat} (o : Open h pre lo hi post lists) (room : lo < hi)
    (least : 16 ≤ size) {blocks : List Block} {lists' : Int → List Nat}
    (l : LaidOut (insertSegFreeList (Allocator.writeBlock h lo size 0 0 0) lo) blocks lists') :
    ∃ c ∈ blocks, c.addr = lo ∧ c.size / 16 = size / 16 % 2 ^ 28 := by
  have above := o.after.le
  have heads := writeBlock_head h lo size 0 0 0
  have rest := (insertSegFreeList_rest (p := lo)).trans (writeBlock_rest h lo size 0 0 0)
  have header := o.insert_written heads (a := lo) (by omega) (by omega)
    (o.gap_offLinks (Nat.le_refl _) room)
  rw [writeBlock_header _ _ _ _ _ _ least] at header
  obtain ⟨c, mem, start⟩ : ∃ c ∈ blocks, c.addr = lo := by
    refine exists_block (startOfHeap_of_rest rest ▸ o.before)
      (endOfHeap_of_rest rest ▸ by omega) ?_ l
    intro d known
    have whole : d ∈ pre ++ post := List.mem_append_left post known
    have tags := tags_offLinks o.spread o.shaped whole
    have below := o.before.within known
    have least := (o.shaped d whole).least
    rw [o.insert_written heads (by omega) (by omega) tags.1,
      writeBlock_mem _ _ _ _ _ _ (by omega) (by omega)]
    exact ⟨(o.stored d whole).header.size, (o.shaped d whole).aligned⟩
  have size := (l.stored c mem).header.size
  rw [start, header, blockSize_setFields] at size
  exact ⟨c, mem, start, size.symm⟩

theorem insert_sliver {lo hi : Nat} (o : Open h pre lo hi post lists) (fits : lo + 16 ≤ hi)
    {blocks : List Block} {lists' : Int → List Nat} :
    ¬ LaidOut (insertSegFreeList (writeBlock h lo 16 0 0 0) lo) blocks lists' := by
  intro l
  obtain ⟨c, mem, -, size⟩ := o.rest_read (by omega) (Nat.le_refl _) l
  have least := (l.shaped c mem).least
  omega

/-- A rest of 16 bytes is no block, so the heap has no layout any more. -/
theorem place_sliver (l : LaidOut h (pre ++ b :: post) lists) (limit : b.size < 2 ^ 31)
    (unused : b.allocated = 0) (positive : 1 ≤ size) (sliver : LeavesSliver b.size size)
    {blocks : List Block} {lists' : Int → List Nat} :
    ¬ LaidOut (place h b.addr size) blocks lists' := by
  have o := l.at
  have mem : b ∈ pre ++ b :: post := by simp
  have shaped := l.shaped b mem
  have bytes := l.bytes mem limit
  have bounds := blockFor_bounds size
  have aligned := blockFor_aligned size
  unfold LeavesSliver at sliver
  have large : size + 32 ≤ b.size := by omega
  have rest : b.size - blockFor size = 16 := by omega
  have removed := o.remove unused o.unwritten
  have front := removed.writeAllocated (shaped_blockFor shaped.real positive) (by omega)
    (by omega) (paddedFor_lt size) (by omega)
  simp only [place, bytes, if_neg (Nat.not_lt.mpr large), rest]
  exact insert_sliver front (by omega)

/-- A rest whose size is read as a negative `int` gets its header. Its footer is
written outside the heap, and what was in front of the next block stays. -/
theorem insert_footless {lo hi : Nat} (o : Open h pre lo hi post lists) (fits : lo + 32 ≤ hi)
    (limit : hi < lo + 2 ^ 32) (aligned : (hi - lo) % 16 = 0)
    (stale : blockSize (h.mem (hi - 8)) ≠ (hi - lo) / 16) {blocks : List Block}
    {lists' : Int → List Nat} :
    ¬ LaidOut (insertSegFreeList (writeBlock h lo (2 ^ 64 - 2 ^ 32 + (hi - lo)) 0 0 0) lo) blocks
      lists' := by
  intro l
  obtain ⟨c, mem, start, size⟩ := o.rest_read (by omega) (by omega) l
  have kept := o.insert_written (writeBlock_head h lo (2 ^ 64 - 2 ^ 32 + (hi - lo)) 0 0 0)
    (a := hi - 8) (by omega) (by omega) (o.gap_offLinks (by omega) (by omega))
  rw [writeBlock_mem _ _ _ _ _ _ (by omega) (by omega)] at kept
  have aligned' := (l.shaped c mem).aligned
  have size : c.size = hi - lo := by omega
  have footer : c.footer = hi - 8 := by
    unfold Block.footer
    omega
  have twice := (l.stored c mem).footer.size
  rw [footer, kept, size] at twice
  exact stale twice

/-- In a heap below 4 GiB, where also modulo 2^64 the footer of the rest is outside, a
block of 2 GiB or more is cut and no layout is left. -/
theorem place_large (l : LaidOut h (pre ++ b :: post) lists)
    (below : h.endOfHeap < h.startOfHeap + 2 ^ 32) (large : 2 ^ 31 ≤ b.size)
    (unused : b.allocated = 0) (positive : 1 ≤ size) (limit : size ≤ 16384) {blocks : List Block}
    {lists' : Int → List Nat} : ¬ LaidOut (place h b.addr size) blocks lists' := by
  have o := l.at
  have mem : b ∈ pre ++ b :: post := by simp
  have shaped := l.shaped b mem
  have stored := l.stored b mem
  have whole := l.tiles.within mem
  have aligned := shaped.aligned
  have bytes := blockBytes_large stored.header.size aligned large
  have bounds := blockFor_bounds size
  have aligned' := blockFor_aligned size
  have removed := o.remove unused o.unwritten
  have front := removed.writeAllocated (shaped_blockFor shaped.real positive) (by omega)
    (by omega) (paddedFor_lt size) (by omega)
  have rest : 2 ^ 64 - 2 ^ 32 + b.size - blockFor size =
      2 ^ 64 - 2 ^ 32 + (b.addr + b.size - (b.addr + blockFor size)) := by omega
  have unfit : ¬ 2 ^ 64 - 2 ^ 32 + b.size < size + 32 := by omega
  simp only [place, bytes, if_neg unfit, rest]
  apply insert_footless front (by omega) (by omega) (by omega)
  have footer := stored.footer.size
  rw [writeBlock_mem _ _ _ _ _ _ (by omega) (by omega),
    o.remove_keeps unused o.unwritten (o.inside_offLinks (by omega) (by omega) (by omega))]
  unfold Block.footer at footer
  omega

end LinuxSystem.Allocator
