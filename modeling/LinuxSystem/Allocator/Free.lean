import LinuxSystem.Allocator.Window

/-!
# Freeing a block

A freed block is merged with a free block above it and gets onto its list.
-/

namespace LinuxSystem.Allocator

open Tiling

variable {h h' : Heap} {pre post blocks : List Block} {lo hi : Nat} {lists : Int → List Nat}
  {b c : Block}

/-- A free block of `size` bytes, as `sf_free` and the coalescing write it. -/
def freeBlock (addr size : Nat) : Block := ⟨addr, size, 0, 0, 0⟩

theorem shaped_freeBlock {addr size : Nat} (real : 0 < addr) (least : 32 ≤ size)
    (aligned : size % 16 = 0) : (freeBlock addr size).Shaped :=
  ⟨real, least, aligned⟩

theorem stored_freeBlock (h : Heap) {addr size : Nat} (least : 32 ≤ size)
    (limit : size < 2 ^ 32) :
    Stored (writeBlock h addr size 0 0 0).mem (freeBlock addr size) :=
  stored_writeBlock h (b := freeBlock addr size) least limit Nat.two_pos Nat.two_pos
    (Nat.two_pow_pos 32)

/-- `a` is no link and no footer of a free block. -/
def OffFree (blocks : List Block) (a : Nat) : Prop :=
  ∀ b ∈ blocks, b.allocated = 0 → a ≠ b.addr + 8 ∧ a ≠ b.addr + 16 ∧ a ≠ b.footer

theorem OffFree.offLinks {a : Nat} (off : OffFree blocks a) : OffLinks blocks a :=
  offLinks_iff.mpr fun b mem unused => ⟨(off b mem unused).1, (off b mem unused).2.1⟩

theorem used_offFree (spread : Spread Block.addr Block.size blocks)
    (shaped : ∀ b ∈ blocks, b.Shaped) (hb : b ∈ used blocks) {a : Nat} (low : b.addr ≤ a)
    (high : a < b.addr + b.size) : OffFree blocks a := by
  intro c hc unused
  have := (shaped c hc).least
  unfold Block.footer
  obtain before | after := used_apart spread hb hc unused
  · omega
  · omega

/-! ## Merging with the block above -/

/-- The size of a block merged with the first of the blocks above it, if that is free. -/
def mergedSize (size : Nat) : List Block → Nat
  | [] => size
  | c :: _ => if c.allocated = 0 then size + c.size else size

def mergedRest : List Block → List Block
  | [] => []
  | c :: post => if c.allocated = 0 then post else c :: post

def mergedLists (lists : Int → List Nat) : List Block → Int → List Nat
  | [] => lists
  | c :: _ => if c.allocated = 0 then drop lists (listIndex c.size) c.addr else lists

/-- The block above, if it is free, has less than 2 GiB. -/
def SmallAbove (post : List Block) : Prop := ∀ c ∈ post.head?, c.allocated = 0 → c.size < 2 ^ 31

theorem used_mergedRest (post : List Block) : used (mergedRest post) = used post := by
  cases post with
  | nil => rfl
  | cons c post =>
    rw [mergedRest]
    split
    · rename_i unused
      exact (used_cons_of_free unused post).symm
    · rfl

theorem mergedRest_subset (mem : c ∈ mergedRest post) : c ∈ post := by
  cases post with
  | nil => exact mem
  | cons b post =>
    rw [mergedRest] at mem
    split at mem
    · exact List.mem_cons_of_mem b mem
    · exact mem

theorem mergedSize_shape {size : Nat} (shaped : ∀ c ∈ post, c.Shaped) (least : 32 ≤ size)
    (aligned : size % 16 = 0) :
    32 ≤ mergedSize size post ∧ mergedSize size post % 16 = 0 ∧ size ≤ mergedSize size post := by
  cases post with
  | nil => exact ⟨least, aligned, Nat.le_refl _⟩
  | cons c post =>
    have := (shaped c (by simp)).aligned
    rw [mergedSize]
    split <;> omega

theorem mergedSize_lt {size : Nat} (small : size < 2 ^ 31) (above : SmallAbove post) :
    mergedSize size post < 2 ^ 32 := by
  cases post with
  | nil => exact Nat.lt_trans small (by decide)
  | cons c post =>
    rw [mergedSize]
    split
    · rename_i unused
      have := above c rfl unused
      omega
    · omega

@[simp] theorem coalescingWithHigherAddress_rest {ptr : Nat} :
    (coalescingWithHigherAddress h ptr).rest = h.rest := by
  unfold coalescingWithHigherAddress
  dsimp only
  split
  · rfl
  · rw [writeBlock_rest, removeSegFreeList_rest]

theorem Open.next_header (o : Open h pre lo hi post lists)
    (tagged : blockBytes (h.mem lo) = hi - lo) : lo + blockBytes (h.mem lo) = hi := by
  have := o.gap
  omega

/-- Nothing to merge with: the window ends the heap or an allocated block follows. -/
theorem coalesceHigher_none (o : Open h pre lo hi post lists)
    (tagged : blockBytes (h.mem lo) = hi - lo) (taken : ∀ b ∈ post.head?, b.allocated = 1) :
    coalescingWithHigherAddress h lo = h := by
  unfold coalescingWithHigherAddress
  simp only [o.next_header tagged]
  apply if_pos
  cases post with
  | nil => exact Or.inr o.after
  | cons b post =>
    left
    have header := (o.stored b (by simp)).header.allocated
    rw [← o.after.1, header]
    exact taken b rfl

/-- A free block above is taken off its list, and both are written as one. -/
theorem coalesceHigher_step (o : Open h pre lo hi (b :: post) lists)
    (tagged : blockBytes (h.mem lo) = hi - lo) (unused : b.allocated = 0) (below : lo < hi) :
    coalescingWithHigherAddress h lo = writeBlock (removeSegFreeList h b.addr) lo
      (hi - lo + blockBytes (h.mem b.addr)) 0 0 0 := by
  have start : b.addr = hi := o.after.1
  have least := (o.shaped b (by simp)).least
  have header := (o.stored b (by simp)).header.allocated
  have kept : (removeSegFreeList h b.addr).mem b.addr = h.mem b.addr :=
    o.remove_keeps unused o.unwritten (o.inside_offLinks (by omega) (by omega) (by omega))
  unfold coalescingWithHigherAddress
  simp only [o.next_header tagged]
  rw [if_neg]
  · rw [← start, kept, tagged, start]
  · rintro (taken | stop)
    · rw [← start, header, unused] at taken
      exact absurd taken (by decide)
    · have := o.after.2.le
      omega

/-- The window takes in the free block above it. -/
theorem coalesceHigher_merge (o : Open h pre lo hi (b :: post) lists)
    (tagged : blockBytes (h.mem lo) = hi - lo) (unused : b.allocated = 0) (below : lo < hi)
    (small : b.size < 2 ^ 31) (limit : hi - lo < 2 ^ 31) :
    Open (coalescingWithHigherAddress h lo) pre lo (hi + b.size) post
        (drop lists (listIndex b.size) b.addr) ∧
      Stored (coalescingWithHigherAddress h lo).mem (freeBlock lo (hi - lo + b.size)) ∧
      ∀ a, a ≠ lo → a ≠ b.footer → OffLinks (pre ++ b :: post) a →
        (coalescingWithHigherAddress h lo).mem a = h.mem a := by
  have shaped := o.shaped b (by simp)
  have start : b.addr = hi := o.after.1
  have least := shaped.least
  have bytes : blockBytes (h.mem b.addr) = b.size :=
    (o.stored b (by simp)).header.bytes shaped.aligned small
  have removed := o.remove unused o.unwritten
  rw [coalesceHigher_step o tagged unused below, bytes]
  refine ⟨?_, stored_freeBlock _ (by omega) (by omega), ?_⟩
  · exact removed.writeBlock _ _ _ _ _ (Nat.le_refl _) (by omega) (by omega)
  · intro a header footer off
    rw [writeBlock_mem _ _ _ _ _ _ header, o.remove_keeps unused o.unwritten off]
    unfold Block.footer at footer
    omega

/-- The window, a free block off the lists, grows by the block above if that is
free. -/
structure Coalesced (h h' : Heap) (pre : List Block) (lo size : Nat) (post : List Block)
    (lists : Int → List Nat) : Prop where
  merged : Open h' pre lo (lo + mergedSize size post) (mergedRest post) (mergedLists lists post)
  stored : Stored h'.mem (freeBlock lo (mergedSize size post))
  keeps : ∀ a, a ≠ lo → OffFree (pre ++ post) a → h'.mem a = h.mem a

theorem coalesceHigher {size : Nat} (o : Open h pre lo (lo + size) post lists)
    (stored : Stored h.mem (freeBlock lo size)) (least : 32 ≤ size) (aligned : size % 16 = 0)
    (limit : size < 2 ^ 31) (above : SmallAbove post) :
    Coalesced h (coalescingWithHigherAddress h lo) pre lo size post lists := by
  have window : lo + size - lo = size := by omega
  have tagged : blockBytes (h.mem lo) = lo + size - lo := by
    rw [window]
    exact stored.header.bytes aligned limit
  cases post with
  | nil =>
    rw [coalesceHigher_none o tagged (by simp)]
    exact ⟨o, stored, fun _ _ _ => rfl⟩
  | cons c post =>
    obtain unused | taken := (o.stored c (by simp)).allocated_or
    · obtain ⟨merged, stored, keeps⟩ :=
        coalesceHigher_merge o tagged unused (by omega) (above c rfl unused) (by omega)
      rw [window] at stored
      constructor
      · simpa only [mergedSize, mergedRest, mergedLists, if_pos unused, ← Nat.add_assoc]
          using merged
      · simpa only [mergedSize, if_pos unused] using stored
      · intro a header off
        exact keeps a header (off c (by simp) unused).2.2 off.offLinks
    · have some : ¬ c.allocated = 0 := by omega
      rw [coalesceHigher_none o tagged (by simpa using taken)]
      constructor
      · simpa only [mergedSize, mergedRest, mergedLists, if_neg some] using o
      · simpa only [mergedSize, if_neg some] using stored
      · exact fun _ _ _ => rfl

/-! ## sf_free -/

/-- A live block below 2 GiB passes the checks of `sf_free` and `sf_realloc`. -/
theorem checkBlock_live (l : LaidOut h blocks lists) (mem : b ∈ used blocks)
    (small : b.size < 2 ^ 31) (filled : b.Fills) :
    checkBlock h b.addr = true := by
  obtain ⟨mem, taken⟩ := mem_used.mp mem
  have shaped := l.shaped b mem
  have stored := l.stored b mem
  have within := l.tiles.within mem
  have bytes : blockBytes (h.mem b.addr) = b.size := stored.header.bytes shaped.aligned small
  have real : b.addr ≠ 0 := shaped.real.ne'
  have low : ¬ b.addr < h.startOfHeap := by omega
  have high : ¬ h.endOfHeap < b.addr := by omega
  have filled : (b.requested + 16) % 2 ^ 32 = 16 * (b.size / 16) ∨ b.padded = 1 := by
    rw [or_iff_not_imp_right]
    intro whole
    have bit : b.padded < 2 := by
      rw [← stored.header.padded]
      exact padded_lt _
    have full := filled (by omega)
    have aligned := shaped.aligned
    omega
  have footer : b.addr + b.size - 8 = b.footer := rfl
  simp only [checkBlock, bytes, footer, stored.header.allocated, stored.header.padded,
    stored.footer.allocated, stored.footer.padded, stored.footer.size, stored.requested, taken,
    real, low, high]
  simpa using filled

/-- What `sf_free` leaves when it frees `b`. -/
structure Freed (h h' : Heap) (pre : List Block) (b : Block) (post : List Block)
    (lists : Int → List Nat) : Prop where
  laidOut : LaidOut h' (pre ++ freeBlock b.addr (mergedSize b.size post) :: mergedRest post)
    (push (mergedLists lists post) (listIndex (mergedSize b.size post)) b.addr)
  rest : h'.rest = h.rest
  keeps : ∀ a, a < b.addr ∨ b.addr + b.size ≤ a → OffFree (pre ++ post) a → h'.mem a = h.mem a

theorem used_freed (taken : b.allocated = 1) (addr size : Nat) :
    (used (pre ++ b :: post)).Perm
      (b :: used (pre ++ freeBlock addr size :: mergedRest post)) := by
  rw [used_append, used_append, used_cons_of_allocated taken, used_cons_of_free rfl,
    used_mergedRest]
  exact List.perm_middle

theorem Freed.untouched (f : Freed h h' pre b post lists) (l : LaidOut h (pre ++ b :: post) lists)
    (mem : c ∈ used (pre ++ post)) : Untouched h h' c := by
  intro a low high
  have whole : c ∈ used (pre ++ b :: post) := by
    simp only [mem_used, List.mem_append, List.mem_cons] at mem ⊢
    tauto
  have apart : c.addr + c.size ≤ b.addr ∨ b.addr + b.size ≤ c.addr := by
    obtain ⟨mid, before, start, after⟩ := tiles_append.mp l.tiles
    obtain mem | mem := List.mem_append.mp (mem_used.mp mem).1
    · have := before.within mem
      omega
    · have := after.within mem
      omega
  apply f.keeps a (by omega)
  intro d mem
  apply used_offFree l.tiles.spread l.shaped whole low high
  simp only [List.mem_append, List.mem_cons] at mem ⊢
  tauto

/-- Once the checks are passed, `b` is merged and gets onto its list. -/
theorem sfFree_freed (l : LaidOut h (pre ++ b :: post) lists) (taken : b.allocated = 1)
    (small : b.size < 2 ^ 31) (filled : b.Fills)
    (above : SmallAbove post) :
    ∃ h', sfFree h (b.addr + 8) = .ok h' ∧ Freed h h' pre b post lists := by
  have mem : b ∈ pre ++ b :: post := by simp
  have shaped := l.shaped b mem
  have least := shaped.least
  have bytes : blockBytes (h.mem b.addr) = b.size :=
    (l.stored b mem).header.bytes shaped.aligned small
  have check := checkBlock_live l (mem_used.mpr ⟨mem, taken⟩) small filled
  have shapedAbove (c : Block) (mem : c ∈ post) : c.Shaped := l.shaped c (by simp [mem])
  obtain ⟨leastMerged, alignedMerged, -⟩ :=
    mergedSize_shape shapedAbove shaped.least shaped.aligned
  have limit := mergedSize_lt small above
  have written := (l.at.forget taken).writeBlock b.addr b.size 0 0 0 (Nat.le_refl _) shaped.least
    (Nat.le_refl _)
  have coalesced := coalesceHigher written (stored_freeBlock h shaped.least (by omega))
    shaped.least shaped.aligned small above
  have shapedMerged := shaped_freeBlock shaped.real leastMerged alignedMerged
  have inserted := coalesced.merged.insert (b := freeBlock b.addr (mergedSize b.size post)) rfl
    (Nat.le_refl _) shapedMerged coalesced.stored rfl
  have closed := inserted.close
  rw [List.append_assoc, List.singleton_append] at closed
  refine ⟨_, ?_, closed, ?_, ?_⟩
  · simp only [sfFree, Nat.add_sub_cancel, check, if_pos, bytes]
  · simp
  · intro a outside off
    have header : a ≠ b.addr := by omega
    rw [coalesced.merged.insert_keeps (b := freeBlock b.addr (mergedSize b.size post)) rfl
        shapedMerged coalesced.stored rfl,
      coalesced.keeps a header off, writeBlock_mem _ _ _ _ _ _ header (by omega)]
    apply offLinks_iff.mpr
    intro c mem unused
    obtain rfl | mem := mem_fill.mp mem
    · simp only [freeBlock]
      omega
    · have old : c ∈ pre ++ post := by
        obtain mem | mem := List.mem_append.mp mem
        · exact List.mem_append_left post mem
        · exact List.mem_append_right pre (mergedRest_subset mem)
      have := off c old unused
      tauto

theorem Filled.freed (filled : Filled (pre ++ b :: post)) (addr size : Nat) :
    Filled (pre ++ freeBlock addr size :: mergedRest post) := by
  obtain ⟨before, rest⟩ := filled_append.mp filled
  refine filled_append.mpr ⟨before, filled_cons.mpr ⟨by simp [freeBlock], ?_⟩⟩
  intro c mem
  rw [used_mergedRest] at mem
  exact (filled_cons.mp rest).2 c mem

end LinuxSystem.Allocator
