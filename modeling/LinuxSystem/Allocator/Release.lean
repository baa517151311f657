import LinuxSystem.Allocator.Drawn
import LinuxSystem.Allocator.Free

/-!
# Sizes of 2 GiB and more

`sf_free` is right when the sizes it reads are below 2 GiB, whatever lies outside
the heap. A larger size is read back as a negative one: the footer is looked for,
or written, far from the block.
-/

namespace LinuxSystem.Allocator

open Tiling

variable {h h' : Heap} {pre post blocks : List Block} {lo hi : Nat} {lists : Int → List Nat}
  {b c : Block}

/-- `h'` has the heap of `h`; the memory around it may differ. -/
structure SameHeap (h h' : Heap) : Prop where
  rest : h'.rest = h.rest
  heads : h'.head = h.head
  agree : ∀ a, h.startOfHeap ≤ a → a < h.endOfHeap → h'.mem a = h.mem a

theorem SameHeap.refl (h : Heap) : SameHeap h h := ⟨rfl, rfl, fun _ _ _ => rfl⟩

/-- A layout is one of the heap and not of the memory around it. -/
theorem LaidOut.sameHeap (l : LaidOut h blocks lists) (same : SameHeap h h') :
    LaidOut h' blocks lists where
  tiles := by
    rw [startOfHeap_of_rest same.rest, endOfHeap_of_rest same.rest]
    exact l.tiles
  shaped := l.shaped
  stored b mem := by
    have within := l.tiles.within mem
    have least := (l.shaped b mem).least
    apply (l.stored b mem).congr
    · exact same.agree _ (by omega) (by omega)
    · exact same.agree _ (by unfold Block.footer; omega) (by unfold Block.footer; omega)
  linked n low high := by
    apply linked_congr (l.linked n low high) (congrFun same.heads n)
    intro x node
    obtain ⟨b, mem, -, -, rfl⟩ := l.mem_lists.mp node
    have within := l.tiles.within mem
    have least := (l.shaped b mem).least
    exact ⟨same.agree _ (by omega) (by omega), same.agree _ (by omega) (by omega)⟩
  free := l.free

/-- `sf_free` of `b` returns, merges `b` with the block above exactly when that is
free, puts it at the head of its list, and leaves the other allocated blocks alone. -/
def FreesRight (h : Heap) (pre : List Block) (b : Block) (post : List Block)
    (lists : Int → List Nat) : Prop :=
  ∃ h', sfFree h (b.addr + 8) = .ok h' ∧ h'.rest = h.rest ∧
    WellFormed h' (pre ++ freeBlock b.addr (mergedSize b.size post) :: mergedRest post)
      (push (mergedLists lists post) (listIndex (mergedSize b.size post)) b.addr) ∧
    ∀ c ∈ used (pre ++ post), Untouched h h' c

/-! ## A large block -/

/-- Where the checks look for the footer of a block of 2 GiB or more. -/
def farFooter (b : Block) : Nat := b.addr + (2 ^ 64 - 2 ^ 32 + b.size) - 8

/-- An empty word there fails the checks. -/
theorem checkBlock_large (l : LaidOut h blocks lists) (mem : b ∈ used blocks)
    (large : 2 ^ 31 ≤ b.size) (empty : h.mem (farFooter b) = 0) : checkBlock h b.addr = false := by
  obtain ⟨mem, taken⟩ := mem_used.mp mem
  have stored := (l.stored b mem).header
  have bytes := blockBytes_large stored.size (l.shaped b mem).aligned large
  have zero : allocated 0 = 0 := by decide +kernel
  have far : b.addr + (2 ^ 64 - 2 ^ 32 + b.size) - 8 = farFooter b := rfl
  simp only [checkBlock, bytes, far, empty, zero, stored.allocated, taken]
  simp

/-- Among some words outside the heap, the checks fail. -/
theorem exists_checkBlock_fails (l : LaidOut h blocks lists) (live : b ∈ used blocks)
    (limit : h.endOfHeap < h.startOfHeap + 2 ^ 32) (large : 2 ^ 31 ≤ b.size) :
    ∃ h', SameHeap h h' ∧ checkBlock h' b.addr = false := by
  have same : SameHeap h (h.write (farFooter b) 0) := by
    refine ⟨rfl, rfl, fun a low high => ?_⟩
    have within := l.tiles.within (mem_used.mp live).1
    apply Function.update_of_ne
    unfold farFooter
    omega
  have empty : (h.write (farFooter b) 0).mem (farFooter b) = 0 := Function.update_self ..
  exact ⟨_, same, checkBlock_large (l.sameHeap same) live large empty⟩

/-! ## A large block above -/

/-- The footer of a large block above is not written when it is merged. -/
theorem coalesceHigher_large (o : Open h pre lo hi (c :: post) lists)
    (tagged : blockBytes (h.mem lo) = hi - lo) (unused : c.allocated = 0) (below : lo < hi)
    (large : 2 ^ 31 ≤ c.size) :
    (insertSegFreeList (coalescingWithHigherAddress h lo) lo).mem c.footer = h.mem c.footer := by
  have mem : c ∈ pre ++ c :: post := by simp
  have start : c.addr = hi := o.after.1
  have bytes : blockBytes (h.mem c.addr) = 2 ^ 64 - 2 ^ 32 + c.size :=
    blockBytes_large (o.stored c mem).header.size (o.shaped c mem).aligned large
  have off := (tags_offLinks o.spread o.shaped mem).2
  have removed := o.remove unused o.unwritten
  rw [coalesceHigher_step o tagged unused below, bytes, insertSegFreeList]
  obtain ⟨low, high⟩ := listIndex_bounds (blockBytes ((writeBlock (removeSegFreeList h c.addr) lo
    (hi - lo + (2 ^ 64 - 2 ^ 32 + c.size)) 0 0 0).mem lo))
  rw [insertHelper_keeps, writeBlock_mem, o.remove_keeps unused o.unwritten off]
  · unfold Block.footer
    omega
  · unfold Block.footer
    omega
  · unfold Block.footer
    omega
  · unfold Block.footer
    omega
  · -- the old head is a free block other than `c`
    rw [writeBlock_head, or_iff_not_imp_left]
    intro real
    have node := removed.freeLists.head_mem low high real
    obtain ⟨d, hd, free, -, same⟩ := mem_freeOf.mp ((removed.free _).mem_iff.mp node)
    have whole : d ∈ pre ++ c :: post := by
      simp only [List.mem_append, List.mem_cons] at hd ⊢
      tauto
    rw [← same]
    exact (offLinks_iff.mp off d whole free).2

theorem sfFree_large_above (l : LaidOut h (pre ++ b :: c :: post) lists) (taken : b.allocated = 1)
    (small : b.size < 2 ^ 31) (unused : c.allocated = 0) (large : 2 ^ 31 ≤ c.size)
    (returns : sfFree h (b.addr + 8) = .ok h') :
    ¬ Stored h'.mem (freeBlock b.addr (b.size + c.size)) := by
  intro stored
  have shaped := l.shaped b (by simp)
  have shaped' := l.shaped c (by simp)
  have least := shaped.least
  have bytes := l.bytes (b := b) (by simp) small
  have next : c.addr = b.addr + b.size := l.at.after.2.1
  have written := (l.at.forget taken).writeBlock b.addr b.size 0 0 0 (Nat.le_refl _) least
    (Nat.le_refl _)
  have window : b.addr + b.size - b.addr = b.size := by omega
  have tagged : blockBytes ((writeBlock h b.addr b.size 0 0 0).mem b.addr) =
      b.addr + b.size - b.addr := by
    rw [window]
    exact (stored_freeBlock h least (by omega)).header.bytes shaped.aligned small
  have kept := coalesceHigher_large written tagged unused (by omega) large
  have other : (writeBlock h b.addr b.size 0 0 0).mem c.footer = h.mem c.footer := by
    have := shaped'.least
    apply writeBlock_mem
    · unfold Block.footer
      omega
    · unfold Block.footer
      omega
  simp only [sfFree, Nat.add_sub_cancel, bytes] at returns
  split at returns
  · obtain rfl := Except.ok.inj returns
    have footer : (freeBlock b.addr (b.size + c.size)).footer = c.footer := by
      simp only [Block.footer, freeBlock, next, Nat.add_assoc]
    have field := stored.footer.size
    rw [footer, kept, other, (l.stored c (by simp)).footer.size] at field
    simp only [freeBlock] at field
    omega
  · exact absurd returns (by simp)

/-! ## sf_free -/

/-- Whatever lies outside the heap, `sf_free` is right: for exactly the blocks below
2 GiB whose neighbour above, if it is free, is below 2 GiB. -/
theorem sf_free_right_iff (w : WellFormed h (pre ++ b :: post) lists)
    (limit : h.endOfHeap < h.startOfHeap + 2 ^ 32) (taken : b.allocated = 1) :
    (∀ h', SameHeap h h' → FreesRight h' pre b post lists) ↔
      b.size < 2 ^ 31 ∧ SmallAbove post := by
  have l := w.laidOut
  have mem : b ∈ pre ++ b :: post := by simp
  have live : b ∈ used (pre ++ b :: post) := mem_used.mpr ⟨mem, taken⟩
  constructor
  · intro right
    have small : b.size < 2 ^ 31 := by
      by_contra large
      obtain ⟨h', same, check⟩ := exists_checkBlock_fails l live limit (Nat.le_of_not_lt large)
      obtain ⟨h'', returns, -⟩ := right h' same
      simp [sfFree, check] at returns
    refine ⟨small, fun c first unused => ?_⟩
    by_contra large
    obtain ⟨rest, rfl⟩ : ∃ rest, post = c :: rest := List.head?_eq_some_iff.mp first
    obtain ⟨h', returns, -, w', -⟩ := right h (.refl h)
    have merged := w'.stored _ (List.mem_append_right pre List.mem_cons_self)
    rw [mergedSize, if_pos unused] at merged
    exact sfFree_large_above l taken small unused (Nat.le_of_not_lt large) returns merged
  · rintro ⟨small, above⟩ h' same
    have l' := l.sameHeap same
    obtain ⟨h'', returns, freed⟩ := sfFree_freed l' taken small (w.filled b live) above
    exact ⟨h'', returns, freed.rest, freed.laidOut.wellFormed (w.filled.freed _ _),
      fun c hc => freed.untouched l' hc⟩

/-! Two blocks from address 16 on, the first one allocated. -/

theorem drawnPair_wellFormed {pages : Nat} (start : b.addr = 16) (next : c.addr = 16 + b.size)
    (drawable : b.Drawable) (drawable' : c.Drawable) (requested : b.requested < 2 ^ 32)
    (requested' : c.requested < 2 ^ 32) (taken : b.allocated = 1) (fills : b.Fills)
    (fills' : c.allocated = 1 → c.Fills) :
    WellFormed (drawn 16 (16 + b.size + c.size) pages [b, c]) [b, c] (freeOf · [b, c]) := by
  have tiles : Tiles Block.addr Block.size 16 [b, c] (16 + b.size + c.size) := ⟨start, next, rfl⟩
  have cases {d : Block} (mem : d ∈ [b, c]) : d = b ∨ d = c := by simpa using mem
  have l : LaidOut (drawn 16 (16 + b.size + c.size) pages [b, c]) [b, c] (freeOf · [b, c]) := by
    apply drawn_laidOut tiles (by decide)
    · intro d mem
      obtain rfl | rfl := cases mem
      · exact drawable
      · exact drawable'
    · intro d mem
      obtain rfl | rfl := cases mem
      · exact requested
      · exact requested'
    · rw [List.filter_cons_of_neg (by simp [taken])]
      exact List.length_filter_le _ [c]
  apply l.wellFormed
  intro d mem
  obtain ⟨mem, live⟩ := mem_used.mp mem
  obtain rfl | rfl := cases mem
  · exact fills
  · exact fills' live

def pairBlocks (b : Block) (size : Nat) : List Block := [b, freeBlock (16 + b.size) size]

def pairHeap (b : Block) (size : Nat) : Heap :=
  drawn 16 (16 + b.size + size) ((b.size + size) / 4096) (pairBlocks b size)

theorem pairHeap_wellFormed {size : Nat} (start : b.addr = 16) (taken : b.allocated = 1)
    (drawable : b.Drawable) (requested : b.requested < 2 ^ 32) (fills : b.Fills)
    (least : 32 ≤ size) (aligned : size % 16 = 0) (limit : size < 2 ^ 32) :
    WellFormed (pairHeap b size) (pairBlocks b size) (freeOf · (pairBlocks b size)) :=
  drawnPair_wellFormed start rfl drawable ⟨least, aligned, limit, Nat.two_pos, Nat.two_pos⟩
    requested (Nat.two_pow_pos 32) taken fills fun live => absurd live Nat.zero_ne_one

/-- A block of 32 bytes for a request of 5. -/
def heldBlock : Block := ⟨16, 32, 1, 1, 5⟩

theorem heldPair_wellFormed {size : Nat} (least : 32 ≤ size) (aligned : size % 16 = 0)
    (limit : size < 2 ^ 32) : WellFormed (pairHeap heldBlock size) (pairBlocks heldBlock size)
      (freeOf · (pairBlocks heldBlock size)) :=
  pairHeap_wellFormed rfl rfl (by constructor <;> decide) (by decide)
    (fun full => absurd full (by decide)) least aligned limit

/-- The held block and a free one fill a page. -/
theorem page_wellFormed : WellFormed (pairHeap heldBlock 4064) (pairBlocks heldBlock 4064)
    (freeOf · (pairBlocks heldBlock 4064)) :=
  heldPair_wellFormed (by norm_num) rfl (by norm_num)

theorem sf_free_right_on_a_page : FreesRight (pairHeap heldBlock 4064) [] heldBlock
    [freeBlock 48 4064] (freeOf · (pairBlocks heldBlock 4064)) :=
  (sf_free_right_iff page_wellFormed (by decide) rfl).mpr
    ⟨by decide, by simp [SmallAbove, freeBlock]⟩ _ (.refl _)

/-- Merging with a free block of 2 GiB and 4064 bytes leaves its footer as it was. -/
theorem sf_free_leaves_far_footer : ¬ ∀ (h : Heap) (pre post : List Block) (b : Block)
    (lists : Int → List Nat), WellFormed h (pre ++ b :: post) lists →
      h.endOfHeap < h.startOfHeap + 2 ^ 32 → b.allocated = 1 → FreesRight h pre b post lists := by
  intro right
  have w := @heldPair_wellFormed (2 ^ 31 + 4064) (by decide) (by decide) (by decide)
  obtain ⟨h', returns, -, w', -⟩ :=
    right _ [] [freeBlock 48 (2 ^ 31 + 4064)] heldBlock _ w (by decide) rfl
  have l : LaidOut _ ([] ++ heldBlock :: freeBlock 48 (2 ^ 31 + 4064) :: []) _ := w.laidOut
  exact sfFree_large_above l rfl (by decide) rfl (by decide) returns
    (w'.stored _ List.mem_cons_self)

end LinuxSystem.Allocator
