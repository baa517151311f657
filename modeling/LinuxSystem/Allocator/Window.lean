import LinuxSystem.Allocator.FreeList

/-!
# A heap with a window

While a call rewrites blocks, the heap is well formed but for a window
`[lo, hi)` whose words are not known. Each edit moves an end of the window.
-/

namespace LinuxSystem.Allocator

open Linked Tiling

structure Open (h : Heap) (pre : List Block) (lo hi : Nat) (post : List Block)
    (lists : Int → List Nat) : Prop where
  before : Tiles Block.addr Block.size h.startOfHeap pre lo
  gap : lo ≤ hi
  after : Tiles Block.addr Block.size hi post h.endOfHeap
  shaped : ∀ b ∈ pre ++ post, b.Shaped
  stored : ∀ b ∈ pre ++ post, Stored h.mem b
  linked : ∀ n, 0 ≤ n → n < 4 → Doubly (h.nextFrom n) h.prev 0 (lists n)
  free : ∀ n, (lists n).Perm (freeOf n (pre ++ post))

variable {h h' : Heap} {pre post blocks : List Block} {lo hi : Nat} {lists : Int → List Nat}
  {b c : Block}

theorem LaidOut.at (l : LaidOut h (pre ++ b :: post) lists) :
    Open h pre b.addr b.addr (b :: post) lists := by
  obtain ⟨mid, before, start, after⟩ := tiles_append.mp l.tiles
  subst start
  exact ⟨before, Nat.le_refl _, ⟨rfl, after⟩, l.shaped, l.stored, l.linked, l.free⟩

theorem Open.close (o : Open h pre lo lo post lists) : LaidOut h (pre ++ post) lists :=
  ⟨o.before.append o.after, o.shaped, o.stored, o.linked, o.free⟩

/-! ## The nodes of the free lists -/

/-- Free blocks are far enough apart for their links. -/
theorem nodes_apart (spread : Spread Block.addr Block.size blocks)
    (shaped : ∀ b ∈ blocks, b.Shaped) {m n : Int} {x y : Nat} (hx : x ∈ freeOf m blocks)
    (hy : y ∈ freeOf n blocks) : (x = y ∧ m = n) ∨ x + 32 ≤ y ∨ y + 32 ≤ x := by
  obtain ⟨b, hb, -, rfl, rfl⟩ := mem_freeOf.mp hx
  obtain ⟨c, hc, -, rfl, rfl⟩ := mem_freeOf.mp hy
  have := (shaped b hb).least
  have := (shaped c hc).least
  obtain rfl | before | after := spread.apart hb hc
  · exact Or.inl ⟨rfl, rfl⟩
  · omega
  · omega

theorem nodes_once (spread : Spread Block.addr Block.size blocks)
    (shaped : ∀ b ∈ blocks, b.Shaped) (n : Int) : (0 :: freeOf n blocks).Nodup := by
  rw [List.nodup_cons]
  constructor
  · intro mem
    obtain ⟨b, hb, -, -, null⟩ := mem_freeOf.mp mem
    have := (shaped b hb).real
    omega
  · have all := spread.nodup_addr fun b hb => by
      have := (shaped b hb).least
      omega
    exact all.sublist (List.filter_sublist.map Block.addr)

/-- `a` is no link of a free block. -/
def OffLinks (blocks : List Block) (a : Nat) : Prop := ∀ n, NoLink (freeOf n blocks) a

theorem offLinks_iff {a : Nat} : OffLinks blocks a ↔
    ∀ b ∈ blocks, b.allocated = 0 → a ≠ b.addr + 8 ∧ a ≠ b.addr + 16 := by
  constructor
  · intro off b mem unused
    exact off (listIndex b.size) b.addr (mem_freeOf.mpr ⟨b, mem, unused, rfl, rfl⟩)
  · intro off n x node
    obtain ⟨b, mem, unused, -, rfl⟩ := mem_freeOf.mp node
    exact off b mem unused

theorem used_apart (spread : Spread Block.addr Block.size blocks) (hb : b ∈ used blocks)
    (hc : c ∈ blocks) (unused : c.allocated = 0) : Apart Block.addr Block.size b c := by
  obtain ⟨hb, taken⟩ := mem_used.mp hb
  obtain rfl | apart := spread.apart hb hc
  · omega
  · exact apart

/-- The words of an allocated block are no links. -/
theorem used_offLinks (spread : Spread Block.addr Block.size blocks)
    (shaped : ∀ b ∈ blocks, b.Shaped) (hb : b ∈ used blocks) {a : Nat} (low : b.addr ≤ a)
    (high : a < b.addr + b.size) : OffLinks blocks a := by
  apply offLinks_iff.mpr
  intro c hc unused
  have := (shaped c hc).least
  obtain before | after := used_apart spread hb hc unused
  · omega
  · omega

/-- The tags of a block are no links. -/
theorem tags_offLinks (spread : Spread Block.addr Block.size blocks)
    (shaped : ∀ b ∈ blocks, b.Shaped) (hb : b ∈ blocks) :
    OffLinks blocks b.addr ∧ OffLinks blocks b.footer := by
  have (c : Block) (hc : c ∈ blocks) : (b.addr ≠ c.addr + 8 ∧ b.addr ≠ c.addr + 16) ∧
      b.footer ≠ c.addr + 8 ∧ b.footer ≠ c.addr + 16 := by
    have := (shaped b hb).least
    have := (shaped c hc).least
    unfold Block.footer
    obtain rfl | before | after := spread.apart hb hc
    · omega
    · omega
    · omega
  exact ⟨offLinks_iff.mpr fun c hc _ => (this c hc).1, offLinks_iff.mpr fun c hc _ => (this c hc).2⟩

theorem NoLink.of_perm {l l' : List Nat} (perm : l.Perm l') {a : Nat} (clear : NoLink l' a) :
    NoLink l a := fun x mem => clear x (perm.mem_iff.mp mem)

theorem freeLists_of (spread : Spread Block.addr Block.size blocks)
    (shaped : ∀ b ∈ blocks, b.Shaped)
    (linked : ∀ n, 0 ≤ n → n < 4 → Doubly (h.nextFrom n) h.prev 0 (lists n))
    (free : ∀ n, (lists n).Perm (freeOf n blocks)) : FreeLists h lists where
  linked := linked
  once n := ((free n).cons 0).nodup_iff.mpr (nodes_once spread shaped n)
  apart m n _ _ hx hy :=
    nodes_apart spread shaped ((free m).mem_iff.mp hx) ((free n).mem_iff.mp hy)

theorem Open.spread (o : Open h pre lo hi post lists) :
    Spread Block.addr Block.size (pre ++ post) :=
  spread_gap o.before o.gap o.after

theorem Open.freeLists (o : Open h pre lo hi post lists) : FreeLists h lists :=
  freeLists_of o.spread o.shaped o.linked o.free

/-- Every block lies outside the window and inside the heap. -/
theorem Open.outside (o : Open h pre lo hi post lists) (mem : b ∈ pre ++ post) :
    (b.addr + b.size ≤ lo ∨ hi ≤ b.addr) ∧ h.startOfHeap ≤ b.addr ∧
      b.addr + b.size ≤ h.endOfHeap := by
  have := o.before.le
  have := o.after.le
  have := o.gap
  obtain mem | mem := List.mem_append.mp mem
  · have := o.before.within mem
    omega
  · have := o.after.within mem
    omega

/-- The words inside the window do not matter. -/
theorem Open.congr (o : Open h pre lo hi post lists) (rest : h'.rest = h.rest)
    (heads : h'.head = h.head) (agree : ∀ a, a < lo ∨ hi ≤ a → h'.mem a = h.mem a) :
    Open h' pre lo hi post lists where
  before := startOfHeap_of_rest rest ▸ o.before
  gap := o.gap
  after := endOfHeap_of_rest rest ▸ o.after
  shaped := o.shaped
  stored b mem := by
    have := (o.shaped b mem).least
    have := o.outside mem
    apply (o.stored b mem).congr
    · apply agree
      omega
    · apply agree
      unfold Block.footer
      omega
  linked := by
    refine (o.freeLists.congr heads fun n x mem => ?_).linked
    obtain ⟨b, hb, -, -, rfl⟩ := mem_freeOf.mp ((o.free n).mem_iff.mp mem)
    have := (o.shaped b hb).least
    have := o.outside hb
    constructor
    · apply agree
      omega
    · apply agree
      omega
  free := o.free

theorem freeOf_middle (n : Int) : freeOf n (pre ++ b :: post) =
    freeOf n pre ++ (freeOf n [b] ++ freeOf n post) := by
  rw [← freeOf_append, ← freeOf_append, List.singleton_append]

/-! ## Filling the window from below -/

theorem mem_fill : c ∈ pre ++ [b] ++ post ↔ c = b ∨ c ∈ pre ++ post := by
  simp only [List.mem_append, List.mem_singleton]
  tauto

theorem Open.fill_shaped (o : Open h pre lo hi post lists) (shaped : b.Shaped) :
    ∀ c ∈ pre ++ [b] ++ post, c.Shaped := by
  intro c mem
  obtain rfl | mem := mem_fill.mp mem
  · exact shaped
  · exact o.shaped c mem

theorem Open.fill_spread (o : Open h pre lo hi post lists) (start : b.addr = lo)
    (fits : lo + b.size ≤ hi) : Spread Block.addr Block.size (pre ++ [b] ++ post) :=
  spread_gap (o.before.snoc start rfl) fits o.after

theorem push_perm (free : ∀ n, (lists n).Perm (freeOf n (pre ++ post))) (unused : b.allocated = 0)
    (n : Int) : (push lists (listIndex b.size) b.addr n).Perm (freeOf n (pre ++ [b] ++ post)) := by
  have free := free n
  simp only [freeOf_append, freeOf_free unused] at free ⊢
  by_cases same : n = listIndex b.size
  · subst n
    rw [push, Function.update_self, if_pos rfl, List.append_assoc, List.singleton_append]
    exact (free.cons b.addr).trans List.perm_middle.symm
  · rw [push, Function.update_of_ne same, if_neg (Ne.symm same), List.append_nil]
    exact free

/-- An allocated block is written at the lower end. -/
theorem Open.take (o : Open h pre lo hi post lists) (start : b.addr = lo)
    (fits : lo + b.size ≤ hi) (shaped : b.Shaped) (stored : Stored h.mem b)
    (used : b.allocated = 1) : Open h (pre ++ [b]) (lo + b.size) hi post lists where
  before := o.before.snoc start rfl
  gap := fits
  after := o.after
  shaped := o.fill_shaped shaped
  stored c mem := by
    obtain rfl | mem := mem_fill.mp mem
    · exact stored
    · exact o.stored c mem
  linked := o.linked
  free n := by
    rw [freeOf_append, freeOf_append, freeOf_allocated n used, List.append_nil, ← freeOf_append]
    exact o.free n

theorem Open.insert_index (start : b.addr = lo) (shaped : b.Shaped) (stored : Stored h.mem b) :
    insertSegFreeList h lo = insertSegFreeListHelper h lo (listIndex b.size) := by
  rw [insertSegFreeList, ← start, stored.header.index shaped.aligned]

/-- Putting `b` on its list writes links only. -/
theorem Open.insert_keeps (o : Open h pre lo hi post lists) (start : b.addr = lo)
    (shaped : b.Shaped) (stored : Stored h.mem b) (unused : b.allocated = 0) {a : Nat}
    (off : OffLinks (pre ++ [b] ++ post) a) : (insertSegFreeList h lo).mem a = h.mem a := by
  obtain ⟨low, high⟩ := listIndex_bounds b.size
  have clear := (off (listIndex b.size)).of_perm (push_perm o.free unused _)
  rw [push, Function.update_self, start] at clear
  rw [Open.insert_index start shaped stored]
  exact o.freeLists.insert_keeps low high clear

/-- A free block at the lower end gets onto its list. -/
theorem Open.insert (o : Open h pre lo hi post lists) (start : b.addr = lo)
    (fits : lo + b.size ≤ hi) (shaped : b.Shaped) (stored : Stored h.mem b)
    (unused : b.allocated = 0) :
    Open (insertSegFreeList h lo) (pre ++ [b]) (lo + b.size) hi post
      (push lists (listIndex b.size) lo) := by
  obtain ⟨low, high⟩ := listIndex_bounds b.size
  have all := o.fill_shaped shaped
  have free := push_perm o.free unused
  rw [start] at free
  have clear (n : Int) (x : Nat) (mem : x ∈ lists n) : x + 32 ≤ lo ∨ lo + 32 ≤ x := by
    obtain ⟨c, hc, -, -, rfl⟩ := mem_freeOf.mp ((o.free n).mem_iff.mp mem)
    have := (o.shaped c hc).least
    have := shaped.least
    have := o.outside hc
    omega
  constructor
  · rw [startOfHeap_of_rest insertSegFreeList_rest]
    exact o.before.snoc start rfl
  · exact fits
  · rw [endOfHeap_of_rest insertSegFreeList_rest]
    exact o.after
  · exact all
  · intro c mem
    have old : Stored h.mem c := by
      obtain rfl | mem := mem_fill.mp mem
      · exact stored
      · exact o.stored c mem
    have tags := tags_offLinks (o.fill_spread start fits) all mem
    apply old.congr
    · exact o.insert_keeps start shaped stored unused tags.1
    · exact o.insert_keeps start shaped stored unused tags.2
  · have real : lo ≠ 0 := by
      have := shaped.real
      omega
    rw [Open.insert_index start shaped stored]
    exact (o.freeLists.insert low high real clear).linked
  · exact free

/-! ## Taking blocks into the window -/

/-- An allocated block above the window is given up. -/
theorem Open.forget (o : Open h pre lo hi (b :: post) lists) (used : b.allocated = 1) :
    Open h pre lo (hi + b.size) post lists where
  before := o.before
  gap := Nat.le_add_right_of_le o.gap
  after := o.after.2
  shaped c mem := o.shaped c (by simp at mem ⊢; tauto)
  stored c mem := o.stored c (by simp at mem ⊢; tauto)
  linked := o.linked
  free n := by
    have free := o.free n
    rw [freeOf_middle, freeOf_allocated n used, List.nil_append] at free
    rw [freeOf_append]
    exact free

theorem drop_perm (free : ∀ n, (lists n).Perm (freeOf n (pre ++ b :: post)))
    (unused : b.allocated = 0) (n : Int) :
    (drop lists (listIndex b.size) b.addr n).Perm (freeOf n (pre ++ post)) := by
  have free := free n
  rw [freeOf_middle, freeOf_free unused] at free
  rw [freeOf_append]
  by_cases same : n = listIndex b.size
  · subst n
    rw [if_pos rfl, List.singleton_append] at free
    rw [drop, Function.update_self]
    have := (free.trans List.perm_middle).erase b.addr
    rwa [List.erase_cons_head] at this
  · rw [if_neg (Ne.symm same), List.nil_append] at free
    rw [drop, Function.update_of_ne same]
    exact free

/-- The nodes of the lists, other than `b`, lie outside the window that is left. -/
theorem Open.node_outside (o : Open h pre lo hi (b :: post) lists) {n : Int} {x : Nat}
    (mem : x ∈ lists n) : x = b.addr ∨ x + 32 ≤ lo ∨ hi + b.size ≤ x := by
  obtain ⟨c, hc, -, -, rfl⟩ := mem_freeOf.mp ((o.free n).mem_iff.mp mem)
  have := (o.shaped c hc).least
  obtain before | same | after : c ∈ pre ∨ c = b ∨ c ∈ post := by simpa using hc
  · have := o.before.within before
    omega
  · exact Or.inl (congrArg Block.addr same)
  · have := o.after.2.within after
    omega

theorem Open.listed (o : Open h pre lo hi (b :: post) lists) (unused : b.allocated = 0) :
    b.addr ∈ lists (listIndex b.size) := by
  apply (o.free _).mem_iff.mpr
  exact mem_freeOf.mpr ⟨b, by simp, unused, rfl, rfl⟩

/-- `h'` differs from `h` in the window and in the words of `b` other than its links. -/
structure Rewritten (h h' : Heap) (b : Block) (lo hi : Nat) : Prop where
  rest : h'.rest = h.rest
  heads : h'.head = h.head
  agree : ∀ a, a < lo ∨ hi + b.size ≤ a ∨ a = b.addr + 8 ∨ a = b.addr + 16 → h'.mem a = h.mem a
  index : listIndex (blockBytes (h'.mem b.addr)) = listIndex b.size

theorem Open.rewritten_lists (o : Open h pre lo hi (b :: post) lists)
    (r : Rewritten h h' b lo hi) : FreeLists h' lists := by
  apply o.freeLists.congr r.heads
  intro n x mem
  obtain same | outside := o.node_outside mem
  · constructor
    · exact r.agree _ (by omega)
    · exact r.agree _ (by omega)
  · constructor
    · exact r.agree _ (by omega)
    · exact r.agree _ (by omega)

/-- Taking `b` off its list writes links only. -/
theorem Open.remove_keeps (o : Open h pre lo hi (b :: post) lists) (unused : b.allocated = 0)
    (r : Rewritten h h' b lo hi) {a : Nat} (off : OffLinks (pre ++ b :: post) a) :
    (removeSegFreeList h' b.addr).mem a = h'.mem a := by
  obtain ⟨low, high⟩ := listIndex_bounds b.size
  rw [removeSegFreeList, r.index]
  exact (o.rewritten_lists r).remove_keeps low high (o.listed unused) ((off _).of_perm (o.free _))

/-- The words of the window, and those of `b` but for its links, are no links. -/
theorem Open.inside_offLinks (o : Open h pre lo hi (b :: post) lists) {a : Nat}
    (inside : lo ≤ a ∧ a < hi + b.size) (next : a ≠ b.addr + 8) (prev : a ≠ b.addr + 16) :
    OffLinks (pre ++ b :: post) a := by
  intro n x mem
  obtain rfl | before | after := o.node_outside ((o.free n).mem_iff.mpr mem)
  · exact ⟨next, prev⟩
  · omega
  · omega

/-- A free block above the window is taken off its list. -/
theorem Open.remove (o : Open h pre lo hi (b :: post) lists) (unused : b.allocated = 0)
    (r : Rewritten h h' b lo hi) : Open (removeSegFreeList h' b.addr) pre lo (hi + b.size) post
      (drop lists (listIndex b.size) b.addr) := by
  obtain ⟨low, high⟩ := listIndex_bounds b.size
  have rest : (removeSegFreeList h' b.addr).rest = h.rest :=
    removeSegFreeList_rest.trans r.rest
  constructor
  · rw [startOfHeap_of_rest rest]
    exact o.before
  · exact Nat.le_add_right_of_le o.gap
  · rw [endOfHeap_of_rest rest]
    exact o.after.2
  · intro c mem
    exact o.shaped c (by simp at mem ⊢; tauto)
  · intro c mem
    have whole : c ∈ pre ++ b :: post := by simp at mem ⊢; tauto
    have := (o.shaped c whole).least
    have outside : c.addr + c.size ≤ lo ∨ hi + b.size ≤ c.addr := by
      obtain mem | mem := List.mem_append.mp mem
      · exact Or.inl (o.before.within mem).2
      · exact Or.inr (o.after.2.within mem).1
    have tags := tags_offLinks o.spread o.shaped whole
    apply (o.stored c whole).congr
    · rw [o.remove_keeps unused r tags.1]
      exact r.agree _ (by omega)
    · rw [o.remove_keeps unused r tags.2]
      exact r.agree _ (by unfold Block.footer; omega)
  · rw [removeSegFreeList, r.index]
    exact ((o.rewritten_lists r).remove low high (o.listed unused)).linked
  · exact drop_perm o.free unused

/-- Nothing was written before. -/
theorem Open.unwritten (o : Open h pre lo hi (b :: post) lists) : Rewritten h h b lo hi where
  rest := rfl
  heads := rfl
  agree _ _ := rfl
  index := (o.stored b (by simp)).header.index (o.shaped b (by simp)).aligned

/-! ## Blocks that are left alone -/

/-- The words of `c` are not changed. -/
def Untouched (h h' : Heap) (c : Block) : Prop :=
  ∀ a, c.addr ≤ a → a < c.addr + c.size → h'.mem a = h.mem a

theorem Untouched.refl (h : Heap) (c : Block) : Untouched h h c := fun _ _ _ => rfl

theorem Untouched.trans {h'' : Heap} (first : Untouched h h' c) (second : Untouched h' h'' c) :
    Untouched h h'' c := by
  intro a low high
  rw [second a low high, first a low high]

theorem Open.untouched (o : Open h pre lo hi post lists) (mem : c ∈ pre ++ post)
    (agree : ∀ a, a < lo ∨ hi ≤ a → h'.mem a = h.mem a) : Untouched h h' c := by
  intro a low high
  have := o.outside mem
  apply agree
  omega

theorem Open.insert_untouched (o : Open h pre lo hi post lists) (start : b.addr = lo)
    (fits : lo + b.size ≤ hi) (shaped : b.Shaped) (stored : Stored h.mem b)
    (unused : b.allocated = 0) (mem : c ∈ used (pre ++ post)) :
    Untouched h (insertSegFreeList h lo) c := by
  intro a low high
  obtain ⟨mem, taken⟩ := mem_used.mp mem
  have whole : c ∈ used (pre ++ [b] ++ post) := mem_used.mpr ⟨mem_fill.mpr (Or.inr mem), taken⟩
  apply o.insert_keeps start shaped stored unused
  exact used_offLinks (o.fill_spread start fits) (o.fill_shaped shaped) whole low high

theorem Open.remove_untouched (o : Open h pre lo hi (b :: post) lists) (unused : b.allocated = 0)
    (r : Rewritten h h' b lo hi) (mem : c ∈ used (pre ++ b :: post)) :
    Untouched h' (removeSegFreeList h' b.addr) c := by
  intro a low high
  exact o.remove_keeps unused r (used_offLinks o.spread o.shaped mem low high)

/-! ## Writing whole blocks -/

theorem Open.writeBlock (o : Open h pre lo hi post lists) (ptr size requested alloc pad : Nat)
    (low : lo ≤ ptr) (least : 32 ≤ size) (high : ptr + size ≤ hi) :
    Open (writeBlock h ptr size requested alloc pad) pre lo hi post lists := by
  apply o.congr (writeBlock_rest ..) (writeBlock_head ..)
  intro a outside
  apply writeBlock_mem
  · omega
  · omega

/-- Cutting an allocated block off the window. -/
theorem Open.writeAllocated (o : Open h pre lo hi post lists) {size requested pad : Nat}
    (shaped : Block.Shaped ⟨lo, size, 1, pad, requested⟩) (fits : lo + size ≤ hi)
    (limit : size < 2 ^ 32) (bit : pad < 2) (small : requested < 2 ^ 32) :
    Open (Allocator.writeBlock h lo size requested 1 pad) (pre ++ [⟨lo, size, 1, pad, requested⟩])
      (lo + size) hi post lists := by
  have stored := stored_writeBlock h (b := ⟨lo, size, 1, pad, requested⟩) shaped.least limit
    Nat.one_lt_two bit small
  have written := o.writeBlock lo size requested 1 pad (Nat.le_refl _) shaped.least fits
  exact written.take rfl fits shaped stored rfl

/-- Cutting a free block off the window. -/
theorem Open.writeFree (o : Open h pre lo hi post lists) {size : Nat}
    (shaped : Block.Shaped ⟨lo, size, 0, 0, 0⟩) (fits : lo + size ≤ hi) (limit : size < 2 ^ 32) :
    Open (insertSegFreeList (Allocator.writeBlock h lo size 0 0 0) lo)
      (pre ++ [⟨lo, size, 0, 0, 0⟩]) (lo + size) hi post (push lists (listIndex size) lo) := by
  have stored := stored_writeBlock h (b := ⟨lo, size, 0, 0, 0⟩) shaped.least limit Nat.two_pos
    Nat.two_pos (Nat.two_pow_pos 32)
  have written := o.writeBlock lo size 0 0 0 (Nat.le_refl _) shaped.least fits
  exact written.insert rfl fits shaped stored rfl

end LinuxSystem.Allocator
