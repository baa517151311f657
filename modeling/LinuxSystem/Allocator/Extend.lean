import LinuxSystem.Allocator.Free

/-!
# Extending the heap

A page that `sf_sbrk` grants becomes a free block, merged with the last block of
the heap if that is free.
-/

namespace LinuxSystem.Allocator

open Tiling

variable {env : Sbrk} {h h' : Heap} {pre post blocks : List Block} {lists : Int → List Nat}
  {b c : Block}

/-- The bounds of the heap follow the pages of `sf_sbrk`. -/
inductive Grown (env : Sbrk) (h : Heap) : Prop where
  | empty (start : h.startOfHeap = 0) (stop : h.endOfHeap = 0) (pages : h.pages = 0)
      (calls : h.calls = 0)
  | pages (start : h.startOfHeap = env.base) (stop : h.endOfHeap = env.base + 4096 * h.pages)
      (some : 1 ≤ h.pages)

/-- The size of the last block if it is free. -/
def lastFree (blocks : List Block) : Nat :=
  match blocks.getLast? with
  | some b => if b.allocated = 0 then b.size else 0
  | none => 0

@[simp] theorem lastFree_append_singleton :
    lastFree (blocks ++ [b]) = if b.allocated = 0 then b.size else 0 := by
  simp [lastFree]

/-! ## Coalescing with the block below -/

theorem LaidOut.prev_header (l : LaidOut h (pre ++ b :: c :: post) lists)
    (small : b.size < 2 ^ 31) : bytesBelow c.addr (h.mem (c.addr - 8)) = b.addr := by
  have mem : b ∈ pre ++ b :: c :: post := by simp
  have next : c.addr = b.addr + b.size := l.at.after.2.1
  have footer : c.addr - 8 = b.footer := by rw [next, Block.footer]
  rw [footer, bytesBelow_eq (l.stored b mem).footer.size (l.shaped b mem).aligned small, next]
  omega

theorem coalesceLower_none (l : LaidOut h (pre ++ b :: c :: post) lists)
    (small : b.size < 2 ^ 31) (taken : b.allocated = 1) :
    coalescingWithLowerAddress h c.addr = h := by
  unfold coalescingWithLowerAddress
  simp only [l.prev_header small]
  apply if_pos
  rw [(l.stored b (by simp)).header.allocated, taken]
  decide

theorem coalesceLower_step (l : LaidOut h (pre ++ b :: c :: post) lists)
    (small : b.size < 2 ^ 31) (unused : b.allocated = 0) :
    coalescingWithLowerAddress h c.addr = insertSegFreeList
      (coalescingWithHigherAddress (removeSegFreeList h b.addr) b.addr) b.addr := by
  unfold coalescingWithLowerAddress
  simp only [l.prev_header small]
  apply if_neg
  rw [(l.stored b (by simp)).header.allocated, unused]
  decide

/-- Two free blocks side by side become one. -/
theorem coalesceLower_merge (l : LaidOut h (pre ++ b :: c :: post) lists)
    (small : b.size < 2 ^ 31) (small' : c.size < 2 ^ 31) (unused : b.allocated = 0)
    (unused' : c.allocated = 0) :
    (∃ lists', LaidOut (coalescingWithLowerAddress h c.addr)
      (pre ++ freeBlock b.addr (b.size + c.size) :: post) lists') ∧
      ∀ d ∈ used (pre ++ post), Untouched h (coalescingWithLowerAddress h c.addr) d := by
  have o := l.at
  have mem : b ∈ pre ++ b :: c :: post := by simp
  have shaped := l.shaped b mem
  have shaped' := l.shaped c (by simp)
  have least := shaped.least
  have aligned := shaped.aligned
  have aligned' := shaped'.aligned
  have removed := o.remove unused o.unwritten
  have window : b.addr + b.size - b.addr = b.size := by omega
  have tagged : blockBytes ((removeSegFreeList h b.addr).mem b.addr) =
      b.addr + b.size - b.addr := by
    have off := o.inside_offLinks (a := b.addr) (by omega) (by omega) (by omega)
    rw [o.remove_keeps unused o.unwritten off, window]
    exact (l.stored b mem).header.bytes aligned small
  obtain ⟨merged, stored, keeps⟩ :=
    coalesceHigher_merge removed tagged unused' (by omega) small' (by omega)
  rw [window] at stored
  have whole : (freeBlock b.addr (b.size + c.size)).Shaped :=
    shaped_freeBlock shaped.real (by omega) (by omega)
  have fits : b.addr + (b.size + c.size) = b.addr + b.size + c.size := by omega
  have room := Nat.le_of_eq fits
  rw [coalesceLower_step l small unused]
  constructor
  · have inserted := merged.insert (b := freeBlock b.addr (b.size + c.size)) rfl room whole stored rfl
    simp only [freeBlock, fits] at inserted
    have closed := inserted.close
    rw [List.append_assoc, List.singleton_append] at closed
    exact ⟨_, closed⟩
  · intro d mem
    obtain ⟨hd, taken⟩ := mem_used.mp mem
    have inOld : d ∈ used (pre ++ b :: c :: post) := by
      simp only [mem_used, List.mem_append, List.mem_cons] at mem ⊢
      tauto
    have inRemoved : d ∈ used (pre ++ c :: post) := by
      simp only [mem_used, List.mem_append, List.mem_cons] at mem ⊢
      tauto
    have first := o.remove_untouched unused o.unwritten inOld
    have second : Untouched (removeSegFreeList h b.addr)
        (coalescingWithHigherAddress (removeSegFreeList h b.addr) b.addr) d := by
      intro a low high
      have outside := merged.outside hd
      apply keeps a
      · omega
      · unfold Block.footer
        have := l.at.after.2.1
        omega
      · exact used_offLinks removed.spread removed.shaped inRemoved low high
    have third := merged.insert_untouched (b := freeBlock b.addr (b.size + c.size)) rfl room whole
      stored rfl mem
    exact (first.trans second).trans third

@[simp] theorem coalescingWithLowerAddress_rest {ptr : Nat} :
    (coalescingWithLowerAddress h ptr).rest = h.rest := by
  unfold coalescingWithLowerAddress
  dsimp only
  split
  · rfl
  · simp

/-! ## A new page -/

/-- The heap once `sf_sbrk` has granted a page, before the page is written. -/
def granted (env : Sbrk) (h : Heap) : Heap :=
  updateBounds env { h with pages := h.pages + 1, calls := h.calls + 1 }

theorem granted_endOfHeap : (granted env h).endOfHeap = env.base + 4096 * (h.pages + 1) := rfl

theorem sfSbrk_granted (grants : env.grants h.calls = true) :
    sfSbrk env h = ({ h with pages := h.pages + 1, calls := h.calls + 1 }, true) := by
  rw [sfSbrk, if_pos grants]

/-- What an extension by a page does to the blocks. -/
structure Extended (env : Sbrk) (h h' : Heap) (blocks blocks' : List Block) : Prop where
  rest : h'.rest = (granted env h).rest
  used : used blocks' = used blocks
  last : lastFree blocks' = lastFree blocks + 4096
  free : ∀ c ∈ blocks', c.allocated = 0 → c ∈ blocks ∨ c.size = lastFree blocks + 4096
  untouched : ∀ c ∈ Allocator.used blocks, Untouched h h' c

theorem grown_of_rest (rest : h'.rest = (granted env h).rest) : Grown env h' := by
  apply Grown.pages
  · exact startOfHeap_of_rest rest
  · rw [endOfHeap_of_rest rest, pages_of_rest rest]
    rfl
  · rw [pages_of_rest rest]
    exact Nat.le_add_left 1 _

theorem Extended.grown (e : Extended env h h' pre post) : Grown env h' := grown_of_rest e.rest

/-- The granted page is a window at the end of the heap. -/
theorem LaidOut.addPage (l : LaidOut h blocks lists) {stop : Nat} (mem : h'.mem = h.mem)
    (head : h'.head = h.head) (tiles : Tiles Block.addr Block.size h'.startOfHeap blocks stop)
    (page : h'.endOfHeap = stop + 4096) : Open h' blocks stop (stop + 4096) [] lists where
  before := tiles
  gap := Nat.le_add_right _ _
  after := page.symm
  shaped b mem := l.shaped b (by simpa using mem)
  stored b hb := mem ▸ l.stored b (by simpa using hb)
  linked n low high := by
    apply linked_congr (l.linked n low high)
    · rw [head]
    · intro x _
      rw [mem]
      exact ⟨rfl, rfl⟩
  free n := by
    rw [List.append_nil]
    exact l.free n

/-- The page is written as a free block. -/
theorem Open.writePage {stop : Nat} (o : Open h blocks stop (stop + 4096) [] lists)
    (real : 0 < stop) :
    (∃ lists', LaidOut (insertSegFreeList (Allocator.writeBlock h stop 4096 0 0 0) stop)
      (blocks ++ [freeBlock stop 4096]) lists') ∧
      ∀ c ∈ used blocks, Untouched h
        (insertSegFreeList (Allocator.writeBlock h stop 4096 0 0 0) stop) c := by
  have shaped : (freeBlock stop 4096).Shaped := shaped_freeBlock real (by decide) (by decide)
  have stored : Stored (Allocator.writeBlock h stop 4096 0 0 0).mem (freeBlock stop 4096) :=
    stored_freeBlock h (by decide) (by decide)
  have written := o.writeBlock stop 4096 0 0 0 (Nat.le_refl _) (by decide) (Nat.le_refl _)
  constructor
  · have closed := (written.insert rfl (Nat.le_refl _) shaped stored rfl).close
    rw [List.append_nil] at closed
    exact ⟨_, closed⟩
  · intro c mem
    rw [← List.append_nil blocks] at mem
    have first : Untouched h (Allocator.writeBlock h stop 4096 0 0 0) c := by
      apply o.untouched (mem_used.mp mem).1
      intro a outside
      apply writeBlock_mem
      · omega
      · omega
    exact first.trans (written.insert_untouched rfl (Nat.le_refl _) shaped stored rfl mem)

theorem LaidOut.nil_of_empty (l : LaidOut h blocks lists) (start : h.startOfHeap = 0) :
    blocks = [] := by
  cases blocks with
  | nil => rfl
  | cons b blocks =>
    have real := (l.shaped b (by simp)).real
    have first := l.tiles.1
    omega

/-- The last block of a heap that has pages. -/
theorem LaidOut.exists_last (l : LaidOut h blocks lists) (some : h.startOfHeap < h.endOfHeap) :
    ∃ pre b, blocks = pre ++ [b] := by
  obtain rfl | last := List.eq_nil_or_concat' blocks
  · have : h.startOfHeap = h.endOfHeap := l.tiles
    omega
  · exact last

/-- The last block has less than 2 GiB. -/
def SmallLast (blocks : List Block) : Prop := ∀ b ∈ blocks.getLast?, b.size < 2 ^ 31

/-- The first page. -/
theorem extendHeap_first (l : LaidOut h blocks lists) (start : h.startOfHeap = 0)
    (pages : h.pages = 0) (calls : h.calls = 0) : (extendHeap env h).2 ≠ 0 ∧
      ∃ blocks' lists', LaidOut (extendHeap env h).1 blocks' lists' ∧
        Extended env h (extendHeap env h).1 blocks blocks' := by
  have result : extendHeap env h =
      (insertSegFreeList (writeBlock (granted env h) env.base 4096 0 0 0) env.base, env.base) := by
    have grants : env.grants h.calls = true := calls ▸ env.first
    unfold extendHeap
    rw [if_pos start, sfSbrk_granted grants]
    rfl
  rw [result]
  obtain rfl := l.nil_of_empty start
  have stop : (granted env h).endOfHeap = env.base + 4096 := by
    rw [granted_endOfHeap, pages]
  have tiles : Tiles Block.addr Block.size env.base [] env.base := rfl
  have o : Open (granted env h) [] env.base (env.base + 4096) [] lists :=
    l.addPage rfl rfl tiles stop
  obtain ⟨⟨lists', page⟩, untouched⟩ := o.writePage env.positive
  refine ⟨env.positive.ne', _, lists', page, ?_⟩
  constructor
  · simp
  · exact used_cons_of_free rfl []
  · rfl
  · intro c mem _
    right
    simp only [List.nil_append, List.mem_singleton] at mem
    simp [mem, freeBlock, lastFree]
  · exact untouched

/-- A later page, for a heap whose last block is `b`. -/
theorem extendHeap_later (l : LaidOut h (pre ++ [b]) lists) (small : b.size < 2 ^ 31)
    (start : h.startOfHeap = env.base) (stop : h.endOfHeap = env.base + 4096 * h.pages)
    (grants : env.grants h.calls = true) : (extendHeap env h).2 ≠ 0 ∧
      ∃ blocks' lists', LaidOut (extendHeap env h).1 blocks' lists' ∧
        Extended env h (extendHeap env h).1 (pre ++ [b]) blocks' := by
  have real := env.positive
  let paged := insertSegFreeList (writeBlock (granted env h) h.endOfHeap 4096 0 0 0) h.endOfHeap
  have result : extendHeap env h =
      (coalescingWithLowerAddress paged h.endOfHeap, h.endOfHeap) := by
    unfold extendHeap
    rw [if_neg (by omega), sfSbrk_granted grants, getHeapEnd, ← stop]
    rfl
  rw [result]
  have tiles := l.tiles
  rw [start] at tiles
  have page : (granted env h).endOfHeap = h.endOfHeap + 4096 := by
    rw [granted_endOfHeap, stop]
    omega
  have o : Open (granted env h) (pre ++ [b]) h.endOfHeap (h.endOfHeap + 4096) [] lists :=
    l.addPage rfl rfl tiles page
  obtain ⟨⟨lists', page⟩, untouched⟩ := o.writePage (by omega)
  have rest : paged.rest = (granted env h).rest := by simp [paged]
  rw [List.append_assoc, List.singleton_append] at page
  have restLower : (coalescingWithLowerAddress paged h.endOfHeap).rest = (granted env h).rest := by
    rw [coalescingWithLowerAddress_rest, rest]
  refine ⟨by simp only; omega, ?_⟩
  obtain unused | taken := (l.stored b (by simp)).allocated_or
  · obtain ⟨⟨lists'', merged⟩, kept⟩ :=
      coalesceLower_merge page small (by simp [freeBlock]) unused rfl
    refine ⟨_, lists'', merged, restLower, ?_, ?_, ?_, ?_⟩
    · simp [used, freeBlock, unused]
    · simp [unused, freeBlock]
    · intro c mem _
      obtain mem | same := List.mem_append.mp mem
      · exact Or.inl (List.mem_append_left _ mem)
      · obtain rfl := List.mem_singleton.mp same
        right
        simp [unused, freeBlock]
    · intro c mem
      have left : c ∈ used (pre ++ []) := by
        rwa [used_append, used_cons_of_free unused, ← used_append] at mem
      exact Untouched.trans (untouched c mem) (kept c left)
  · have same : coalescingWithLowerAddress paged h.endOfHeap = paged :=
      coalesceLower_none page small taken
    rw [same] at restLower ⊢
    have split : pre ++ [b, freeBlock h.endOfHeap 4096] =
        pre ++ [b] ++ [freeBlock h.endOfHeap 4096] := by simp
    rw [split] at page
    refine ⟨_, lists', page, restLower, ?_, ?_, ?_, untouched⟩
    · rw [used_append _ [_], used_cons_of_free rfl]
      exact List.append_nil _
    · rw [lastFree_append_singleton, lastFree_append_singleton]
      simp [taken, freeBlock]
    · intro c mem _
      obtain mem | same := List.mem_append.mp mem
      · exact Or.inl mem
      · obtain rfl := List.mem_singleton.mp same
        right
        simp [taken, freeBlock]

/-- `extend_heap` returns NULL only if `sf_sbrk` fails. -/
theorem extendHeap_granted (l : LaidOut h blocks lists) (grown : Grown env h)
    (small : SmallLast blocks) (grants : env.grants h.calls = true) :
    (extendHeap env h).2 ≠ 0 ∧ ∃ blocks' lists', LaidOut (extendHeap env h).1 blocks' lists' ∧
      Extended env h (extendHeap env h).1 blocks blocks' := by
  cases grown with
  | empty start stop pages calls => exact extendHeap_first l start pages calls
  | pages start stop some =>
    obtain ⟨pre, b, rfl⟩ := l.exists_last (by omega)
    exact extendHeap_later l (small b (by simp)) start stop grants

/-- A failed extension only counts the call and sets `sf_errno`. -/
theorem extendHeap_refused (grown : Grown env h) (refused : env.grants h.calls = false) :
    extendHeap env h = ({ h with calls := h.calls + 1, errno := some .ENOMEM }, 0) := by
  cases grown with
  | empty start stop pages calls =>
    rw [calls, env.first] at refused
    exact absurd refused (by decide)
  | pages start stop some =>
    have := env.positive
    unfold extendHeap
    rw [if_neg (by omega), sfSbrk, if_neg (by simp [refused])]

end LinuxSystem.Allocator
