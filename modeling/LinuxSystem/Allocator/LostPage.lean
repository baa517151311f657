import LinuxSystem.Allocator.MallocLoop
import LinuxSystem.Allocator.Release
import LinuxSystem.Allocator.Search

/-!
# A page that is lost

When the last block is allocated and has 2 GiB or more, its size is read as a
negative one and the header of the block below a new page is looked for above the
heap. If the words there are 0, they are taken for a free block, and the last list
is lost with the page on it.
-/

namespace LinuxSystem.Allocator

open Linked Tiling

variable {env : Sbrk} {h h' : Heap} {pre blocks : List Block} {lists : Int → List Nat}
  {b : Block} {stop w v size : Nat}

/-- The words that an empty block at `w`, above the old end `stop` of the heap, takes
with it: `h'` differs from `h` there, on the page, in the last list, and in the first
link back of that list. `v` is what `w` is linked to, if it is linked at all. -/
structure Lost (h h' : Heap) (stop w v : Nat) : Prop where
  heads : ∀ n, n ≠ 3 → h'.head n = h.head n
  header : h'.mem w = 0
  next : h'.mem (w + 8) = v
  prev : h'.mem (w + 16) = 0
  low : ∀ a, a < stop → (h.head 3 = 0 ∨ a ≠ h.head 3 + 16) → h'.mem a = h.mem a
  far : ∀ a, stop + 2 ^ 32 ≤ a → a ≠ v + 16 → h'.mem a = h.mem a

/-- `w` lies above the old end, and `v` is NULL or far away. -/
structure Above (stop w v : Nat) : Prop where
  low : stop + 16 ≤ w
  high : w ≤ stop + 2 ^ 31
  far : v = 0 ∨ stop + 2 ^ 32 ≤ v

theorem blockBytes_zero : blockBytes 0 = 0 := by decide +kernel

theorem listIndex_zero : listIndex 0 = 3 := by decide

theorem Lost.remove (lost : Lost h h' stop w v) (above : Above stop w v) :
    Lost h (removeSegFreeList h' w) stop w v ∧ (removeSegFreeList h' w).head 3 = v := by
  obtain ⟨low, high, far⟩ := above
  have prev : h'.prev w = 0 := lost.prev
  have next : h'.next w = v := lost.next
  have mem (a : Nat) : (removeSegFreeListHelper h' w 3).mem a =
      if v ≠ 0 ∧ a = v + 16 then 0 else h'.mem a := by
    rw [removeHelper_mem (Or.inl prev) (by rw [next]; omega), next, prev]
    simp
  rw [removeSegFreeList, lost.header, blockBytes_zero, listIndex_zero]
  have head := removeHelper_head (h := h') (p := w) (n := 3)
  rw [if_pos prev, next] at head
  constructor
  · constructor
    · intro n other
      rw [head, Function.update_of_ne other, lost.heads n other]
    · rw [mem, if_neg (by omega), lost.header]
    · rw [mem, if_neg (by omega), lost.next]
    · rw [mem, if_neg (by omega), lost.prev]
    · intro a below other
      rw [mem, if_neg (by omega), lost.low a below other]
    · intro a beyond other
      rw [mem, if_neg (by omega), lost.far a beyond other]
  · rw [head, Function.update_self]

theorem Lost.coalesce (lost : Lost h h' stop w v) (above : Above stop w v)
    (head : h'.head 3 = v) : Lost h (coalescingWithHigherAddress h' w) stop w v ∧
      (coalescingWithHigherAddress h' w).head 3 = v := by
  unfold coalescingWithHigherAddress
  simp only [lost.header, blockBytes_zero, Nat.add_zero]
  split
  · exact ⟨lost, head⟩
  · -- the empty block is its own neighbour, and is written over itself
    obtain ⟨again, head⟩ := lost.remove above
    obtain ⟨low, high, far⟩ := above
    rw [again.header, blockBytes_zero]
    have mem {a : Nat} (header : a ≠ w) (footer : a ≠ w - 8) :
        (writeBlock (removeSegFreeList h' w) w 0 0 0 0).mem a =
          (removeSegFreeList h' w).mem a :=
      writeBlock_mem _ _ _ _ _ _ header (by omega)
    refine ⟨⟨again.heads, ?_, ?_, ?_, ?_, ?_⟩, head⟩
    · have own : w ≠ w - 8 := by omega
      have zero : setFields 0 0 0 0 = 0 := by decide +kernel
      simp [writeBlock, Heap.write, own, again.header, zero]
    · rw [mem (by omega) (by omega), again.next]
    · rw [mem (by omega) (by omega), again.prev]
    · intro a below other
      rw [mem (by omega) (by omega), again.low a below other]
    · intro a beyond other
      rw [mem (by omega) (by omega), again.far a beyond other]

theorem Lost.insert (lost : Lost h h' stop w v) (above : Above stop w v)
    (head : h'.head 3 = v) : Lost h (insertSegFreeList h' w) stop w v ∧
      (insertSegFreeList h' w).head 3 = w := by
  obtain ⟨low, high, far⟩ := above
  have mem (a : Nat) := insertHelper_mem (h := h') (p := w) (n := 3) a
  rw [head] at mem
  rw [insertSegFreeList, lost.header, blockBytes_zero, listIndex_zero]
  have first := insertHelper_head (h := h') (p := w) (n := 3)
  constructor
  · constructor
    · intro n other
      rw [first, Function.update_of_ne other, lost.heads n other]
    · rw [mem, if_neg (by omega), if_neg (by omega), if_neg (by omega), lost.header]
    · rw [mem, if_neg (by omega), if_neg (by omega), if_pos rfl]
    · rw [mem, if_neg (by omega), if_pos rfl]
    · intro a below other
      rw [mem, if_neg (by omega), if_neg (by omega), if_neg (by omega), lost.low a below other]
    · intro a beyond other
      rw [mem, if_neg (by omega), if_neg (by omega), if_neg (by omega), lost.far a beyond other]
  · rw [first, Function.update_self]

/-- The head of a list is NULL or a block below the end. -/
theorem LaidOut.head_below (l : LaidOut h blocks lists) (n : Int) (low : 0 ≤ n) (high : n < 4) :
    h.head n = 0 ∨ h.head n + 32 ≤ h.endOfHeap := by
  rw [or_iff_not_imp_left]
  intro real
  obtain ⟨c, mem, -, -, start⟩ := l.head_block low high real
  have within := l.tiles.within mem
  have least := (l.shaped c mem).least
  omega

/-- The page is written and gets onto the last list. -/
theorem lost_page (l : LaidOut h blocks lists) (aligned : (w - h.endOfHeap) % 16 = 0)
    (above : Above h.endOfHeap w v) (odd : w ≠ h.endOfHeap + 4080) (header : h.mem w = 0)
    (next : h.mem (w + 8) = v) (prev : h.mem (w + 16) = 0) (same : h'.mem = h.mem)
    (heads : h'.head = h.head) :
    Lost h (insertSegFreeList (writeBlock h' h.endOfHeap 4096 0 0 0) h.endOfHeap) h.endOfHeap
      w v := by
  obtain ⟨low, high, far⟩ := above
  have first := l.head_below 3 (by decide) (by decide)
  have bytes : blockBytes ((writeBlock h' h.endOfHeap 4096 0 0 0).mem h.endOfHeap) = 4096 :=
    (stored_freeBlock h' (by decide) (by decide)).header.bytes (by simp [freeBlock])
      (by simp [freeBlock])
  have index : listIndex 4096 = 3 := by decide
  rw [insertSegFreeList, bytes, index]
  have head := insertHelper_head (h := writeBlock h' h.endOfHeap 4096 0 0 0)
    (p := h.endOfHeap) (n := 3)
  have mem (a : Nat) := insertHelper_mem (h := writeBlock h' h.endOfHeap 4096 0 0 0)
    (p := h.endOfHeap) (n := 3) a
  have written {a : Nat} (header : a ≠ h.endOfHeap) (footer : a ≠ h.endOfHeap + 4088) :
      (writeBlock h' h.endOfHeap 4096 0 0 0).mem a = h.mem a := by
    rw [writeBlock_mem _ _ _ _ _ _ header (by omega), same]
  rw [writeBlock_head, heads] at head mem
  constructor
  · intro n other
    rw [head, Function.update_of_ne other]
  · by_cases link : w = h.endOfHeap + 16
    · rw [mem, if_neg (by omega), if_pos link]
    · rw [mem, if_neg (by omega), if_neg link, if_neg (by omega), written (by omega) (by omega),
        header]
  · rw [mem, if_neg (by omega), if_neg (by omega), if_neg (by omega),
      written (by omega) (by omega), next]
  · rw [mem, if_neg (by omega), if_neg (by omega), if_neg (by omega),
      written (by omega) (by omega), prev]
  · intro a below other
    rw [mem, if_neg (by omega), if_neg (by omega), if_neg (by omega),
      written (by omega) (by omega)]
  · intro a beyond other
    rw [mem, if_neg (by omega), if_neg (by omega), if_neg (by omega),
      written (by omega) (by omega)]

/-! ## The extension -/

/-- Where the code looks for the block below a page behind a block of 2 GiB or more. -/
def farHeader (stop : Nat) (b : Block) : Nat := stop + (2 ^ 32 - b.size)

/-- The words above the heap that make it lose a page behind the large block `b`. -/
structure Wild (h : Heap) (b : Block) (w v : Nat) : Prop where
  start : w = farHeader h.endOfHeap b
  large : 2 ^ 31 ≤ b.size
  odd : b.size ≠ 2 ^ 32 - 4080
  far : v = 0 ∨ h.endOfHeap + 2 ^ 32 ≤ v
  header : h.mem w = 0
  next : h.mem (w + 8) = v
  prev : h.mem (w + 16) = 0

theorem Wild.above (wild : Wild h b w v) (l : LaidOut h blocks lists) (mem : b ∈ blocks) :
    Above h.endOfHeap w v := by
  have aligned := (l.shaped b mem).aligned
  have limit := (l.stored b mem).header.size_lt
  have start := wild.start
  have large := wild.large
  unfold farHeader at start
  exact ⟨by omega, by omega, wild.far⟩

theorem extendHeap_loses (l : LaidOut h (pre ++ [b]) lists) (wild : Wild h b w v)
    (start : h.startOfHeap = env.base) (pages : h.endOfHeap = env.base + 4096 * h.pages)
    (grants : env.grants h.calls = true) : (extendHeap env h).2 ≠ 0 ∧
      (extendHeap env h).1.rest = (granted env h).rest ∧
      Lost h (extendHeap env h).1 h.endOfHeap w v ∧ (extendHeap env h).1.head 3 = w := by
  have mem : b ∈ pre ++ [b] := by simp
  have aligned := (l.shaped b mem).aligned
  have limit := (l.stored b mem).header.size_lt
  have within := l.tiles.within mem
  have real := env.positive
  have above := wild.above l mem
  obtain ⟨place, large, odd, -, header, next, prev⟩ := wild
  let paged := insertSegFreeList (writeBlock (granted env h) h.endOfHeap 4096 0 0 0) h.endOfHeap
  have paged_lost : Lost h paged h.endOfHeap w v := by
    have straight : (w - h.endOfHeap) % 16 = 0 := by
      unfold farHeader at place
      omega
    have other : w ≠ h.endOfHeap + 4080 := by
      unfold farHeader at place
      omega
    exact @lost_page h (granted env h) _ _ _ _ l straight above other header next prev rfl rfl
  have result : extendHeap env h = (coalescingWithLowerAddress paged h.endOfHeap, h.endOfHeap) := by
    unfold extendHeap
    rw [if_neg (by omega), sfSbrk_granted grants, getHeapEnd, ← pages]
    rfl
  -- the footer in front of the page is that of `b`, and no link
  have last : h.endOfHeap - 8 = b.footer := by
    obtain ⟨mid, -, first, stop⟩ := tiles_append.mp l.tiles
    have stop : mid + b.size = h.endOfHeap := stop
    unfold Block.footer
    omega
  have footer : paged.mem (h.endOfHeap - 8) = h.mem (h.endOfHeap - 8) := by
    apply paged_lost.low
    · omega
    · have first := l.head_below 3 (by decide) (by decide)
      omega
  have below : bytesBelow h.endOfHeap (paged.mem (h.endOfHeap - 8)) = w := by
    rw [footer, last, bytesBelow_large (l.stored b mem).footer.size aligned large]
    exact place.symm
  have empty : ¬ allocated (paged.mem w) ≠ 0 := by
    rw [paged_lost.header]
    decide +kernel
  have step : coalescingWithLowerAddress paged h.endOfHeap = insertSegFreeList
      (coalescingWithHigherAddress (removeSegFreeList paged w) w) w := by
    unfold coalescingWithLowerAddress
    simp only [below]
    rw [if_neg empty]
  obtain ⟨removed, head⟩ := paged_lost.remove above
  obtain ⟨merged, head⟩ := removed.coalesce above head
  rw [result, step]
  refine ⟨by simp only; omega, ?_, merged.insert above head⟩
  simp [paged]

/-! ## The search -/

/-- What the last list holds now: `w`, and `v` if that is a block. -/
def wildList (w v : Nat) : List Nat := if v = 0 then [w] else [w, v]

theorem mem_wildList {x : Nat} : x ∈ wildList w v ↔ x = w ∨ v ≠ 0 ∧ x = v := by
  unfold wildList
  split
  · rename_i null
    simp [null]
  · rename_i real
    simp [real]

theorem path_wildList (head : h.head 3 = w) (next : h.next w = v) (last : v ≠ 0 → h.next v = 0)
    (real : w ≠ 0) : Path h 3 (wildList w v) := by
  unfold wildList
  by_cases null : v = 0
  · rw [if_pos null]
    refine ⟨congrArg some head.symm, .cons_cons (next.trans null) (.singleton 0), ?_⟩
    simpa using real.symm
  · rw [if_neg null]
    refine ⟨congrArg some head.symm, .cons_cons next (.cons_cons (last null) (.singleton 0)), ?_⟩
    simpa using ⟨real.symm, Ne.symm null⟩

/-- The nodes of the other lists are untouched. -/
theorem Lost.node (lost : Lost h h' h.endOfHeap w v) (l : LaidOut h blocks lists) {n : Int}
    {x : Nat} (other : n ≠ 3) (node : x ∈ lists n) :
    h'.mem x = h.mem x ∧ h'.next x = h.next x := by
  obtain ⟨b, mem, unused, index, rfl⟩ := l.mem_lists.mp node
  have within := l.tiles.within mem
  have least := (l.shaped b mem).least
  have off : h.head 3 = 0 ∨ h.head 3 + 32 ≤ b.addr ∨ b.addr + 32 ≤ h.head 3 := by
    rw [or_iff_not_imp_left]
    intro real
    obtain ⟨c, hc, -, index', start⟩ := l.head_block (by decide) (by decide) real
    have := (l.shaped c hc).least
    obtain rfl | before | after := l.tiles.spread.apart mem hc
    · exact absurd (index.symm.trans index') other
    · omega
    · omega
  exact ⟨lost.low _ (by omega) (by omega), lost.low _ (by omega) (by omega)⟩

/-- A search for what fits no block of the old heap comes to `v`. -/
theorem Lost.findFit (lost : Lost h h' h.endOfHeap w v) (l : LaidOut h blocks lists)
    (above : Above h.endOfHeap w v) (head : h'.head 3 = w) (large : 16 ≤ size)
    (limit : size ≤ 16384) (unfit : ∀ x, ¬ Fit blocks size x)
    (found : v ≠ 0 → fits h (size + 16) v = true ∧ h.next v = 0) :
    ∃ enough, ∀ fuel, enough ≤ fuel → findFit h' fuel size = .ok v := by
  obtain ⟨low, high, far⟩ := above
  have inside : size < 16 → h.head (-1) = 0 := by omega
  have hit : v ≠ 0 → fits h' (size + 16) v = true ∧ h'.next v = 0 := by
    intro real
    have fit := found real
    unfold fits Heap.next at fit ⊢
    rwa [lost.far v (by omega) (by omega), lost.far (v + 8) (by omega) (by omega)]
  let lists' := Function.update lists 3 (wildList w v)
  have last : lists' 3 = wildList w v := Function.update_self ..
  have others {n : Int} (other : n ≠ 3) : lists' n = lists n := Function.update_of_ne other ..
  have paths : ∀ n ∈ searched (size + 16), Path h' n (lists' n) := by
    intro n mem
    by_cases other : n = 3
    · rw [other, last]
      exact path_wildList head lost.next (fun real => (hit real).2) (by omega)
    · rw [others other]
      have path := l.paths inside n mem
      refine ⟨lost.heads n other ▸ path.start, chain_congr (fun a ha b _ link => ?_) path.steps,
        path.real⟩
      rw [List.dropLast_concat] at ha
      rw [(lost.node l other ha).2, link]
  -- no node but `v` fits
  have only {x : Nat} (mem : x ∈ (searched (size + 16)).flatMap lists')
      (fit : fits h' (size + 16) x = true) : x = v := by
    obtain ⟨n, -, mem⟩ := List.mem_flatMap.mp mem
    by_cases other : n = 3
    · rw [other, last, mem_wildList] at mem
      obtain rfl | ⟨-, same⟩ := mem
      · simp [fits, lost.header, blockBytes_zero] at fit
      · exact same
    · rw [others other] at mem
      rw [fits, (lost.node l other mem).1] at fit
      exact absurd ((l.fit_iff limit mem).mpr fit) (unfit x)
  obtain ⟨enough, result⟩ := findFit_of_paths paths
  refine ⟨enough, fun fuel more => (result fuel more).trans (congrArg Except.ok ?_)⟩
  unfold firstFit
  cases search : ((searched (size + 16)).flatMap lists').find? (fits h' (size + 16)) with
  | some x => exact only (List.mem_of_find?_eq_some search) (List.find?_some search)
  | none =>
    by_contra null
    have real : v ≠ 0 := Ne.symm null
    have read : (3 : Int) ∈ searched (size + 16) := by
      rw [mem_searched]
      unfold firstList
      split_ifs <;> decide
    have mem : v ∈ (searched (size + 16)).flatMap lists' := by
      refine List.mem_flatMap.mpr ⟨3, read, ?_⟩
      rw [last, mem_wildList]
      exact Or.inr ⟨real, rfl⟩
    exact List.find?_eq_none.mp search v mem (hit real).1

/-! ## The loop -/

/-- The heap of `h` among words that are 0, but for a free block at `v` that `w` is
linked to. -/
def Heap.surround (h : Heap) (w v : Nat) : Heap :=
  { h with mem := fun a =>
      if a < h.endOfHeap then h.mem a else if a = w + 8 then v else if a = v then 16416 else 0 }

theorem sameHeap_surround : SameHeap h (h.surround w v) :=
  ⟨rfl, rfl, fun _ _ high => if_pos high⟩

theorem surround_mem {a : Nat} (outside : h.endOfHeap ≤ a) :
    (h.surround w v).mem a = if a = w + 8 then v else if a = v then 16416 else 0 :=
  if_neg (Nat.not_lt.mpr outside)

theorem wild_surround (l : LaidOut h blocks lists) (mem : b ∈ blocks) (large : 2 ^ 31 ≤ b.size)
    (odd : b.size ≠ 2 ^ 32 - 4080) (far : v = 0 ∨ h.endOfHeap + 2 ^ 32 ≤ v)
    (start : w = farHeader h.endOfHeap b) : Wild (h.surround w v) b w v := by
  have limit := (l.stored b mem).header.size_lt
  have low : h.endOfHeap ≤ w := by
    rw [start]
    exact Nat.le_add_right _ _
  have high : w ≤ h.endOfHeap + 2 ^ 31 := by
    unfold farHeader at start
    omega
  have real : 0 < h.endOfHeap := by
    have := (l.shaped b mem).real
    have := (l.tiles.within mem).2
    omega
  refine ⟨start, large, odd, far, ?_, ?_, ?_⟩
  · rw [surround_mem low, if_neg (by omega), if_neg (by omega)]
  · rw [surround_mem (by omega), if_pos rfl]
  · rw [surround_mem (by omega), if_neg (by omega), if_neg (by omega)]

/-- The block at `v` is large enough for any request, and the last of its list. -/
theorem surround_block (above : Above h.endOfHeap w v) (real : v ≠ 0) (limit : size ≤ 16384) :
    fits (h.surround w v) (size + 16) v = true ∧ (h.surround w v).next v = 0 := by
  obtain ⟨low, high, far⟩ := above
  have header : (h.surround w v).mem v = 16416 := by
    rw [surround_mem (by omega), if_neg (by omega), if_pos rfl]
  have next : (h.surround w v).mem (v + 8) = 0 := by
    rw [surround_mem (by omega), if_neg (by omega), if_neg (by omega)]
  refine ⟨?_, next⟩
  have free : allocated 16416 = 0 := by decide +kernel
  have bytes : blockBytes 16416 = 16416 := by decide +kernel
  rw [fits, header, free, bytes]
  exact decide_eq_true ⟨rfl, by omega⟩

/-- Among such words the loop loses the first page it is granted, and comes to `v`. -/
theorem mallocLoop_loses (l : LaidOut h (pre ++ [b]) lists) (start : h.startOfHeap = env.base)
    (pages : h.endOfHeap = env.base + 4096 * h.pages) (grants : env.grants h.calls = true)
    (large : 2 ^ 31 ≤ b.size) (odd : b.size ≠ 2 ^ 32 - 4080)
    (far : v = 0 ∨ h.endOfHeap + 2 ^ 32 ≤ v) (atLeast : 16 ≤ size) (limit : size ≤ 16384)
    (unfit : ∀ x, ¬ Fit (pre ++ [b]) size x) (place : w = farHeader h.endOfHeap b) :
    ∃ h', h'.rest = (granted env h).rest ∧ h'.head 3 = w ∧ h'.mem w = 0 ∧
      ∃ enough, ∀ fuel, enough ≤ fuel → findFit h' fuel size = .ok v ∧
        mallocLoop env size (fuel + 1) (h.surround w v) = mallocLoop env size fuel h' := by
  have wild := wild_surround l (by simp) large odd far place
  have same : SameHeap h (h.surround w v) := sameHeap_surround
  have l' := l.sameHeap same
  have inside : size < 16 → (h.surround w v).head (-1) = 0 := by omega
  have none : firstFit (h.surround w v) lists size = 0 := by
    by_contra some
    obtain ⟨c, mem, unused, start, fit⟩ := l'.firstFit_found limit some
    exact unfit _ ⟨c, mem, start, unused, fit⟩
  have found : v ≠ 0 → fits (h.surround w v) (size + 16) v = true ∧ (h.surround w v).next v = 0 :=
    fun real => surround_block (wild.above l' (by simp)) real limit
  obtain ⟨real, rest, lost, head⟩ := extendHeap_loses l' wild start pages grants
  obtain ⟨enough, search⟩ :=
    lost.findFit l' (wild.above l' (by simp)) head atLeast limit unfit found
  obtain ⟨least, step⟩ := @mallocLoop_extend env _ _ _ _ l' inside none
  refine ⟨_, rest, head, lost.header, max enough least, fun fuel more => ?_⟩
  refine ⟨search fuel (by omega), ?_⟩
  rw [step fuel (by omega), if_neg real]

end LinuxSystem.Allocator
