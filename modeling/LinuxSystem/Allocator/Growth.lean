import LinuxSystem.Allocator.LostPage
import LinuxSystem.Allocator.Run

/-!
# Growing on demand

`sf_malloc` extends the heap by the pages that are missing and no more. If they are
not all granted, the call fails, and so does a call of `sf_realloc`; the allocated
blocks are left as they were.
-/

namespace LinuxSystem.Allocator

open Tiling

variable {env : Sbrk} {h h' : Heap} {pre blocks blocks' : List Block}
  {lists lists' : Int → List Nat} {b c : Block} {size : Nat}

def HasFit (blocks : List Block) (size : Nat) : Prop := ∃ x, Fit blocks size x

/-- The last block, if it is allocated, has less than 2 GiB. -/
def SmallEnd (blocks : List Block) : Prop :=
  ∀ b ∈ blocks.getLast?, b.allocated = 1 → b.size < 2 ^ 31

/-- The one size of the last block with which the header that is taken above the heap
is linked by the footer of the new page. -/
def FooterLink (blocks : List Block) : Prop := ∃ b ∈ blocks.getLast?, b.size = 2 ^ 32 - 4080

/-- A last block that is not small. -/
theorem large_of_not_smallEnd (small : ¬ SmallEnd blocks) (other : ¬ FooterLink blocks) :
    ∃ pre b, blocks = pre ++ [b] ∧ b.allocated = 1 ∧ 2 ^ 31 ≤ b.size ∧ b.size ≠ 2 ^ 32 - 4080 := by
  unfold SmallEnd at small
  push Not at small
  obtain ⟨b, last, taken, large⟩ := small
  obtain ⟨pre, rfl⟩ := List.getLast?_eq_some_iff.mp last
  exact ⟨pre, b, rfl, taken, large, fun odd => other ⟨b, last, odd⟩⟩

theorem SameHeap.grown (same : SameHeap h h') (grown : Grown env h) : Grown env h' := by
  have start := startOfHeap_of_rest same.rest
  have stop := endOfHeap_of_rest same.rest
  have pages := pages_of_rest same.rest
  have calls := calls_of_rest same.rest
  cases grown with
  | empty none none' zero zero' =>
    exact .empty (start.trans none) (stop.trans none') (pages.trans zero) (calls.trans zero')
  | pages first last some =>
    refine .pages (start.trans first) ?_ (pages ▸ some)
    rw [stop, pages, last]

theorem LaidOut.hasFit_iff (l : LaidOut h blocks lists) (limit : size ≤ 16384) :
    HasFit blocks size ↔ firstFit h lists size ≠ 0 := by
  constructor
  · rintro ⟨x, b, mem, -, unused, fit⟩ none
    have := l.firstFit_zero limit none mem unused
    omega
  · intro some
    obtain ⟨b, mem, unused, start, fit⟩ := l.firstFit_found limit some
    exact ⟨_, b, mem, start, unused, fit⟩

/-- Where nothing fits, a free last block is small anyway. -/
theorem SmallEnd.smallLast (small : SmallEnd blocks) (l : LaidOut h blocks lists)
    (limit : size ≤ 16384) (none : ¬ HasFit blocks size) : SmallLast blocks := by
  intro b last
  have mem := List.mem_of_getLast? last
  obtain unused | taken := (l.stored b mem).allocated_or
  · by_contra large
    exact none ⟨b.addr, b, mem, rfl, unused, by omega⟩
  · exact small b last taken

/-! ## The pages of sf_malloc -/

/-- The pages that a request needs: the least number with which the free end of the
heap holds it, and none if a block does already. -/
def PagesNeeded (blocks : List Block) (size k : Nat) : Prop :=
  (HasFit blocks size → k = 0) ∧
    (¬ HasFit blocks size → IsLeast {k | size + 16 ≤ lastFree blocks + 4096 * k} k)

/-- The loop of `sf_malloc` ends with a free block that holds the request, after as
many calls of `extend_heap`, each one call of `sf_sbrk`, as are needed. -/
def ExtendsRight (env : Sbrk) (h : Heap) (blocks : List Block) (size : Nat) : Prop :=
  ∃ h' b blocks' lists' k,
    (∃ enough, ∀ fuel, enough ≤ fuel → mallocLoop env size fuel h = .ok (h', b.addr) ∧
      sfMalloc env fuel h size = .ok (place h' b.addr size, b.addr + 8)) ∧
    h'.calls = h.calls + k ∧ PagesNeeded blocks size k ∧ LaidOut h' blocks' lists' ∧
    b ∈ blocks' ∧ b.allocated = 0 ∧ size + 16 ≤ b.size

theorem pagesFor_isLeast {last : Nat} (short : last < size + 16) :
    IsLeast {k | size + 16 ≤ last + 4096 * k} (pagesFor last size) := by
  unfold pagesFor
  constructor
  · change size + 16 ≤ _
    omega
  · intro k enough
    change size + 16 ≤ _ at enough
    omega

theorem Looped.extendsRight {k p : Nat} (looped : Looped env size h blocks h' p blocks' lists')
    (positive : 1 ≤ size) (limit : size ≤ 16384) (calls : h'.calls = h.calls + k)
    (needed : PagesNeeded blocks size k) (mem : b ∈ blocks') (unused : b.allocated = 0)
    (start : b.addr = p) (fit : size + 16 ≤ b.size) : ExtendsRight env h blocks size := by
  subst start
  obtain ⟨enough, returns⟩ := looped.returns
  have real := (looped.laidOut.shaped b mem).real
  refine ⟨h', b, blocks', lists', k, ⟨enough, fun fuel more => ?_⟩, calls, needed,
    looped.laidOut, mem, unused, fit⟩
  exact ⟨returns fuel more, sfMalloc_placed (by omega) (returns fuel more) real.ne'⟩

theorem extendsRight_of_small (l : LaidOut h blocks lists) (grown : Grown env h)
    (large : 16 ≤ size) (limit : size ≤ 16384) (granted : ∀ i, env.grants i = true)
    (small : HasFit blocks size ∨ SmallEnd blocks) : ExtendsRight env h blocks size := by
  have inside : size < 16 → h.head (-1) = 0 := by omega
  by_cases fits : HasFit blocks size
  · have some := (l.hasFit_iff limit).mp fits
    obtain ⟨b, mem, unused, start, fit⟩ := l.firstFit_found limit some
    have needed : PagesNeeded blocks size 0 := ⟨fun _ => rfl, fun none => absurd fits none⟩
    exact (mallocLoop_found l grown inside some).extendsRight (by omega) limit rfl needed mem unused
      start fit
  · have none : firstFit h lists size = 0 := by
      by_contra some
      exact fits ((l.hasFit_iff limit).mpr some)
    have short := lastFree_lt fun b => l.firstFit_zero limit none (b := b)
    have small := (small.resolve_left fits).smallLast l limit fits
    obtain ⟨h', p, blocks', lists', looped, g⟩ :=
      mallocLoop_grow _ l grown limit inside none rfl small
    have least := pagesFor_isLeast short
    cases g with
    | granted all pages calls mem unused start total =>
      exact looped.extendsRight (by omega) limit calls
        ⟨fun fit => absurd fit fits, fun _ => least⟩ mem unused start (total ▸ least.1)
    | refused bound before refuses pages calls errno none null =>
      rw [granted] at refuses
      exact absurd refuses (by decide)

/-- Behind a large block the loop can come to a free block outside the heap. -/
theorem not_extendsRight {v : Nat} (l : LaidOut h (pre ++ [b]) lists)
    (start : h.startOfHeap = env.base) (pages : h.endOfHeap = env.base + 4096 * h.pages)
    (atLeast : 16 ≤ size) (limit : size ≤ 16384) (granted : ∀ i, env.grants i = true)
    (large : 2 ^ 31 ≤ b.size) (odd : b.size ≠ 2 ^ 32 - 4080) (none : ¬ HasFit (pre ++ [b]) size)
    (far : h.endOfHeap + 2 ^ 32 ≤ v) :
    ¬ ExtendsRight env (h.surround (farHeader h.endOfHeap b) v) (pre ++ [b]) size := by
  rintro ⟨h', c, blocks', lists', -, ⟨enough, returns⟩, -, -, l', mem, -, -⟩
  obtain ⟨h₁, rest, -, -, least, loses⟩ := mallocLoop_loses l start pages (granted _) large odd
    (Or.inr far) atLeast limit (fun x fit => none ⟨x, fit⟩) rfl
  obtain ⟨found, step⟩ := loses (max enough least + 1) (by omega)
  obtain ⟨p, rfl⟩ := Nat.exists_eq_succ_of_ne_zero (by omega : v ≠ 0)
  have looped := (returns (max enough least + 2) (by omega)).1
  rw [step, mallocLoop, found] at looped
  obtain ⟨rfl, above⟩ := Prod.mk.inj (Except.ok.inj looped)
  have stop : h₁.endOfHeap = env.base + 4096 * (h.pages + 1) := endOfHeap_of_rest rest
  have within := l'.tiles.within mem
  omega

/-- With every page granted, and whatever lies outside the heap, `sf_malloc` extends the
heap exactly as needed if the last block does not end in an unreadable footer. If it
does, some words outside the heap mislead it, for all sizes of that block but one. -/
theorem sf_malloc_extends_as_needed (l : LaidOut h blocks lists) (grown : Grown env h)
    (large : 16 ≤ size) (limit : size ≤ 16384) (granted : ∀ i, env.grants i = true) :
    (HasFit blocks size ∨ SmallEnd blocks →
      ∀ h', SameHeap h h' → ExtendsRight env h' blocks size) ∧
    ((∀ h', SameHeap h h' → ExtendsRight env h' blocks size) →
      HasFit blocks size ∨ SmallEnd blocks ∨ FooterLink blocks) := by
  constructor
  · intro small h' same
    exact extendsRight_of_small (l.sameHeap same) (same.grown grown) large limit granted small
  · intro right
    by_contra wrong
    push Not at wrong
    obtain ⟨none, tall, other⟩ := wrong
    obtain ⟨pre, b, rfl, -, far, odd⟩ := large_of_not_smallEnd tall other
    cases grown with
    | empty start => exact absurd (l.nil_of_empty start) (by simp)
    | pages start stop =>
      exact not_extendsRight l start stop large limit granted far odd none (Nat.le_refl _)
        (right _ sameHeap_surround)

/-! ## A call that fails -/

/-- What a loop that returns NULL leaves: some pages were granted, the next one was
not, and nothing fits. -/
structure Starved (env : Sbrk) (h : Heap) (blocks : List Block) (size j : Nat) (h' : Heap)
    (blocks' : List Block) (lists' : Int → List Nat) : Prop where
  laidOut : LaidOut h' blocks' lists'
  used : used blocks' = used blocks
  untouched : ∀ c ∈ Allocator.used blocks, Untouched h h' c
  grown : Grown env h'
  granted : ∀ i < j, env.grants (h.calls + i) = true
  refused : env.grants (h.calls + j) = false
  pages : h'.pages = h.pages + j
  errno : h'.errno = some .ENOMEM
  none : ¬ HasFit blocks' size

/-- No word outside the heap is read before `sf_sbrk` fails. -/
def NearEnd (env : Sbrk) (h : Heap) (blocks : List Block) (size : Nat) : Prop :=
  HasFit blocks size ∨ env.grants h.calls = false ∨ SmallEnd blocks

theorem mallocLoop_starved {fuel : Nat} (l : LaidOut h blocks lists) (grown : Grown env h)
    (large : 16 ≤ size) (limit : size ≤ 16384) (near : NearEnd env h blocks size)
    (returns : mallocLoop env size fuel h = .ok (h', 0)) :
    ∃ j blocks' lists', Starved env h blocks size j h' blocks' lists' := by
  have inside : size < 16 → h.head (-1) = 0 := by omega
  -- the result is the one that the loop lemmas name
  have same {h₁ : Heap} {p : Nat} {blocks₁ : List Block} {lists₁ : Int → List Nat}
      (looped : Looped env size h blocks h₁ p blocks₁ lists₁) : h₁ = h' ∧ p = 0 := by
    obtain ⟨enough, result⟩ := looped.returns
    have later := mallocLoop_mono (Nat.le_max_left fuel enough) returns
    rw [result _ (Nat.le_max_right fuel enough)] at later
    exact Prod.mk.inj (Except.ok.inj later)
  by_cases fits : HasFit blocks size
  · have some := (l.hasFit_iff limit).mp fits
    exact absurd (same (mallocLoop_found l grown inside some)).2 some
  · have none : firstFit h lists size = 0 := by
      by_contra some
      exact fits ((l.hasFit_iff limit).mpr some)
    cases grants : env.grants h.calls with
    | false =>
      have looped := mallocLoop_refused l grown inside none grants
      obtain ⟨rfl, -⟩ := same looped
      exact ⟨0, _, _, looped.laidOut, looped.used, looped.untouched, looped.grown, by simp, grants,
        rfl, rfl, fits⟩
    | true =>
      have small : SmallEnd blocks := by
        obtain fit | refused | small := near
        · exact absurd fit fits
        · rw [grants] at refused
          exact absurd refused (by decide)
        · exact small
      obtain ⟨h₁, p, blocks', lists', looped, g⟩ :=
        mallocLoop_grow _ l grown limit inside none rfl (small.smallLast l limit fits)
      obtain ⟨rfl, null⟩ := same looped
      cases g with
      | granted all pages calls mem unused start total =>
        have real := (looped.laidOut.shaped _ mem).real
        omega
      | refused bound before refuses pages calls errno none null =>
        refine ⟨_, blocks', lists', looped.laidOut, looped.used, looped.untouched, looped.grown,
          before, refuses, pages, errno, ?_⟩
        rintro ⟨x, c, mem, -, unused, fit⟩
        have := none c mem unused
        omega

/-- NULL comes from `sf_malloc`, for a request that is not 0. -/
theorem sfRealloc_null {fuel ptr : Nat} (positive : size ≠ 0)
    (fails : sfRealloc env fuel h ptr size = .ok (h', 0)) :
    sfMalloc env fuel h size = .ok (h', 0) := by
  unfold sfRealloc at fails
  dsimp only at fails
  have back {r : Except Fault Heap} {q : Nat} (some : q ≠ 0) :
      r.map (fun h => (h, q)) ≠ .ok (h', 0) := by
    cases r with
    | error fault => simp [Except.map]
    | ok h₁ => simp [Except.map, some]
  split_ifs at fails
  · cases called : sfMalloc env fuel h size with
    | error fault =>
      rw [called] at fails
      exact absurd fails (by simp)
    | ok r =>
      obtain ⟨h₁, p⟩ := r
      rw [called] at fails
      cases p with
      | zero => exact fails
      | succ p => exact absurd fails (back (Nat.succ_ne_zero p))
  · exact absurd fails (by simp)
  · exact absurd fails (back (Nat.succ_ne_zero _))
  · exact absurd fails (by simp)

theorem sfMalloc_null {fuel : Nat} (positive : size ≠ 0) (limit : size ≤ 16384)
    (fails : sfMalloc env fuel h size = .ok (h', 0)) :
    mallocLoop env size fuel h = .ok (h', 0) := by
  rw [sfMalloc, if_neg (by omega)] at fails
  cases looped : mallocLoop env size fuel h with
  | error fault =>
    rw [looped] at fails
    exact absurd fails (by simp)
  | ok r =>
    obtain ⟨h₁, p⟩ := r
    rw [looped] at fails
    cases p with
    | zero => exact fails
    | succ p => exact absurd fails (by simp)

/-- What a call of `sf_realloc` that returns NULL is to leave. -/
def LosesNothing (env : Sbrk) (h h' : Heap) (blocks : List Block) (size : Nat) : Prop :=
  (16384 < size → h' = { h with errno := some .EINVAL }) ∧
    (size ≤ 16384 → ∃ j blocks' lists', WellFormed h' blocks' lists' ∧
      Starved env h blocks size j h' blocks' lists')

theorem losesNothing_of_near {fuel : Nat} (w : WellFormed h blocks lists) (grown : Grown env h)
    (mem : b ∈ used blocks) (grows : b.size - 16 < size)
    (near : 16384 < size ∨ NearEnd env h blocks size)
    (fails : sfRealloc env fuel h (b.addr + 8) size = .ok (h', 0)) :
    LosesNothing env h h' blocks size := by
  have least := (w.shaped b (mem_used.mp mem).1).least
  have called := sfRealloc_null (by omega) fails
  constructor
  · intro large
    rw [sfMalloc, if_pos (by omega)] at called
    exact (Prod.mk.inj (Except.ok.inj called)).1.symm
  · intro limit
    have looped := sfMalloc_null (by omega) limit called
    obtain ⟨j, blocks', lists', starved⟩ :=
      mallocLoop_starved w.laidOut grown (by omega) limit (near.resolve_left (by omega)) looped
    refine ⟨j, blocks', lists', starved.laidOut.wellFormed ?_, starved⟩
    intro c mem
    rw [starved.used] at mem
    exact w.filled c mem

/-- `sf_sbrk` until it has granted one page to `h`. -/
def onePage (env : Sbrk) (h : Heap) : Sbrk :=
  ⟨env.base, fun i => decide (i ≤ h.calls), env.positive, by simp⟩

theorem sfRealloc_grows {fuel : Nat} (check : checkBlock h b.addr = true)
    (bytes : blockBytes (h.mem b.addr) = b.size) (positive : size ≠ 0) (limit : size ≤ 16384)
    (grows : b.size - 16 < size) (fails : mallocLoop env size fuel h = .ok (h', 0)) :
    sfRealloc env fuel h (b.addr + 8) size = .ok (h', 0) := by
  have called : sfMalloc env fuel h size = .ok (h', 0) := by
    rw [sfMalloc, if_neg (by omega), fails]
    rfl
  simp only [sfRealloc, Nat.add_sub_cancel, check, bytes, Bool.true_eq_false, if_false,
    if_neg positive, if_pos grows, called]

theorem LaidOut.head_written (l : LaidOut h blocks lists) (some : h.head 3 ≠ 0) :
    h.mem (h.head 3) ≠ 0 := by
  intro empty
  obtain ⟨c, mem, -, -, start⟩ := l.head_block (by decide) (by decide) some
  have size := (l.stored c mem).header.size
  have zero : blockSize 0 = 0 := by decide +kernel
  have least := (l.shaped c mem).least
  rw [start, empty, zero] at size
  omega

/-- Behind a large block the page can be lost, and an empty word be listed for it. -/
theorem not_losesNothing (wf : WellFormed h (pre ++ [c]) lists) (start : h.startOfHeap = env.base)
    (pages : h.endOfHeap = env.base + 4096 * h.pages) (mem : b ∈ used (pre ++ [c]))
    (grows : b.size - 16 < size) (limit : size ≤ 16384) (large : 2 ^ 31 ≤ c.size)
    (odd : c.size ≠ 2 ^ 32 - 4080) (none : ¬ HasFit (pre ++ [c]) size) :
    ∃ fuel h', sfRealloc (onePage env h) fuel (h.surround (farHeader h.endOfHeap c) 0)
        (b.addr + 8) size = .ok (h', 0) ∧
      ¬ LosesNothing (onePage env h) (h.surround (farHeader h.endOfHeap c) 0) h' (pre ++ [c])
        size := by
  have l := wf.laidOut
  have least := (l.shaped b (mem_used.mp mem).1).least
  obtain ⟨h₁, rest, head, empty, enough, loses⟩ := @mallocLoop_loses (onePage env h) h pre lists c
    _ 0 size l start pages (decide_eq_true (Nat.le_refl _)) large odd (Or.inl rfl) (by omega) limit
    (fun x fit => none ⟨x, fit⟩) rfl
  obtain ⟨found, step⟩ := loses (enough + 1) (by omega)
  have same : SameHeap h (h.surround (farHeader h.endOfHeap c) 0) := sameHeap_surround
  have l' := l.sameHeap same
  have check := checkBlock_live l' mem (by omega) (wf.filled b mem)
  have bytes := l'.bytes (mem_used.mp mem).1 (b := b) (by omega)
  have refused : (onePage env h).grants h₁.calls = false := by
    have calls : h₁.calls = h.calls + 1 := calls_of_rest rest
    rw [calls]
    exact decide_eq_false (Nat.not_succ_le_self h.calls)
  have fails : mallocLoop (onePage env h) size (enough + 2)
      (h.surround (farHeader h.endOfHeap c) 0) =
        .ok ({ h₁ with calls := h₁.calls + 1, errno := some .ENOMEM }, 0) := by
    rw [step, mallocLoop, found, extendHeap_refused (grown_of_rest rest) refused]
    rfl
  refine ⟨_, _, sfRealloc_grows check bytes (by omega) limit grows fails, fun nothing => ?_⟩
  obtain ⟨j, blocks', lists', w', -⟩ := nothing.2 limit
  have some : h₁.head 3 ≠ 0 := by
    have limit' := (l.stored c (by simp)).header.size_lt
    rw [head, farHeader]
    omega
  exact w'.laidOut.head_written some (by rw [head, empty])

/-- A call of `sf_realloc` that returns NULL loses nothing, wherever `sf_sbrk` starts to
fail and whatever lies outside the heap. -/
def FailsSafely (h : Heap) (blocks : List Block) (b : Block) (size : Nat) : Prop :=
  ∀ env h₁ h' fuel, SameHeap h h₁ → Grown env h₁ →
    sfRealloc env fuel h₁ (b.addr + 8) size = .ok (h', 0) → LosesNothing env h₁ h' blocks size

/-- A call that returns NULL loses nothing if, when pages are granted, the last block is
free or below 2 GiB. If it is not, a call can fail and lose a page, for all sizes of
that block but one. -/
theorem failed_realloc_loses_nothing (w : WellFormed h blocks lists) (grown : Grown env h)
    (mem : b ∈ used blocks) (grows : b.size - 16 < size) :
    (16384 < size ∨ NearEnd env h blocks size → ∀ h' fuel,
      sfRealloc env fuel h (b.addr + 8) size = .ok (h', 0) →
        LosesNothing env h h' blocks size) ∧
    (FailsSafely h blocks b size →
      16384 < size ∨ HasFit blocks size ∨ SmallEnd blocks ∨ FooterLink blocks) := by
  constructor
  · intro near h' fuel fails
    exact losesNothing_of_near w grown mem grows near fails
  · intro safe
    by_contra wrong
    push Not at wrong
    obtain ⟨limit, none, tall, other⟩ := wrong
    obtain ⟨pre, c, rfl, -, far, odd⟩ := large_of_not_smallEnd tall other
    cases grown with
    | empty start => exact absurd (w.laidOut.nil_of_empty start) (by simp)
    | pages start stop some =>
      obtain ⟨fuel, h', fails, wrong⟩ :=
        not_losesNothing w start stop mem grows limit far odd none
      refine wrong (safe _ _ h' fuel sameHeap_surround ?_ fails)
      exact sameHeap_surround.grown (.pages start stop some)

/-! A heap that ends in an allocated block. With 2 GiB and 4064 bytes, the code takes the
word at 2^32 + 48 for the header of the block below a new page. -/

def heldBlocks (size : Nat) : List Block := [heldBlock, ⟨48, size, 1, 1, 5⟩]

def heldHeap (size : Nat) : Heap := drawn 16 (48 + size) ((32 + size) / 4096) (heldBlocks size)

theorem heldHeap_wellFormed {size : Nat} (least : 32 ≤ size) (aligned : size % 16 = 0)
    (limit : size < 2 ^ 32) :
    WellFormed (heldHeap size) (heldBlocks size) (freeOf · (heldBlocks size)) :=
  drawnPair_wellFormed rfl rfl (by constructor <;> decide)
    ⟨least, aligned, limit, Nat.one_lt_two, Nat.one_lt_two⟩ (by decide) (by norm_num) rfl
    (fun full => absurd full Nat.one_ne_zero) fun _ full => absurd full Nat.one_ne_zero

def farHeap : Heap := heldHeap (2 ^ 31 + 4064)

theorem farHeap_wellFormed :
    WellFormed farHeap (heldBlocks (2 ^ 31 + 4064)) (freeOf · (heldBlocks (2 ^ 31 + 4064))) :=
  heldHeap_wellFormed (by decide) (by decide) (by decide)

theorem farHeap_grown (env : Sbrk) (base : env.base = 16) : Grown env farHeap := by
  apply Grown.pages
  · exact base.symm
  · rw [base]
    rfl
  · decide

theorem page_grown (env : Sbrk) (base : env.base = 16) :
    Grown env (pairHeap heldBlock 4064) := by
  apply Grown.pages
  · exact base.symm
  · rw [base]
    rfl
  · decide

theorem page_smallEnd : SmallEnd (pairBlocks heldBlock 4064) := by
  intro b last taken
  obtain rfl : freeBlock 48 4064 = b := Option.some.inj last
  exact absurd taken Nat.zero_ne_one

theorem sf_malloc_takes_one_page : ExtendsRight plainSbrk (pairHeap heldBlock 4064)
    (pairBlocks heldBlock 4064) 5000 := by
  have needed := sf_malloc_extends_as_needed page_wellFormed.laidOut (page_grown plainSbrk rfl)
    (show 16 ≤ 5000 by norm_num) (by norm_num) fun _ => rfl
  exact needed.1 (Or.inr page_smallEnd) _ (.refl _)

/-- The page that is granted is lost, and the heap is extended a second time. -/
theorem sf_malloc_takes_two_pages : ¬ ∀ (env : Sbrk) (h : Heap) (blocks : List Block)
    (lists : Int → List Nat) (size : Nat), LaidOut h blocks lists → Grown env h → 16 ≤ size →
      size ≤ 16384 → (∀ i, env.grants i = true) → ExtendsRight env h blocks size := by
  intro asNeeded
  obtain ⟨h', b, -, -, k, ⟨enough, returns⟩, calls, ⟨-, needed⟩, -⟩ :=
    asNeeded plainSbrk farHeap (heldBlocks (2 ^ 31 + 4064)) _ 16 farHeap_wellFormed.laidOut
      (farHeap_grown plainSbrk rfl) (by decide) (by decide) fun _ => rfl
  have none : ¬ HasFit (heldBlocks (2 ^ 31 + 4064)) 16 := by
    rintro ⟨x, c, mem, -, unused, -⟩
    simp [heldBlocks, heldBlock] at mem
    obtain rfl | rfl := mem
    · exact absurd unused (by decide)
    · exact absurd unused (by decide)
  have one : k ≤ 1 := (needed none).2 (by decide)
  have result : (match mallocLoop plainSbrk 16 4 farHeap with
      | .ok (h, _) => h.calls
      | .error _ => 0) = 2 ^ 19 + 3 := by decide +kernel
  cases looped : mallocLoop plainSbrk 16 4 farHeap with
  | error fault => simp [looped] at result
  | ok r =>
    obtain ⟨h₁, p⟩ := r
    have more := mallocLoop_mono (Nat.le_max_left 4 enough) looped
    rw [(returns _ (Nat.le_max_right 4 enough)).1] at more
    obtain ⟨rfl, -⟩ := Prod.mk.inj (Except.ok.inj more)
    have before : farHeap.calls = 2 ^ 19 + 1 := rfl
    rw [looped] at result
    dsimp only at result
    omega

/-- `sf_sbrk` for `n` calls after the first. -/
def scarceSbrk (n : Nat) : Sbrk := ⟨16, fun i => decide (i ≤ n), plainSbrk.positive, by simp⟩

/-- One page of the three that are missing is granted. -/
theorem failed_realloc_to_16000 : ∃ h',
    sfRealloc (scarceSbrk 1) 4 (pairHeap heldBlock 4064) 24 16000 = .ok (h', 0) ∧
      LosesNothing (scarceSbrk 1) (pairHeap heldBlock 4064) h' (pairBlocks heldBlock 4064)
        16000 := by
  have near : NearEnd (scarceSbrk 1) (pairHeap heldBlock 4064) (pairBlocks heldBlock 4064)
      16000 := Or.inr (Or.inr page_smallEnd)
  have result : (match sfRealloc (scarceSbrk 1) 4 (pairHeap heldBlock 4064) 24 16000 with
      | .ok (_, p) => p
      | .error _ => 1) = 0 := by decide +kernel
  cases fails : sfRealloc (scarceSbrk 1) 4 (pairHeap heldBlock 4064) 24 16000 with
  | error fault => simp [fails] at result
  | ok r =>
    obtain ⟨h', p⟩ := r
    obtain rfl : p = 0 := by simpa [fails] using result
    have held : heldBlock ∈ used (pairBlocks heldBlock 4064) := by
      simp [pairBlocks, used, heldBlock]
    have safe := (failed_realloc_loses_nothing page_wellFormed (page_grown _ rfl) held
      (by decide)).1 (Or.inr near)
    exact ⟨h', rfl, safe _ _ fails⟩

/-- The failed call leaves a word outside the heap on the last list. -/
theorem failed_realloc_spoils_list : ¬ ∀ (env : Sbrk) (h h' : Heap) (blocks : List Block)
    (lists : Int → List Nat) (b : Block) (size fuel : Nat), WellFormed h blocks lists →
      Grown env h → b ∈ used blocks → b.size - 16 < size →
        sfRealloc env fuel h (b.addr + 8) size = .ok (h', 0) →
          LosesNothing env h h' blocks size := by
  intro lossless
  have result : (match sfRealloc (scarceSbrk (2 ^ 19 + 1)) 4 farHeap 24 8000 with
      | .ok (h, p) => (p, h.head 3, h.endOfHeap)
      | .error _ => (1, 0, 0)) = (0, 2 ^ 32 + 48, 2 ^ 31 + 8208) := by decide +kernel
  cases fails : sfRealloc (scarceSbrk (2 ^ 19 + 1)) 4 farHeap 24 8000 with
  | error fault =>
    rw [fails] at result
    exact absurd result (by simp)
  | ok r =>
    obtain ⟨h', p⟩ := r
    rw [fails] at result
    obtain ⟨rfl, head, stop⟩ : p = 0 ∧ h'.head 3 = 2 ^ 32 + 48 ∧ h'.endOfHeap = 2 ^ 31 + 8208 := by
      simpa using result
    have held : heldBlock ∈ used (heldBlocks (2 ^ 31 + 4064)) := by
      simp [heldBlocks, used, heldBlock]
    obtain ⟨j, blocks', lists', w, -⟩ := (lossless (scarceSbrk (2 ^ 19 + 1)) farHeap h'
      (heldBlocks (2 ^ 31 + 4064)) _ heldBlock 8000 4 farHeap_wellFormed (farHeap_grown _ rfl) held
      (by decide) fails).2 (by decide)
    -- the head of the list is the address of no block
    have some : h'.head 3 ≠ 0 := by
      rw [head]
      decide
    obtain ⟨c, mem, -, -, start⟩ := w.laidOut.head_block (by decide) (by decide) some
    have within := w.tiles.within mem
    omega

end LinuxSystem.Allocator
