import LinuxSystem.Allocator.Release
import LinuxSystem.Allocator.Run

/-!
# Shrinking a block

`sf_realloc` to at most the size of the payload leaves the block where it is, whole
or cut. A tail that is cut off is freed, so it is merged with a free block above it.
-/

namespace LinuxSystem.Allocator

open Tiling

variable {env : Sbrk} {h h' : Heap} {pre post : List Block} {lists : Int → List Nat}
  {b : Block} {size : Nat}

/-- The heap after `b` has been shrunk to a request of `size` bytes. -/
structure Shrunk (h h' : Heap) (pre : List Block) (b : Block) (post : List Block)
    (lists : Int → List Nat) (size : Nat) : Prop where
  rest : h'.rest = h.rest
  payload : ∀ a, b.addr + 8 ≤ a → a < b.addr + 8 + size → h'.mem a = h.mem a
  others : ∀ c ∈ used (pre ++ post), Untouched h h' c
  whole : b.size - 16 - size < 32 →
    ∃ pad, WellFormed h' (pre ++ ⟨b.addr, b.size, 1, pad, size⟩ :: post) lists
  cut : 32 ≤ b.size - 16 - size → ∃ pad n, IsLeast {n | n % 16 = 0 ∧ size + 16 ≤ n} n ∧
    32 ≤ b.size - n ∧ WellFormed h'
      (pre ++ ⟨b.addr, n, 1, pad, size⟩ ::
        freeBlock (b.addr + n) (mergedSize (b.size - n) post) :: mergedRest post)
      (push (mergedLists lists post) (listIndex (mergedSize (b.size - n) post)) (b.addr + n))

def ShrinksRight (env : Sbrk) (h : Heap) (pre : List Block) (b : Block) (post : List Block)
    (lists : Int → List Nat) (size : Nat) : Prop :=
  ∃ h', (∀ fuel, sfRealloc env fuel h (b.addr + 8) size = .ok (h', b.addr + 8)) ∧
    Shrunk h h' pre b post lists size

theorem blockFor_isLeast (size : Nat) :
    IsLeast {n | n % 16 = 0 ∧ size + 16 ≤ n} (blockFor size) := by
  have bounds := blockFor_bounds size
  have aligned := blockFor_aligned size
  constructor
  · exact ⟨aligned, bounds.1⟩
  · rintro n ⟨multiple, large⟩
    omega

/-! ## The two ways to shrink -/

theorem shrunk_whole (w : WellFormed h (pre ++ b :: post) lists) (taken : b.allocated = 1)
    (fits : size ≤ b.size - 16) (tight : b.size < size + 48) :
    Shrunk h (writeBlock h b.addr b.size size 1 (if size < b.size - 16 then 1 else paddedFor size))
      pre b post lists size := by
  have l := w.laidOut
  have shaped := l.shaped b (by simp)
  have least := shaped.least
  have limit := (l.stored b (by simp)).header.size_lt
  have bit : (if size < b.size - 16 then 1 else paddedFor size) < 2 := by
    split
    · decide
    · exact paddedFor_lt size
  constructor
  · rfl
  · intro a low high
    apply writeBlock_mem
    · omega
    · omega
  · intro c mem
    have within := writeBlock_within (b := b) h size 1
      (if size < b.size - 16 then 1 else paddedFor size) (Nat.le_refl _) least (Nat.le_refl _)
    exact within.untouched l (mem_used.mp mem).1
  · intro _
    refine ⟨_, (rewriteBlock size l taken bit (by omega)).wellFormed (w.filled.replace ?_)⟩
    intro _ full
    simp only at full ⊢
    split at full
    · exact absurd full (by decide)
    · omega
  · intro roomy
    omega

theorem shrunk_cut (w : WellFormed h (pre ++ b :: post) lists) (taken : b.allocated = 1)
    (positive : 1 ≤ size) (large : size + 48 ≤ b.size) (small : b.size < 2 ^ 31)
    (above : SmallAbove post) :
    ∃ h', sfFree (cutBlock h b size) ((cutTail b size).addr + 8) = .ok h' ∧
      Shrunk h h' pre b post lists size := by
  have l := w.laidOut
  have shaped := l.shaped b (by simp)
  have bounds := blockFor_bounds size
  have least := cutTail_least shaped large
  have cut := cutBlock_laidOut l taken positive large
  have split : pre ++ cutHead b size :: cutTail b size :: post =
      pre ++ [cutHead b size] ++ cutTail b size :: post := by simp
  rw [split] at cut
  have tailSmall : (cutTail b size).size < 2 ^ 31 := by
    simp only [cutTail]
    omega
  have filled := w.filled.cut size
  obtain ⟨h', returns, freed⟩ :=
    sfFree_freed cut rfl tailSmall (by simp [Block.Fills, cutTail]) above
  have within := cutBlock_within h shaped positive large
  refine ⟨h', returns, freed.rest.trans rfl, ?_, ?_, ?_, ?_⟩
  · intro a low high
    have head : cutHead b size ∈ used (pre ++ [cutHead b size] ++ post) :=
      mem_used.mpr ⟨by simp, rfl⟩
    have kept := freed.untouched cut head a
    simp only [cutHead] at kept
    rw [kept (by omega) (by omega), cutBlock, writeBlock_mem, writeBlock_mem]
    · omega
    · omega
    · omega
    · omega
  · intro c mem
    have old : c ∈ used (pre ++ [cutHead b size] ++ post) := by
      simp only [mem_used, List.mem_append] at mem ⊢
      tauto
    exact (within.untouched l (mem_used.mp mem).1).trans (freed.untouched cut old)
  · intro tight
    omega
  · intro _
    refine ⟨paddedFor size, blockFor size, blockFor_isLeast size, least, ?_⟩
    rw [split] at filled
    have laid := freed.laidOut.wellFormed (filled.freed _ _)
    rwa [List.append_assoc, List.singleton_append] at laid

/-! ## sf_realloc -/

/-- The block has less than 2 GiB, and so has the block above if the tail is merged
with it. -/
def ShrinkSmall (b : Block) (post : List Block) (size : Nat) : Prop :=
  b.size < 2 ^ 31 ∧ (size + 48 ≤ b.size → SmallAbove post)

theorem sfRealloc_shrinks_right (w : WellFormed h (pre ++ b :: post) lists)
    (taken : b.allocated = 1) (positive : 1 ≤ size) (fits : size ≤ b.size - 16)
    (small : ShrinkSmall b post size) : ShrinksRight env h pre b post lists size := by
  have l := w.laidOut
  have live : b ∈ used (pre ++ b :: post) := mem_used.mpr ⟨by simp, taken⟩
  have check := checkBlock_live l live small.1 (w.filled b live)
  have step := sfRealloc_shrinks env check (l.bytes (by simp) small.1) (by omega) fits
  by_cases tight : b.size < size + 48
  · refine ⟨_, fun fuel => ?_, shrunk_whole w taken fits tight⟩
    rw [step, if_pos tight]
  · obtain ⟨h', returns, shrunk⟩ :=
      shrunk_cut w taken positive (by omega) small.1 (small.2 (by omega))
    refine ⟨h', fun fuel => ?_, shrunk⟩
    rw [step, if_neg tight, returns]
    rfl

/-- A tail that is merged with a block of 2 GiB or more leaves its footer as it was. -/
theorem not_shrinksRight_large_above {c : Block} (w : WellFormed h (pre ++ b :: c :: post) lists)
    (taken : b.allocated = 1) (positive : 1 ≤ size) (small : b.size < 2 ^ 31)
    (large : size + 48 ≤ b.size) (unused : c.allocated = 0) (above : 2 ^ 31 ≤ c.size) :
    ¬ ShrinksRight env h pre b (c :: post) lists size := by
  rintro ⟨h', returns, shrunk⟩
  have l := w.laidOut
  have live : b ∈ used (pre ++ b :: c :: post) := mem_used.mpr ⟨by simp, taken⟩
  have check := checkBlock_live l live small (w.filled b live)
  have step := sfRealloc_shrinks env check (l.bytes (by simp) small) (Nat.ne_of_gt positive)
    (by omega) 0
  rw [returns 0, if_neg (by omega)] at step
  obtain ⟨pad, n, least, -, w'⟩ := shrunk.cut (by omega)
  obtain rfl := least.unique (blockFor_isLeast size)
  have split : pre ++ cutHead b size :: cutTail b size :: c :: post =
      pre ++ [cutHead b size] ++ cutTail b size :: c :: post := by simp
  have cut := cutBlock_laidOut l taken positive large
  rw [split] at cut
  have merged := w'.stored (freeBlock (b.addr + blockFor size)
    (mergedSize (b.size - blockFor size) (c :: post))) (by simp)
  rw [mergedSize, if_pos unused] at merged
  cases freed : sfFree (cutBlock h b size) ((cutTail b size).addr + 8) with
  | error fault =>
    rw [freed] at step
    exact absurd step (by simp [Except.map])
  | ok h'' =>
    rw [freed] at step
    obtain ⟨rfl, -⟩ := Prod.mk.inj (Except.ok.inj step)
    have tailSmall : (cutTail b size).size < 2 ^ 31 := by
      simp only [cutTail]
      omega
    exact sfFree_large_above cut rfl tailSmall unused above freed merged

/-- `sf_realloc` shrinks a block right if the sizes it reads are below 2 GiB. In a heap
below 4 GiB that is needed, unless the words outside the heap happen to help. -/
theorem sf_realloc_shrinks_iff (w : WellFormed h (pre ++ b :: post) lists)
    (taken : b.allocated = 1) (positive : 1 ≤ size) (fits : size ≤ b.size - 16) :
    (ShrinkSmall b post size → ShrinksRight env h pre b post lists size) ∧
      (h.endOfHeap < h.startOfHeap + 2 ^ 32 →
        (∀ h', SameHeap h h' → ShrinksRight env h' pre b post lists size) →
          ShrinkSmall b post size) := by
  constructor
  · exact sfRealloc_shrinks_right w taken positive fits
  · intro limit right
    have l := w.laidOut
    have mem : b ∈ pre ++ b :: post := by simp
    have small : b.size < 2 ^ 31 := by
      by_contra large
      obtain ⟨h', same, check⟩ := exists_checkBlock_fails l (mem_used.mpr ⟨mem, taken⟩) limit
        (Nat.le_of_not_lt large)
      obtain ⟨h'', returns, -⟩ := right h' same
      have stops := returns 0
      simp [sfRealloc, check] at stops
    refine ⟨small, fun cut c first unused => ?_⟩
    by_contra large
    obtain ⟨rest, rfl⟩ : ∃ rest, post = c :: rest := List.head?_eq_some_iff.mp first
    exact not_shrinksRight_large_above w taken positive small cut unused
      (Nat.le_of_not_lt large) (right h (.refl h))

/-- A block of 96 bytes for a request of 80. -/
def wideBlock : Block := ⟨16, 96, 1, 0, 80⟩

theorem widePair_wellFormed {size : Nat} (least : 32 ≤ size) (aligned : size % 16 = 0)
    (limit : size < 2 ^ 32) : WellFormed (pairHeap wideBlock size) (pairBlocks wideBlock size)
      (freeOf · (pairBlocks wideBlock size)) :=
  pairHeap_wellFormed rfl rfl (by constructor <;> decide) (by decide) (fun _ => rfl) least
    aligned limit

theorem sf_realloc_shrinks_to_20 : ShrinksRight plainSbrk (pairHeap wideBlock 4000) [] wideBlock
    [freeBlock 112 4000] (freeOf · (pairBlocks wideBlock 4000)) 20 :=
  (sf_realloc_shrinks_iff (widePair_wellFormed (by decide) (by decide) (by decide)) rfl
    (by decide) (by decide)).1 ⟨by decide, fun _ => by simp [SmallAbove, freeBlock]⟩

/-- The tail of 48 bytes is merged with a free block of 2 GiB and 4000 bytes. -/
theorem sf_realloc_leaves_far_footer : ¬ ∀ (env : Sbrk) (h : Heap) (pre post : List Block)
    (b : Block) (lists : Int → List Nat) (size : Nat), WellFormed h (pre ++ b :: post) lists →
      b.allocated = 1 → 1 ≤ size → size ≤ b.size - 16 →
        ShrinksRight env h pre b post lists size := by
  intro shrinks
  have w := @widePair_wellFormed (2 ^ 31 + 4000) (by decide) (by decide) (by decide)
  have split : WellFormed _ ([] ++ wideBlock :: freeBlock 112 (2 ^ 31 + 4000) :: []) _ := w
  exact not_shrinksRight_large_above split rfl (by decide) (by decide) (by decide) rfl (by decide)
    (shrinks plainSbrk _ [] [freeBlock 112 (2 ^ 31 + 4000)] wideBlock _ 20 w rfl (by decide)
      (by decide))

end LinuxSystem.Allocator
