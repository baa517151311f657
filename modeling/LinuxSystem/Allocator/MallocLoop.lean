import LinuxSystem.Allocator.Extend
import LinuxSystem.Allocator.FindFit

/-!
# The loop of sf_malloc

The loop ends: each page makes the last block larger, and the pages that are
missing run out.
-/

namespace LinuxSystem.Allocator

open Linked Tiling

variable {env : Sbrk} {h h' : Heap} {blocks blocks' : List Block} {lists lists' : Int → List Nat}
  {size : Nat}

/-- A heap between two calls. The sizes of its allocated blocks are read back as they
were written; those of its free blocks need not be. -/
structure Valid (env : Sbrk) (h : Heap) (blocks : List Block) (lists : Int → List Nat) : Prop where
  wellFormed : WellFormed h blocks lists
  grown : Grown env h
  small : ∀ b ∈ used blocks, b.size < 2 ^ 31

/-- The pages that `sf_malloc` asks for when no block fits and the heap ends in
`last` free bytes. -/
def pagesFor (last size : Nat) : Nat := (size + 16 - last + 4095) / 4096

/-- The size of the last block if it is free, as its footer has it. -/
def lastFreeSize (h : Heap) : Nat :=
  if h.startOfHeap = h.endOfHeap then 0
  else if allocated (h.mem (h.endOfHeap - 8)) = 0 then blockBytes (h.mem (h.endOfHeap - 8))
  else 0

/-- The block for the request has `n` bytes: the one that `find_fit` picks or, if
there is none, the last block of the heap once the pages it takes are granted. -/
inductive Picked (env : Sbrk) (h : Heap) (size : Nat) : Nat → Prop where
  | fit {fuel p : Nat} (found : findFit h fuel size = .ok p) (real : p ≠ 0) :
      Picked env h size (blockBytes (h.mem p))
  | grown {fuel : Nat} (none : findFit h fuel size = .ok 0)
      (granted : ∀ i < pagesFor (lastFreeSize h) size, env.grants (h.calls + i) = true) :
      Picked env h size (lastFreeSize h + 4096 * pagesFor (lastFreeSize h) size)

theorem Valid.bytes (v : Valid env h blocks lists) {b : Block} (mem : b ∈ used blocks) :
    blockBytes (h.mem b.addr) = b.size :=
  v.wellFormed.laidOut.bytes (mem_used.mp mem).1 (v.small b mem)

theorem Valid.lastFreeSize_eq (v : Valid env h blocks lists) (short : lastFree blocks < 2 ^ 31) :
    lastFreeSize h = lastFree blocks := by
  have w := v.wellFormed
  obtain rfl | ⟨pre, b, rfl⟩ := List.eq_nil_or_concat' blocks
  · have empty : h.startOfHeap = h.endOfHeap := w.tiles
    rw [lastFreeSize, if_pos empty]
    rfl
  · have mem : b ∈ pre ++ [b] := by simp
    have within := w.tiles.within mem
    have least := (w.shaped b mem).least
    have stop : b.addr + b.size = h.endOfHeap := by
      obtain ⟨mid, -, start, stop⟩ := tiles_append.mp w.tiles
      rw [start]
      exact stop
    have footer : h.endOfHeap - 8 = b.footer := by rw [Block.footer, stop]
    have stored := (w.stored b mem).footer
    rw [lastFreeSize, if_neg (by omega), footer, stored.allocated, lastFree_append_singleton]
    rw [lastFree_append_singleton] at short
    by_cases unused : b.allocated = 0
    · rw [if_pos unused] at short ⊢
      rw [if_pos unused, stored.bytes (w.shaped b mem).aligned short]
    · rw [if_neg unused, if_neg unused]

theorem lastFree_lt (small : ∀ b ∈ blocks, b.allocated = 0 → b.size < size + 16) :
    lastFree blocks < size + 16 := by
  obtain rfl | ⟨pre, b, rfl⟩ := List.eq_nil_or_concat' blocks
  · exact Nat.add_pos_right size (by decide)
  · rw [lastFree_append_singleton]
    split
    · rename_i unused
      exact small b (by simp) unused
    · omega

/-! ## Fuel -/

theorem mallocLoop_mono {fuel fuel' : Nat} {r : Heap × Nat} (more : fuel ≤ fuel')
    (result : mallocLoop env size fuel h = .ok r) : mallocLoop env size fuel' h = .ok r := by
  induction fuel generalizing fuel' h with
  | zero => exact absurd result (by simp [mallocLoop])
  | succ fuel ih =>
    cases fuel' with
    | zero => omega
    | succ fuel' =>
      rw [mallocLoop] at result ⊢
      cases first : findFit h (fuel + 1) size with
      | error fault =>
        rw [first] at result
        exact absurd result (by simp)
      | ok p =>
        rw [first] at result
        rw [findFit_mono more first]
        cases p with
        | zero =>
          dsimp only at result ⊢
          by_cases refused : (extendHeap env h).2 = 0
          · rwa [if_pos refused] at result ⊢
          · rw [if_neg refused] at result ⊢
            exact ih (by omega) result
        | succ p => exact result

theorem sfMalloc_mono {fuel fuel' : Nat} {r : Heap × Nat} (more : fuel ≤ fuel')
    (result : sfMalloc env fuel h size = .ok r) : sfMalloc env fuel' h size = .ok r := by
  unfold sfMalloc at result ⊢
  by_cases invalid : 4096 * 4 < size ∨ size = 0
  · rwa [if_pos invalid] at result ⊢
  · rw [if_neg invalid] at result ⊢
    cases first : mallocLoop env size fuel h with
    | error fault =>
      rw [first] at result
      exact absurd result (by simp)
    | ok q =>
      rw [first] at result
      rw [mallocLoop_mono more first]
      exact result

/-! ## The loop -/

/-- The loop returns `p` and leaves the allocated blocks alone. No free block that it
makes is large. -/
structure Looped (env : Sbrk) (size : Nat) (h : Heap) (blocks : List Block) (h' : Heap) (p : Nat)
    (blocks' : List Block) (lists' : Int → List Nat) : Prop where
  returns : ∃ enough, ∀ fuel, enough ≤ fuel → mallocLoop env size fuel h = .ok (h', p)
  laidOut : LaidOut h' blocks' lists'
  grown : Grown env h'
  used : used blocks' = used blocks
  untouched : ∀ c ∈ Allocator.used blocks, Untouched h h' c
  few : ∀ c ∈ blocks', c.allocated = 0 → c ∈ blocks ∨ c.size < 2 ^ 31

/-- The loop ends at once when a block fits. -/
theorem mallocLoop_found (l : LaidOut h blocks lists) (grown : Grown env h)
    (inside : size < 16 → h.head (-1) = 0) (some : firstFit h lists size ≠ 0) :
    Looped env size h blocks h (firstFit h lists size) blocks lists := by
  obtain ⟨least, result⟩ := l.findFit_eq inside
  refine ⟨⟨least + 1, fun fuel more => ?_⟩, l, grown, rfl, fun c _ => .refl h c,
    fun c mem _ => .inl mem⟩
  obtain ⟨p, eq⟩ := Nat.exists_eq_succ_of_ne_zero some
  cases fuel with
  | zero => omega
  | succ fuel =>
    rw [mallocLoop, result (fuel + 1) (by omega), eq]
    rfl

/-- A step of the loop that finds nothing asks for a page. -/
theorem mallocLoop_extend (l : LaidOut h blocks lists) (inside : size < 16 → h.head (-1) = 0)
    (none : firstFit h lists size = 0) : ∃ enough, ∀ fuel, enough ≤ fuel →
      mallocLoop env size (fuel + 1) h =
        if (extendHeap env h).2 = 0 then
          .ok ({ (extendHeap env h).1 with errno := some .ENOMEM }, 0)
        else mallocLoop env size fuel (extendHeap env h).1 := by
  obtain ⟨least, result⟩ := l.findFit_eq inside
  refine ⟨least, fun fuel more => ?_⟩
  rw [mallocLoop, result (fuel + 1) (by omega), none]
  rfl

/-- The loop goes on with the heap that has a page more. -/
theorem mallocLoop_page {p : Nat} {blocks₁ : List Block} (l : LaidOut h blocks lists)
    (inside : size < 16 → h.head (-1) = 0) (none : firstFit h lists size = 0)
    (short : lastFree blocks < 2 ^ 30) (real : (extendHeap env h).2 ≠ 0) (e : Extended env h (extendHeap env h).1 blocks blocks₁)
    (looped : Looped env size (extendHeap env h).1 blocks₁ h' p blocks' lists') :
    Looped env size h blocks h' p blocks' lists' where
  returns := by
    obtain ⟨least, step⟩ := mallocLoop_extend l inside none
    obtain ⟨enough, result⟩ := looped.returns
    refine ⟨max least enough + 1, fun fuel more => ?_⟩
    cases fuel with
    | zero => omega
    | succ fuel => rw [step fuel (by omega), if_neg real, result fuel (by omega)]
  laidOut := looped.laidOut
  grown := looped.grown
  used := looped.used.trans e.used
  untouched c mem := (e.untouched c mem).trans (looped.untouched c (e.used ▸ mem))
  few c mem unused := by
    obtain old | small := looped.few c mem unused
    · obtain old | new := e.free c old unused
      · exact .inl old
      · exact .inr (by omega)
    · exact .inr small

/-- The loop gives up when `sf_sbrk` does. -/
theorem mallocLoop_refused (l : LaidOut h blocks lists) (grown : Grown env h)
    (inside : size < 16 → h.head (-1) = 0) (none : firstFit h lists size = 0)
    (refused : env.grants h.calls = false) :
    Looped env size h blocks { h with calls := h.calls + 1, errno := some .ENOMEM } 0 blocks
      lists where
  returns := by
    obtain ⟨least, step⟩ := mallocLoop_extend l inside none
    refine ⟨least + 1, fun fuel more => ?_⟩
    cases fuel with
    | zero => omega
    | succ fuel =>
      rw [step fuel (by omega), extendHeap_refused grown refused]
      rfl
  laidOut := ⟨l.tiles, l.shaped, l.stored, l.linked, l.free⟩
  grown := by
    cases grown with
    | empty start stop pages calls =>
      rw [calls, env.first] at refused
      exact absurd refused (by decide)
    | pages start stop some => exact .pages start stop some
  used := rfl
  untouched _ _ _ _ _ := rfl
  few _ mem _ := .inl mem

/-- How the loop ends when `k` pages are missing behind `last` free bytes: with all
of them, or with those that came before the first refusal. -/
inductive Grew (env : Sbrk) (h : Heap) (size last k : Nat) (h' : Heap) (p : Nat)
    (blocks : List Block) : Prop where
  | granted {b : Block} (all : ∀ i < k, env.grants (h.calls + i) = true)
      (pages : h'.pages = h.pages + k) (calls : h'.calls = h.calls + k) (mem : b ∈ blocks)
      (unused : b.allocated = 0) (start : b.addr = p) (total : b.size = last + 4096 * k)
  | refused {i : Nat} (bound : i < k) (before : ∀ j < i, env.grants (h.calls + j) = true)
      (refuses : env.grants (h.calls + i) = false) (pages : h'.pages = h.pages + i)
      (calls : h'.calls = h.calls + (i + 1)) (errno : h'.errno = some .ENOMEM)
      (none : ∀ b ∈ blocks, b.allocated = 0 → b.size < size + 16) (null : p = 0)

theorem Grew.page {last k p : Nat} {h₁ : Heap} (grants : env.grants h.calls = true)
    (pages : h₁.pages = h.pages + 1) (calls : h₁.calls = h.calls + 1)
    (g : Grew env h₁ size (last + 4096) k h' p blocks) :
    Grew env h size last (k + 1) h' p blocks := by
  -- the calls from the next heap on are those from this heap on, but for the first
  have shift {n : Nat} (later : ∀ i < n, env.grants (h₁.calls + i) = true) :
      ∀ i < n + 1, env.grants (h.calls + i) = true := by
    intro i bound
    cases i with
    | zero => exact grants
    | succ i =>
      have next := later i (by omega)
      rwa [calls, Nat.add_right_comm] at next
  cases g with
  | granted all pages' calls' mem unused start total =>
    exact .granted (shift all) (by omega) (by omega) mem unused start (by omega)
  | refused bound before refuses pages' calls' errno none null =>
    rw [calls, Nat.add_right_comm] at refuses
    exact .refused (Nat.succ_lt_succ bound) (shift before) refuses (by omega) (by omega) errno
      none null

/-- Once the last block is free and no block fits, the pages do not make it large. -/
theorem smallLast_of_lastFree (positive : 0 < lastFree blocks) (limit : lastFree blocks < 2 ^ 31) :
    SmallLast blocks := by
  intro b last
  unfold lastFree at positive limit
  rw [Option.mem_def.mp last] at positive limit
  dsimp only at positive limit
  split at limit
  · exact limit
  · rename_i taken
    rw [if_neg taken] at positive
    exact absurd positive (Nat.lt_irrefl 0)

theorem mallocLoop_grow (k : Nat) (l : LaidOut h blocks lists) (grown : Grown env h)
    (limit : size ≤ 16384) (inside : size < 16 → h.head (-1) = 0)
    (none : firstFit h lists size = 0) (missing : pagesFor (lastFree blocks) size = k)
    (small : SmallLast blocks) :
    ∃ h' p blocks' lists', Looped env size h blocks h' p blocks' lists' ∧
      Grew env h size (lastFree blocks) k h' p blocks' := by
  have unfit {b : Block} := l.firstFit_zero limit none (b := b)
  have short := lastFree_lt fun b => unfit (b := b)
  induction k generalizing h blocks lists with
  | zero =>
    unfold pagesFor at missing
    omega
  | succ k ih =>
    cases grants : env.grants h.calls with
    | false =>
      refine ⟨_, _, _, _, mallocLoop_refused l grown inside none grants, ?_⟩
      exact .refused (Nat.succ_pos k) (by simp) grants rfl rfl rfl (fun b => unfit) rfl
    | true =>
      obtain ⟨real, blocks₁, lists₁, l₁, e⟩ := extendHeap_granted l grown small grants
      have pages : (extendHeap env h).1.pages = h.pages + 1 := pages_of_rest e.rest
      have calls : (extendHeap env h).1.calls = h.calls + 1 := calls_of_rest e.rest
      have front : (extendHeap env h).1.head (-1) = h.head (-1) := by
        rw [head_of_rest e.rest]
        rfl
      have inside₁ : size < 16 → (extendHeap env h).1.head (-1) = 0 := by rwa [front]
      by_cases more : firstFit (extendHeap env h).1 lists₁ size = 0
      · have unfit₁ {b : Block} := l₁.firstFit_zero limit more (b := b)
        have short₁ := lastFree_lt fun b => unfit₁ (b := b)
        have last := e.last
        have fewer : pagesFor (lastFree blocks₁) size = k := by
          rw [last]
          unfold pagesFor at missing ⊢
          omega
        have small₁ : SmallLast blocks₁ := smallLast_of_lastFree (by omega) (by omega)
        obtain ⟨h', p, blocks', lists', looped, g⟩ :=
          ih l₁ e.grown inside₁ more fewer small₁ unfit₁ short₁
        rw [last] at g
        exact ⟨h', p, blocks', lists', mallocLoop_page l inside none (by omega) real e looped,
          g.page grants pages calls⟩
      · -- only the block with the new page can fit
        obtain ⟨b, mem, unused, start, fit⟩ := l₁.firstFit_found limit more
        refine ⟨_, _, _, _, mallocLoop_page l inside none (by omega) real e
          (mallocLoop_found l₁ e.grown inside₁ more), ?_⟩
        obtain old | new := e.free b mem unused
        · have := unfit old unused
          omega
        · obtain rfl : k = 0 := by
            unfold pagesFor at missing
            omega
          have last : Grew env (extendHeap env h).1 size (lastFree blocks + 4096) 0
              (extendHeap env h).1 (firstFit (extendHeap env h).1 lists₁ size) blocks₁ :=
            .granted (by simp) rfl rfl mem unused start new
          exact last.page grants pages calls

/-! ## Between two calls -/

/-- The loop ends with the block that is picked, or with NULL. -/
inductive Ended (env : Sbrk) (h : Heap) (size : Nat) (h' : Heap) (p : Nat)
    (blocks : List Block) : Prop where
  | picked {b : Block} (mem : b ∈ blocks) (unused : b.allocated = 0) (start : b.addr = p)
      (fit : size + 16 ≤ b.size) (picked : Picked env h size (blockBytes (h'.mem b.addr)))
      (large : 2 ^ 31 ≤ b.size → h' = h)
  | failed (null : p = 0) (never : ∀ n, ¬ Picked env h size n)

theorem Picked.unique {m n : Nat} (first : Picked env h size m) (second : Picked env h size n) :
    m = n := by
  cases first with
  | fit found real =>
    cases second with
    | fit found' real' => rw [findFit_unique found found']
    | grown none' granted' => exact absurd (findFit_unique found none') real
  | grown none granted =>
    cases second with
    | fit found' real' => exact absurd (findFit_unique found' none) real'
    | grown none' granted' => rfl

theorem Looped.valid {p : Nat} (looped : Looped env size h blocks h' p blocks' lists')
    (v : Valid env h blocks lists) : Valid env h' blocks' lists' := by
  refine ⟨looped.laidOut.wellFormed ?_, looped.grown, looped.used ▸ v.small⟩
  intro b mem
  rw [looped.used] at mem
  exact v.wellFormed.filled b mem

theorem mallocLoop_ends (v : Valid env h blocks lists) (limit : size ≤ 16384)
    (inside : size < 16 → h.head (-1) = 0) :
    ∃ h' p blocks' lists', Looped env size h blocks h' p blocks' lists' ∧
      Valid env h' blocks' lists' ∧ Ended env h size h' p blocks' := by
  have l := v.wellFormed.laidOut
  obtain ⟨least, result⟩ := l.findFit_eq inside
  have result := result least (Nat.le_refl _)
  by_cases none : firstFit h lists size = 0
  · rw [none] at result
    have unfit {b : Block} := l.firstFit_zero limit none (b := b)
    have short := lastFree_lt fun b => unfit (b := b)
    have last := v.lastFreeSize_eq (by omega)
    have small : SmallLast blocks := by
      intro b last
      have mem := List.mem_of_getLast? last
      obtain unused | taken := (l.stored b mem).allocated_or
      · have := unfit mem unused
        omega
      · exact v.small b (mem_used.mpr ⟨mem, taken⟩)
    obtain ⟨h', p, blocks', lists', looped, g⟩ :=
      mallocLoop_grow _ l v.grown limit inside none rfl small
    rw [← last] at g
    cases g with
    | @granted b all pages calls mem unused start total =>
      refine ⟨h', p, blocks', lists', looped, looped.valid v, ?_⟩
      have fit : size + 16 ≤ b.size ∧ b.size < 2 ^ 31 := by
        unfold pagesFor at total
        omega
      refine .picked mem unused start fit.1 ?_ fun large => absurd fit.2 (Nat.not_lt.mpr large)
      rw [looped.laidOut.bytes mem fit.2, total]
      exact .grown result all
    | refused bound before refuses pages calls errno none null =>
      refine ⟨h', p, blocks', lists', looped, looped.valid v, ?_⟩
      refine .failed null fun n picked => ?_
      cases picked with
      | fit found real => exact real (findFit_unique found result)
      | grown _ granted =>
        rw [granted _ bound] at refuses
        exact absurd refuses (by decide)
  · obtain ⟨b, mem, unused, start, fit⟩ := l.firstFit_found limit none
    refine ⟨_, _, _, _, mallocLoop_found l v.grown inside none, v,
      .picked mem unused start fit ?_ fun _ => rfl⟩
    rw [start]
    exact .fit result none

end LinuxSystem.Allocator
