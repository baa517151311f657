import LinuxSystem.Allocator.Window

/-!
# Finding a fit

`find_fit` walks the lists from that of the request upwards. What it returns is
the first node that fits, in the order of the lists.
-/

namespace LinuxSystem.Allocator

open Linked

variable {h : Heap} {blocks : List Block} {lists : Int → List Nat} {asize size : Nat}

def fits (h : Heap) (asize x : Nat) : Bool :=
  allocated (h.mem x) = 0 ∧ asize ≤ blockBytes (h.mem x)

/-- List `n` as the inner loop sees it: its nodes, from the head to NULL. -/
structure Path (h : Heap) (n : Int) (l : List Nat) : Prop where
  start : (l ++ [0]).head? = some (h.head n)
  steps : List.IsChain (fun a b => h.next a = b) (l ++ [0])
  real : 0 ∉ l

theorem path_of_linked {n : Int} {l : List Nat} (linked : Doubly (h.nextFrom n) h.prev 0 l)
    (real : 0 ∉ l) : Path h n l where
  start := linked.head
  steps := by
    have tail : List.IsChain (Link (h.nextFrom n) h.prev 0) (l ++ [0]) := linked.tail
    refine chain_congr (fun a ha b _ link => ?_) tail
    rw [List.dropLast_concat] at ha
    have nonzero : a ≠ 0 := ne_of_mem_of_not_mem ha real
    rw [← link.1, Heap.nextFrom, if_neg nonzero]
  real := real

theorem findInList_eq {l : List Nat} {ptr fuel : Nat} (start : (l ++ [0]).head? = some ptr)
    (steps : List.IsChain (fun a b => h.next a = b) (l ++ [0])) (real : 0 ∉ l)
    (enough : l.length < fuel) :
    findInList h asize fuel ptr = .ok ((l.find? (fits h asize)).getD 0) := by
  induction l generalizing ptr fuel with
  | nil =>
    obtain rfl : 0 = ptr := Option.some.inj start
    cases fuel with
    | zero => exact absurd enough (Nat.not_lt_zero _)
    | succ fuel => rfl
  | cons x l ih =>
    obtain rfl : x = ptr := Option.some.inj start
    cases fuel with
    | zero => exact absurd enough (Nat.not_lt_zero _)
    | succ fuel =>
      have nonzero : x ≠ 0 := by
        rintro rfl
        simp at real
      rw [findInList, if_neg nonzero]
      by_cases fit : allocated (h.mem x) = 0 ∧ asize ≤ blockBytes (h.mem x)
      · have found : fits h asize x = true := decide_eq_true fit
        rw [if_pos fit, List.find?_cons_of_pos found]
        rfl
      · have missed : ¬ fits h asize x = true := by simpa [fits] using fit
        rw [if_neg fit, List.find?_cons_of_neg missed]
        apply ih
        · cases l with
          | nil => exact congrArg some steps.rel.symm
          | cons y l => exact congrArg some steps.rel.symm
        · exact steps.tail
        · exact fun mem => real (List.mem_cons_of_mem x mem)
        · simpa using enough

theorem findInLists_eq {ns : List Int} {fuel : Nat} (paths : ∀ n ∈ ns, Path h n (lists n))
    (enough : ∀ n ∈ ns, (lists n).length < fuel) : findInLists h asize fuel ns =
      .ok (((ns.flatMap lists).find? (fits h asize)).getD 0) := by
  induction ns with
  | nil => rfl
  | cons n ns ih =>
    have path := paths n (by simp)
    have rest := ih (fun m mem => paths m (by simp [mem])) fun m mem => enough m (by simp [mem])
    rw [findInLists, findInList_eq path.start path.steps path.real (enough n (by simp)), rest,
      List.flatMap_cons, List.find?_append]
    cases found : (lists n).find? (fits h asize) with
    | none => rfl
    | some x =>
      have nonzero : x ≠ 0 := ne_of_mem_of_not_mem (List.mem_of_find?_eq_some found) path.real
      cases x with
      | zero => exact absurd rfl nonzero
      | succ x => rfl

/-! More fuel does not change what is found. -/

theorem findInList_mono {ptr fuel fuel' r : Nat} (more : fuel ≤ fuel')
    (result : findInList h asize fuel ptr = .ok r) : findInList h asize fuel' ptr = .ok r := by
  induction fuel generalizing ptr fuel' with
  | zero => exact absurd result (by simp [findInList])
  | succ fuel ih =>
    cases fuel' with
    | zero => omega
    | succ fuel' =>
      rw [findInList] at result ⊢
      by_cases null : ptr = 0
      · rwa [if_pos null] at result ⊢
      · by_cases fit : allocated (h.mem ptr) = 0 ∧ asize ≤ blockBytes (h.mem ptr)
        · rwa [if_neg null, if_pos fit] at result ⊢
        · rw [if_neg null, if_neg fit] at result ⊢
          exact ih (by omega) result

theorem findInLists_mono {ns : List Int} {fuel fuel' r : Nat} (more : fuel ≤ fuel')
    (result : findInLists h asize fuel ns = .ok r) : findInLists h asize fuel' ns = .ok r := by
  induction ns with
  | nil => exact result
  | cons n ns ih =>
    rw [findInLists] at result ⊢
    cases first : findInList h asize fuel (h.head n) with
    | error fault =>
      rw [first] at result
      exact absurd result (by simp)
    | ok p =>
      rw [first] at result
      rw [findInList_mono more first]
      cases p with
      | zero => exact ih result
      | succ p => exact result

theorem findFit_mono {fuel fuel' r : Nat} (more : fuel ≤ fuel')
    (result : findFit h fuel size = .ok r) : findFit h fuel' size = .ok r :=
  findInLists_mono more result

theorem findFit_unique {fuel fuel' p q : Nat} (left : findFit h fuel size = .ok p)
    (right : findFit h fuel' size = .ok q) : p = q :=
  Except.ok.inj ((findFit_mono (Nat.le_max_left fuel fuel') left).symm.trans
    (findFit_mono (Nat.le_max_right fuel fuel') right))

/-! ## The lists that are searched -/

def searched (asize : Nat) : List Int := [-1, 0, 1, 2, 3].filter (firstList asize ≤ ·)

theorem mem_searched {n : Int} :
    n ∈ searched asize ↔ firstList asize ≤ n ∧ -1 ≤ n ∧ n < 4 := by
  simp only [searched, List.mem_filter, List.mem_cons, List.not_mem_nil, or_false,
    decide_eq_true_eq]
  omega

/-- The list in front of the first is searched for the smallest requests only. -/
theorem searched_bounds {n : Int} (mem : n ∈ searched (size + 16)) (large : 16 ≤ size) :
    0 ≤ n := by
  rw [mem_searched] at mem
  have first : 0 ≤ firstList (size + 16) := by
    unfold firstList
    split_ifs <;> omega
  omega

/-- The lists that are left out hold no block that is large enough. -/
theorem lt_of_not_searched (least : 32 ≤ size) (out : listIndex size ∉ searched asize) :
    size < asize := by
  rw [mem_searched] at out
  obtain ⟨low, high⟩ := listIndex_bounds size
  have below : listIndex size < firstList asize := by omega
  unfold listIndex firstList at below
  split_ifs at below <;> omega

theorem LaidOut.listed (l : LaidOut h blocks lists) {b : Block} (mem : b ∈ blocks)
    (unused : b.allocated = 0) : b.addr ∈ lists (listIndex b.size) :=
  l.mem_lists.mpr ⟨b, mem, unused, rfl, rfl⟩

theorem LaidOut.node_real (l : LaidOut h blocks lists) {n : Int} {x : Nat} (node : x ∈ lists n) :
    x ≠ 0 := by
  obtain ⟨b, mem, -, -, rfl⟩ := l.mem_lists.mp node
  exact (l.shaped b mem).real.ne'

theorem LaidOut.paths (l : LaidOut h blocks lists) (inside : size < 16 → h.head (-1) = 0) :
    ∀ n ∈ searched (size + 16), Path h n (lists n) := by
  intro n mem
  have real : 0 ∉ lists n := fun null => l.node_real null rfl
  by_cases low : 0 ≤ n
  · exact path_of_linked (l.linked n low (mem_searched.mp mem).2.2) real
  · -- the word in front of the heads is taken for a list, an empty one
    have front : n = -1 := by
      have := (mem_searched.mp mem).2.1
      omega
    have small : size < 16 := by
      by_contra large
      exact low (searched_bounds mem (by omega))
    have none : lists n = [] := by
      rw [List.eq_nil_iff_forall_not_mem]
      intro x node
      obtain ⟨b, -, -, index, -⟩ := l.mem_lists.mp node
      have := (listIndex_bounds b.size).1
      omega
    rw [none, front]
    refine ⟨?_, .singleton 0, List.not_mem_nil⟩
    rw [inside small]
    rfl

/-- What `find_fit` returns: the first fit, or 0. -/
def firstFit (h : Heap) (lists : Int → List Nat) (size : Nat) : Nat :=
  (((searched (size + 16)).flatMap lists).find? (fits h (size + 16))).getD 0

theorem findFit_of_paths (paths : ∀ n ∈ searched (size + 16), Path h n (lists n)) :
    ∃ enough, ∀ fuel, enough ≤ fuel → findFit h fuel size = .ok (firstFit h lists size) := by
  have bound (ns : List Int) : ∃ enough, ∀ n ∈ ns, (lists n).length < enough := by
    induction ns with
    | nil => exact ⟨0, by simp⟩
    | cons n ns ih =>
      obtain ⟨enough, all⟩ := ih
      refine ⟨max enough ((lists n).length + 1), fun m mem => ?_⟩
      obtain rfl | mem := List.mem_cons.mp mem
      · omega
      · have := all m mem
        omega
  obtain ⟨enough, all⟩ := bound (searched (size + 16))
  refine ⟨enough, fun fuel more => findInLists_eq paths fun n mem => ?_⟩
  have := all n mem
  omega

theorem LaidOut.findFit_eq (l : LaidOut h blocks lists)
    (inside : size < 16 → h.head (-1) = 0) :
    ∃ enough, ∀ fuel, enough ≤ fuel → findFit h fuel size = .ok (firstFit h lists size) :=
  findFit_of_paths (l.paths inside)

/-- From 2 GiB on a size is read as a larger one, so the comparison is right. -/
theorem LaidOut.fits_iff (l : LaidOut h blocks lists) (limit : asize ≤ 2 ^ 31) {b : Block}
    (mem : b ∈ blocks) (unused : b.allocated = 0) : fits h asize b.addr = true ↔ asize ≤ b.size := by
  have header := (l.stored b mem).header
  have bytes : asize ≤ blockBytes (h.mem b.addr) ↔ asize ≤ b.size := by
    by_cases small : b.size < 2 ^ 31
    · rw [l.bytes mem small]
    · rw [blockBytes_large header.size (l.shaped b mem).aligned (by omega)]
      omega
  simp [fits, header.allocated, unused, bytes]

/-- If nothing is found, every free block is too small. -/
theorem LaidOut.firstFit_zero (l : LaidOut h blocks lists) (limit : size ≤ 16384)
    (none : firstFit h lists size = 0) {b : Block} (mem : b ∈ blocks) (unused : b.allocated = 0) :
    b.size < size + 16 := by
  by_cases out : listIndex b.size ∈ searched (size + 16)
  · have missed : ((searched (size + 16)).flatMap lists).find? (fits h (size + 16)) = .none := by
      unfold firstFit at none
      cases found : ((searched (size + 16)).flatMap lists).find? (fits h (size + 16)) with
      | none => rfl
      | some x =>
        obtain ⟨n, -, node⟩ := List.mem_flatMap.mp (List.mem_of_find?_eq_some found)
        rw [found, Option.getD_some] at none
        exact absurd none (l.node_real node)
    have unfit := List.find?_eq_none.mp missed b.addr
      (List.mem_flatMap.mpr ⟨_, out, l.listed mem unused⟩)
    rw [l.fits_iff (by omega) mem unused] at unfit
    omega
  · exact lt_of_not_searched (l.shaped b mem).least out

/-- What is found is a free block that is large enough. -/
theorem LaidOut.firstFit_found (l : LaidOut h blocks lists) (limit : size ≤ 16384)
    (some : firstFit h lists size ≠ 0) :
    ∃ b ∈ blocks, b.allocated = 0 ∧ b.addr = firstFit h lists size ∧ size + 16 ≤ b.size := by
  unfold firstFit at some ⊢
  cases found : ((searched (size + 16)).flatMap lists).find? (fits h (size + 16)) with
  | none => simp [found] at some
  | some x =>
    obtain ⟨n, -, node⟩ := List.mem_flatMap.mp (List.mem_of_find?_eq_some found)
    obtain ⟨b, mem, unused, -, rfl⟩ := l.mem_lists.mp node
    have fit := List.find?_some found
    exact ⟨b, mem, unused, rfl, (l.fits_iff (by omega) mem unused).mp fit⟩

end LinuxSystem.Allocator
