import LinuxSystem.Allocator.Drawn
import LinuxSystem.Allocator.FindFit

/-!
# The order of the search

`find_fit` returns the first fit of the lowest list that has one. For the smallest
requests it starts in front of the lists.
-/

namespace LinuxSystem.Allocator

open Tiling

variable {h : Heap} {blocks : List Block} {lists : Int → List Nat} {asize size : Nat}

/-- The outer loop with the indices at which it reads `seg_free_list`, in order. -/
def readInLists (h : Heap) (asize fuel : Nat) : List Int → Except Fault Nat × List Int
  | [] => (.ok 0, [])
  | n :: rest =>
    match findInList h asize fuel (h.head n) with
    | .ok 0 => ((readInLists h asize fuel rest).1, n :: (readInLists h asize fuel rest).2)
    | found => (found, [n])

/-- `find_fit` with the indices it reads. -/
def findFitReads (h : Heap) (fuel size : Nat) : Except Fault Nat × List Int :=
  readInLists h (size + 16) fuel (searched (size + 16))

theorem readInLists_fst (h : Heap) (asize fuel : Nat) (ns : List Int) :
    (readInLists h asize fuel ns).1 = findInLists h asize fuel ns := by
  induction ns with
  | nil => rfl
  | cons n ns ih =>
    rw [readInLists, findInLists]
    cases findInList h asize fuel (h.head n) with
    | error fault => rfl
    | ok p =>
      cases p with
      | zero => exact ih
      | succ p => rfl

theorem findFitReads_fst (h : Heap) (fuel size : Nat) :
    (findFitReads h fuel size).1 = findFit h fuel size :=
  readInLists_fst h (size + 16) fuel (searched (size + 16))

theorem readInLists_subset {fuel : Nat} {ns : List Int} {n : Int}
    (mem : n ∈ (readInLists h asize fuel ns).2) : n ∈ ns := by
  induction ns with
  | nil => exact mem
  | cons m ns ih =>
    rw [readInLists] at mem
    split at mem
    · obtain rfl | mem := List.mem_cons.mp mem
      · exact List.mem_cons_self
      · exact List.mem_cons_of_mem m (ih mem)
    · exact List.mem_singleton.mp mem ▸ List.mem_cons_self

theorem readInLists_head (fuel : Nat) (n : Int) (ns : List Int) :
    n ∈ (readInLists h asize fuel (n :: ns)).2 := by
  rw [readInLists]
  split
  · exact List.mem_cons_self
  · exact List.mem_cons_self

/-- The first hit in a row of lists is the first hit of the first list with one. -/
theorem find?_flatMap_first {ns : List Int} {f : Int → List Nat} {q : Nat → Bool} {x : Nat}
    (sorted : ns.Pairwise (· < ·)) (found : (ns.flatMap f).find? q = some x) :
    ∃ n ∈ ns, (∀ m ∈ ns, m < n → ∀ y ∈ f m, ¬ q y = true) ∧ (f n).find? q = some x := by
  induction ns with
  | nil => exact absurd found (by simp)
  | cons n ns ih =>
    obtain ⟨first, sorted⟩ := List.pairwise_cons.mp sorted
    rw [List.flatMap_cons, List.find?_append] at found
    cases here : (f n).find? q with
    | some y =>
      rw [here, Option.some_or] at found
      refine ⟨n, List.mem_cons_self, fun m mem less => ?_, here.trans found⟩
      obtain rfl | mem := List.mem_cons.mp mem
      · exact absurd less (Int.lt_irrefl m)
      · exact absurd (first m mem) (Int.not_lt.mpr (Int.le_of_lt less))
    | none =>
      rw [here, Option.none_or] at found
      obtain ⟨k, mem, lower, hit⟩ := ih sorted found
      refine ⟨k, List.mem_cons_of_mem n mem, fun m mem less => ?_, hit⟩
      obtain rfl | mem := List.mem_cons.mp mem
      · exact List.find?_eq_none.mp here
      · exact lower m mem less

/-- `x` is a free block that holds a request of `size` bytes. -/
def Fit (blocks : List Block) (size x : Nat) : Prop :=
  ∃ b ∈ blocks, b.addr = x ∧ b.allocated = 0 ∧ size + 16 ≤ b.size

/-- The result of a complete search: NULL without a fit, and otherwise the first fit
of the lowest list that has one. -/
inductive Searched (blocks : List Block) (lists : Int → List Nat) (size : Nat) : Nat → Prop where
  | null (none : ∀ x, ¬ Fit blocks size x) : Searched blocks lists size 0
  | first {n : Int} {p : Nat} {front back : List Nat} (low : 0 ≤ n) (high : n < 4)
      (lower : ∀ m < n, ∀ x ∈ lists m, ¬ Fit blocks size x) (order : lists n = front ++ p :: back)
      (earlier : ∀ x ∈ front, ¬ Fit blocks size x) (fit : Fit blocks size p) :
      Searched blocks lists size p

theorem LaidOut.eq_of_addr (l : LaidOut h blocks lists) {b c : Block} (hb : b ∈ blocks)
    (hc : c ∈ blocks) (same : b.addr = c.addr) : b = c := by
  have := (l.shaped b hb).least
  have := (l.shaped c hc).least
  obtain eq | before | after := l.tiles.spread.apart hb hc
  · exact eq
  · omega
  · omega

theorem LaidOut.fit_iff (l : LaidOut h blocks lists) (limit : size ≤ 16384) {n : Int} {x : Nat}
    (node : x ∈ lists n) : Fit blocks size x ↔ fits h (size + 16) x = true := by
  obtain ⟨b, mem, unused, -, rfl⟩ := l.mem_lists.mp node
  rw [l.fits_iff (by omega) mem unused]
  constructor
  · rintro ⟨c, hc, start, -, fit⟩
    rwa [← l.eq_of_addr hc mem start]
  · intro fit
    exact ⟨b, mem, rfl, unused, fit⟩

/-- A list with a fit is searched. -/
theorem LaidOut.searched_of_fit (l : LaidOut h blocks lists) {n : Int} {x : Nat}
    (node : x ∈ lists n) (fit : Fit blocks size x) : n ∈ searched (size + 16) := by
  obtain ⟨b, mem, unused, rfl, rfl⟩ := l.mem_lists.mp node
  obtain ⟨c, hc, start, -, fit⟩ := fit
  obtain rfl := l.eq_of_addr hc mem start
  by_contra out
  have := lt_of_not_searched (l.shaped c hc).least out
  omega

theorem searched_sorted (asize : Nat) : (searched asize).Pairwise (· < ·) :=
  List.Pairwise.filter _ (by decide)

theorem LaidOut.firstFit_searched (l : LaidOut h blocks lists) (limit : size ≤ 16384) :
    Searched blocks lists size (firstFit h lists size) := by
  by_cases null : firstFit h lists size = 0
  · rw [null]
    apply Searched.null
    rintro x ⟨b, mem, -, unused, fit⟩
    have := l.firstFit_zero limit null mem unused
    omega
  · unfold firstFit at null ⊢
    cases found : ((searched (size + 16)).flatMap lists).find? (fits h (size + 16)) with
    | none => simp [found] at null
    | some p =>
      rw [Option.getD_some]
      obtain ⟨n, mem, lower, hit⟩ := find?_flatMap_first (searched_sorted _) found
      obtain ⟨fit, front, back, order, earlier⟩ := List.find?_eq_some_iff_append.mp hit
      have node : p ∈ lists n := by simp [order]
      obtain ⟨b, -, -, rfl, -⟩ := l.mem_lists.mp node
      obtain ⟨low, high⟩ := listIndex_bounds b.size
      refine .first low high ?_ order ?_ ((l.fit_iff limit node).mpr fit)
      · -- a list below with a fit would be searched, and searched first
        intro m less x node fit
        have read := l.searched_of_fit node fit
        exact lower m read less x node ((l.fit_iff limit node).mp fit)
      · intro x mem
        rw [l.fit_iff limit (n := listIndex b.size) (by simp [order, mem])]
        simpa using earlier x mem

/-- `find_fit` returns what a complete search does, and reads no list but the four. -/
def SearchesRight (h : Heap) (blocks : List Block) (lists : Int → List Nat) (size : Nat) : Prop :=
  ∃ enough, ∀ fuel, enough ≤ fuel →
    (∀ n ∈ (findFitReads h fuel size).2, 0 ≤ n ∧ n < 4) ∧
      ∃ p, findFit h fuel size = .ok p ∧ Searched blocks lists size p

/-- Below 16 bytes the search starts in front of the lists. -/
theorem findFit_reads_front (fuel : Nat) (tiny : size < 16) :
    -1 ∈ (findFitReads h fuel size).2 := by
  have first : firstList (size + 16) = -1 := by
    unfold firstList
    split_ifs <;> omega
  have order : searched (size + 16) = -1 :: [0, 1, 2, 3] := by
    rw [searched, first]
    decide
  rw [findFitReads, order]
  exact readInLists_head fuel (-1) _

/-- The search is right for exactly the requests of at least 16 bytes. -/
theorem find_fit_searches_iff (l : LaidOut h blocks lists) (limit : size ≤ 16384) :
    SearchesRight h blocks lists size ↔ 16 ≤ size := by
  constructor
  · rintro ⟨enough, right⟩
    by_contra tiny
    have front := (right enough (Nat.le_refl _)).1 _ (findFit_reads_front enough (by omega))
    omega
  · intro large
    have inside : size < 16 → h.head (-1) = 0 := by omega
    obtain ⟨enough, result⟩ := l.findFit_eq inside
    refine ⟨enough, fun fuel more => ⟨?_, _, result fuel more, l.firstFit_searched limit⟩⟩
    intro n mem
    have read := readInLists_subset mem
    exact ⟨searched_bounds read large, (mem_searched.mp read).2.2⟩

/-! A heap of one page at address 16. -/

def pageHeap : Heap := drawn 16 4112 1 [⟨16, 4096, 0, 0, 0⟩]

theorem pageHeap_laidOut :
    LaidOut pageHeap [⟨16, 4096, 0, 0, 0⟩] (freeOf · [⟨16, 4096, 0, 0, 0⟩]) := by
  have tiles : Tiles Block.addr Block.size 16 [⟨16, 4096, 0, 0, 0⟩] 4112 := ⟨rfl, rfl⟩
  apply drawn_laidOut tiles (by decide) ?_ (by simp) (by decide)
  intro b mem
  obtain rfl := List.mem_singleton.mp mem
  constructor <;> decide

theorem find_fit_searches_for_100 :
    SearchesRight pageHeap [⟨16, 4096, 0, 0, 0⟩] (freeOf · [⟨16, 4096, 0, 0, 0⟩]) 100 :=
  (find_fit_searches_iff pageHeap_laidOut (by decide)).mpr (by decide)

/-- A request of one byte reads the word in front of the four lists. -/
theorem find_fit_leaves_the_lists : ¬ ∀ (h : Heap) (blocks : List Block) (lists : Int → List Nat)
    (size : Nat), LaidOut h blocks lists → 1 ≤ size → size ≤ 16384 →
      SearchesRight h blocks lists size := by
  intro searches
  obtain ⟨enough, right⟩ := searches _ _ _ 1 pageHeap_laidOut (by decide) (by decide)
  have front := (right enough (Nat.le_refl _)).1 _ (findFit_reads_front enough (by decide))
  exact absurd front.1 (by decide)

end LinuxSystem.Allocator
