import LinuxSystem.Allocator.Layout

/-!
# Editing the free lists

What `insert_seg_free_list` and `remove_seg_free_list` do to the four lists, and
which words of the memory they leave alone.
-/

namespace LinuxSystem.Allocator

open Linked

def push (lists : Int → List Nat) (n : Int) (p : Nat) : Int → List Nat :=
  Function.update lists n (p :: lists n)

def drop (lists : Int → List Nat) (n : Int) (p : Nat) : Int → List Nat :=
  Function.update lists n ((lists n).erase p)

/-- The links of the nodes, with the nodes far enough apart that no two share a
word. -/
structure FreeLists (h : Heap) (lists : Int → List Nat) : Prop where
  linked : ∀ n, 0 ≤ n → n < 4 → Doubly (h.nextFrom n) h.prev 0 (lists n)
  once : ∀ n, (0 :: lists n).Nodup
  apart : ∀ m n x y, x ∈ lists m → y ∈ lists n → (x = y ∧ m = n) ∨ x + 32 ≤ y ∨ y + 32 ≤ x

/-- `a` is not a link word of a node in `l`. -/
def NoLink (l : List Nat) (a : Nat) : Prop := ∀ x ∈ l, a ≠ x + 8 ∧ a ≠ x + 16

section Links

variable (h : Heap) (n : Int) (p q x a : Nat)

@[simp] theorem setHead_head : (h.setHead n p).head = Function.update h.head n p := rfl

@[simp] theorem setHead_mem : (h.setHead n p).mem = h.mem := rfl

@[simp] theorem setHead_next : (h.setHead n p).next x = h.next x := rfl

@[simp] theorem setNext_head : (h.setNext p q).head = h.head := rfl

@[simp] theorem setNext_mem : (h.setNext p q).mem a = if a = p + 8 then q else h.mem a :=
  Function.update_apply ..

@[simp] theorem setNext_next : (h.setNext p q).next x = if x = p then q else h.next x := by
  simp [Heap.next]

@[simp] theorem setNext_prev : (h.setNext p q).prev x = if x + 8 = p then q else h.prev x := by
  simp [Heap.prev]

@[simp] theorem setPrev_head : (h.setPrev p q).head = h.head := rfl

@[simp] theorem setPrev_mem : (h.setPrev p q).mem a = if a = p + 16 then q else h.mem a :=
  Function.update_apply ..

@[simp] theorem setNext_rest : (h.setNext p q).rest = h.rest := rfl

@[simp] theorem setPrev_rest : (h.setPrev p q).rest = h.rest := rfl

@[simp] theorem setPrev_next : (h.setPrev p q).next x = if x = p + 8 then q else h.next x := by
  simp [Heap.next]

end Links

theorem setHead_rest (h : Heap) {n : Int} (low : 0 ≤ n) (high : n < 4) (p : Nat) :
    (h.setHead n p).rest = h.rest := by
  have heads : (fun m => if 0 ≤ m ∧ m < 4 then 0 else Function.update h.head n p m) =
      fun m => if 0 ≤ m ∧ m < 4 then 0 else h.head m := by
    funext m
    split
    · rfl
    · exact Function.update_of_ne (by omega) _ _
  simp only [Heap.rest, Heap.setHead, heads]

variable {h h' : Heap} {lists : Int → List Nat} {n : Int} {p : Nat}

theorem FreeLists.real (f : FreeLists h lists) (mem : p ∈ lists n) : p ≠ 0 := by
  rintro rfl
  exact (List.nodup_cons.mp (f.once n)).1 mem

/-- A list whose head pointer and link words are the same is the same. -/
theorem linked_congr {l : List Nat} (linked : Doubly (h.nextFrom n) h.prev 0 l)
    (head : h'.head n = h.head n)
    (links : ∀ x ∈ l, h'.mem (x + 8) = h.mem (x + 8) ∧ h'.mem (x + 16) = h.mem (x + 16)) :
    Doubly (h'.nextFrom n) h'.prev 0 l := by
  apply linked.congr
  · intro x mem
    unfold Heap.nextFrom
    split
    · exact head
    · rename_i real
      exact (links x ((List.mem_cons.mp mem).resolve_left real)).1
  · intro x mem
    exact (links x mem).2

theorem FreeLists.congr (f : FreeLists h lists) (heads : h'.head = h.head)
    (links : ∀ n, ∀ x ∈ lists n,
      h'.mem (x + 8) = h.mem (x + 8) ∧ h'.mem (x + 16) = h.mem (x + 16)) :
    FreeLists h' lists where
  linked n low high := linked_congr (f.linked n low high) (congrFun heads n) (links n)
  once := f.once
  apart := f.apart

/-! ## Inserting -/

@[simp] theorem insertSegFreeList_rest : (insertSegFreeList h p).rest = h.rest := by
  obtain ⟨low, high⟩ := listIndex_bounds (blockBytes (h.mem p))
  unfold insertSegFreeList insertSegFreeListHelper
  split <;> simp [setHead_rest _ low high]

theorem insertHelper_head :
    (insertSegFreeListHelper h p n).head = Function.update h.head n p := by
  unfold insertSegFreeListHelper
  split <;> rfl

theorem insertHelper_mem (a : Nat) : (insertSegFreeListHelper h p n).mem a =
    if h.head n ≠ 0 ∧ a = h.head n + 16 then p
    else if a = p + 16 then 0
    else if a = p + 8 then h.head n
    else h.mem a := by
  unfold insertSegFreeListHelper
  split
  · rename_i empty
    simp [Heap.setNext, Heap.setPrev, Heap.setHead, Heap.write, Function.update_apply, empty]
  · rename_i real
    simp [Heap.setNext, Heap.setPrev, Heap.setHead, Heap.write, Function.update_apply, real]

/-- The word after an insertion, away from the links that are written. -/
theorem insertHelper_keeps {a : Nat} (next : a ≠ p + 8) (prev : a ≠ p + 16)
    (back : h.head n = 0 ∨ a ≠ h.head n + 16) :
    (insertSegFreeListHelper h p n).mem a = h.mem a := by
  rw [insertHelper_mem, if_neg (by tauto), if_neg prev, if_neg next]

theorem FreeLists.head_mem (f : FreeLists h lists) (low : 0 ≤ n) (high : n < 4)
    (real : h.head n ≠ 0) : h.head n ∈ lists n := by
  have first := (f.linked n low high).head_mem
  simp only [Heap.nextFrom, if_pos] at first
  exact first real

theorem FreeLists.insert_keeps (f : FreeLists h lists) (low : 0 ≤ n) (high : n < 4) {a : Nat}
    (clear : NoLink (p :: lists n) a) : (insertSegFreeListHelper h p n).mem a = h.mem a := by
  apply insertHelper_keeps
  · exact (clear p (by simp)).1
  · exact (clear p (by simp)).2
  · rw [or_iff_not_imp_left]
    intro real
    exact (clear (h.head n) (List.mem_cons_of_mem _ (f.head_mem low high real))).2

theorem mem_push {m : Int} {x : Nat} (mem : x ∈ push lists n p m) :
    x ∈ lists m ∨ (x = p ∧ m = n) := by
  by_cases same : m = n
  · subst m
    rw [push, Function.update_self, List.mem_cons] at mem
    tauto
  · rw [push, Function.update_of_ne same] at mem
    exact Or.inl mem

theorem push_once (once : ∀ m, (0 :: lists m).Nodup) (real : p ≠ 0) (fresh : p ∉ lists n)
    (m : Int) : (0 :: push lists n p m).Nodup := by
  by_cases same : m = n
  · subst m
    have := once n
    simp only [push, Function.update_self, List.nodup_cons, List.mem_cons, not_or] at this ⊢
    exact ⟨⟨real.symm, this.1⟩, fresh, this.2⟩
  · rw [push, Function.update_of_ne same]
    exact once m

/-- List `n` itself, once the links of `p` and of the old head are written. -/
theorem insert_linked (linked : Doubly (h.nextFrom n) h.prev 0 (lists n))
    (distinct : (0 :: p :: lists n).Nodup)
    (clear : h.head n ≠ 0 → h.head n + 32 ≤ p ∨ p + 32 ≤ h.head n)
    (nexts : ∀ x ∈ lists n, (insertSegFreeListHelper h p n).mem (x + 8) = h.mem (x + 8))
    (prevs : ∀ x ∈ lists n, x ≠ h.head n →
      (insertSegFreeListHelper h p n).mem (x + 16) = h.mem (x + 16)) :
    Doubly ((insertSegFreeListHelper h p n).nextFrom n) (insertSegFreeListHelper h p n).prev 0
      (p :: lists n) := by
  have start : h.nextFrom n 0 = h.head n := if_pos rfl
  have real : p ≠ 0 := by
    rintro rfl
    simp at distinct
  have nil (x : Nat) (mem : x ∈ lists n) : x ≠ 0 := by
    rintro rfl
    simp [mem] at distinct
  apply linked.insert distinct
  · simp [Heap.nextFrom, insertHelper_head]
  · rw [Heap.prev, insertHelper_mem, if_neg (by omega), if_pos rfl]
  · rw [start, Heap.nextFrom, if_neg real, Heap.next, insertHelper_mem, if_neg (by omega),
      if_neg (by omega), if_pos rfl]
  · rw [start]
    intro real
    rw [Heap.prev, insertHelper_mem, if_pos ⟨real, rfl⟩]
  · intro x mem
    simp only [Heap.nextFrom, if_neg (nil x mem), Heap.next]
    exact nexts x mem
  · rw [start]
    exact prevs

theorem FreeLists.insert (f : FreeLists h lists) (low : 0 ≤ n) (high : n < 4) (real : p ≠ 0)
    (clear : ∀ m, ∀ x ∈ lists m, x + 32 ≤ p ∨ p + 32 ≤ x) :
    FreeLists (insertSegFreeListHelper h p n) (push lists n p) := by
  have fresh : p ∉ lists n := by
    intro mem
    have := clear n p mem
    omega
  have head := f.head_mem low high
  have once := push_once f.once real fresh
  -- of the old nodes, only the first of list `n` is written, and only its `prev`
  have nexts (m : Int) (x : Nat) (mem : x ∈ lists m) :
      (insertSegFreeListHelper h p n).mem (x + 8) = h.mem (x + 8) := by
    have := clear m x mem
    refine insertHelper_keeps (by omega) (by omega) (or_iff_not_imp_left.mpr fun real => ?_)
    have := f.apart m n x _ mem (head real)
    omega
  have prevs (m : Int) (x : Nat) (mem : x ∈ lists m) (other : m ≠ n ∨ x ≠ h.head n) :
      (insertSegFreeListHelper h p n).mem (x + 16) = h.mem (x + 16) := by
    have := clear m x mem
    refine insertHelper_keeps (by omega) (by omega) (or_iff_not_imp_left.mpr fun real => ?_)
    have := f.apart m n x _ mem (head real)
    omega
  constructor
  · intro m low' high'
    by_cases same : m = n
    · subst m
      have distinct := once n
      rw [push, Function.update_self] at distinct ⊢
      apply insert_linked (f.linked n low high) distinct
      · intro real
        exact clear n _ (head real)
      · exact nexts n
      · intro x mem other
        exact prevs n x mem (Or.inr other)
    · rw [push, Function.update_of_ne same]
      apply linked_congr (f.linked m low' high')
      · rw [insertHelper_head, Function.update_of_ne same]
      · intro x mem
        exact ⟨nexts m x mem, prevs m x mem (Or.inl same)⟩
  · exact once
  · intro k m x y hx hy
    obtain old | ⟨rfl, rfl⟩ := mem_push hx
    · obtain old' | ⟨rfl, rfl⟩ := mem_push hy
      · exact f.apart k m x y old old'
      · exact Or.inr (clear k x old)
    · obtain old' | ⟨rfl, rfl⟩ := mem_push hy
      · exact Or.inr (Or.symm (clear m y old'))
      · exact Or.inl ⟨rfl, rfl⟩

/-! ## Removing -/

@[simp] theorem removeSegFreeList_rest : (removeSegFreeList h p).rest = h.rest := by
  obtain ⟨low, high⟩ := listIndex_bounds (blockBytes (h.mem p))
  unfold removeSegFreeList removeSegFreeListHelper
  split_ifs <;> simp [setHead_rest _ low high]

theorem removeHelper_head : (removeSegFreeListHelper h p n).head =
    if h.prev p = 0 then Function.update h.head n (h.next p) else h.head := by
  unfold removeSegFreeListHelper
  by_cases first : h.prev p = 0 <;> by_cases last : h.next p = 0 <;> simp [first, last]

/-- Only the tail loses its own link; the other nodes keep theirs. -/
theorem removeHelper_mem (before : h.prev p = 0 ∨ h.prev p + 32 ≤ p ∨ p + 32 ≤ h.prev p)
    (after : h.next p = 0 ∨ h.next p + 32 ≤ p ∨ p + 32 ≤ h.next p) (a : Nat) :
    (removeSegFreeListHelper h p n).mem a =
      if h.next p ≠ 0 ∧ a = h.next p + 16 then h.prev p
      else if h.prev p ≠ 0 ∧ a = h.prev p + 8 then h.next p
      else if h.prev p ≠ 0 ∧ h.next p = 0 ∧ a = p + 16 then 0
      else h.mem a := by
  unfold removeSegFreeListHelper
  by_cases first : h.prev p = 0
  · by_cases last : h.next p = 0
    · simp [first, last]
    · -- the second node's `next` is read back and assigned to itself
      have apart : p ≠ h.next p + 8 := by omega
      simp only [first, last, apart, setHead_head, setHead_mem, setHead_next, setPrev_head,
        setPrev_mem, setPrev_next, setNext_mem, Function.update_self, ne_eq, not_true,
        not_false_eq_true, false_and, true_and, if_false, if_true]
      by_cases own : a = h.next p + 8
      · subst own
        rw [if_pos rfl, if_neg (by omega), if_neg (by omega)]
        rfl
      · rw [if_neg own]
  · by_cases last : h.next p = 0
    · simp only [first, last, setPrev_mem, setNext_mem, ne_eq, not_true, not_false_eq_true,
        false_and, true_and, and_false, if_false, if_true]
      split_ifs <;> omega
    · have apart : p ≠ h.prev p := by omega
      have apart' : p + 8 ≠ h.prev p := by omega
      simp [first, last, apart, apart']

theorem FreeLists.prev_mem (f : FreeLists h lists) (low : 0 ≤ n) (high : n < 4)
    (mem : p ∈ lists n) : h.prev p = 0 ∨ h.prev p ∈ lists n ∧ h.prev p ≠ p := by
  obtain ⟨l₁, l₂, fresh, eq, -⟩ := List.exists_erase_eq mem
  have linked := f.linked n low high
  rw [eq] at linked
  obtain null | before := List.mem_cons.mp (linked.prev_mem (f.real mem))
  · exact Or.inl null
  · right
    constructor
    · rw [eq]
      exact List.mem_append_left _ before
    · rintro same
      exact fresh (same ▸ before)

theorem FreeLists.next_mem (f : FreeLists h lists) (low : 0 ≤ n) (high : n < 4)
    (mem : p ∈ lists n) : h.next p = 0 ∨ h.next p ∈ lists n ∧ h.next p ≠ p := by
  obtain ⟨l₁, l₂, -, eq, -⟩ := List.exists_erase_eq mem
  have real := f.real mem
  have linked := f.linked n low high
  have once := f.once n
  rw [eq] at linked once
  have after := linked.next_mem real
  rw [Heap.nextFrom, if_neg real, List.mem_append, List.mem_singleton] at after
  obtain after | null := after
  · right
    constructor
    · rw [eq]
      exact List.mem_append_right _ (List.mem_cons_of_mem _ after)
    · intro same
      have tail := (List.nodup_append.mp (List.nodup_cons.mp once).2).2.1
      exact (List.nodup_cons.mp tail).1 (same ▸ after)
  · exact Or.inl null

/-- The neighbours of `p` in its list are apart from it. -/
theorem FreeLists.neighbours (f : FreeLists h lists) (low : 0 ≤ n) (high : n < 4)
    (mem : p ∈ lists n) : (h.prev p = 0 ∨ h.prev p + 32 ≤ p ∨ p + 32 ≤ h.prev p) ∧
      (h.next p = 0 ∨ h.next p + 32 ≤ p ∨ p + 32 ≤ h.next p) := by
  constructor
  · obtain null | ⟨before, other⟩ := f.prev_mem low high mem
    · exact Or.inl null
    · have := f.apart n n _ _ before mem
      tauto
  · obtain null | ⟨after, other⟩ := f.next_mem low high mem
    · exact Or.inl null
    · have := f.apart n n _ _ after mem
      tauto

theorem FreeLists.remove_keeps (f : FreeLists h lists) (low : 0 ≤ n) (high : n < 4)
    (mem : p ∈ lists n) {a : Nat} (clear : NoLink (lists n) a) :
    (removeSegFreeListHelper h p n).mem a = h.mem a := by
  obtain ⟨before, after⟩ := f.neighbours low high mem
  rw [removeHelper_mem before after]
  have own := clear p mem
  have back (real : h.prev p ≠ 0) := clear _ ((f.prev_mem low high mem).resolve_left real).1
  have next (real : h.next p ≠ 0) := clear _ ((f.next_mem low high mem).resolve_left real).1
  rw [if_neg fun ⟨real, eq⟩ => (next real).2 eq, if_neg fun ⟨real, eq⟩ => (back real).1 eq,
    if_neg fun ⟨_, _, eq⟩ => own.2 eq]

theorem mem_drop {m : Int} {x : Nat} (once : (0 :: lists n).Nodup) (mem : x ∈ drop lists n p m) :
    x ∈ lists m ∧ (m = n → x ≠ p) := by
  by_cases same : m = n
  · subst m
    rw [drop, Function.update_self, (List.nodup_cons.mp once).2.mem_erase_iff] at mem
    exact ⟨mem.2, fun _ => mem.1⟩
  · rw [drop, Function.update_of_ne same] at mem
    exact ⟨mem, fun eq => absurd eq same⟩

theorem drop_once (once : ∀ m, (0 :: lists m).Nodup) (m : Int) :
    (0 :: drop lists n p m).Nodup := by
  by_cases same : m = n
  · subst m
    rw [drop, Function.update_self]
    exact (once n).sublist (List.erase_sublist.cons_cons 0)
  · rw [drop, Function.update_of_ne same]
    exact once m

/-- List `n` itself, once the links around `p` are closed. -/
theorem remove_linked (linked : Doubly (h.nextFrom n) h.prev 0 (lists n))
    (once : (0 :: lists n).Nodup) (mem : p ∈ lists n)
    (seam : (removeSegFreeListHelper h p n).nextFrom n (h.prev p) = h.next p)
    (seam' : h.next p ≠ 0 → (removeSegFreeListHelper h p n).prev (h.next p) = h.prev p)
    (nexts : ∀ x ∈ 0 :: lists n, x ≠ p → x ≠ h.prev p →
      (removeSegFreeListHelper h p n).nextFrom n x = h.nextFrom n x)
    (prevs : ∀ x ∈ lists n, x ≠ p → x ≠ h.next p →
      (removeSegFreeListHelper h p n).prev x = h.prev x) :
    Doubly ((removeSegFreeListHelper h p n).nextFrom n) (removeSegFreeListHelper h p n).prev 0
      ((lists n).erase p) := by
  have real : p ≠ 0 := by
    rintro rfl
    exact (List.nodup_cons.mp once).1 mem
  have other (x : Nat) (left : x ∈ (lists n).erase p) : x ∈ lists n ∧ x ≠ p :=
    ((List.nodup_cons.mp once).2.mem_erase_iff.mp left).symm
  have next : h.nextFrom n p = h.next p := if_neg real
  obtain ⟨l₁, l₂, fresh, eq, erase⟩ := List.exists_erase_eq mem
  rw [erase] at other ⊢
  rw [eq] at linked once
  apply linked.remove once
  · rw [next]; exact seam
  · rw [next]; exact seam'
  · intro x left
    obtain rfl | left := List.mem_cons.mp left
    · exact nexts 0 (by simp) real.symm
    · exact nexts x (List.mem_cons_of_mem _ (other x left).1) (other x left).2
  · intro x left
    rw [next]
    exact prevs x (other x left).1 (other x left).2

theorem FreeLists.remove_next (f : FreeLists h lists) (low : 0 ≤ n) (high : n < 4)
    (mem : p ∈ lists n) {m : Int} {x : Nat} (left : x ∈ lists m)
    (other : m = n → x ≠ p ∧ x ≠ h.prev p) :
    (removeSegFreeListHelper h p n).mem (x + 8) = h.mem (x + 8) := by
  obtain ⟨before, after⟩ := f.neighbours low high mem
  have := f.apart m n x p left mem
  rw [removeHelper_mem before after, if_neg, if_neg, if_neg]
  · omega
  · rintro ⟨real, eq⟩
    have := f.apart m n x _ left ((f.prev_mem low high mem).resolve_left real).1
    omega
  · rintro ⟨real, eq⟩
    have := f.apart m n x _ left ((f.next_mem low high mem).resolve_left real).1
    omega

theorem FreeLists.remove_prev (f : FreeLists h lists) (low : 0 ≤ n) (high : n < 4)
    (mem : p ∈ lists n) {m : Int} {x : Nat} (left : x ∈ lists m)
    (other : m = n → x ≠ p ∧ x ≠ h.next p) :
    (removeSegFreeListHelper h p n).mem (x + 16) = h.mem (x + 16) := by
  obtain ⟨before, after⟩ := f.neighbours low high mem
  have := f.apart m n x p left mem
  rw [removeHelper_mem before after, if_neg, if_neg, if_neg]
  · omega
  · rintro ⟨real, eq⟩
    have := f.apart m n x _ left ((f.prev_mem low high mem).resolve_left real).1
    omega
  · rintro ⟨real, eq⟩
    have := f.apart m n x _ left ((f.next_mem low high mem).resolve_left real).1
    omega

/-- The link into the gap leads over it. -/
theorem FreeLists.remove_seam (f : FreeLists h lists) (low : 0 ≤ n) (high : n < 4)
    (mem : p ∈ lists n) :
    (removeSegFreeListHelper h p n).nextFrom n (h.prev p) = h.next p := by
  obtain ⟨before, after⟩ := f.neighbours low high mem
  by_cases first : h.prev p = 0
  · rw [first, Heap.nextFrom, if_pos rfl, removeHelper_head, if_pos first, Function.update_self]
  · rw [Heap.nextFrom, if_neg first, Heap.next, removeHelper_mem before after, if_neg,
      if_pos ⟨first, rfl⟩]
    rintro ⟨real, eq⟩
    have := f.apart n n _ _ ((f.prev_mem low high mem).resolve_left first).1
      ((f.next_mem low high mem).resolve_left real).1
    omega

theorem FreeLists.remove (f : FreeLists h lists) (low : 0 ≤ n) (high : n < 4)
    (mem : p ∈ lists n) : FreeLists (removeSegFreeListHelper h p n) (drop lists n p) := by
  obtain ⟨before, after⟩ := f.neighbours low high mem
  constructor
  · intro m low' high'
    by_cases same : m = n
    · subst m
      rw [drop, Function.update_self]
      apply remove_linked (f.linked n low high) (f.once n) mem (f.remove_seam low high mem)
      · intro real
        rw [Heap.prev, removeHelper_mem before after, if_pos ⟨real, rfl⟩]
      · intro x left other head
        by_cases null : x = 0
        · subst x
          simp [Heap.nextFrom, removeHelper_head, head.symm]
        · simp only [Heap.nextFrom, if_neg null]
          have left : x ∈ lists n := by simpa [null] using left
          exact f.remove_next low high mem left fun _ => ⟨other, head⟩
      · intro x left other tail
        exact f.remove_prev low high mem left fun _ => ⟨other, tail⟩
    · rw [drop, Function.update_of_ne same]
      apply linked_congr (f.linked m low' high')
      · rw [removeHelper_head]
        split
        · exact Function.update_of_ne same _ _
        · rfl
      · intro x left
        exact ⟨f.remove_next low high mem left fun eq => absurd eq same,
          f.remove_prev low high mem left fun eq => absurd eq same⟩
  · exact drop_once f.once
  · intro k m x y hx hy
    exact f.apart k m x y (mem_drop (f.once n) hx).1 (mem_drop (f.once n) hy).1

end LinuxSystem.Allocator
