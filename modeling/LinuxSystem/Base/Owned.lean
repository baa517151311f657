import Mathlib.Tactic

/-!
# Buffers with one holder

A holder has a buffer, which is an address and the content it should have, or
none, which is the address 0. As long as the buffers held are allocated and no
two holders have the same, freeing those of some holders frees each of them once
and leaves the content of the others alone.
-/

namespace Owned

variable {Holder Content : Type*}

/-- `faults` counts the calls of `free` with an address that is not allocated. -/
structure Heap (Content : Type*) where
  allocated : Finset Nat
  content : Nat → Content
  faults : Nat

def Heap.free (heap : Heap Content) (a : Nat) : Heap Content :=
  if a = 0 then heap
  else if a ∈ heap.allocated then { heap with allocated := heap.allocated.erase a }
  else { heap with faults := heap.faults + 1 }

def Heap.freeAll (heap : Heap Content) (as : List Nat) : Heap Content := as.foldl Heap.free heap

/-- `malloc` gives an address that is not allocated, and its owner fills it. -/
def Heap.take (heap : Heap Content) (a : Nat) (x : Content) : Heap Content :=
  { heap with allocated := insert a heap.allocated, content := Function.update heap.content a x }

/-- What is not allocated may have been given away and overwritten. -/
def Heap.Spoilt (heap later : Heap Content) : Prop :=
  later.allocated = heap.allocated ∧ later.faults = heap.faults ∧
    ∀ a ∈ heap.allocated, later.content a = heap.content a

structure Exclusive (held : Holder → Nat × Content) (heap : Heap Content) : Prop where
  allocated : ∀ h, (held h).1 ≠ 0 → (held h).1 ∈ heap.allocated
  kept : ∀ h, (held h).1 ≠ 0 → heap.content (held h).1 = (held h).2
  apart : ∀ h h', (held h).1 ≠ 0 → (held h).1 = (held h').1 → h = h'

theorem free_cases (heap : Heap Content) (a : Nat) :
    heap.free a = heap ∨ heap.free a = { heap with allocated := heap.allocated.erase a } ∨
      a ∉ heap.allocated ∧ heap.free a = { heap with faults := heap.faults + 1 } := by
  unfold Heap.free
  split
  · exact .inl rfl
  · split
    · exact .inr (.inl rfl)
    · exact .inr (.inr ⟨‹_›, rfl⟩)

theorem free_allocated {heap : Heap Content} {a b : Nat} (apart : b ≠ a) :
    b ∈ (heap.free a).allocated ↔ b ∈ heap.allocated := by
  rcases free_cases heap a with eq | eq | ⟨-, eq⟩ <;> rw [eq]
  simp [apart]

theorem free_content (heap : Heap Content) (a : Nat) : (heap.free a).content = heap.content := by
  rcases free_cases heap a with eq | eq | ⟨-, eq⟩ <;> rw [eq]

theorem freeAll_allocated {heap : Heap Content} {as : List Nat} {b : Nat} (apart : b ∉ as) :
    b ∈ (heap.freeAll as).allocated ↔ b ∈ heap.allocated := by
  induction as generalizing heap with
  | nil => exact Iff.rfl
  | cons a as ih =>
    rw [List.mem_cons, not_or] at apart
    exact (ih apart.2).trans (free_allocated apart.1)

theorem freeAll_content (heap : Heap Content) (as : List Nat) :
    (heap.freeAll as).content = heap.content := by
  induction as generalizing heap with
  | nil => rfl
  | cons a as ih => exact (ih (heap.free a)).trans (free_content heap a)

variable {held held' : Holder → Nat × Content} {heap later : Heap Content}

/-- Each of these holders' buffers is allocated when its turn comes. -/
theorem freeAll_faults (holders : List Holder) (once : holders.Nodup)
    (apart : ∀ h h', (held h).1 ≠ 0 → (held h).1 = (held h').1 → h = h')
    (allocated : ∀ h ∈ holders, (held h).1 ≠ 0 → (held h).1 ∈ heap.allocated) :
    (heap.freeAll (holders.map fun h => (held h).1)).faults = heap.faults := by
  induction holders generalizing heap with
  | nil => rfl
  | cons h holders ih =>
    obtain ⟨new, once⟩ := List.nodup_cons.mp once
    have here : (heap.free (held h).1).faults = heap.faults := by
      rcases free_cases heap (held h).1 with eq | eq | ⟨absent, -⟩
      · rw [eq]
      · rw [eq]
      · by_cases null : (held h).1 = 0
        · rw [Heap.free, if_pos null]
        · exact absurd (allocated h List.mem_cons_self null) absent
    refine (ih once fun g mem has => ?_).trans here
    have other : (held g).1 ≠ (held h).1 := by
      intro eq
      exact new (apart g h has eq ▸ mem)
    exact (free_allocated other).mpr (allocated g (List.mem_cons_of_mem _ mem) has)

/-- Holders pass buffers on, no buffer to two of them. -/
theorem Exclusive.handOver (exclusive : Exclusive held heap) (source : Holder → Option Holder)
    (once : ∀ h h' g, source h = some g → source h' = some g → h = h')
    (comes : ∀ h, (held' h).1 ≠ 0 → ∃ g, source h = some g ∧ held' h = held g) :
    Exclusive held' heap where
  allocated h has := by
    obtain ⟨g, -, eq⟩ := comes h has
    rw [eq] at has ⊢
    exact exclusive.allocated g has
  kept h has := by
    obtain ⟨g, -, eq⟩ := comes h has
    rw [eq] at has ⊢
    exact exclusive.kept g has
  apart h h' has same := by
    obtain ⟨g, from_g, eq⟩ := comes h has
    obtain ⟨g', from_g', eq'⟩ := comes h' (same ▸ has)
    rw [eq] at has
    rw [eq, eq'] at same
    obtain rfl := exclusive.apart g g' has same
    exact once h h' g from_g from_g'

/-- Holders may let go of their buffers. -/
theorem Exclusive.forget (exclusive : Exclusive held heap)
    (kept : ∀ h, (held' h).1 ≠ 0 → held' h = held h) : Exclusive held' heap :=
  exclusive.handOver some (fun _ _ _ eq eq' => Option.some.inj (eq.trans eq'.symm))
    fun h has => ⟨h, rfl, kept h has⟩

/-- The buffers of `holders` are freed, while the others may be passed on. -/
theorem Exclusive.release (exclusive : Exclusive held heap) (source : Holder → Option Holder)
    (once : ∀ h h' g, source h = some g → source h' = some g → h = h')
    (comes : ∀ h, (held' h).1 ≠ 0 → ∃ g, source h = some g ∧ held' h = held g)
    (holders : List Holder) (spared : ∀ h, ∀ g ∈ holders, source h ≠ some g) :
    Exclusive held' (heap.freeAll (holders.map fun h => (held h).1)) := by
  have after := exclusive.handOver source once comes
  refine ⟨fun h has => ?_, fun h has => ?_, after.apart⟩
  · obtain ⟨g, source_h, eq⟩ := comes h has
    refine (freeAll_allocated fun mem => ?_).mpr (after.allocated h has)
    obtain ⟨k, freed, same⟩ := List.mem_map.mp mem
    rw [eq] at has same
    rw [exclusive.apart g k has same.symm] at source_h
    exact spared h k freed source_h
  · rw [freeAll_content]
    exact after.kept h has

theorem Exclusive.take [DecidableEq Holder] (exclusive : Exclusive held heap) {h : Holder} {a : Nat}
    {x : Content} (fresh : a ∉ heap.allocated) :
    Exclusive (Function.update held h (a, x)) (heap.take a x) where
  allocated g has := by
    by_cases eq : g = h
    · subst eq
      simp [Heap.take]
    · simp only [Function.update_of_ne eq] at has ⊢
      exact Finset.mem_insert_of_mem (exclusive.allocated g has)
  kept g has := by
    by_cases eq : g = h
    · subst eq
      simp [Heap.take]
    · simp only [Function.update_of_ne eq] at has ⊢
      have other : (held g).1 ≠ a := by
        rintro rfl
        exact fresh (exclusive.allocated g has)
      simp only [Heap.take, Function.update_of_ne other]
      exact exclusive.kept g has
  apart g g' has same := by
    have foreign {k : Holder} (held_k : (held k).1 ≠ 0) : (held k).1 ≠ a := by
      rintro rfl
      exact fresh (exclusive.allocated k held_k)
    by_cases eq : g = h <;> by_cases eq' : g' = h
    · rw [eq, eq']
    · subst eq
      simp only [Function.update_self, Function.update_of_ne eq'] at has same
      exact absurd same.symm (foreign (same ▸ has))
    · subst eq'
      simp only [Function.update_self, Function.update_of_ne eq] at has same
      exact absurd same (foreign has)
    · simp only [Function.update_of_ne eq, Function.update_of_ne eq'] at has same
      exact exclusive.apart g g' has same

theorem Exclusive.spoilt (exclusive : Exclusive held heap) (spoilt : heap.Spoilt later) :
    Exclusive held later where
  allocated h has := spoilt.1 ▸ exclusive.allocated h has
  kept h has := (spoilt.2.2 _ (exclusive.allocated h has)).trans (exclusive.kept h has)
  apart := exclusive.apart

end Owned
