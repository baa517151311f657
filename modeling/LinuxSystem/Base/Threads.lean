import Mathlib.Tactic
import Mathlib.Data.Fintype.Card

/-!
# Counting threads by where they are

`count p at` is the number of threads whose local state satisfies `p`.
-/

namespace Threads

variable {Thread Local : Type*} [Fintype Thread]

def count (p : Local → Bool) (place : Thread → Local) : Nat :=
  (Finset.univ.filter fun t => p (place t) = true).card

variable {p : Local → Bool} {place : Thread → Local}

theorem count_pos : 0 < count p place ↔ ∃ t, p (place t) = true := by
  simp [count, Finset.card_pos, Finset.filter_nonempty_iff]

theorem count_eq_zero : count p place = 0 ↔ ∀ t, p (place t) = false := by
  simp [count, Finset.filter_eq_empty_iff]

theorem two_le_count {t u : Thread} (apart : t ≠ u) (ht : p (place t) = true)
    (hu : p (place u) = true) : 2 ≤ count p place :=
  Finset.one_lt_card.mpr ⟨t, by simpa using ht, u, by simpa using hu, apart⟩

/-- At most one thread satisfies `p`. -/
theorem alone {t u : Thread} (most : count p place ≤ 1) (ht : p (place t) = true) (apart : u ≠ t) :
    p (place u) = false := by
  by_contra hu
  have := two_le_count apart (by simpa using hu) ht
  omega

variable [DecidableEq Thread]

/-- Moving one thread changes a count by what that thread gives and takes. -/
theorem count_update (p : Local → Bool) (place : Thread → Local) (t : Thread) (x : Local) :
    count p (Function.update place t x) + (p (place t)).toNat = count p place + (p x).toNat := by
  have split (f : Thread → Local) : count p f =
      ((Finset.univ.erase t).filter fun u => p (f u) = true).card + (p (f t)).toNat := by
    unfold count
    rw [← Finset.insert_erase (Finset.mem_univ t), Finset.filter_insert]
    cases h : p (f t) <;> simp
  have same : ((Finset.univ.erase t).filter fun u => p (Function.update place t x u) = true) =
      (Finset.univ.erase t).filter fun u => p (place u) = true :=
    Finset.filter_congr fun u hu => by rw [Function.update_of_ne (Finset.ne_of_mem_erase hu)]
  rw [split (Function.update place t x), split place, same, Function.update_self]
  omega

end Threads
