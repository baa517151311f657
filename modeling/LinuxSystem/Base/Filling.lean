import Mathlib.Data.List.Basic

/-!
# Filling an array from the front

An array of fixed size that holds a list and blanks after it, and checked writes
that append to the list.
-/

namespace Filling

variable {α : Type*}

/-- A write at `i`; `none` is one past the end. -/
def store (array : List α) (i : Nat) (a : α) : Option (List α) :=
  if i < array.length then some (array.set i a) else none

def filled (blank : α) (size : Nat) (items : List α) : List α :=
  items ++ List.replicate (size - items.length) blank

theorem length_filled (blank : α) {size : Nat} {items : List α} (fits : items.length ≤ size) :
    (filled blank size items).length = size := by
  rw [filled, List.length_append, List.length_replicate]
  omega

/-- A write right after the items is one item more. -/
theorem store_filled (blank : α) {size : Nat} {items : List α} (room : items.length < size) (a : α) :
    store (filled blank size items) items.length a = some (filled blank size (items ++ [a])) := by
  have inside : items.length < (filled blank size items).length := by
    rw [length_filled blank (Nat.le_of_lt room)]
    exact room
  have left : size - items.length = size - (items ++ [a]).length + 1 := by
    rw [List.length_append, List.length_singleton]
    omega
  rw [store, if_pos inside, filled, filled, left, List.replicate_succ,
    List.set_append_right _ _ (Nat.le_refl _), Nat.sub_self, List.set_cons_zero, List.append_assoc]
  rfl

/-- The first blank after the items is within the array. -/
theorem filled_terminated (blank : α) {size : Nat} {items : List α} (room : items.length < size) :
    (filled blank size items)[items.length]? = some blank := by
  rw [filled, List.getElem?_append_right (Nat.le_refl _), Nat.sub_self, List.getElem?_replicate,
    if_pos (by omega)]

/-- Read up to the first blank, the array gives the items back. -/
theorem takeWhile_filled [DecidableEq α] {blank : α} {size : Nat} {items : List α}
    (solid : ∀ a ∈ items, a ≠ blank) :
    (filled blank size items).takeWhile (· ≠ blank) = items := by
  have none : (List.replicate (size - items.length) blank).takeWhile (· ≠ blank) = [] := by
    cases size - items.length <;> simp [List.replicate_succ]
  rw [filled, List.takeWhile_append_of_pos (by simpa using solid), none, List.append_nil]

theorem filled_inj [DecidableEq α] {blank : α} {size : Nat} {items items' : List α}
    (solid : ∀ a ∈ items, a ≠ blank) (solid' : ∀ a ∈ items', a ≠ blank)
    (same : filled blank size items = filled blank size items') : items = items' := by
  rw [← takeWhile_filled solid, same, takeWhile_filled solid']

end Filling
