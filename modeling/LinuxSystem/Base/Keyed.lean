import Mathlib.Data.List.Nodup
import Mathlib.Data.List.Perm.Basic

/-!
# Keyed alphabets

A key mixes an alphabet: its letters come first and the rest of the alphabet
follows in order.
-/

namespace Keyed

variable {α : Type*} [DecidableEq α] {alphabet key : List α}

def mixed (alphabet key : List α) : List α := key ++ alphabet.filter fun c => c ∉ key

theorem mem_mixed (within : ∀ c ∈ key, c ∈ alphabet) {c : α} :
    c ∈ mixed alphabet key ↔ c ∈ alphabet := by
  have := within c
  by_cases mem : c ∈ key
  · simp [mixed, mem, this mem]
  · simp [mixed, mem]

theorem nodup_mixed (ordered : alphabet.Nodup) (distinct : key.Nodup) :
    (mixed alphabet key).Nodup := by
  apply List.nodup_append.mpr ⟨distinct, ordered.filter _, ?_⟩
  rintro c mem _ later rfl
  simp [mem] at later

/-- A key of different letters of the alphabet gives a permutation of it. -/
theorem mixed_perm (ordered : alphabet.Nodup) (distinct : key.Nodup)
    (within : ∀ c ∈ key, c ∈ alphabet) : (mixed alphabet key).Perm alphabet :=
  (List.perm_ext_iff_of_nodup (nodup_mixed ordered distinct) ordered).mpr fun _ =>
    mem_mixed within

theorem length_mixed (ordered : alphabet.Nodup) (distinct : key.Nodup)
    (within : ∀ c ∈ key, c ∈ alphabet) : (mixed alphabet key).length = alphabet.length :=
  (mixed_perm ordered distinct within).length_eq

end Keyed
