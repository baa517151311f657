import Mathlib.Data.List.Basic

/-!
# Descriptor tables

The open files of a process: the file of each descriptor that is in use. A new
file gets the lowest descriptor that is not.
-/

namespace Descriptors

/-- The files of descriptors 0, 1, 2 and so on. -/
abbrev Table (File : Type*) := List (Option File)

namespace Table

variable {File : Type*} {table : Table File} {d e : Nat} {f g : File}

def file (table : Table File) (d : Nat) : Option File := (table[d]?).join

def close (table : Table File) (d : Nat) : Table File := table.set d none

def put (table : Table File) (d : Nat) (f : File) : Table File :=
  if d < table.length then table.set d (some f)
  else table ++ List.replicate (d - table.length) none ++ [some f]

/-- A descriptor that is not open is not copied. -/
def dup2 (table : Table File) (oldfd newfd : Nat) : Table File :=
  match table.file oldfd with
  | some f => table.put newfd f
  | none => table

def lowest (table : Table File) : Nat := table.findIdx (·.isNone)

/-- How many descriptors are in use. -/
def opened (table : Table File) : Nat := table.countP (·.isSome)

/-! ## What the calls change -/

@[simp] theorem file_close (table : Table File) (d e : Nat) :
    (table.close d).file e = if e = d then none else table.file e := by
  simp only [file, close, List.getElem?_set]
  by_cases eq : e = d
  · subst eq
    rw [if_pos rfl, if_pos rfl]
    split <;> rfl
  · rw [if_neg (Ne.symm eq), if_neg eq]

@[simp] theorem file_put (table : Table File) (d e : Nat) (f : File) :
    (table.put d f).file e = if e = d then some f else table.file e := by
  unfold put file
  split
  · next inside =>
    rw [List.getElem?_set]
    by_cases eq : e = d
    · subst eq
      rw [if_pos rfl, if_pos rfl, if_pos inside]
      rfl
    · rw [if_neg (Ne.symm eq), if_neg eq]
  · next outside =>
    have length : (table ++ List.replicate (d - table.length) none).length = d := by
      rw [List.length_append, List.length_replicate]
      omega
    by_cases eq : e = d
    · subst eq
      rw [if_pos rfl, List.getElem?_append_right (by omega), length, Nat.sub_self]
      rfl
    rw [if_neg eq]
    by_cases below : e < d
    · rw [List.getElem?_append_left (by omega), List.getElem?_append]
      split
      · rfl
      · next beyond =>
        rw [List.getElem?_replicate, if_pos (by omega), List.getElem?_eq_none (by omega)]
        rfl
    · rw [List.getElem?_eq_none (by rw [List.length_append, length, List.length_singleton]; omega),
        List.getElem?_eq_none (by omega)]

theorem file_dup2 (from_d : table.file d = some f) (e x : Nat) :
    (table.dup2 d e).file x = if x = e then some f else table.file x := by
  rw [dup2, from_d]
  exact file_put table e x f

/-- A descriptor that is moved onto another. -/
theorem file_move (from_d : table.file d = some f) (e x : Nat) :
    ((table.dup2 d e).close d).file x =
      if x = d then none else if x = e then some f else table.file x := by
  rw [file_close, file_dup2 from_d]

theorem file_lowest (table : Table File) : table.file table.lowest = none := by
  unfold file lowest
  by_cases inside : table.findIdx (·.isNone) < table.length
  · have empty := List.findIdx_getElem (w := inside)
    rw [List.getElem?_eq_getElem inside, Option.isNone_iff_eq_none.mp empty]
    rfl
  · rw [List.getElem?_eq_none (by omega)]
    rfl

theorem isSome_file (inside : d < table.length) : (table.file d).isSome = table[d].isSome := by
  simp [file, inside]

/-! ## How many are in use -/

theorem opened_close (open_d : table.file d ≠ none) : (table.close d).opened + 1 = table.opened := by
  have inside : d < table.length := by
    by_contra outside
    exact open_d (by rw [file, List.getElem?_eq_none (by omega)]; rfl)
  have used : table[d].isSome = true := by
    rw [← isSome_file inside]
    exact Option.isSome_iff_ne_none.mpr open_d
  have counted : 0 < table.countP (·.isSome) :=
    List.countP_pos_iff.mpr ⟨_, List.getElem_mem inside, used⟩
  rw [close, opened, opened, List.countP_set inside, if_pos used, if_neg (by simp)]
  omega

theorem opened_put (unused : table.file d = none) (f : File) :
    (table.put d f).opened = table.opened + 1 := by
  unfold put opened
  split
  · next inside =>
    have free : ¬ table[d].isSome = true := by
      rw [← isSome_file inside, unused]
      exact Bool.false_ne_true
    rw [List.countP_set inside, if_neg free, if_pos Option.isSome_some]
    rfl
  · have blanks (n : Nat) : (List.replicate n (none : Option File)).countP (·.isSome) = 0 := by
      simp [List.countP_replicate]
    rw [List.countP_append, List.countP_append, blanks]
    rfl

end Table

end Descriptors
