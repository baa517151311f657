import Mathlib.Data.List.Basic

/-!
# Words between separators

What `List.splitOn` cuts a list into, and the nonempty pieces.
-/

namespace Split

variable {α : Type*} [DecidableEq α]

/-- The nonempty pieces between separators. -/
def words (a : α) (xs : List α) : List (List α) := (xs.splitOn a).filter (· ≠ [])

theorem splitOn_cons_self (a : α) (xs : List α) : (a :: xs).splitOn a = [] :: xs.splitOn a := by
  simp [List.splitOn_cons_eq_if_modifyHead]

theorem splitOn_cons_of_ne {a x : α} (ne : x ≠ a) {xs head : List α} {tail : List (List α)}
    (cut : xs.splitOn a = head :: tail) : (x :: xs).splitOn a = (x :: head) :: tail := by
  simp [List.splitOn_cons_eq_if_modifyHead, ne, cut]

theorem exists_splitOn (a : α) (xs : List α) : ∃ head tail, xs.splitOn a = head :: tail :=
  List.exists_cons_of_ne_nil (List.splitOn_ne_nil a xs)

/-- A prefix without separators lengthens the first piece. -/
theorem splitOn_append {a : α} {xs : List α} (plain : a ∉ xs) {ys head : List α}
    {tail : List (List α)} (cut : ys.splitOn a = head :: tail) :
    (xs ++ ys).splitOn a = (xs ++ head) :: tail := by
  induction xs with
  | nil => exact cut
  | cons x xs ih =>
    obtain ⟨ne, plain⟩ := List.ne_and_not_mem_of_not_mem_cons plain
    exact splitOn_cons_of_ne (Ne.symm ne) (ih plain)

theorem mem_of_mem_splitOn {a x : α} {xs piece : List α} (mem : piece ∈ xs.splitOn a)
    (inside : x ∈ piece) : x ∈ xs := by
  induction xs generalizing piece with
  | nil =>
    rw [List.splitOn_nil, List.mem_singleton] at mem
    rwa [mem] at inside
  | cons y xs ih =>
    obtain ⟨head, tail, cut⟩ := exists_splitOn a xs
    by_cases sep : y = a
    · subst sep
      rw [splitOn_cons_self, List.mem_cons] at mem
      rcases mem with rfl | mem
      · cases inside
      · exact List.mem_cons_of_mem _ (ih mem inside)
    · rw [splitOn_cons_of_ne sep cut, List.mem_cons] at mem
      rw [cut] at ih
      rcases mem with rfl | mem
      · rcases List.mem_cons.mp inside with rfl | inside
        · exact List.mem_cons_self
        · exact List.mem_cons_of_mem _ (ih List.mem_cons_self inside)
      · exact List.mem_cons_of_mem _ (ih (List.mem_cons_of_mem _ mem) inside)

theorem length_flatten_splitOn (a : α) (xs : List α) :
    (xs.splitOn a).flatten.length + (xs.splitOn a).length = xs.length + 1 := by
  induction xs with
  | nil => rfl
  | cons x xs ih =>
    obtain ⟨head, tail, cut⟩ := exists_splitOn a xs
    by_cases sep : x = a
    · subst sep
      rw [splitOn_cons_self, List.flatten_cons, List.nil_append, List.length_cons, List.length_cons]
      omega
    · rw [cut] at ih
      rw [splitOn_cons_of_ne sep cut]
      simp only [List.flatten_cons, List.length_append, List.length_cons] at ih ⊢
      omega

/-- One piece more than there are separators. -/
theorem length_splitOn (a : α) (xs : List α) : (xs.splitOn a).length = xs.count a + 1 := by
  induction xs with
  | nil => rfl
  | cons x xs ih =>
    obtain ⟨head, tail, cut⟩ := exists_splitOn a xs
    by_cases sep : x = a
    · subst sep
      rw [splitOn_cons_self, List.count_cons_self, List.length_cons, ih]
    · rw [splitOn_cons_of_ne sep cut, List.count_cons_of_ne sep, ← ih, cut]
      rfl

theorem length_piece_le {a : α} {xs piece : List α} (mem : piece ∈ xs.splitOn a) :
    piece.length ≤ xs.length := by
  have part : piece.length ≤ (xs.splitOn a).flatten.length :=
    (List.sublist_flatten_of_mem mem).length_le
  have total := length_flatten_splitOn a xs
  have some := List.length_pos_of_mem mem
  omega

omit [DecidableEq α] in
theorem length_filter_le_flatten (pieces : List (List α)) :
    (pieces.filter (· ≠ [])).length ≤ pieces.flatten.length := by
  induction pieces with
  | nil => exact Nat.le_refl _
  | cons piece pieces ih =>
    rw [List.flatten_cons, List.length_append]
    cases piece with
    | nil => simpa using ih
    | cons x piece =>
      rw [List.filter_cons_of_pos (by simp)]
      simp only [List.length_cons]
      omega

theorem length_words_le (a : α) (xs : List α) : (words a xs).length ≤ xs.length := by
  have pieces := length_filter_le_flatten (xs.splitOn a)
  have total := length_flatten_splitOn a xs
  have some : (xs.splitOn a).length ≠ 0 := by simp [length_splitOn]
  unfold words
  omega

theorem words_append (a : α) (xs ys : List α) :
    words a (xs ++ a :: ys) = words a xs ++ words a ys := by
  rw [words, List.splitOn_append_cons_self, List.filter_append]
  rfl

theorem words_plain {a : α} {xs : List α} (plain : a ∉ xs) :
    words a xs = if xs = [] then [] else [xs] := by
  rw [words, List.splitOn_eq_singleton plain]
  split <;> simp_all

/-- The piece after the last separator. -/
theorem last_piece (a : α) (xs : List α) :
    a ∉ xs ∨ ∃ front last, xs = front ++ a :: last ∧ a ∉ last := by
  induction xs with
  | nil => exact .inl List.not_mem_nil
  | cons x xs ih =>
    rcases ih with plain | ⟨front, last, rfl, plain⟩
    · by_cases sep : x = a
      · exact .inr ⟨[], xs, by rw [sep]; rfl, plain⟩
      · exact .inl (by simp [plain, Ne.symm sep])
    · exact .inr ⟨x :: front, last, rfl, plain⟩

/-! ## Pieces before a mark

`marked` holds of the mark `c` and of nothing before it. -/

theorem takeWhile_marked {a c : α} {marked : α → Bool} {xs : List α} (plain : a ∉ xs) (ne : c ≠ a)
    (hit : marked c) (rest : List α) :
    ((xs ++ c :: rest).splitOn a).takeWhile (!·.any marked) = [] := by
  obtain ⟨head, tail, cut⟩ := exists_splitOn a rest
  rw [splitOn_append plain (splitOn_cons_of_ne ne cut)]
  simp [hit]

/-- The piece that the mark is in is not taken, whatever it has before the mark. -/
theorem takeWhile_unmarked {a c : α} {marked : α → Bool} {front last : List α}
    (clear : ∀ x ∈ front, ¬ marked x) (plain : a ∉ last) (ne : c ≠ a) (hit : marked c)
    (rest : List α) :
    ((front ++ a :: (last ++ c :: rest)).splitOn a).takeWhile (!·.any marked) = front.splitOn a := by
  have kept : ∀ piece ∈ front.splitOn a, (!piece.any marked) = true := by
    intro piece mem
    rw [Bool.not_eq_true', List.any_eq_false]
    exact fun x inside => clear x (mem_of_mem_splitOn mem inside)
  rw [List.splitOn_append_cons_self, List.takeWhile_append_of_pos kept,
    takeWhile_marked plain ne hit, List.append_nil]

end Split
