import Mathlib.Tactic

/-!
# Lists in threes

A list cut from the front into triples, and the at most two elements left over.
-/

namespace Triples

variable {α : Type*}

def triples : List α → List (α × α × α)
  | a :: b :: c :: l => (a, b, c) :: triples l
  | _ => []

def leftover : List α → List α
  | _ :: _ :: _ :: l => leftover l
  | l => l

theorem length_lt_three {l : List α} (short : ∀ a b c l', l = a :: b :: c :: l' → False) :
    l.length < 3 := by
  match l with
  | [] | [_] | [_, _] => simp
  | a :: b :: c :: l' => exact (short a b c l' rfl).elim

theorem triples_short {l : List α} (short : l.length < 3) : triples l = [] := by
  match l, short with
  | [], _ | [_], _ | [_, _], _ => rfl

theorem leftover_short {l : List α} (short : l.length < 3) : leftover l = l := by
  match l, short with
  | [], _ | [_], _ | [_, _], _ => rfl

theorem triples_append (l l' : List α) :
    triples (l ++ l') = triples l ++ triples (leftover l ++ l') := by
  induction l using triples.induct with
  | case1 a b c l ih => simp [triples, leftover, ih]
  | case2 l short =>
    have short : l.length < 3 := length_lt_three short
    rw [triples_short short, leftover_short short, List.nil_append]

theorem leftover_append (l l' : List α) : leftover (l ++ l') = leftover (leftover l ++ l') := by
  induction l using triples.induct with
  | case1 a b c l ih => simp [leftover, ih]
  | case2 l short => rw [leftover_short (length_lt_three short)]

/-- The elements of triples in order. -/
def flat : List (α × α × α) → List α
  | [] => []
  | (a, b, c) :: ts => a :: b :: c :: flat ts

theorem flat_triples (l : List α) : flat (triples l) ++ leftover l = l := by
  induction l using triples.induct with
  | case1 a b c l ih => simp [triples, leftover, flat, ih]
  | case2 l short =>
    rw [triples_short (length_lt_three short), leftover_short (length_lt_three short), flat,
      List.nil_append]

theorem leftover_length_eq (l : List α) : (leftover l).length = l.length % 3 := by
  induction l using triples.induct with
  | case1 a b c l ih =>
    rw [leftover, ih]
    exact (Nat.add_mod_right _ 3).symm
  | case2 l short =>
    have short := length_lt_three short
    rw [leftover_short short, Nat.mod_eq_of_lt short]

theorem leftover_length (l : List α) : (leftover l).length < 3 := by
  rw [leftover_length_eq]
  exact Nat.mod_lt _ (by decide)

theorem mem_of_mem_triples {l : List α} {a b c : α} (mem : (a, b, c) ∈ triples l) :
    a ∈ l ∧ b ∈ l ∧ c ∈ l := by
  induction l using triples.induct with
  | case1 a' b' c' l ih =>
    rw [triples, List.mem_cons] at mem
    rcases mem with here | later
    · cases here
      simp
    · obtain ⟨first, second, third⟩ := ih later
      simp [first, second, third]
  | case2 l short => simp [triples_short (length_lt_three short)] at mem

theorem leftover_suffix (l : List α) : leftover l <:+ l := ⟨flat (triples l), flat_triples l⟩

theorem leftover_eq_drop (l : List α) : leftover l = l.drop (l.length - l.length % 3) := by
  rw [← leftover_length_eq]
  exact List.suffix_iff_eq_drop.mp (leftover_suffix l)

theorem length_flat (ts : List (α × α × α)) : (flat ts).length = 3 * ts.length := by
  induction ts with
  | nil => rfl
  | cons t ts ih =>
    rw [flat, List.length_cons, List.length_cons, List.length_cons, ih, List.length_cons]
    omega

end Triples
