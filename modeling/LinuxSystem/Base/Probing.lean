import Mathlib.Tactic

/-!
# Search round a ring

`probe` visits the indices after a start, wrapping at the end, until a visit
answers or the allowance runs out.
-/

namespace Probing

variable {n : Nat} {Answer : Type*}

/-- The index after `i`, the first one after the last. -/
def next (i : Fin n) : Fin n :=
  if h : i.val = n - 1 then ⟨0, by have := i.isLt; omega⟩
  else ⟨i.val + 1, by have := i.isLt; omega⟩

/-- The index `d` places after `i`. -/
def ahead (i : Fin n) (d : Nat) : Fin n := next^[d] i

@[simp] theorem ahead_zero (i : Fin n) : ahead i 0 = i := rfl

theorem ahead_next (i : Fin n) (d : Nat) : ahead (next i) d = ahead i (d + 1) := rfl

theorem ahead_succ (i : Fin n) (d : Nat) : ahead i (d + 1) = next (ahead i d) :=
  Function.iterate_succ_apply' next d i

theorem next_val (i : Fin n) : (next i).val = (i.val + 1) % n := by
  have := i.isLt
  unfold next
  split
  · have : i.val + 1 = n := by omega
    simp [this]
  · rw [Nat.mod_eq_of_lt (by omega)]

theorem ahead_val (i : Fin n) (d : Nat) : (ahead i d).val = (i.val + d) % n := by
  induction d generalizing i with
  | zero => exact (Nat.mod_eq_of_lt i.isLt).symm
  | succ d ih => rw [← ahead_next, ih, next_val, Nat.mod_add_mod, Nat.add_assoc, Nat.add_comm 1]

/-- Every index is met within one turn. -/
theorem exists_ahead (i j : Fin n) : ∃ d < n, ahead i d = j := by
  have hi := i.isLt
  have hj := j.isLt
  by_cases h : i.val ≤ j.val
  · refine ⟨j - i, by omega, Fin.ext ?_⟩
    rw [ahead_val, Nat.add_sub_cancel' h, Nat.mod_eq_of_lt hj]
  · refine ⟨j + n - i, by omega, Fin.ext ?_⟩
    rw [ahead_val, Nat.add_sub_cancel' (by omega), Nat.add_mod_right, Nat.mod_eq_of_lt hj]

/-- One turn meets no index twice. -/
theorem ahead_inj {i : Fin n} {d e : Nat} (hd : d < n) (he : e < n) (h : ahead i d = ahead i e) :
    d = e := by
  have hi := i.isLt
  have h := congrArg Fin.val h
  rw [ahead_val, ahead_val] at h
  exact Nat.ModEq.eq_of_lt_of_lt (Nat.ModEq.add_left_cancel' i.val h) hd he

def probe (visit : Fin n → Option Answer) : Nat → Fin n → Option Answer
  | 0, _ => none
  | allowance + 1, i =>
    match visit i with
    | some answer => some answer
    | none => probe visit allowance (next i)

variable {visit visit' : Fin n → Option Answer} {i : Fin n}

theorem probe_eq_none {allowance : Nat} :
    probe visit allowance i = none ↔ ∀ d < allowance, visit (ahead i d) = none := by
  induction allowance generalizing i with
  | zero => simp [probe]
  | succ allowance ih =>
    rw [Nat.forall_lt_succ_left]
    cases h : visit i with
    | some answer => simp [probe, h]
    | none => simp [probe, h, ih, ahead_next]

/-- The answer is that of the first visit that gives one. -/
theorem probe_eq_some {allowance : Nat} {answer : Answer} :
    probe visit allowance i = some answer ↔
      ∃ d < allowance, visit (ahead i d) = some answer ∧ ∀ e < d, visit (ahead i e) = none := by
  induction allowance generalizing i with
  | zero => simp [probe]
  | succ allowance ih =>
    cases h : visit i with
    | some first =>
      simp only [probe, h]
      constructor
      · intro eq
        exact ⟨0, by omega, by simpa [h] using eq, by simp⟩
      · rintro ⟨d, -, found, before⟩
        cases d with
        | zero => simpa [h] using found
        | succ d => simpa [h] using before 0 (by omega)
    | none =>
      simp only [probe, h, ih, ahead_next]
      constructor
      · rintro ⟨d, hd, found, before⟩
        refine ⟨d + 1, by omega, found, fun e he => ?_⟩
        cases e with
        | zero => exact h
        | succ e => exact before e (by omega)
      · rintro ⟨d, hd, found, before⟩
        cases d with
        | zero => simp [h] at found
        | succ d => exact ⟨d, by omega, found, fun e he => before (e + 1) (by omega)⟩

/-- A whole turn may as well start after an index that does not answer. -/
theorem probe_next (passed : visit i = none) : probe visit n (next i) = probe visit n i := by
  cases h : probe visit n i with
  | none =>
    rw [probe_eq_none] at h ⊢
    intro d _
    obtain ⟨e, he, eq⟩ := exists_ahead i (ahead (next i) d)
    rw [← eq]
    exact h e he
  | some answer =>
    rw [probe_eq_some] at h ⊢
    obtain ⟨d, hd, found, before⟩ := h
    cases d with
    | zero => exact absurd (found.symm.trans passed) (by simp)
    | succ d => exact ⟨d, by omega, found, fun e he => before (e + 1) (by omega)⟩

/-- Two searches whose visits stop at the same indices with related answers. -/
theorem probe_rel {Other : Type*} {visit' : Fin n → Option Other} {rel : Answer → Other → Prop}
    (related : ∀ i, Option.Rel rel (visit i) (visit' i)) (allowance : Nat) (i : Fin n) :
    Option.Rel rel (probe visit allowance i) (probe visit' allowance i) := by
  induction allowance generalizing i with
  | zero => exact .none
  | succ allowance ih =>
    have here := related i
    unfold probe
    cases left : visit i <;> cases right : visit' i <;> rw [left, right] at here
    · exact ih (next i)
    · cases here
    · cases here
    · exact here

theorem probe_map {Other : Type*} (f : Answer → Other) (allowance : Nat) (i : Fin n) :
    probe (fun i => (visit i).map f) allowance i = (probe visit allowance i).map f := by
  induction allowance generalizing i with
  | zero => rfl
  | succ allowance ih =>
    unfold probe
    cases visit i with
    | none => exact ih (next i)
    | some _ => rfl

/-- The same search as an endless loop: it leaves after so many visits. -/
inductive Leaves (visit : Fin n → Option Answer) : Fin n → Nat → Answer → Prop where
  | here {i : Fin n} {answer : Answer} : visit i = some answer → Leaves visit i 1 answer
  | later {i : Fin n} {visits : Nat} {answer : Answer} : visit i = none →
      Leaves visit (next i) visits answer → Leaves visit i (visits + 1) answer

theorem probe_leaves {allowance : Nat} {answer : Answer} :
    probe visit allowance i = some answer ↔
      ∃ visits ≤ allowance, Leaves visit i visits answer := by
  induction allowance generalizing i with
  | zero =>
    simp only [probe, reduceCtorEq, false_iff, not_exists, not_and]
    rintro visits enough leaves
    cases leaves <;> omega
  | succ allowance ih =>
    cases h : visit i with
    | some first =>
      simp only [probe, h]
      constructor
      · rintro ⟨⟩
        exact ⟨1, by omega, .here h⟩
      · rintro ⟨visits, -, leaves⟩
        cases leaves with
        | here found => exact h.symm.trans found
        | later passed => simp [h] at passed
    | none =>
      simp only [probe, h, ih]
      constructor
      · rintro ⟨visits, enough, leaves⟩
        exact ⟨visits + 1, by omega, .later h leaves⟩
      · rintro ⟨visits, enough, leaves⟩
        cases leaves with
        | here found => simp [h] at found
        | later _ leaves => exact ⟨_, by omega, leaves⟩

/-- `p` holds at every index on the way from `i` to `j`, but for `j` itself. -/
def Before (p : Fin n → Prop) (i j : Fin n) : Prop :=
  ∀ d < n, ahead i d = j → ∀ e < d, p (ahead i e)

theorem Before.mono {p q : Fin n → Prop} {j : Fin n} (h : Before p i j) (imp : ∀ k, p k → q k) :
    Before q i j :=
  fun d hd eq e he => imp _ (h d hd eq e he)

theorem before_ahead {p : Fin n → Prop} {d : Nat} (hd : d < n) :
    Before p i (ahead i d) ↔ ∀ e < d, p (ahead i e) := by
  constructor
  · intro h
    exact h d hd rfl
  · intro h d' hd' eq
    rw [ahead_inj hd' hd eq]
    exact h

theorem before_self {p : Fin n → Prop} : Before p i i := by
  have hi := i.isLt
  intro d hd eq
  rw [ahead_inj (e := 0) hd (by omega) eq]
  simp

end Probing
