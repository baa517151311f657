import Mathlib.Data.List.Chain
import Mathlib.Data.List.Nodup

/-!
# Linked lists in a heap

A linked list is a path whose consecutive nodes are related by their links, from
its head pointer to null. A change of the heap matters to it only at its nodes.
-/

namespace Linked

variable {α : Type*} {R S : α → α → Prop}

/-- Only the links between consecutive nodes matter. -/
theorem chain_congr {l : List α} (agree : ∀ a ∈ l.dropLast, ∀ b ∈ l.tail, R a b → S a b)
    (chain : List.IsChain R l) : List.IsChain S l := by
  induction l with
  | nil => exact .nil
  | cons x l ih =>
    cases l with
    | nil => exact .singleton x
    | cons y l =>
      refine .cons_cons (agree x (by simp) y (by simp) chain.rel) (ih ?_ chain.tail)
      intro a ha b hb
      exact agree a (by simp [ha]) b (List.mem_of_mem_tail hb)

/-! ## Doubly linked lists -/

section Doubly

variable (next prev : α → α) (nil : α)

/-- `next` leads from `a` to `b`, and `prev` back. -/
def Link (a b : α) : Prop := next a = b ∧ (b ≠ nil → prev b = a)

/-- `l` is linked both ways and ends in `nil`; `next nil` is its head pointer. -/
def Doubly (l : List α) : Prop := List.IsChain (Link next prev nil) (nil :: l ++ [nil])

end Doubly

variable {next prev next' prev' : α → α} {nil p : α} {l l₁ l₂ : List α}

theorem Doubly.congr (h : Doubly next prev nil l) (nexts : ∀ a ∈ nil :: l, next' a = next a)
    (prevs : ∀ b ∈ l, prev' b = prev b) : Doubly next' prev' nil l := by
  refine chain_congr (fun a ha b hb link => ⟨?_, fun real => ?_⟩) h
  · rw [List.dropLast_concat] at ha
    rw [nexts a ha]
    exact link.1
  · have mem : b ∈ l := by simpa [real] using hb
    rw [prevs b mem]
    exact link.2 real

/-- The head pointer leads to the first node. -/
theorem Doubly.head (h : Doubly next prev nil l) : (l ++ [nil]).head? = some (next nil) := by
  cases l with
  | nil => exact congrArg some h.rel.1.symm
  | cons a l => exact congrArg some h.rel.1.symm

theorem Doubly.head_mem (h : Doubly next prev nil l) (real : next nil ≠ nil) : next nil ∈ l := by
  have first := List.mem_of_mem_head? h.head
  simpa [real] using first

/-- Inserting `p` at the front. -/
theorem Doubly.insert (h : Doubly next prev nil l) (distinct : (nil :: p :: l).Nodup)
    (head : next' nil = p) (first : prev' p = nil) (second : next' p = next nil)
    (back : next nil ≠ nil → prev' (next nil) = p) (nexts : ∀ a ∈ l, next' a = next a)
    (prevs : ∀ b ∈ l, b ≠ next nil → prev' b = prev b) : Doubly next' prev' nil (p :: l) := by
  refine .cons_cons ⟨head, fun _ => first⟩ ?_
  have rest := List.nodup_cons.mp (List.nodup_cons.mp distinct).2
  have start := h.head
  cases l with
  | nil =>
    have start : nil = next nil := Option.some.inj start
    exact .cons_cons ⟨second.trans start.symm, fun real => absurd rfl real⟩ (.singleton nil)
  | cons y l =>
    have start : y = next nil := Option.some.inj start
    have tail : List.IsChain (Link next prev nil) (y :: l ++ [nil]) := h.tail
    refine .cons_cons ⟨second.trans start.symm, fun real => ?_⟩ ?_
    · rw [start] at real ⊢
      exact back real
    · refine chain_congr (l := y :: l ++ [nil]) (fun a ha b hb link => ⟨?_, fun real => ?_⟩) tail
      · rw [List.dropLast_concat] at ha
        rw [nexts a ha]
        exact link.1
      · have mem : b ∈ l := by simpa [real] using hb
        have apart : b ≠ next nil := by
          rintro rfl
          exact (List.nodup_cons.mp rest.2).1 (start ▸ mem)
        rw [prevs b (by simp [mem]) apart]
        exact link.2 real

/-- The path around `p`, cut at it. -/
theorem Doubly.cut (h : Doubly next prev nil (l₁ ++ p :: l₂)) (real : p ≠ nil) :
    ∃ front back, nil :: l₁ = front ++ [prev p] ∧ l₂ ++ [nil] = next p :: back ∧
      List.IsChain (Link next prev nil) (front ++ [prev p]) ∧
      List.IsChain (Link next prev nil) (next p :: back) := by
  have path : nil :: (l₁ ++ p :: l₂) ++ [nil] = nil :: l₁ ++ p :: (l₂ ++ [nil]) := by simp
  rw [Doubly, path] at h
  obtain ⟨front, q, eq⟩ : ∃ front q, nil :: l₁ = front ++ [q] :=
    (List.eq_nil_or_concat' _).resolve_left (by simp)
  rw [eq, List.append_assoc, List.singleton_append, List.isChain_append_cons_cons] at h
  obtain ⟨before, link, after⟩ := h
  obtain rfl := link.2 real
  obtain ⟨r, back, eq'⟩ : ∃ r back, l₂ ++ [nil] = r :: back :=
    List.exists_cons_of_ne_nil (by simp)
  rw [eq'] at after
  obtain rfl := after.rel.1
  exact ⟨front, back, eq, eq', before, after.tail⟩

theorem Doubly.prev_mem (h : Doubly next prev nil (l₁ ++ p :: l₂)) (real : p ≠ nil) :
    prev p ∈ nil :: l₁ := by
  obtain ⟨front, back, eq, -⟩ := h.cut real
  simp [eq]

theorem Doubly.next_mem (h : Doubly next prev nil (l₁ ++ p :: l₂)) (real : p ≠ nil) :
    next p ∈ l₂ ++ [nil] := by
  obtain ⟨front, back, -, eq, -⟩ := h.cut real
  simp [eq]

/-- Taking `p` out of the list. -/
theorem Doubly.remove (h : Doubly next prev nil (l₁ ++ p :: l₂))
    (distinct : (nil :: (l₁ ++ p :: l₂)).Nodup) (seam : next' (prev p) = next p)
    (seam' : next p ≠ nil → prev' (next p) = prev p)
    (nexts : ∀ a ∈ nil :: (l₁ ++ l₂), a ≠ prev p → next' a = next a)
    (prevs : ∀ b ∈ l₁ ++ l₂, b ≠ next p → prev' b = prev b) :
    Doubly next' prev' nil (l₁ ++ l₂) := by
  have real : p ≠ nil := by
    rintro rfl
    simp at distinct
  obtain ⟨front, back, eq, eq', before, after⟩ := h.cut real
  have path : nil :: (l₁ ++ l₂) ++ [nil] = front ++ prev p :: next p :: back := by
    have : nil :: (l₁ ++ l₂) ++ [nil] = nil :: l₁ ++ (l₂ ++ [nil]) := by simp
    rw [this, eq, eq']
    simp
  -- a node has one place on the path, so only the links of the seam may differ
  have once : (nil :: l₁ ++ l₂).Nodup := distinct.sublist (by simp)
  have front_once : (front ++ [prev p]).Nodup := eq ▸ (List.nodup_append.mp once).1
  have back_once : (next p :: back).Nodup := by
    rw [← eq']
    exact (List.perm_append_singleton nil l₂).nodup_iff.mpr (once.sublist (by simp))
  have prev_mem : prev p ∈ nil :: l₁ := by simp [eq]
  have next_mem : next p ∈ l₂ ++ [nil] := by simp [eq']
  have apart (a b : α) (ha : a ∈ nil :: l₁) (hb : b ∈ l₂) : a ≠ b :=
    (List.nodup_append.mp once).2.2 a ha b hb
  rw [Doubly, path, List.isChain_append_cons_cons]
  refine ⟨chain_congr (fun a ha b hb link => ⟨?_, fun hb' => ?_⟩) before, ⟨seam, seam'⟩,
    chain_congr (fun a ha b hb link => ⟨?_, fun hb' => ?_⟩) after⟩
  · rw [List.dropLast_concat] at ha
    have mem : a ∈ nil :: l₁ := by simp [eq, ha]
    rw [nexts a (List.mem_append_left l₂ mem) fun same => ?_]
    · exact link.1
    · exact (List.nodup_append.mp front_once).2.2 a ha (prev p) (by simp) same
  · have mem : b ∈ l₁ := by simpa [← eq] using hb
    rw [prevs b (by simp [mem]) fun same => ?_]
    · exact link.2 hb'
    · have : next p ∈ l₂ := by simpa [← same, hb'] using next_mem
      exact apart b (next p) (by simp [mem]) this same
  · rw [← eq', List.dropLast_concat] at ha
    rw [nexts a (by simp [ha]) fun same => apart (prev p) a prev_mem ha same.symm]
    exact link.1
  · have mem : b ∈ l₂ := by
      have : b ∈ l₂ ++ [nil] := eq' ▸ List.mem_cons_of_mem _ hb
      simpa [hb'] using this
    rw [prevs b (by simp [mem]) fun same => ?_]
    · exact link.2 hb'
    · exact (List.nodup_cons.mp back_once).1 (same ▸ hb)

end Linked
