import Mathlib.Tactic

/-!
# Tilings

A run of blocks tiles `[lo, hi)` when each block starts where the one before it
ends. `Spread` is what is left when some blocks in the middle are not known.
-/

namespace Tiling

variable {Block : Type*} (addr size : Block → Nat)

def Tiles : Nat → List Block → Nat → Prop
  | lo, [], hi => lo = hi
  | lo, b :: blocks, hi => addr b = lo ∧ Tiles (lo + size b) blocks hi

/-- The blocks come in order and do not overlap. -/
def Spread (blocks : List Block) : Prop :=
  blocks.Pairwise fun b c => addr b + size b ≤ addr c

variable {addr size} {lo mid hi : Nat} {b c : Block} {blocks blocks' : List Block}

theorem tiles_append : Tiles addr size lo (blocks ++ blocks') hi ↔
    ∃ mid, Tiles addr size lo blocks mid ∧ Tiles addr size mid blocks' hi := by
  induction blocks generalizing lo with
  | nil => simp [Tiles]
  | cons b blocks ih => simp only [List.cons_append, Tiles, ih]; tauto

theorem Tiles.append (first : Tiles addr size lo blocks mid)
    (second : Tiles addr size mid blocks' hi) : Tiles addr size lo (blocks ++ blocks') hi :=
  tiles_append.mpr ⟨mid, first, second⟩

theorem Tiles.snoc (h : Tiles addr size lo blocks mid) (start : addr b = mid)
    (stop : mid + size b = hi) : Tiles addr size lo (blocks ++ [b]) hi :=
  h.append ⟨start, stop⟩

theorem Tiles.le (h : Tiles addr size lo blocks hi) : lo ≤ hi := by
  induction blocks generalizing lo with
  | nil => exact Nat.le_of_eq h
  | cons b blocks ih =>
    have := ih h.2
    omega

theorem Tiles.within (h : Tiles addr size lo blocks hi) (mem : b ∈ blocks) :
    lo ≤ addr b ∧ addr b + size b ≤ hi := by
  induction blocks generalizing lo with
  | nil => simp at mem
  | cons c blocks ih =>
    obtain ⟨start, rest⟩ := h
    rcases List.mem_cons.mp mem with rfl | mem
    · have := rest.le
      omega
    · have := ih rest mem
      omega

theorem Tiles.spread (h : Tiles addr size lo blocks hi) : Spread addr size blocks := by
  induction blocks generalizing lo with
  | nil => exact .nil
  | cons b blocks ih =>
    refine .cons (fun c hc => ?_) (ih h.2)
    have := h.2.within hc
    have := h.1
    omega

/-- A tiling that starts with the sizes of another one has a block where that ends. -/
theorem Tiles.reach (known : Tiles addr size lo blocks mid) (h : Tiles addr size lo blocks' hi)
    (inside : mid < hi) (same : ∀ b ∈ blocks, ∀ c ∈ blocks', addr b = addr c → size b = size c) :
    ∃ c ∈ blocks', addr c = mid := by
  induction blocks generalizing lo blocks' with
  | nil =>
    cases blocks' with
    | nil =>
      have first : lo = mid := known
      have last : lo = hi := h
      omega
    | cons c blocks' => exact ⟨c, by simp, h.1.trans known⟩
  | cons b blocks ih =>
    have low := known.le
    cases blocks' with
    | nil =>
      have last : lo = hi := h
      omega
    | cons c blocks' =>
      have size := same b (by simp) c (by simp) (known.1.trans h.1.symm)
      obtain ⟨d, mem, start⟩ := ih known.2 (size ▸ h.2) fun b hb c hc =>
        same b (by simp [hb]) c (by simp [hc])
      exact ⟨d, by simp [mem], start⟩

/-- Two tilings with a gap between them. -/
theorem spread_gap (first : Tiles addr size lo blocks mid) {mid' : Nat} (gap : mid ≤ mid')
    (second : Tiles addr size mid' blocks' hi) : Spread addr size (blocks ++ blocks') := by
  refine List.pairwise_append.mpr ⟨first.spread, second.spread, fun b hb c hc => ?_⟩
  have := first.within hb
  have := second.within hc
  omega

/-- `b` and `c` do not overlap. -/
def Apart (addr size : Block → Nat) (b c : Block) : Prop :=
  addr b + size b ≤ addr c ∨ addr c + size c ≤ addr b

theorem Spread.apart (h : Spread addr size blocks) (hb : b ∈ blocks) (hc : c ∈ blocks) :
    b = c ∨ Apart addr size b c := by
  have : Std.Symm (Apart addr size) := ⟨fun _ _ => Or.symm⟩
  have apart : blocks.Pairwise (Apart addr size) := List.Pairwise.imp Or.inl h
  exact or_iff_not_imp_left.mpr (apart.forall hb hc)

theorem Spread.nodup_addr (h : Spread addr size blocks) (positive : ∀ b ∈ blocks, 0 < size b) :
    (blocks.map addr).Nodup := by
  rw [List.Nodup, List.pairwise_map]
  refine List.Pairwise.imp_of_mem (fun {b c} hb _ before same => ?_) h
  have := positive b hb
  omega

end Tiling
