import LinuxSystem.Allocator.Window

/-!
# Heaps from their blocks

A run of blocks with at most one free block is drawn as a heap: its tags are
written, and every other word is 0.
-/

namespace LinuxSystem.Allocator

open Linked Tiling

/-- The header and the footer of `b`. -/
def Block.word (b : Block) : Nat :=
  b.requested * 2 ^ 32 + b.size + b.padded * 2 + b.allocated

def drawnWord : List Block → Nat → Nat
  | [], _ => 0
  | b :: blocks, a => if a = b.addr ∨ a = b.footer then b.word else drawnWord blocks a

/-- The heap of `blocks`, on `pages` pages from `base` on. -/
def drawn (base stop pages : Nat) (blocks : List Block) : Heap where
  mem := drawnWord blocks
  head n := (freeOf n blocks).headD 0
  startOfHeap := base
  endOfHeap := stop
  errno := none
  pages := pages
  calls := pages

/-- The sizes and the fields of `b` are those of a block. -/
structure Block.Drawable (b : Block) : Prop where
  least : 32 ≤ b.size
  aligned : b.size % 16 = 0
  limit : b.size < 2 ^ 32
  allocated : b.allocated < 2
  padded : b.padded < 2

variable {base stop pages : Nat} {blocks : List Block} {b : Block}

theorem Block.Drawable.tagged (d : b.Drawable) : Tagged b b.word := by
  obtain ⟨least, aligned, limit, alloc, pad⟩ := d
  constructor
  · unfold Allocator.allocated Block.word
    omega
  · unfold Allocator.padded Block.word
    omega
  · unfold blockSize Block.word
    omega

theorem Block.Drawable.requested (d : b.Drawable) (bound : b.requested < 2 ^ 32) :
    requestedSize b.word = b.requested := by
  obtain ⟨least, aligned, limit, alloc, pad⟩ := d
  unfold requestedSize Block.word
  omega

/-- No word but the tags of the blocks is written. -/
theorem drawnWord_zero {a : Nat} (clear : ∀ b ∈ blocks, a ≠ b.addr ∧ a ≠ b.footer) :
    drawnWord blocks a = 0 := by
  induction blocks with
  | nil => rfl
  | cons b blocks ih =>
    have own := clear b (by simp)
    rw [drawnWord, if_neg (by omega)]
    exact ih fun c mem => clear c (by simp [mem])

theorem drawnWord_tags (tiles : Tiles Block.addr Block.size base blocks stop)
    (least : ∀ b ∈ blocks, 32 ≤ b.size) (mem : b ∈ blocks) :
    drawnWord blocks b.addr = b.word ∧ drawnWord blocks b.footer = b.word := by
  induction blocks generalizing base with
  | nil => exact absurd mem List.not_mem_nil
  | cons c blocks ih =>
    have hc := least c (by simp)
    obtain rfl | mem := List.mem_cons.mp mem
    · exact ⟨if_pos (Or.inl rfl), if_pos (Or.inr rfl)⟩
    · have hb := least b (by simp [mem])
      have start := tiles.1
      have within := tiles.2.within mem
      obtain ⟨header, footer⟩ := ih tiles.2 (fun d hd => least d (by simp [hd])) mem
      unfold Block.footer at footer ⊢
      rw [drawnWord, drawnWord, if_neg, if_neg]
      · exact ⟨header, footer⟩
      · unfold Block.footer
        omega
      · unfold Block.footer
        omega

theorem freeOf_sublist (n : Int) (blocks : List Block) :
    (freeOf n blocks).length ≤ (blocks.filter (·.allocated = 0)).length := by
  rw [freeOf, List.length_map, ← List.countP_eq_length_filter, ← List.countP_eq_length_filter]
  apply List.countP_mono_left
  intro b _ both
  simp only [decide_eq_true_eq] at both ⊢
  exact both.1

/-- A drawn heap is laid out as its blocks. -/
theorem drawn_laidOut (tiles : Tiles Block.addr Block.size base blocks stop) (real : 0 < base)
    (drawable : ∀ b ∈ blocks, b.Drawable) (requested : ∀ b ∈ blocks, b.requested < 2 ^ 32)
    (alone : (blocks.filter (·.allocated = 0)).length ≤ 1) :
    LaidOut (drawn base stop pages blocks) blocks (freeOf · blocks) where
  tiles := tiles
  shaped b mem := by
    have := tiles.within mem
    exact ⟨by omega, (drawable b mem).least, (drawable b mem).aligned⟩
  stored b mem := by
    have tags : (drawn base stop pages blocks).mem b.addr = b.word ∧
        (drawn base stop pages blocks).mem b.footer = b.word :=
      drawnWord_tags tiles (fun c hc => (drawable c hc).least) mem
    constructor
    · rw [tags.1]
      exact (drawable b mem).tagged
    · rw [tags.2]
      exact (drawable b mem).tagged
    · rw [tags.2]
      exact (drawable b mem).requested (requested b mem)
  linked n _ _ := by
    have short := (freeOf_sublist n blocks).trans alone
    have first : (drawn base stop pages blocks).head n = (freeOf n blocks).headD 0 := rfl
    cases nodes : freeOf n blocks with
    | nil =>
      rw [nodes] at first
      exact .cons_cons ⟨first, fun null => absurd rfl null⟩ (.singleton 0)
    | cons x rest =>
      rw [nodes] at first short
      obtain rfl : rest = [] := List.eq_nil_of_length_eq_zero (by simpa using short)
      have node : x ∈ freeOf n blocks := by simp [nodes]
      obtain ⟨c, mem, unused, -, rfl⟩ := mem_freeOf.mp node
      have within := tiles.within mem
      -- the links are no tags, so they are NULL
      have zero (a : Nat) (links : a = c.addr + 8 ∨ a = c.addr + 16) :
          drawnWord blocks a = 0 := by
        apply drawnWord_zero
        intro d hd
        have := (drawable c mem).least
        have := (drawable d hd).least
        unfold Block.footer
        obtain rfl | before | after := tiles.spread.apart mem hd
        · omega
        · omega
        · omega
      refine .cons_cons ⟨first, fun _ => zero _ (Or.inr rfl)⟩ (.cons_cons ⟨?_, ?_⟩ (.singleton 0))
      · rw [Heap.nextFrom, if_neg (by omega)]
        exact zero _ (Or.inl rfl)
      · exact fun null => absurd rfl null
  free n := List.Perm.refl _

end LinuxSystem.Allocator
