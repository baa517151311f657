import LinuxSystem.Allocator.Growth

/-!
# Double frees

A block that has been freed stays recognisable: wherever later merges leave its old
header, no call of `sf_free` writes there.
-/

namespace LinuxSystem.Allocator

open Transition Tiling

variable {h h' : Heap} {pre post blocks : List Block} {lists : Int → List Nat} {b : Block}
  {s t u : Session} {a x : Nat}

/-- A well-formed heap whose allocated blocks are the live ones. -/
structure Held (s : Session) (blocks : List Block) (lists : Int → List Nat) : Prop where
  wellFormed : WellFormed s.heap blocks lists
  live : s.live.Perm ((used blocks).map Block.payload)

/-- A call of `sf_free` on a live pointer that returns. -/
inductive FreeStep (s : Session) (p : Nat) : Session → Prop where
  | free {h : Heap} (held : p ∈ s.live) (call : sfFree s.heap p = .ok h) :
      FreeStep s p ⟨h, s.live.erase p⟩

/-- The block at `p`, and the one above if it is free, have less than 2 GiB. -/
def Readable (s : Session) (p : Nat) : Prop :=
  blockSize (s.heap.mem (p - 8)) < 2 ^ 27 ∧
    let above := p - 8 + 16 * blockSize (s.heap.mem (p - 8))
    above ≠ s.heap.endOfHeap → allocated (s.heap.mem above) = 0 →
      blockSize (s.heap.mem above) < 2 ^ 27

theorem Readable.small (readable : Readable s (b.addr + 8))
    (l : LaidOut s.heap (pre ++ b :: post) lists) : b.size < 2 ^ 31 ∧ SmallAbove post := by
  have mem : b ∈ pre ++ b :: post := by simp
  have aligned := (l.shaped b mem).aligned
  obtain ⟨own, above⟩ := readable
  rw [Nat.add_sub_cancel, (l.stored b mem).header.size] at own
  simp only [Nat.add_sub_cancel, (l.stored b mem).header.size] at above
  refine ⟨by omega, fun c first unused => ?_⟩
  obtain ⟨rest, rfl⟩ : ∃ rest, post = c :: rest := List.head?_eq_some_iff.mp first
  have hc : c ∈ pre ++ b :: c :: rest := by simp
  have least := (l.shaped c hc).least
  have aligned' := (l.shaped c hc).aligned
  have within := l.tiles.within hc
  have next : b.addr + 16 * (b.size / 16) = c.addr := by
    have := l.at.after.2.1
    omega
  rw [next, (l.stored c hc).header.allocated, (l.stored c hc).header.size] at above
  have := above (by omega) unused
  omega

/-! ## An old header -/

/-- `a` is the header of a free block, or lies inside one, off its links and its
footer; and it reads as free. -/
def Stale (h : Heap) (blocks : List Block) (a : Nat) : Prop :=
  allocated (h.mem a) = 0 ∧ ∃ f ∈ blocks, f.allocated = 0 ∧ (a = f.addr ∨ f.addr + 32 ≤ a) ∧
    a + 32 ≤ f.addr + f.size

theorem Stale.offFree (stale : Stale h blocks a) (l : LaidOut h blocks lists) :
    OffFree blocks a := by
  obtain ⟨-, f, hf, -, low, high⟩ := stale
  intro c hc _
  have := (l.shaped f hf).least
  have := (l.shaped c hc).least
  unfold Block.footer
  obtain rfl | before | after := l.tiles.spread.apart hf hc
  · omega
  · omega
  · omega

/-- The block that is freed leaves its own header behind. -/
theorem Freed.stale (freed : Freed h h' pre b post lists)
    (l : LaidOut h (pre ++ b :: post) lists) :
    Stale h' (pre ++ freeBlock b.addr (mergedSize b.size post) :: mergedRest post) b.addr := by
  have mem : freeBlock b.addr (mergedSize b.size post) ∈
      pre ++ freeBlock b.addr (mergedSize b.size post) :: mergedRest post := by simp
  have shaped := l.shaped b (by simp)
  have shapedAbove (c : Block) (mem : c ∈ post) : c.Shaped := l.shaped c (by simp [mem])
  have larger := (mergedSize_shape shapedAbove shaped.least shaped.aligned).1
  refine ⟨(freed.laidOut.stored _ mem).header.allocated, _, mem, rfl, Or.inl rfl, ?_⟩
  simp only [freeBlock]
  omega

/-- A block other than the one that is freed is left, or is the one it is merged with. -/
theorem merged_mem {f : Block} (mem : f ∈ pre ++ post) (size : Nat) :
    f ∈ pre ++ mergedRest post ∨
      ∃ rest, post = f :: rest ∧ mergedSize size post = size + f.size := by
  obtain mem | mem := List.mem_append.mp mem
  · exact Or.inl (List.mem_append_left _ mem)
  · cases post with
    | nil => exact absurd mem List.not_mem_nil
    | cons c rest =>
      rw [mergedRest, mergedSize]
      split
      · obtain rfl | mem := List.mem_cons.mp mem
        · exact Or.inr ⟨rest, rfl, rfl⟩
        · exact Or.inl (List.mem_append_right _ mem)
      · exact Or.inl (List.mem_append_right _ mem)

/-- Freeing another block keeps an old header. -/
theorem Stale.freed (stale : Stale h (pre ++ b :: post) a) (freed : Freed h h' pre b post lists)
    (l : LaidOut h (pre ++ b :: post) lists) (taken : b.allocated = 1) :
    Stale h' (pre ++ freeBlock b.addr (mergedSize b.size post) :: mergedRest post) a := by
  have off := stale.offFree l
  obtain ⟨free, f, hf, unused, low, high⟩ := stale
  have hb : b ∈ pre ++ b :: post := by simp
  have other : f ∈ pre ++ post := by
    simp only [List.mem_append, List.mem_cons] at hf ⊢
    obtain mem | rfl | mem := hf
    · exact Or.inl mem
    · omega
    · exact Or.inr mem
  have leastB := (l.shaped b hb).least
  have apart := used_apart l.tiles.spread (mem_used.mpr ⟨hb, taken⟩) hf unused
  have kept : h'.mem a = h.mem a := by
    apply freed.keeps
    · obtain before | after := apart
      · omega
      · omega
    · intro c mem
      apply off c
      simp only [List.mem_append, List.mem_cons] at mem ⊢
      tauto
  refine ⟨by rw [kept, free], ?_⟩
  obtain left | ⟨rest, rfl, whole⟩ := merged_mem other b.size
  · refine ⟨f, ?_, unused, low, high⟩
    simp only [List.mem_append, List.mem_cons] at left ⊢
    tauto
  · -- `f` is the block above, and `b` is put in front of it
    have next : f.addr = b.addr + b.size := l.at.after.2.1
    refine ⟨freeBlock b.addr (mergedSize b.size (f :: rest)), by simp, rfl, Or.inr ?_, ?_⟩
    · simp only [freeBlock]
      omega
    · simp only [freeBlock, whole]
      omega

/-- A pointer behind an old header does not pass the checks. -/
theorem Stale.aborts (stale : Stale h blocks a) : sfFree h (a + 8) = .error .abort := by
  have check : checkBlock h a = false := by simp [checkBlock, stale.1]
  simp [sfFree, check]

/-! ## Runs of frees -/

/-- What one call of `sf_free` does to a heap and to the old headers in it. -/
theorem FreeStep.freed (step : FreeStep s x t) (held : Held s blocks lists)
    (readable : Readable s x) : ∃ b ∈ used blocks, x = b.addr + 8 ∧
      ∃ blocks' lists', Held t blocks' lists' ∧ Stale t.heap blocks' b.addr ∧
        ∀ a, Stale s.heap blocks a → Stale t.heap blocks' a := by
  obtain ⟨mem, call⟩ := step
  obtain ⟨b, live, rfl⟩ := List.mem_map.mp (held.live.mem_iff.mp mem)
  refine ⟨b, live, rfl, ?_⟩
  have w := held.wellFormed
  have fills := w.filled b live
  obtain ⟨hb, taken⟩ := mem_used.mp live
  obtain ⟨pre, post, rfl⟩ := List.append_of_mem hb
  have l := w.laidOut
  obtain ⟨small, above⟩ := readable.small l
  obtain ⟨h', returns, freed⟩ := sfFree_freed l taken small fills above
  obtain rfl := Except.ok.inj (call.symm.trans returns)
  refine ⟨_, _, ⟨freed.laidOut.wellFormed (w.filled.freed _ _), ?_⟩, freed.stale l, ?_⟩
  · have left := (held.live.trans ((used_freed taken b.addr
      (mergedSize b.size post)).map Block.payload)).erase b.payload
    rwa [List.map_cons, List.erase_cons_head] at left
  · intro a stale
    exact stale.freed freed l taken

/-- After `sf_free(x)` and any calls of `sf_free` on other live pointers, each of which
reads sizes below 2 GiB, a second `sf_free(x)` aborts. -/
theorem double_free_aborts (held : Held s blocks lists) (first : FreeStep s x t)
    (readable : Readable s x) (run : Run FreeStep Readable t u) :
    sfFree u.heap x = .error .abort := by
  obtain ⟨b, -, rfl, blocks₁, lists₁, held₁, stale₁, -⟩ := first.freed held readable
  obtain ⟨blocks', lists', -, stale⟩ :
      ∃ blocks' lists', Held u blocks' lists' ∧ Stale u.heap blocks' b.addr := by
    apply run.invariant fun s => ∃ blocks lists, Held s blocks lists ∧ Stale s.heap blocks b.addr
    · exact ⟨_, _, held₁, stale₁⟩
    · rintro s t p ⟨blocks, lists, held, stale⟩ readable step
      obtain ⟨c, -, -, blocks', lists', held', -, keeps⟩ := step.freed held readable
      exact ⟨blocks', lists', held', keeps _ stale⟩
  exact stale.aborts

/-! Two live blocks, at addresses 16 and 48. -/

def afterFree (h : Heap) (p : Nat) : Heap := (sfFree h p).toOption.getD h

theorem sfFree_afterFree {p : Nat} (returns : (sfFree h p).isOk = true) :
    sfFree h p = .ok (afterFree h p) := by
  unfold afterFree
  cases called : sfFree h p with
  | error fault =>
    rw [called] at returns
    exact absurd returns (by simp [Except.isOk, Except.toBool])
  | ok h' => rfl

instance (s : Session) (p : Nat) : Decidable (Readable s p) :=
  inferInstanceAs (Decidable (_ ∧ (_ → _ → _)))

theorem held_start {size : Nat}
    (w : WellFormed h (heldBlocks size) (freeOf · (heldBlocks size))) :
    Held ⟨h, [24, 56]⟩ (heldBlocks size) (freeOf · (heldBlocks size)) :=
  ⟨w, by simp [heldBlocks, used, heldBlock, Block.payload]⟩

theorem double_free_aborts_on_a_page :
    sfFree (afterFree (afterFree (heldHeap 4064) 24) 56) 24 = .error .abort := by
  have held := held_start (@heldHeap_wellFormed 4064 (by decide) (by decide) (by decide))
  have first : FreeStep ⟨heldHeap 4064, [24, 56]⟩ 24 ⟨afterFree (heldHeap 4064) 24, [56]⟩ :=
    .free (by simp) (sfFree_afterFree (by decide +kernel))
  have second : FreeStep ⟨afterFree (heldHeap 4064) 24, [56]⟩ 56
      ⟨afterFree (afterFree (heldHeap 4064) 24) 56, []⟩ :=
    .free (by simp) (sfFree_afterFree (by decide +kernel))
  have readable : Readable ⟨heldHeap 4064, [24, 56]⟩ 24 := by decide +kernel
  have readable' : Readable ⟨afterFree (heldHeap 4064) 24, [56]⟩ 56 := by decide +kernel
  exact (double_free_aborts held first readable (Run.next (Run.refl _) second readable') :)

/-! The heap that ends in a block of 2 GiB and 4064 bytes, with words where the code
takes its footer and the header above to be, and one in its payload. -/

def wildFooter : Nat := 48 + (2 ^ 64 - 2 ^ 32 + (2 ^ 31 + 4064)) - 8

def wildHeap : Heap :=
  (((farHeap.write wildFooter 3).write (wildFooter + 16) (2 ^ 40 + 67)).write
    (wildFooter + 24) 8).write 72 3

theorem wildHeap_wellFormed :
    WellFormed wildHeap (heldBlocks (2 ^ 31 + 4064)) (freeOf · (heldBlocks (2 ^ 31 + 4064))) := by
  have outside : SameHeap farHeap (((farHeap.write wildFooter 3).write (wildFooter + 16)
      (2 ^ 40 + 67)).write (wildFooter + 24) 8) := by
    refine ⟨rfl, rfl, fun a low high => ?_⟩
    change a < 48 + (2 ^ 31 + 4064) at high
    have far : a < wildFooter := by
      unfold wildFooter
      omega
    simp only [Heap.write]
    rw [Function.update_of_ne (by omega), Function.update_of_ne (by omega),
      Function.update_of_ne (by omega)]
  have w := (farHeap_wellFormed.laidOut.sameHeap outside).wellFormed farHeap_wellFormed.filled
  refine w.payload rfl rfl fun a outside => Function.update_of_ne ?_ _ _
  rintro rfl
  refine outside ⟨⟨48, 2 ^ 31 + 4064, 1, 1, 5⟩, ?_, by decide, by decide⟩
  simp [heldBlocks, used, heldBlock]

/-- Freeing the large block writes the old header of the first, which is then freed a
second time. -/
theorem second_free_returns : ¬ ∀ (s t u : Session) (blocks : List Block)
    (lists : Int → List Nat) (x : Nat), Held s blocks lists → FreeStep s x t →
      Reachable FreeStep t u → sfFree u.heap x = .error .abort := by
  intro caught
  have first : FreeStep ⟨wildHeap, [24, 56]⟩ 24 ⟨afterFree wildHeap 24, [56]⟩ :=
    .free (by simp) (sfFree_afterFree (by decide +kernel))
  have second : FreeStep ⟨afterFree wildHeap 24, [56]⟩ 56
      ⟨afterFree (afterFree wildHeap 24) 56, []⟩ :=
    .free (by simp) (sfFree_afterFree (by decide +kernel))
  have aborts := caught _ _ _ _ _ 24 (held_start wildHeap_wellFormed) first
    (Reachable.next (Run.refl _) second)
  have returns : (sfFree (afterFree (afterFree wildHeap 24) 56) 24).isOk = true := by
    decide +kernel
  rw [aborts] at returns
  exact absurd returns (by decide)

end LinuxSystem.Allocator
