import LinuxSystem.Allocator.Malloc

/-!
# sf_realloc

A block grows by moving, and shrinks in place: whole, or cut with the rest freed.
-/

namespace LinuxSystem.Allocator

open Tiling

variable {env : Sbrk} {h h' : Heap} {pre post blocks blocks' : List Block}
  {lists : Int → List Nat} {b : Block} {size : Nat}

/-! ## Payloads -/

/-- `a` is a word of the payload of an allocated block. -/
def InPayload (blocks : List Block) (a : Nat) : Prop :=
  ∃ b ∈ used blocks, b.addr + 8 ≤ a ∧ a < b.footer

theorem not_inPayload (spread : Spread Block.addr Block.size blocks)
    (shaped : ∀ b ∈ blocks, b.Shaped) (mem : b ∈ blocks) :
    ¬ InPayload blocks b.addr ∧ ¬ InPayload blocks b.footer := by
  have least := (shaped b mem).least
  constructor
  all_goals
    rintro ⟨c, hc, low, high⟩
    have := (shaped c (mem_used.mp hc).1).least
    unfold Block.footer at *
    obtain rfl | before | after := spread.apart mem (mem_used.mp hc).1
    · omega
    · omega
    · omega

theorem link_not_inPayload (spread : Spread Block.addr Block.size blocks)
    (shaped : ∀ b ∈ blocks, b.Shaped) (mem : b ∈ blocks) (unused : b.allocated = 0) :
    ¬ InPayload blocks (b.addr + 8) ∧ ¬ InPayload blocks (b.addr + 16) := by
  have least := (shaped b mem).least
  constructor
  all_goals
    rintro ⟨c, hc, low, high⟩
    obtain ⟨hc, taken⟩ := mem_used.mp hc
    have := (shaped c hc).least
    unfold Block.footer at high
    obtain rfl | before | after := spread.apart mem hc
    · omega
    · omega
    · omega

/-- Writing to payloads keeps the heap well formed. -/
theorem WellFormed.payload (w : WellFormed h blocks lists) (rest : h'.rest = h.rest)
    (heads : h'.head = h.head) (agree : ∀ a, ¬ InPayload blocks a → h'.mem a = h.mem a) :
    WellFormed h' blocks lists where
  tiles := by
    rw [startOfHeap_of_rest rest, endOfHeap_of_rest rest]
    exact w.tiles
  shaped := w.shaped
  stored b mem := by
    have tags := not_inPayload w.tiles.spread w.shaped mem
    exact (w.stored b mem).congr (agree _ tags.1) (agree _ tags.2)
  linked n low high := by
    apply linked_congr (w.linked n low high) (congrFun heads n)
    intro x mem
    obtain ⟨b, hb, unused, -, rfl⟩ := mem_freeOf.mp ((w.free n).mem_iff.mp mem)
    have links := link_not_inPayload w.tiles.spread w.shaped hb unused
    exact ⟨agree _ links.1, agree _ links.2⟩
  free := w.free
  filled := w.filled

/-- The copy of a payload into a larger block. -/
theorem memcpy_valid (src : Nat) (v : Valid env h blocks lists) (mem : b ∈ used blocks) {n : Nat}
    (fit : n + 16 ≤ b.size) : Valid env (memcpy h (b.addr + 8) src n) blocks lists := by
  refine v.congr (v.wellFormed.payload rfl rfl fun a outside => if_neg fun inside => ?_) rfl v.small
  refine outside ⟨b, mem, inside.1, ?_⟩
  unfold Block.footer
  omega

/-! ## Rewriting an allocated block in place -/

/-- `h'` differs from `h` only in words of `b`. -/
def Within (h h' : Heap) (b : Block) : Prop :=
  ∀ a, a < b.addr ∨ b.addr + b.size ≤ a → h'.mem a = h.mem a

theorem writeBlock_within (h : Heap) {ptr size : Nat} (requested alloc pad : Nat)
    (low : b.addr ≤ ptr) (least : 32 ≤ size) (high : ptr + size ≤ b.addr + b.size) :
    Within h (writeBlock h ptr size requested alloc pad) b := by
  intro a outside
  apply writeBlock_mem
  · omega
  · omega

theorem Within.untouched (within : Within h h' b) (l : LaidOut h (pre ++ b :: post) lists)
    {c : Block} (mem : c ∈ pre ++ post) : Untouched h h' c := by
  intro a low high
  apply within
  have := (l.shaped b (by simp)).least
  obtain ⟨mid, before, start, after⟩ := tiles_append.mp l.tiles
  obtain mem | mem := List.mem_append.mp mem
  · have := before.within mem
    omega
  · have := after.within mem
    omega

theorem rewriteBlock (size : Nat) (l : LaidOut h (pre ++ b :: post) lists)
    (taken : b.allocated = 1) {pad : Nat} (bit : pad < 2) (short : size < 2 ^ 32) :
    LaidOut (writeBlock h b.addr b.size size 1 pad)
      (pre ++ ⟨b.addr, b.size, 1, pad, size⟩ :: post) lists := by
  have shaped := l.shaped b (by simp)
  have shaped' : Block.Shaped ⟨b.addr, b.size, 1, pad, size⟩ :=
    ⟨shaped.real, shaped.least, shaped.aligned⟩
  have o := (l.at.forget taken).writeAllocated shaped' (Nat.le_refl _)
    (l.stored b (by simp)).header.size_lt bit short
  have closed := o.close
  rwa [List.append_assoc, List.singleton_append] at closed

/-- A block cut for a request, with its rest made to look like an allocated block. -/
def cutBlock (h : Heap) (b : Block) (size : Nat) : Heap :=
  writeBlock (writeBlock h b.addr (blockFor size) size 1 (paddedFor size))
    (b.addr + blockFor size) (b.size - blockFor size) 1 1 1

/-- The first part of a cut block. -/
def cutHead (b : Block) (size : Nat) : Block := ⟨b.addr, blockFor size, 1, paddedFor size, size⟩

def cutTail (b : Block) (size : Nat) : Block :=
  ⟨b.addr + blockFor size, b.size - blockFor size, 1, 1, 1⟩

theorem cutTail_least (shaped : b.Shaped) (large : size + 48 ≤ b.size) :
    32 ≤ (cutTail b size).size := by
  have := shaped.aligned
  have := blockFor_aligned size
  have := blockFor_bounds size
  simp only [cutTail]
  omega

theorem cutBlock_laidOut (l : LaidOut h (pre ++ b :: post) lists) (taken : b.allocated = 1)
    (positive : 1 ≤ size) (large : size + 48 ≤ b.size) :
    LaidOut (cutBlock h b size) (pre ++ cutHead b size :: cutTail b size :: post) lists := by
  have shaped := l.shaped b (by simp)
  have limit := (l.stored b (by simp)).header.size_lt
  have bounds := blockFor_bounds size
  have least := cutTail_least shaped large
  have rest : (cutTail b size).Shaped :=
    shaped_rest (Nat.add_pos_left shaped.real _) shaped least
  have front := (l.at.forget taken).writeAllocated (shaped_blockFor shaped.real positive)
    (by omega) (by omega) (paddedFor_lt size) (by omega)
  have back := front.writeAllocated rest (by omega) (by omega) Nat.one_lt_two (by omega)
  have whole : b.addr + blockFor size + (b.size - blockFor size) = b.addr + b.size := by omega
  rw [whole] at back
  have closed := back.close
  rwa [List.append_assoc, List.append_assoc, List.singleton_append, List.singleton_append] at closed

theorem Filled.cut (filled : Filled (pre ++ b :: post)) (size : Nat) :
    Filled (pre ++ cutHead b size :: cutTail b size :: post) := by
  have rest : Filled (pre ++ cutTail b size :: post) :=
    filled.replace fun _ => by simp [Block.Fills, cutTail]
  exact rest.insert fun _ => fills_blockFor _ _

theorem cutBlock_within (h : Heap) (shaped : b.Shaped) (positive : 1 ≤ size)
    (large : size + 48 ≤ b.size) : Within h (cutBlock h b size) b := by
  have bounds := blockFor_bounds size
  have front : 32 ≤ blockFor size := (shaped_blockFor shaped.real positive).least
  have least := cutTail_least shaped large
  simp only [cutTail] at least
  intro a outside
  have first := writeBlock_within (b := b) h size 1 (paddedFor size) (Nat.le_refl _) front
    (by omega)
  have second := writeBlock_within (b := b)
    (writeBlock h b.addr (blockFor size) size 1 (paddedFor size)) 1 1 1
    (Nat.le_add_right _ (blockFor size)) least (by omega)
  exact (second a outside).trans (first a outside)

/-! ## sf_free and sf_realloc on a live block -/

/-- A free block directly above `b` is below 2 GiB. -/
def SmallAtop (blocks : List Block) (b : Block) : Prop :=
  ∀ c ∈ blocks, c.allocated = 0 → c.addr = b.addr + b.size → c.size < 2 ^ 31

theorem SmallAtop.above (atop : SmallAtop (pre ++ b :: post) b)
    (l : LaidOut h (pre ++ b :: post) lists) : SmallAbove post := by
  intro c first unused
  obtain ⟨rest, rfl⟩ : ∃ rest, post = c :: rest := List.head?_eq_some_iff.mp first
  exact atop c (by simp) unused l.at.after.2.1

/-- As it reads in the heap: the block above that of the payload at `p`, if it is free,
is below 2 GiB. -/
def SmallNext (h : Heap) (p : Nat) : Prop :=
  p - 8 + blockBytes (h.mem (p - 8)) < h.endOfHeap →
    allocated (h.mem (p - 8 + blockBytes (h.mem (p - 8)))) = 0 →
      blockBytes (h.mem (p - 8 + blockBytes (h.mem (p - 8)))) < 2 ^ 31

instance (h : Heap) (p : Nat) : Decidable (SmallNext h p) := inferInstanceAs (Decidable (_ → _))

theorem SmallNext.atop (next : SmallNext h (b.addr + 8)) (l : LaidOut h blocks lists)
    (bytes : blockBytes (h.mem b.addr) = b.size) : SmallAtop blocks b := by
  intro c mem unused start
  rw [SmallNext, Nat.add_sub_cancel, bytes, ← start, (l.stored c mem).header.allocated] at next
  have within := l.tiles.within mem
  have least := (l.shaped c mem).least
  exact l.size_lt mem (next (by omega) unused)

/-- A call that makes no large free block leaves none above. -/
theorem SmallAtop.few (atop : SmallAtop blocks b)
    (few : ∀ c ∈ blocks', c.allocated = 0 → c ∈ blocks ∨ c.size < 2 ^ 31) :
    SmallAtop blocks' b := by
  intro c mem unused start
  obtain old | small := few c mem unused
  · exact atop c old unused start
  · exact small

/-- Freeing takes the block, and no other, from the live ones. -/
theorem sfFree_valid (v : Valid env h blocks lists) (mem : b ∈ used blocks)
    (atop : SmallAtop blocks b) :
    ∃ h' blocks' lists', sfFree h (b.addr + 8) = .ok h' ∧ Valid env h' blocks' lists' ∧
      (used blocks).Perm (b :: used blocks') := by
  have fills := v.wellFormed.filled b mem
  have small := v.small b mem
  obtain ⟨mem, taken⟩ := mem_used.mp mem
  obtain ⟨pre, post, rfl⟩ := List.append_of_mem mem
  have above := atop.above v.wellFormed.laidOut
  obtain ⟨h', returns, freed⟩ := sfFree_freed v.wellFormed.laidOut taken small fills above
  have w := freed.laidOut.wellFormed (v.wellFormed.filled.freed _ _)
  refine ⟨h', _, _, returns, v.congr w freed.rest fun c old => ?_, used_freed taken _ _⟩
  exact v.small c ((used_freed taken _ _).mem_iff.mpr (List.mem_cons_of_mem b old))

/-- How a call of `sf_realloc` ends: the block is freed, kept, or replaced. -/
inductive Realloced (size : Nat) (blocks : List Block) (b : Block) (q : Nat)
    (blocks' : List Block) : Prop where
  | freed (zero : size = 0) (null : q = 0) (left : (used blocks).Perm (b :: used blocks'))
  | failed (positive : size ≠ 0) (null : q = 0) (same : used blocks' = used blocks)
  | moved (positive : size ≠ 0) (new : Block) (result : q = new.addr + 8) (fit : size + 16 ≤ new.size)
      (exchanged : (b :: used blocks').Perm (new :: used blocks))

theorem sfRealloc_live (v : Valid env h blocks lists) (mem : b ∈ used blocks) :
    checkBlock h b.addr = true ∧ blockBytes (h.mem b.addr) = b.size := by
  have fills := v.wellFormed.filled b mem
  exact ⟨checkBlock_live v.wellFormed.laidOut mem (v.small b mem) fills, v.bytes mem⟩

theorem sfRealloc_mono {fuel fuel' ptr : Nat} {r : Heap × Nat} (more : fuel ≤ fuel')
    (result : sfRealloc env fuel h ptr size = .ok r) :
    sfRealloc env fuel' h ptr size = .ok r := by
  unfold sfRealloc at result ⊢
  dsimp only at result ⊢
  split_ifs at result ⊢
  all_goals try exact result
  cases first : sfMalloc env fuel h size with
  | error fault =>
    rw [first] at result
    exact absurd result (by simp)
  | ok q =>
    rw [first] at result
    rw [sfMalloc_mono more first]
    exact result

/-- Growing: a new block, the copy, and the old block freed. -/
theorem sfRealloc_grow (v : Valid env h blocks lists) (mem : b ∈ used blocks)
    (grows : b.size - 16 < size) (safe : size ≤ 16384 → Safe env h size)
    (atop : size ≤ 16384 → SmallAtop blocks b) :
    ∃ h' q blocks' lists',
      (∃ enough, ∀ fuel, enough ≤ fuel → sfRealloc env fuel h (b.addr + 8) size = .ok (h', q)) ∧
      Valid env h' blocks' lists' ∧ Realloced size blocks b q blocks' := by
  obtain ⟨check, bytes⟩ := sfRealloc_live v mem
  have least := (v.wellFormed.shaped b (mem_used.mp mem).1).least
  obtain ⟨h₁, p, blocks₁, lists₁, ⟨enough, returns⟩, m⟩ := sfMalloc_valid v fun _ => safe
  have step (fuel : Nat) (more : enough ≤ fuel) :
      sfRealloc env fuel h (b.addr + 8) size =
        if p = 0 then .ok (h₁, 0)
        else (sfFree (memcpy h₁ p (b.addr + 8) (b.size - 16)) (b.addr + 8)).map
          fun h => (h, p) := by
    unfold sfRealloc
    simp only [Nat.add_sub_cancel, check, bytes, if_pos grows, returns fuel more]
    rw [if_neg (by decide), if_neg (by omega)]
    cases p with
    | zero => rfl
    | succ p => rfl
  obtain ⟨rfl, same⟩ | ⟨new, rfl, fit, more⟩ := m.result
  · exact ⟨h₁, 0, blocks₁, lists₁, ⟨enough, step⟩, m.valid, .failed (by omega) rfl same⟩
  · have newMem : new ∈ used blocks₁ := more.mem_iff.mpr (by simp)
    have oldMem : b ∈ used blocks₁ := more.mem_iff.mpr (by simp [mem])
    have copied := memcpy_valid (b.addr + 8) m.valid newMem (n := b.size - 16) (by omega)
    have limit := sfMalloc_limit (returns enough (Nat.le_refl _)) (Nat.succ_ne_zero _)
    obtain ⟨h₂, blocks₂, lists₂, freed, valid, left⟩ :=
      sfFree_valid copied oldMem ((atop limit).few m.few)
    refine ⟨h₂, new.addr + 8, blocks₂, lists₂, ⟨enough, fun fuel more => ?_⟩, valid,
      .moved (by omega) new rfl fit (left.symm.trans more)⟩
    rw [step fuel more, if_neg (Nat.succ_ne_zero _), freed]
    rfl

theorem used_exchange {new : Block} (taken : b.allocated = 1) (taken' : new.allocated = 1) :
    (b :: used (pre ++ new :: post)).Perm (new :: used (pre ++ b :: post)) := by
  rw [used_append, used_append, used_cons_of_allocated taken, used_cons_of_allocated taken']
  have front : (b :: (used pre ++ new :: used post)).Perm (b :: new :: (used pre ++ used post)) :=
    List.perm_middle.cons b
  have back : (new :: (used pre ++ b :: used post)).Perm (new :: b :: (used pre ++ used post)) :=
    List.perm_middle.cons new
  exact front.trans ((List.Perm.swap new b _).trans back.symm)

/-- The rest of a block that shrinks is freed. -/
theorem sfRealloc_cut (v : Valid env h (pre ++ b :: post) lists) (taken : b.allocated = 1)
    (positive : 1 ≤ size) (large : size + 48 ≤ b.size) (atop : SmallAtop (pre ++ b :: post) b) :
    ∃ h' blocks' lists',
      sfFree (cutBlock h b size) ((cutTail b size).addr + 8) = .ok h' ∧
      Valid env h' blocks' lists' ∧
      (b :: used blocks').Perm (cutHead b size :: used (pre ++ b :: post)) := by
  have l := cutBlock_laidOut v.wellFormed.laidOut taken positive large
  have kept : (used (pre ++ cutHead b size :: cutTail b size :: post)).Perm
      (cutTail b size :: used (pre ++ cutHead b size :: post)) := by
    have last : (used (pre ++ [cutHead b size]) ++ cutTail b size :: used post).Perm
        (cutTail b size :: (used (pre ++ [cutHead b size]) ++ used post)) := List.perm_middle
    rwa [← used_cons_of_allocated (b := cutTail b size) rfl, ← used_append, ← used_append,
      List.append_assoc, List.append_assoc] at last
  have w := l.wellFormed (v.wellFormed.filled.cut size)
  have bounds := blockFor_bounds size
  have limit := v.small b (mem_used.mpr ⟨by simp, taken⟩)
  have small : ∀ c ∈ used (pre ++ cutHead b size :: cutTail b size :: post), c.size < 2 ^ 31 := by
    intro c mem
    obtain ⟨mem, live⟩ := mem_used.mp mem
    obtain before | rfl | rfl | after := by simpa using mem
    · exact v.small c (mem_used.mpr ⟨by simp [before], live⟩)
    · simp only [cutHead]
      omega
    · simp only [cutTail]
      omega
    · exact v.small c (mem_used.mpr ⟨by simp [after], live⟩)
  have cut : Valid env (cutBlock h b size) _ lists := v.congr w rfl small
  have mem : cutTail b size ∈ used (pre ++ cutHead b size :: cutTail b size :: post) :=
    mem_used.mpr ⟨by simp, rfl⟩
  -- above the tail is what was above the block
  have atopTail : SmallAtop (pre ++ cutHead b size :: cutTail b size :: post) (cutTail b size) := by
    intro c mem unused start
    simp only [cutTail] at start
    obtain before | rfl | rfl | after := by simpa using mem
    · exact atop c (by simp [before]) unused (by omega)
    · exact absurd unused Nat.one_ne_zero
    · exact absurd unused Nat.one_ne_zero
    · exact atop c (by simp [after]) unused (by omega)
  obtain ⟨h', blocks', lists', returns, valid, left⟩ := sfFree_valid cut mem atopTail
  exact ⟨h', blocks', lists', returns, valid,
    ((left.symm.trans kept).cons_inv.cons b).trans (used_exchange taken rfl)⟩

/-- `sf_realloc` on a block that is large enough. -/
theorem sfRealloc_shrinks (env : Sbrk) (check : checkBlock h b.addr = true)
    (bytes : blockBytes (h.mem b.addr) = b.size) (positive : size ≠ 0)
    (fits : size ≤ b.size - 16) (fuel : Nat) :
    sfRealloc env fuel h (b.addr + 8) size =
      if b.size < size + 48 then
        .ok (writeBlock h b.addr b.size size 1
          (if size < b.size - 16 then 1 else paddedFor size), b.addr + 8)
      else (sfFree (cutBlock h b size) ((cutTail b size).addr + 8)).map
        fun h => (h, b.addr + 8) := by
  unfold sfRealloc
  simp only [Nat.add_sub_cancel, check, bytes]
  rw [if_neg (by decide), if_neg positive, if_neg (by omega)]
  by_cases less : size < b.size - 16
  · by_cases splinter : b.size - 16 - size < 32
    · rw [if_pos less, if_pos splinter, if_pos (by omega), if_pos less]
    · rw [if_pos less, if_neg splinter, if_neg (by omega)]
      rfl
  · rw [if_neg less, if_pos (by omega), if_neg less]

/-- Shrinking, or keeping the size: the block stays where it is. -/
theorem sfRealloc_shrink (v : Valid env h blocks lists) (mem : b ∈ used blocks)
    (positive : size ≠ 0) (fits : size ≤ b.size - 16)
    (atop : size + 48 ≤ b.size → SmallAtop blocks b) : ∃ h' blocks' lists',
      (∀ fuel, sfRealloc env fuel h (b.addr + 8) size = .ok (h', b.addr + 8)) ∧
      Valid env h' blocks' lists' ∧ Realloced size blocks b (b.addr + 8) blocks' := by
  obtain ⟨check, bytes⟩ := sfRealloc_live v mem
  have step := sfRealloc_shrinks env check bytes positive fits
  have limit := v.small b mem
  obtain ⟨mem, taken⟩ := mem_used.mp mem
  have aligned := (v.wellFormed.shaped b mem).aligned
  obtain ⟨pre, post, rfl⟩ := List.append_of_mem mem
  by_cases whole : b.size < size + 48
  · let pad := if size < b.size - 16 then 1 else paddedFor size
    let new : Block := ⟨b.addr, b.size, 1, pad, size⟩
    have bit : pad < 2 := by
      simp only [pad]
      split
      · decide
      · exact paddedFor_lt size
    have fills : new.Fills := by
      intro full
      simp only [new, pad] at full ⊢
      split at full
      · exact absurd full (by decide)
      · omega
    have l := rewriteBlock size v.wellFormed.laidOut taken bit (by omega)
    have exchanged : (b :: used (pre ++ new :: post)).Perm (new :: used (pre ++ b :: post)) :=
      used_exchange taken rfl
    have w := l.wellFormed (v.wellFormed.filled.replace fun _ => fills)
    have small : ∀ c ∈ used (pre ++ new :: post), c.size < 2 ^ 31 := by
      intro c mem
      obtain rfl | old := List.mem_cons.mp (exchanged.mem_iff.mp (List.mem_cons_of_mem b mem))
      · exact limit
      · exact v.small c old
    refine ⟨_, _, _, fun fuel => ?_, v.congr w (writeBlock_rest ..) small, ?_⟩
    · rw [step, if_pos whole]
    · refine .moved positive new rfl ?_ exchanged
      simp only [new]
      omega
  · obtain ⟨h', blocks', lists', freed, valid, left⟩ :=
      sfRealloc_cut v taken (Nat.pos_of_ne_zero positive) (by omega) (atop (by omega))
    refine ⟨h', blocks', lists', fun fuel => ?_, valid,
      .moved positive (cutHead b size) rfl (blockFor_bounds size).1 left⟩
    rw [step, if_neg whole, freed]
    rfl

/-- `sf_realloc` of a block of `old` bytes may free one: the block itself, or the rest
of it. -/
def MayFree (old size : Nat) : Prop :=
  size = 0 ∨ size + 48 ≤ old ∨ old - 16 < size ∧ size ≤ 16384

/-- A safe call of `sf_realloc` on a live block returns. -/
theorem sfRealloc_valid (v : Valid env h blocks lists) (mem : b ∈ used blocks)
    (safe : b.size - 16 < size → size ≤ 16384 → Safe env h size)
    (atop : MayFree b.size size → SmallAtop blocks b) : ∃ h' q blocks' lists',
      (∃ enough, ∀ fuel, enough ≤ fuel → sfRealloc env fuel h (b.addr + 8) size = .ok (h', q)) ∧
      Valid env h' blocks' lists' ∧ Realloced size blocks b q blocks' := by
  by_cases zero : size = 0
  · obtain ⟨check, -⟩ := sfRealloc_live v mem
    obtain ⟨h', blocks', lists', freed, valid, left⟩ := sfFree_valid v mem (atop (.inl zero))
    refine ⟨h', 0, blocks', lists', ⟨0, fun fuel _ => ?_⟩, valid, .freed zero rfl left⟩
    unfold sfRealloc
    simp only [Nat.add_sub_cancel, check, freed]
    rw [if_neg (by decide), if_pos zero]
    rfl
  · by_cases grows : b.size - 16 < size
    · exact sfRealloc_grow v mem grows (safe grows) fun limit => atop (.inr (.inr ⟨grows, limit⟩))
    · obtain ⟨h', blocks', lists', returns, valid, left⟩ :=
        sfRealloc_shrink v mem zero (by omega) fun cut => atop (.inr (.inl cut))
      exact ⟨h', _, blocks', lists', ⟨0, fun fuel _ => returns fuel⟩, valid, left⟩

end LinuxSystem.Allocator
