import LinuxSystem.Allocator.Shrink

/-!
# What a call leaves alone

No call writes to an allocated block but its own, and `sf_realloc` moves the
words of the block it replaces.
-/

namespace LinuxSystem.Allocator

open Tiling

variable {env : Sbrk} {h h' : Heap} {pre post blocks blocks' : List Block}
  {lists lists' : Int → List Nat} {b c : Block} {size fuel p q : Nat}

/-! ## place -/

theorem place_whole_untouched (l : LaidOut h (pre ++ b :: post) lists) (limit : b.size < 2 ^ 31)
    (unused : b.allocated = 0) (tight : b.size < size + 32) (fits : size + 16 ≤ b.size)
    (mem : c ∈ used (pre ++ post)) : Untouched h (place h b.addr size) c := by
  have shaped := l.shaped b (by simp)
  have least := shaped.least
  have stored : Stored (writeBlock h b.addr b.size size 1 1).mem ⟨b.addr, b.size, 1, 1, size⟩ :=
    stored_writeBlock h (b := ⟨b.addr, b.size, 1, 1, size⟩) least (by simp only; omega)
      Nat.one_lt_two Nat.one_lt_two (by simp only; omega)
  have within := writeBlock_within (b := b) h size 1 1 (Nat.le_refl _) least (Nat.le_refl _)
  have written : Rewritten h (writeBlock h b.addr b.size size 1 1) b b.addr b.addr := by
    refine ⟨rfl, rfl, fun a outside => writeBlock_mem _ _ _ _ _ _ (by omega) (by omega), ?_⟩
    exact stored.header.index shaped.aligned
  have whole : c ∈ used (pre ++ b :: post) := by
    simp only [mem_used, List.mem_append, List.mem_cons] at mem ⊢
    tauto
  have removed := l.at.remove_untouched unused written whole
  rw [place, l.bytes (by simp) limit, if_pos tight]
  exact (within.untouched l (mem_used.mp mem).1).trans removed

theorem place_split_untouched (l : LaidOut h (pre ++ b :: post) lists) (limit : b.size < 2 ^ 31)
    (unused : b.allocated = 0) (positive : 1 ≤ size) (large : size + 32 ≤ b.size)
    (enough : ¬ LeavesSliver b.size size) (mem : c ∈ used (pre ++ post)) :
    Untouched h (place h b.addr size) c := by
  have shaped := l.shaped b (by simp)
  have bounds := blockFor_bounds size
  have aligned := blockFor_aligned size
  have least : 32 ≤ b.size - blockFor size := by
    have := shaped.aligned
    unfold LeavesSliver at enough
    omega
  have front : 32 ≤ blockFor size := (shaped_blockFor shaped.real positive).least
  have rest : Block.Shaped (freeBlock (b.addr + blockFor size) (b.size - blockFor size)) :=
    shaped_rest (Nat.add_pos_left shaped.real _) shaped least
  have whole : c ∈ used (pre ++ b :: post) := by
    simp only [mem_used, List.mem_append, List.mem_cons] at mem ⊢
    tauto
  have removed := l.at.remove_untouched unused l.at.unwritten whole
  have o := l.at.remove unused l.at.unwritten
  -- both parts are written inside the block that is off its list
  have first := o.untouched (mem_used.mp mem).1 fun a outside =>
    writeBlock_within (b := b) _ size 1 (paddedFor size) (Nat.le_refl _) front (by omega) a outside
  have cut := o.writeAllocated (shaped_blockFor shaped.real positive) (by omega) (by omega)
    (paddedFor_lt size) (by omega)
  have old : c ∈ used (pre ++ [⟨b.addr, blockFor size, 1, paddedFor size, size⟩] ++ post) := by
    simp only [mem_used, List.mem_append] at mem ⊢
    tauto
  have back := cut.writeBlock (b.addr + blockFor size) (b.size - blockFor size) 0 0 0
    (Nat.le_refl _) least (by omega)
  have second := cut.untouched (mem_used.mp old).1 fun a outside =>
    writeBlock_mem _ (b.addr + blockFor size) (b.size - blockFor size) 0 0 0 (by omega) (by omega)
  have inserted := back.insert_untouched
    (b := freeBlock (b.addr + blockFor size) (b.size - blockFor size)) rfl (by simp only [freeBlock]; omega)
    rest (stored_freeBlock _ least (by omega)) rfl old
  simp only [place, l.bytes (by simp) limit, if_neg (Nat.not_lt.mpr large)]
  exact ((removed.trans first).trans second).trans inserted

theorem place_untouched (v : Valid env h blocks lists) (mem : b ∈ blocks)
    (unused : b.allocated = 0) (positive : 1 ≤ size) (fit : size + 16 ≤ b.size)
    (limit : b.size < 2 ^ 31) (enough : ¬ LeavesSliver b.size size) (live : c ∈ used blocks) :
    Untouched h (place h b.addr size) c := by
  obtain ⟨pre, post, rfl⟩ := List.append_of_mem mem
  have other : c ∈ used (pre ++ post) := by
    obtain ⟨live, taken⟩ := mem_used.mp live
    refine mem_used.mpr ⟨?_, taken⟩
    obtain before | rfl | after := by simpa using live
    · exact List.mem_append_left _ before
    · omega
    · exact List.mem_append_right _ after
  by_cases tight : b.size < size + 32
  · exact place_whole_untouched v.wellFormed.laidOut limit unused tight fit other
  · exact place_split_untouched v.wellFormed.laidOut limit unused positive (by omega) enough other

/-! ## sf_malloc and sf_free -/

theorem sfMalloc_untouched (v : Valid env h blocks lists)
    (safe : 1 ≤ size → size ≤ 16384 → Safe env h size)
    (call : sfMalloc env fuel h size = .ok (h', p)) (live : c ∈ used blocks) :
    Untouched h h' c := by
  by_cases invalid : 4096 * 4 < size ∨ size = 0
  · rw [sfMalloc, if_pos invalid] at call
    obtain ⟨rfl, -⟩ := Prod.mk.inj (Except.ok.inj call)
    exact fun _ _ _ => rfl
  have safe := safe (by omega) (by omega)
  obtain ⟨h₁, q, blocks₁, lists₁, l, valid, ended⟩ := mallocLoop_ends v (by omega) safe.inside
  obtain ⟨enough, returns⟩ := l.returns
  have returns := returns (max fuel enough) (by omega)
  have call := sfMalloc_mono (Nat.le_max_left fuel enough) call
  have looped := l.untouched c live
  cases ended with
  | failed null never =>
    rw [sfMalloc, if_neg invalid, returns, null] at call
    obtain ⟨rfl, -⟩ := Prod.mk.inj (Except.ok.inj call)
    exact looped
  | @picked b mem unused start fit picked _ =>
    have real := (valid.wellFormed.shaped b mem).real
    have placed := sfMalloc_placed invalid returns (by omega)
    obtain ⟨rfl, -⟩ := Prod.mk.inj (Except.ok.inj (call.symm.trans placed))
    obtain ⟨small, whole⟩ := safe.read valid.wellFormed.laidOut mem picked
    rw [← start]
    exact looped.trans
      (place_untouched valid mem unused (by omega) fit small whole (l.used ▸ live))

/-- What `sf_malloc` leaves, whatever fuel it took. -/
theorem sfMalloc_malloced (v : Valid env h blocks lists)
    (safe : 1 ≤ size → size ≤ 16384 → Safe env h size)
    (call : sfMalloc env fuel h size = .ok (h', p)) :
    ∃ blocks' lists', Malloced env size blocks h' p blocks' lists' := by
  obtain ⟨h₁, q, blocks', lists', ⟨enough, returns⟩, m⟩ := sfMalloc_valid v safe
  have same := (sfMalloc_mono (Nat.le_max_left fuel enough) call).symm.trans
    (returns _ (Nat.le_max_right fuel enough))
  obtain ⟨rfl, rfl⟩ := Prod.mk.inj (Except.ok.inj same)
  exact ⟨blocks', lists', m⟩

/-- The block of a pointer that is not NULL has room for the request. -/
theorem sfMalloc_room (v : Valid env h blocks lists)
    (safe : 1 ≤ size → size ≤ 16384 → Safe env h size)
    (call : sfMalloc env fuel h size = .ok (h', p)) (real : p ≠ 0) :
    size + 16 ≤ blockBytes (h'.mem (p - 8)) := by
  obtain ⟨blocks', lists', m⟩ := sfMalloc_malloced v safe call
  obtain ⟨new, rfl, fit, more⟩ := m.result.resolve_left fun null => real null.1
  have mem : new ∈ used blocks' := more.mem_iff.mpr List.mem_cons_self
  rwa [Nat.add_sub_cancel, m.valid.bytes mem]

theorem sfFree_untouched (v : Valid env h blocks lists) (mem : b ∈ used blocks)
    (atop : SmallAtop blocks b)
    (call : sfFree h (b.addr + 8) = .ok h') (live : c ∈ used blocks) (other : c ≠ b) :
    Untouched h h' c := by
  have fills := v.wellFormed.filled b mem
  have small := v.small b mem
  obtain ⟨mem, taken⟩ := mem_used.mp mem
  obtain ⟨pre, post, rfl⟩ := List.append_of_mem mem
  have above := atop.above v.wellFormed.laidOut
  obtain ⟨h₁, returns, freed⟩ := sfFree_freed v.wellFormed.laidOut taken small fills above
  obtain rfl := Except.ok.inj (call.symm.trans returns)
  apply freed.untouched v.wellFormed.laidOut
  simp only [mem_used, List.mem_append, List.mem_cons] at live ⊢
  tauto

/-! ## sf_realloc -/

theorem sfRealloc_zero (v : Valid env h blocks lists) (mem : b ∈ used blocks) (zero : size = 0)
    (call : sfRealloc env fuel h (b.addr + 8) size = .ok (h', q)) :
    sfFree h (b.addr + 8) = .ok h' := by
  obtain ⟨check, -⟩ := sfRealloc_live v mem
  unfold sfRealloc at call
  simp only [Nat.add_sub_cancel, check] at call
  rw [if_neg (by decide), if_pos zero] at call
  cases freed : sfFree h (b.addr + 8) with
  | error fault => rw [freed] at call; cases call
  | ok h₁ =>
    rw [freed] at call
    obtain ⟨rfl, -⟩ := Prod.mk.inj (Except.ok.inj call)
    rfl

/-- The calls that a growing `sf_realloc` makes. -/
theorem sfRealloc_calls (v : Valid env h blocks lists) (mem : b ∈ used blocks)
    (grows : b.size - 16 < size) (call : sfRealloc env fuel h (b.addr + 8) size = .ok (h', q)) :
    ∃ h₁, sfMalloc env fuel h size = .ok (h₁, q) ∧
      (q = 0 ∧ h' = h₁ ∨
        q ≠ 0 ∧ sfFree (memcpy h₁ q (b.addr + 8) (b.size - 16)) (b.addr + 8) = .ok h') := by
  obtain ⟨check, bytes⟩ := sfRealloc_live v mem
  unfold sfRealloc at call
  simp only [Nat.add_sub_cancel, check, bytes, if_pos grows] at call
  rw [if_neg (by decide), if_neg (by omega)] at call
  cases called : sfMalloc env fuel h size with
  | error fault => rw [called] at call; cases call
  | ok r =>
    obtain ⟨h₁, p⟩ := r
    rw [called] at call
    cases p with
    | zero =>
      obtain ⟨rfl, rfl⟩ := Prod.mk.inj (Except.ok.inj call)
      exact ⟨_, rfl, .inl ⟨rfl, rfl⟩⟩
    | succ p =>
      cases freed : sfFree (memcpy h₁ (p + 1) (b.addr + 8) (b.size - 16)) (b.addr + 8) with
      | error fault => simp [freed, Except.map] at call
      | ok h₂ =>
        simp only [freed, Except.map, Except.ok.injEq, Prod.mk.injEq] at call
        obtain ⟨rfl, rfl⟩ := call
        exact ⟨h₁, rfl, .inr ⟨Nat.succ_ne_zero p, freed⟩⟩

theorem memcpy_copied {a : Nat} (h : Heap) (dst src : Nat) {n : Nat} (aligned : a % 8 = 0)
    (below : a < n) : (memcpy h dst src n).mem (dst + a) = h.mem (src + a) := by
  have inside : dst ≤ dst + a ∧ dst + a < dst + n ∧ (dst + a - dst) % 8 = 0 := by omega
  exact (if_pos inside).trans (by rw [Nat.add_sub_cancel_left])

theorem memcpy_untouched (l : LaidOut h blocks lists) (mem : b ∈ blocks) (live : c ∈ blocks)
    (other : c ≠ b) (src : Nat) {n : Nat} (fit : n + 16 ≤ b.size) :
    Untouched h (memcpy h (b.addr + 8) src n) c := by
  intro a low high
  apply if_neg
  rintro ⟨above, below, -⟩
  obtain same | before | after := l.tiles.spread.apart live mem
  · exact other same
  · omega
  · omega

/-- A block that is replaced: the other blocks and the words of its payload, as far
as they fit, are kept. -/
structure Moved (h h' : Heap) (blocks : List Block) (b : Block) (size q : Nat) : Prop where
  words : ∀ a, a % 8 = 0 → a + 24 ≤ b.size → a + 8 ≤ size →
    h'.mem (q + a) = h.mem (b.addr + 8 + a)
  others : ∀ c ∈ used blocks, c ≠ b → Untouched h h' c

theorem Valid.nodup (v : Valid env h blocks lists) : (used blocks).Nodup := by
  have addresses := v.wellFormed.tiles.spread.nodup_addr fun b mem => by
    have := (v.wellFormed.shaped b mem).least
    omega
  exact (List.Nodup.of_map _ addresses).filter _

theorem sfRealloc_grow_moved (v : Valid env h blocks lists) (mem : b ∈ used blocks)
    (grows : b.size - 16 < size) (safe : size ≤ 16384 → Safe env h size)
    (atop : size ≤ 16384 → SmallAtop blocks b)
    (call : sfRealloc env fuel h (b.addr + 8) size = .ok (h', q)) (real : q ≠ 0) :
    Moved h h' blocks b size q := by
  obtain ⟨h₁, called, ends⟩ := sfRealloc_calls v mem grows call
  obtain ⟨-, freed⟩ := ends.resolve_left fun null => real null.1
  have kept (c : Block) (live : c ∈ used blocks) : Untouched h h₁ c :=
    sfMalloc_untouched v (fun _ => safe) called live
  obtain ⟨blocks₁, lists₁, m⟩ := sfMalloc_malloced v (fun _ => safe) called
  obtain ⟨new, rfl, fit, more⟩ := m.result.resolve_left fun null => real null.1
  have fresh : new ∉ used blocks := (List.nodup_cons.mp (more.nodup_iff.mp m.valid.nodup)).1
  have newMem : new ∈ used blocks₁ := more.mem_iff.mpr List.mem_cons_self
  have older (c : Block) (live : c ∈ used blocks) : c ∈ used blocks₁ ∧ c ≠ new :=
    ⟨more.mem_iff.mpr (List.mem_cons_of_mem _ live), fun same => fresh (same ▸ live)⟩
  have copied := memcpy_valid (b.addr + 8) m.valid newMem (n := b.size - 16) (by omega)
  have atop : SmallAtop blocks₁ b := (atop (sfMalloc_limit called real)).few m.few
  constructor
  · intro a aligned below within
    have least := (v.wellFormed.shaped b (mem_used.mp mem).1).least
    have moved := sfFree_untouched copied (older b mem).1 atop freed newMem (older b mem).2.symm
      (new.addr + 8 + a) (by omega) (by omega)
    have same := kept b mem (b.addr + 8 + a) (by omega) (by omega)
    rw [moved, memcpy_copied _ _ _ aligned (by omega), same]
  · intro c live other
    obtain ⟨live', apart⟩ := older c live
    have copied' := memcpy_untouched m.valid.wellFormed.laidOut (mem_used.mp newMem).1
      (mem_used.mp live').1 apart (b.addr + 8) (n := b.size - 16) (by omega)
    exact ((kept c live).trans copied').trans (sfFree_untouched copied (older b mem).1 atop freed live' other)

theorem sfRealloc_shrink_moved (v : Valid env h blocks lists) (mem : b ∈ used blocks)
    (positive : 1 ≤ size) (fits : size ≤ b.size - 16) (atop : size + 48 ≤ b.size → SmallAtop blocks b)
    (call : sfRealloc env fuel h (b.addr + 8) size = .ok (h', q)) :
    Moved h h' blocks b size q := by
  have small := v.small b mem
  obtain ⟨mem, taken⟩ := mem_used.mp mem
  obtain ⟨pre, post, rfl⟩ := List.append_of_mem mem
  have shrinks : ShrinksRight env h pre b post lists size :=
    sfRealloc_shrinks_right v.wellFormed taken positive fits
      ⟨small, fun cut => (atop (by omega)).above v.wellFormed.laidOut⟩
  obtain ⟨h₁, returns, shrunk⟩ := shrinks
  obtain ⟨rfl, rfl⟩ := Prod.mk.inj (Except.ok.inj (call.symm.trans (returns fuel)))
  constructor
  · intro a _ _ within
    exact shrunk.payload _ (by omega) (by omega)
  · intro c live other
    apply shrunk.others
    simp only [mem_used, List.mem_append, List.mem_cons] at live ⊢
    tauto

theorem sfRealloc_moved (v : Valid env h blocks lists) (mem : b ∈ used blocks)
    (safe : b.size - 16 < size → size ≤ 16384 → Safe env h size)
    (atop : MayFree b.size size → SmallAtop blocks b)
    (call : sfRealloc env fuel h (b.addr + 8) size = .ok (h', q)) (positive : size ≠ 0)
    (real : q ≠ 0) : Moved h h' blocks b size q := by
  by_cases grows : b.size - 16 < size
  · exact sfRealloc_grow_moved v mem grows (safe grows)
      (fun limit => atop (.inr (.inr ⟨grows, limit⟩))) call real
  · exact sfRealloc_shrink_moved v mem (Nat.pos_of_ne_zero positive) (by omega)
      (fun cut => atop (.inr (.inl cut))) call

theorem sfRealloc_room (v : Valid env h blocks lists) (mem : b ∈ used blocks)
    (safe : b.size - 16 < size → size ≤ 16384 → Safe env h size)
    (atop : MayFree b.size size → SmallAtop blocks b)
    (call : sfRealloc env fuel h (b.addr + 8) size = .ok (h', q)) (positive : size ≠ 0)
    (real : q ≠ 0) : size + 16 ≤ blockBytes (h'.mem (q - 8)) := by
  obtain ⟨h₁, q₁, blocks', lists', ⟨enough, returns⟩, valid, ends⟩ :=
    sfRealloc_valid v mem safe atop
  have same := (sfRealloc_mono (Nat.le_max_left fuel enough) call).symm.trans
    (returns _ (Nat.le_max_right fuel enough))
  obtain ⟨rfl, rfl⟩ := Prod.mk.inj (Except.ok.inj same)
  cases ends with
  | freed zero null left => exact absurd zero positive
  | failed _ null _ => exact absurd null real
  | moved _ new result fit exchanged =>
    subst result
    have live : new ∈ used blocks' := by
      obtain rfl | live := List.mem_cons.mp (exchanged.mem_iff.mpr List.mem_cons_self)
      · exact exchanged.cons_inv.mem_iff.mpr mem
      · exact live
    rwa [Nat.add_sub_cancel, valid.bytes live]

/-- A call that fails leaves every block alone. -/
theorem sfRealloc_failed (v : Valid env h blocks lists) (mem : b ∈ used blocks)
    (safe : b.size - 16 < size → size ≤ 16384 → Safe env h size)
    (atop : MayFree b.size size → SmallAtop blocks b)
    (call : sfRealloc env fuel h (b.addr + 8) size = .ok (h', 0)) (positive : size ≠ 0)
    (live : c ∈ used blocks) : Untouched h h' c := by
  have grows : b.size - 16 < size := by
    by_contra shrinks
    obtain ⟨h₁, -, -, returns, -⟩ := sfRealloc_shrink v mem positive (by omega) fun cut => atop (.inr (.inl cut))
    have same := (Prod.mk.inj (Except.ok.inj (call.symm.trans (returns fuel)))).2
    omega
  obtain ⟨h₁, called, ends⟩ := sfRealloc_calls v mem grows call
  obtain ⟨-, rfl⟩ := ends.resolve_right fun moved => moved.1 rfl
  exact sfMalloc_untouched v (fun _ => safe grows) called live

end LinuxSystem.Allocator
