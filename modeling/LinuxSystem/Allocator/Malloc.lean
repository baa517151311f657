import LinuxSystem.Allocator.MallocLoop
import LinuxSystem.Allocator.Place

/-!
# sf_malloc

The block that the loop finds is placed. The heap is well formed after the call
unless `place` leaves 16 bytes, given that its sizes are read back as they were
written and that the search does not start in front of the four heads.
-/

namespace LinuxSystem.Allocator

variable {env : Sbrk} {h h' : Heap} {blocks blocks' : List Block} {lists lists' : Int → List Nat}
  {size : Nat}

/-- The request does not make `place` leave 16 bytes, a request of less than 16 bytes
finds NULL in front of the four heads, and the block that is placed is below 2 GiB. -/
structure Safe (env : Sbrk) (h : Heap) (size : Nat) : Prop where
  inside : size < 16 → h.head (-1) = 0
  small : ∀ n, Picked env h size n → n < 2 ^ 31
  enough : ∀ n, Picked env h size n → ¬ LeavesSliver n size

/-- `place` reads the size of the block that it is given as it is. -/
theorem Safe.read (safe : Safe env h size) (l : LaidOut h' blocks lists) {b : Block}
    (mem : b ∈ blocks) (picked : Picked env h size (blockBytes (h'.mem b.addr))) :
    b.size < 2 ^ 31 ∧ ¬ LeavesSliver b.size size := by
  have limit := l.size_lt mem (safe.small _ picked)
  have enough := safe.enough _ picked
  rw [l.bytes mem limit] at enough
  exact ⟨limit, enough⟩

@[simp] theorem place_rest {p : Nat} : (place h p size).rest = h.rest := by
  unfold place
  dsimp only
  split <;> simp

theorem Valid.congr (v : Valid env h blocks lists) (w : WellFormed h' blocks' lists')
    (rest : h'.rest = h.rest) (small : ∀ b ∈ used blocks', b.size < 2 ^ 31) :
    Valid env h' blocks' lists' := by
  have start := startOfHeap_of_rest rest
  have stop := endOfHeap_of_rest rest
  have pages := pages_of_rest rest
  have calls := calls_of_rest rest
  refine ⟨w, ?_, small⟩
  cases v.grown with
  | empty h₁ h₂ h₃ h₄ => exact .empty (start.trans h₁) (stop.trans h₂) (pages.trans h₃) (calls.trans h₄)
  | pages h₁ h₂ h₃ => exact .pages (start.trans h₁) (by rw [stop, pages, h₂]) (pages ▸ h₃)

/-- What a call leaves: a new live block for the request, if it succeeds, and no large
free block that was not there. -/
structure Malloced (env : Sbrk) (size : Nat) (blocks : List Block) (h' : Heap) (p : Nat)
    (blocks' : List Block) (lists' : Int → List Nat) : Prop where
  valid : Valid env h' blocks' lists'
  result : (p = 0 ∧ used blocks' = used blocks) ∨ ∃ new, p = new.addr + 8 ∧ size + 16 ≤ new.size ∧
    (used blocks').Perm (new :: used blocks)
  few : ∀ c ∈ blocks', c.allocated = 0 → c ∈ blocks ∨ c.size < 2 ^ 31

/-- The sizes stay small when a small block joins. -/
theorem small_of_perm {new : Block} (more : (used blocks').Perm (new :: used blocks))
    (small : ∀ b ∈ used blocks, b.size < 2 ^ 31) (less : new.size < 2 ^ 31) :
    ∀ b ∈ used blocks', b.size < 2 ^ 31 := by
  intro b mem
  obtain rfl | old := List.mem_cons.mp (more.mem_iff.mp mem)
  · exact less
  · exact small b old

theorem place_valid (v : Valid env h blocks lists) {b : Block} (mem : b ∈ blocks)
    (unused : b.allocated = 0) (positive : 1 ≤ size) (fit : size + 16 ≤ b.size)
    (limit : b.size < 2 ^ 31) (enough : ¬ LeavesSliver b.size size) :
    ∃ blocks' lists', Malloced env size blocks (place h b.addr size) (b.addr + 8) blocks' lists' := by
  obtain ⟨pre, post, rfl⟩ := List.append_of_mem mem
  have taken : used (pre ++ b :: post) = used pre ++ used post := by
    rw [used_append, used_cons_of_free unused]
  by_cases tight : b.size < size + 32
  · let new : Block := ⟨b.addr, b.size, 1, 1, size⟩
    have l := place_whole v.wellFormed.laidOut limit unused fit tight
    have more : (used (pre ++ new :: post)).Perm (new :: used (pre ++ b :: post)) := by
      rw [taken, used_append, used_cons_of_allocated rfl]
      exact List.perm_middle
    have w := l.wellFormed (v.wellFormed.filled.replace fun _ => by simp [Block.Fills])
    refine ⟨_, _, v.congr w place_rest (small_of_perm more v.small limit),
      Or.inr ⟨new, rfl, fit, more⟩, fun c mem free => .inl ?_⟩
    have other : c ≠ new := fun same => absurd free (by simp [same, new])
    simp only [List.mem_append, List.mem_cons] at mem ⊢
    tauto
  · let new : Block := ⟨b.addr, blockFor size, 1, paddedFor size, size⟩
    obtain ⟨lists', l⟩ :=
      place_split v.wellFormed.laidOut limit unused positive (by omega) enough
    have more : (used (pre ++ new ::
        ⟨b.addr + blockFor size, b.size - blockFor size, 0, 0, 0⟩ :: post)).Perm
        (new :: used (pre ++ b :: post)) := by
      rw [taken, used_append, used_cons_of_allocated rfl, used_cons_of_free rfl]
      exact List.perm_middle
    have rest : Filled (pre ++ ⟨b.addr + blockFor size, b.size - blockFor size, 0, 0, 0⟩ :: post) :=
      v.wellFormed.filled.replace (by simp)
    have w := l.wellFormed (rest.insert fun _ => fills_blockFor _ _)
    have bounds := blockFor_bounds size
    have less : new.size < 2 ^ 31 := by
      simp only [new]
      omega
    refine ⟨_, _, v.congr w place_rest (small_of_perm more v.small less),
      Or.inr ⟨new, rfl, bounds.1, more⟩, fun c mem free => ?_⟩
    have other : c ≠ new := fun same => absurd free (by simp [same, new])
    obtain before | rfl | rfl | after := by simpa using mem
    · exact .inl (by simp [before])
    · exact absurd rfl other
    · exact .inr (by simp only; omega)
    · exact .inl (by simp [after])

theorem sfMalloc_placed {fuel p : Nat} (admitted : ¬ (4096 * 4 < size ∨ size = 0))
    (returns : mallocLoop env size fuel h = .ok (h', p)) (real : p ≠ 0) :
    sfMalloc env fuel h size = .ok (place h' p size, p + 8) := by
  obtain ⟨q, rfl⟩ := Nat.exists_eq_succ_of_ne_zero real
  rw [sfMalloc, if_neg admitted, returns]
  rfl

theorem sfMalloc_limit {fuel p : Nat} (call : sfMalloc env fuel h size = .ok (h', p))
    (real : p ≠ 0) : size ≤ 16384 := by
  by_contra large
  rw [sfMalloc, if_pos (by omega)] at call
  exact real (Prod.mk.inj (Except.ok.inj call)).2.symm

/-- A safe call of `sf_malloc` returns, and leaves the heap well formed. -/
theorem sfMalloc_valid (v : Valid env h blocks lists)
    (safe : 1 ≤ size → size ≤ 16384 → Safe env h size) : ∃ h' p blocks' lists',
      (∃ enough, ∀ fuel, enough ≤ fuel → sfMalloc env fuel h size = .ok (h', p)) ∧
      Malloced env size blocks h' p blocks' lists' := by
  by_cases invalid : 4096 * 4 < size ∨ size = 0
  · refine ⟨{ h with errno := some .EINVAL }, 0, blocks, lists, ⟨0, fun fuel _ => ?_⟩, ?_, ?_, ?_⟩
    · rw [sfMalloc, if_pos invalid]
    · obtain ⟨w, grown, small⟩ := v
      refine ⟨⟨⟨w.tiles, w.shaped, w.stored, w.linked, w.free⟩, w.filled⟩, ?_, small⟩
      cases grown with
      | empty start stop pages calls => exact .empty start stop pages calls
      | pages start stop some => exact .pages start stop some
    · exact Or.inl ⟨rfl, rfl⟩
    · exact fun c mem _ => .inl mem
  · have safe := safe (by omega) (by omega)
    obtain ⟨h₁, p, blocks₁, lists₁, l, valid, ended⟩ := mallocLoop_ends v (by omega) safe.inside
    obtain ⟨enough, returns⟩ := l.returns
    cases ended with
    | failed null never =>
      refine ⟨h₁, 0, blocks₁, lists₁, ⟨enough, fun fuel more => ?_⟩, valid, .inl ⟨rfl, l.used⟩,
        l.few⟩
      rw [sfMalloc, if_neg invalid, returns fuel more, null]
      rfl
    | @picked b mem unused start fit picked _ =>
      have real := (valid.wellFormed.shaped b mem).real
      obtain ⟨small, whole⟩ := safe.read valid.wellFormed.laidOut mem picked
      obtain ⟨blocks', lists', m⟩ := place_valid valid mem unused (by omega) fit small whole
      refine ⟨_, _, blocks', lists', ⟨enough, fun fuel more => ?_⟩, m.valid, l.used ▸ m.result, ?_⟩
      · rw [sfMalloc_placed invalid (returns fuel more) (by omega), start]
      · intro c mem free
        obtain old | less := m.few c mem free
        · exact l.few c old free
        · exact .inr less

/-- In a heap below 4 GiB exactly the requests that make `place` leave 16 bytes, or cut
a block of 2 GiB or more, break it. -/
theorem sfMalloc_wellFormed_iff (v : Valid env h blocks lists) (positive : 1 ≤ size)
    (limit : size ≤ 16384) (inside : size < 16 → h.head (-1) = 0)
    (below : h.endOfHeap < h.startOfHeap + 2 ^ 32) :
    (∃ fuel h' p, sfMalloc env fuel h size = .ok (h', p) ∧
      ∃ blocks' lists', WellFormed h' blocks' lists') ↔
      ∀ n, Picked env h size n → n < 2 ^ 31 ∧ ¬ LeavesSliver n size := by
  constructor
  · rintro ⟨fuel, h', p, result, blocks', lists', w⟩ n picked
    obtain ⟨h₁, q, blocks₁, lists₁, l, valid, ended⟩ := mallocLoop_ends v limit inside
    obtain ⟨enough, returns⟩ := l.returns
    cases ended with
    | failed null never => exact absurd picked (never n)
    | @picked b mem unused start fit picked' stays =>
      obtain rfl := Picked.unique picked picked'
      have laid := valid.wellFormed.laidOut
      have real := (valid.wellFormed.shaped b mem).real
      have placed := sfMalloc_placed (by omega) (returns (max fuel enough) (by omega)) (by omega)
      have same := (sfMalloc_mono (Nat.le_max_left fuel enough) result).symm.trans placed
      obtain ⟨rfl, -⟩ := Prod.mk.inj (Except.ok.inj same)
      rw [← start] at w
      obtain small | large := Nat.lt_or_ge b.size (2 ^ 31)
      · rw [laid.bytes mem small]
        obtain ⟨pre, post, rfl⟩ := List.append_of_mem mem
        exact ⟨small, fun sliver => place_sliver laid small unused positive sliver w.laidOut⟩
      · obtain rfl := stays large
        obtain ⟨pre, post, rfl⟩ := List.append_of_mem mem
        exact absurd w.laidOut (place_large laid below large unused positive limit)
  · intro safe
    obtain ⟨h', p, blocks', lists', ⟨least, returns⟩, m⟩ := sfMalloc_valid v fun _ _ =>
      ⟨inside, fun n picked => (safe n picked).1, fun n picked => (safe n picked).2⟩
    exact ⟨least, h', p, returns least (Nat.le_refl _), blocks', lists', m.valid.wellFormed⟩

end LinuxSystem.Allocator
