import LinuxSystem.Allocator.Realloc
import LinuxSystem.Base.Transition

/-!
# Runs of the allocator

A program calls the allocator on pointers it holds and writes to its payloads. The
heap is well formed after every call, unless one makes `place` leave 16 bytes,
searches from a word in front of the four heads that is not NULL, or reads the size
of a free block of 2 GiB or more.
-/

namespace LinuxSystem.Allocator

open Transition Tiling Linked

/-- A heap and the payload pointers that are live. -/
structure Session where
  heap : Heap
  live : List Nat

inductive Call where
  | malloc (size : Nat)
  | free (p : Nat)
  | realloc (p size : Nat)
  | use (p a w : Nat)

/-- `a` is a word of the payload at `p`. -/
def Session.Holds (s : Session) (p a : Nat) : Prop :=
  p ∈ s.live ∧ p ≤ a ∧ a + 8 ≤ p + (blockBytes (s.heap.mem (p - 8)) - 16)

/-- The pointer of a call is live. -/
def Session.Legal (s : Session) : Call → Prop
  | .malloc _ => True
  | .free p => p ∈ s.live
  | .realloc p _ => p ∈ s.live
  | .use p a _ => s.Holds p a

/-- A call that returns; with `use`, the program writes a word of a payload. -/
inductive Step (env : Sbrk) (s : Session) : Call → Session → Prop where
  | malloc {fuel size p : Nat} {h : Heap} (call : sfMalloc env fuel s.heap size = .ok (h, p)) :
      Step env s (.malloc size) ⟨h, if p = 0 then s.live else p :: s.live⟩
  | free {p : Nat} {h : Heap} (held : p ∈ s.live) (call : sfFree s.heap p = .ok h) :
      Step env s (.free p) ⟨h, s.live.erase p⟩
  | realloc {fuel p size q : Nat} {h : Heap} (held : p ∈ s.live)
      (call : sfRealloc env fuel s.heap p size = .ok (h, q)) :
      Step env s (.realloc p size)
        ⟨h, if size = 0 then s.live.erase p else if q = 0 then s.live else q :: s.live.erase p⟩
  | use {p a w : Nat} (held : s.Holds p a) : Step env s (.use p a w) ⟨s.heap.write a w, s.live⟩

/-- The heap before the first call: no page, and four empty lists. -/
structure Fresh (h : Heap) : Prop where
  start : h.startOfHeap = 0
  stop : h.endOfHeap = 0
  pages : h.pages = 0
  calls : h.calls = 0
  heads : ∀ n, 0 ≤ n → n < 4 → h.head n = 0

/-- A call that does not make `place` leave 16 bytes, that finds NULL in front of the
four heads where it starts there, and that reads no free block of 2 GiB or more: not as
the block to place, nor as the one to merge. `sf_realloc` allocates only to grow. -/
def Allowed (env : Sbrk) (s : Session) : Call → Prop
  | .malloc size => 1 ≤ size → size ≤ 16384 → Safe env s.heap size
  | .free p => SmallNext s.heap p
  | .realloc p size =>
      (blockBytes (s.heap.mem (p - 8)) - 16 < size → size ≤ 16384 → Safe env s.heap size) ∧
        (MayFree (blockBytes (s.heap.mem (p - 8))) size → SmallNext s.heap p)
  | .use _ _ _ => True

variable {env : Sbrk} {s t : Session} {blocks blocks' : List Block} {lists : Int → List Nat}

def Block.payload (b : Block) : Nat := b.addr + 8

/-- The live pointers are the payloads of the allocated blocks. -/
structure Tracked (env : Sbrk) (s : Session) (blocks : List Block) (lists : Int → List Nat) :
    Prop where
  valid : Valid env s.heap blocks lists
  live : s.live.Perm ((used blocks).map Block.payload)

theorem Tracked.block (i : Tracked env s blocks lists) {p : Nat} (held : p ∈ s.live) :
    ∃ b ∈ used blocks, p = b.addr + 8 := by
  obtain ⟨b, mem, rfl⟩ := List.mem_map.mp (i.live.mem_iff.mp held)
  exact ⟨b, mem, rfl⟩

theorem Fresh.tracked {h : Heap} (fresh : Fresh h) : Tracked env ⟨h, []⟩ [] fun _ => [] := by
  refine ⟨⟨⟨⟨?_, by simp, by simp, ?_, fun n => .nil⟩, by simp [Filled, used]⟩, ?_, ?_⟩, .nil⟩
  · exact fresh.start.trans fresh.stop.symm
  · intro n low high
    refine .cons_cons ⟨?_, fun real => absurd rfl real⟩ (.singleton 0)
    exact (if_pos rfl).trans (fresh.heads n low high)
  · exact .empty fresh.start fresh.stop fresh.pages fresh.calls
  · simp [used]

/-! ## Steps -/

theorem Tracked.malloc (i : Tracked env s blocks lists) {size : Nat}
    (allowed : Allowed env s (.malloc size)) : ∃ fuel h p,
      sfMalloc env fuel s.heap size = .ok (h, p) ∧ ∃ blocks' lists',
        Tracked env ⟨h, if p = 0 then s.live else p :: s.live⟩ blocks' lists' := by
  obtain ⟨h, p, blocks', lists', ⟨enough, returns⟩, m⟩ := sfMalloc_valid i.valid allowed
  refine ⟨enough, h, p, returns enough (Nat.le_refl _), blocks', lists', m.valid, ?_⟩
  obtain ⟨rfl, same⟩ | ⟨new, rfl, -, more⟩ := m.result
  · rw [same]
    exact i.live
  · exact (i.live.cons new.payload).trans (more.map Block.payload).symm

theorem Tracked.live_erase (i : Tracked env s blocks lists) {b : Block}
    (left : (used blocks).Perm (b :: used blocks')) :
    (s.live.erase (b.addr + 8)).Perm ((used blocks').map Block.payload) := by
  have rest := (i.live.trans (left.map Block.payload)).erase (b.addr + 8)
  rwa [List.map_cons, Block.payload, List.erase_cons_head] at rest

theorem Tracked.free (i : Tracked env s blocks lists) {p : Nat} (held : p ∈ s.live)
    (allowed : Allowed env s (.free p)) : ∃ h, sfFree s.heap p = .ok h ∧ ∃ blocks' lists',
      Tracked env ⟨h, s.live.erase p⟩ blocks' lists' := by
  obtain ⟨b, mem, rfl⟩ := i.block held
  have atop : SmallAtop blocks b := allowed.atop i.valid.wellFormed.laidOut (i.valid.bytes mem)
  obtain ⟨h, blocks', lists', returns, valid, left⟩ := sfFree_valid i.valid mem atop
  exact ⟨h, returns, blocks', lists', valid, i.live_erase left⟩

theorem Tracked.realloc (i : Tracked env s blocks lists) {p size : Nat} (held : p ∈ s.live)
    (allowed : Allowed env s (.realloc p size)) : ∃ fuel h q,
      sfRealloc env fuel s.heap p size = .ok (h, q) ∧ ∃ blocks' lists', Tracked env
        ⟨h, if size = 0 then s.live.erase p else if q = 0 then s.live else q :: s.live.erase p⟩
        blocks' lists' := by
  obtain ⟨b, mem, rfl⟩ := i.block held
  have bytes := i.valid.bytes mem
  rw [Allowed, Nat.add_sub_cancel, bytes] at allowed
  obtain ⟨h, q, blocks', lists', ⟨enough, returns⟩, valid, ends⟩ :=
    sfRealloc_valid i.valid mem allowed.1 fun may =>
      (allowed.2 may).atop i.valid.wellFormed.laidOut bytes
  refine ⟨enough, h, q, returns enough (Nat.le_refl _), blocks', lists', valid, ?_⟩
  cases ends with
  | freed zero null left =>
    rw [if_pos zero]
    exact i.live_erase left
  | failed positive null same =>
    rw [if_neg positive, if_pos null, same]
    exact i.live
  | moved positive new result fit exchanged =>
    rw [if_neg positive, if_neg (by omega)]
    have back : (b.payload :: (used blocks').map Block.payload).Perm (q :: s.live) :=
      result ▸ (exchanged.map Block.payload).trans (i.live.symm.cons new.payload)
    have held := (List.perm_cons_erase held).cons q
    exact (back.trans (held.trans (List.Perm.swap _ _ _))).cons_inv.symm

theorem Tracked.use (i : Tracked env s blocks lists) {p a w : Nat} (held : s.Holds p a) :
    Tracked env ⟨s.heap.write a w, s.live⟩ blocks lists := by
  obtain ⟨held, low, high⟩ := held
  obtain ⟨b, mem, rfl⟩ := i.block held
  have least := (i.valid.wellFormed.shaped b (mem_used.mp mem).1).least
  rw [Nat.add_sub_cancel, i.valid.bytes mem] at high
  have payload : InPayload blocks a := ⟨b, mem, low, by unfold Block.footer; omega⟩
  refine ⟨i.valid.congr (i.valid.wellFormed.payload rfl rfl fun c outside => ?_) rfl i.valid.small,
    i.live⟩
  have other : c ≠ a := by
    rintro rfl
    exact outside payload
  exact Function.update_of_ne other _ _

/-! ## Runs -/

theorem Tracked.step (i : Tracked env s blocks lists) {call : Call} (allowed : Allowed env s call)
    (step : Step env s call t) : ∃ blocks' lists', Tracked env t blocks' lists' := by
  cases step with
  | malloc call =>
    obtain ⟨fuel, h, p, returns, tracked⟩ := i.malloc allowed
    have same := (sfMalloc_mono (Nat.le_max_left _ _) call).symm.trans
      (sfMalloc_mono (Nat.le_max_right _ fuel) returns)
    obtain ⟨rfl, rfl⟩ := Prod.mk.inj (Except.ok.inj same)
    exact tracked
  | free held call =>
    obtain ⟨h, returns, tracked⟩ := i.free held allowed
    obtain rfl := Except.ok.inj (call.symm.trans returns)
    exact tracked
  | realloc held call =>
    obtain ⟨fuel, h, q, returns, tracked⟩ := i.realloc held allowed
    have same := (sfRealloc_mono (Nat.le_max_left _ _) call).symm.trans
      (sfRealloc_mono (Nat.le_max_right _ fuel) returns)
    obtain ⟨rfl, rfl⟩ := Prod.mk.inj (Except.ok.inj same)
    exact tracked
  | use held => exact ⟨blocks, lists, i.use held⟩

/-- A call with a live pointer returns. -/
theorem Tracked.returns (i : Tracked env s blocks lists) {call : Call} (legal : s.Legal call)
    (allowed : Allowed env s call) : ∃ t, Step env s call t := by
  cases call with
  | malloc size =>
    obtain ⟨fuel, h, p, returns, -⟩ := i.malloc allowed
    exact ⟨_, .malloc returns⟩
  | free p =>
    obtain ⟨h, returns, -⟩ := i.free legal allowed
    exact ⟨_, .free legal returns⟩
  | realloc p size =>
    obtain ⟨fuel, h, q, returns, -⟩ := i.realloc legal allowed
    exact ⟨_, .realloc legal returns⟩
  | use p a w => exact ⟨_, .use legal⟩

/-- In every run of allowed calls on live pointers the heap is well formed, and the
next call, if it is allowed, returns. -/
theorem heap_stays_well_formed {h : Heap} (fresh : Fresh h)
    (run : Run (Step env) (Allowed env) ⟨h, []⟩ s) :
    (∃ blocks lists, WellFormed s.heap blocks lists) ∧
      ∀ call, s.Legal call → Allowed env s call → ∃ t, Step env s call t := by
  have tracked : ∃ blocks lists, Tracked env s blocks lists := by
    apply run.invariant (fun s => ∃ blocks lists, Tracked env s blocks lists)
    · exact ⟨[], _, fresh.tracked⟩
    · intro t u call inv allowed step
      obtain ⟨blocks, lists, i⟩ := inv
      exact i.step allowed step
  obtain ⟨blocks, lists, i⟩ := tracked
  exact ⟨⟨blocks, lists, i.valid.wellFormed⟩, fun call => i.returns⟩

/-! A heap at address 16 for which every page is granted. -/

def plainSbrk : Sbrk := ⟨16, fun _ => true, by decide, rfl⟩

def freshHeap : Heap := ⟨fun _ => 0, fun _ => 0, 0, 0, none, 0, 0⟩

theorem freshHeap_fresh : Fresh freshHeap := ⟨rfl, rfl, rfl, rfl, fun _ _ _ => rfl⟩

/-- The first page, with one block of 128 bytes. -/
def oneBlock : Heap := place (extendHeap plainSbrk freshHeap).1 16 100

theorem oneBlock_malloc : sfMalloc plainSbrk 2 freshHeap 100 = .ok (oneBlock, 24) := by
  have none : findFit freshHeap 2 100 = .ok 0 := by decide +kernel
  have page : (extendHeap plainSbrk freshHeap).2 = 16 := by decide +kernel
  have found : findFit (extendHeap plainSbrk freshHeap).1 1 100 = .ok 16 := by decide +kernel
  have looped : mallocLoop plainSbrk 100 2 freshHeap =
      .ok ((extendHeap plainSbrk freshHeap).1, 16) := by
    rw [mallocLoop, none]
    simp only [page]
    rw [if_neg (by decide), mallocLoop, found]
    rfl
  exact sfMalloc_placed (by decide) looped (by decide)

theorem freshHeap_safe : Safe plainSbrk freshHeap 100 := by
  have none : findFit freshHeap 1 100 = .ok 0 := by decide +kernel
  have bounds {n : Nat} (picked : Picked plainSbrk freshHeap 100 n) : n = 4096 := by
    cases picked with
    | fit found real => exact absurd (findFit_unique found none) real
    | grown _ _ => decide
  refine ⟨fun small => absurd small (by decide), fun n picked => ?_, fun n picked => ?_⟩
  · rw [bounds picked]
    decide
  · rw [bounds picked]
    decide

theorem oneBlock_safe : Safe plainSbrk (oneBlock.write 32 7) 300 := by
  have found : findFit (oneBlock.write 32 7) 1 300 = .ok 144 := by decide +kernel
  have size : blockBytes ((oneBlock.write 32 7).mem 144) = 3968 := by decide +kernel
  have bounds {n : Nat} (picked : Picked plainSbrk (oneBlock.write 32 7) 300 n) : n = 3968 := by
    cases picked with
    | fit found' real => rw [findFit_unique found' found, size]
    | grown none _ => exact absurd (findFit_unique none found) (by decide)
  refine ⟨fun small => absurd small (by decide), fun n picked => ?_, fun n picked => ?_⟩
  · rw [bounds picked]
    decide
  · rw [bounds picked]
    decide

theorem oneBlock_next : SmallNext (oneBlock.write 32 7) 24 := by decide +kernel

theorem oneBlock_holds : Session.Holds ⟨oneBlock, [24]⟩ 24 (24 + 8) := by
  have size : blockBytes (oneBlock.mem (24 - 8)) = 128 := by decide +kernel
  refine ⟨List.mem_cons_self, by decide, ?_⟩
  simp only [size]
  decide

/-- A block is allocated, written to, moved by `sf_realloc` and freed. -/
theorem moved_and_freed_well_formed : ∃ s t, s.live = [152] ∧ Step plainSbrk s (.free 152) t ∧
    Run (Step plainSbrk) (Allowed plainSbrk) ⟨freshHeap, []⟩ t ∧
      ∃ blocks lists, WellFormed t.heap blocks lists := by
  have start : Run (Step plainSbrk) (Allowed plainSbrk) ⟨freshHeap, []⟩ _ := Run.refl _
  have first := start.next (.malloc oneBlock_malloc) fun _ _ => freshHeap_safe
  have second := first.next (Step.use (w := 7) oneBlock_holds) trivial
  have result : (sfRealloc plainSbrk 2 (oneBlock.write 32 7) 24 300).toOption.map
      (fun r => (r.2, decide (SmallNext r.1 152))) = some (152, true) := by decide +kernel
  cases call : sfRealloc plainSbrk 2 (oneBlock.write 32 7) 24 300 with
  | error fault => simp [call, Except.toOption] at result
  | ok r =>
    obtain ⟨h, q⟩ := r
    obtain ⟨rfl, next⟩ : q = 152 ∧ SmallNext h 152 := by simpa [call, Except.toOption] using result
    have third := second.next (Step.realloc List.mem_cons_self call)
      ⟨fun _ _ => oneBlock_safe, fun _ => oneBlock_next⟩
    obtain ⟨t, step⟩ := (heap_stays_well_formed freshHeap_fresh third).2 (.free 152)
      List.mem_cons_self next
    have run := third.next step next
    exact ⟨_, t, rfl, step, run, (heap_stays_well_formed freshHeap_fresh run).1⟩

/-- A request of 4064 bytes leaves 16 of the first page. -/
theorem sliver_breaks_heap : ¬ ∀ (env : Sbrk) (h : Heap) (s : Session), Fresh h →
    Reachable (Step env) ⟨h, []⟩ s → ∃ blocks lists, WellFormed s.heap blocks lists := by
  intro stays
  have result : (match sfMalloc plainSbrk 2 freshHeap 4064 with
      | .ok (h, _) => (blockSize (h.mem 16), h.startOfHeap, h.endOfHeap)
      | .error _ => (0, 0, 0)) = (255, 16, 4112) := by decide +kernel
  cases call : sfMalloc plainSbrk 2 freshHeap 4064 with
  | error fault => simp [call] at result
  | ok r =>
    obtain ⟨h, p⟩ := r
    obtain ⟨size, start, stop⟩ : blockSize (h.mem 16) = 255 ∧ h.startOfHeap = 16 ∧
        h.endOfHeap = 4112 := by simpa [call] using result
    have step : Step plainSbrk ⟨freshHeap, []⟩ (.malloc 4064) ⟨h, if p = 0 then [] else [p]⟩ :=
      .malloc call
    obtain ⟨blocks, lists, w⟩ := stays plainSbrk freshHeap _ freshHeap_fresh
      (Reachable.next (Run.refl _) step)
    have tiles := w.tiles
    rw [start, stop] at tiles
    -- the first block has 4080 bytes, and no block fits behind it
    cases blocks with
    | nil => exact absurd tiles (by simp [Tiles])
    | cons b blocks =>
      have first := (w.stored b (by simp)).header.size
      have aligned := (w.shaped b (by simp)).aligned
      rw [tiles.1, size] at first
      cases blocks with
      | nil =>
        have last : 16 + b.size = 4112 := tiles.2
        omega
      | cons c blocks =>
        have least := (w.shaped c (by simp)).least
        have within := tiles.2.within (b := c) (by simp)
        omega

end LinuxSystem.Allocator
