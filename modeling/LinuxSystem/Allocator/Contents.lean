import LinuxSystem.Allocator.Frame

/-!
# The contents of payloads

What the allocator is for: every pointer that is live stands for an object of the
program's own, which keeps the size that was asked for and the words that were
written to it, whatever is allocated, freed, moved or written elsewhere.
-/

namespace LinuxSystem.Allocator

open Transition Tiling

/-- An object as the program sees it: the size it asked for, and the last word it
wrote at each offset. -/
structure Object where
  size : Nat
  word : Nat → Option Nat

def Object.new (size : Nat) : Object := ⟨size, fun _ => none⟩

def Object.write (o : Object) (a w : Nat) : Object :=
  { o with word := Function.update o.word a (some w) }

/-- An object of another size has the words that fit. -/
def Object.resize (size : Nat) (o : Object) : Object :=
  ⟨size, fun a => if a + 8 ≤ size then o.word a else none⟩

/-- A session, and the object of each pointer. -/
structure Recorded where
  session : Session
  objects : Nat → Option Object

/-- A step of the session with what the program may expect of it. The words of a
payload are those at multiples of 8. -/
inductive Records (env : Sbrk) (s : Recorded) : Call → Recorded → Prop where
  | malloc {fuel size p : Nat} {h : Heap}
      (call : sfMalloc env fuel s.session.heap size = .ok (h, p)) :
      Records env s (.malloc size)
        ⟨⟨h, if p = 0 then s.session.live else p :: s.session.live⟩,
          if p = 0 then s.objects else Function.update s.objects p (some (.new size))⟩
  | free {p : Nat} {h : Heap} (held : p ∈ s.session.live)
      (call : sfFree s.session.heap p = .ok h) :
      Records env s (.free p) ⟨⟨h, s.session.live.erase p⟩, Function.update s.objects p none⟩
  | realloc {fuel p size q : Nat} {h : Heap} (held : p ∈ s.session.live)
      (call : sfRealloc env fuel s.session.heap p size = .ok (h, q)) :
      Records env s (.realloc p size)
        ⟨⟨h, if size = 0 then s.session.live.erase p else if q = 0 then s.session.live
            else q :: s.session.live.erase p⟩,
          if size = 0 then Function.update s.objects p none else if q = 0 then s.objects
          else Function.update (Function.update s.objects p none) q
            ((s.objects p).map (Object.resize size))⟩
  | use {p a w : Nat} (held : s.session.Holds p (p + a)) (aligned : a % 8 = 0) :
      Records env s (.use p (p + a) w)
        ⟨⟨s.session.heap.write (p + a) w, s.session.live⟩,
          Function.update s.objects p ((s.objects p).map (Object.write · a w))⟩

/-- The bytes of a payload. -/
def Session.capacity (s : Session) (p : Nat) : Nat := blockBytes (s.heap.mem (p - 8)) - 16

/-- The block at `p` has room for the object, and its words. -/
structure Object.At (o : Object) (h : Heap) (p : Nat) : Prop where
  fits : o.size + 16 ≤ blockBytes (h.mem (p - 8))
  words : ∀ a w, o.word a = some w →
    a % 8 = 0 ∧ a + 24 ≤ blockBytes (h.mem (p - 8)) ∧ h.mem (p + a) = w

structure Intact (s : Recorded) : Prop where
  live : ∀ p, p ∈ s.session.live ↔ s.objects p ≠ none
  once : s.session.live.Nodup
  held : ∀ p o, s.objects p = some o → o.At s.session.heap p
  apart : ∀ p ∈ s.session.live, ∀ q ∈ s.session.live, p ≠ q →
    p + s.session.capacity p ≤ q ∨ q + s.session.capacity q ≤ p
  inside : ∀ p ∈ s.session.live, s.session.heap.startOfHeap < p ∧
    p + s.session.capacity p < s.session.heap.endOfHeap

variable {env : Sbrk} {s t : Recorded} {h h' : Heap} {blocks : List Block}
  {lists : Int → List Nat} {b c : Block} {o : Object} {size fuel p q : Nat}

theorem Records.step {call : Call} (records : Records env s call t) :
    Step env s.session call t.session := by
  cases records with
  | malloc call => exact .malloc call
  | free held call => exact .free held call
  | realloc held call => exact .realloc held call
  | use held aligned => exact .use held

/-- Every step of a session is on record, but for writes between two words. -/
theorem exists_records {call : Call} {later : Session} (step : Step env s.session call later)
    (aligned : ∀ p a w, call = .use p a w → (a - p) % 8 = 0) :
    ∃ objects, Records env s call ⟨later, objects⟩ := by
  cases step with
  | malloc call => exact ⟨_, .malloc call⟩
  | free held call => exact ⟨_, .free held call⟩
  | realloc held call => exact ⟨_, .realloc held call⟩
  | @use p a w held =>
    obtain ⟨offset, rfl⟩ := Nat.exists_eq_add_of_le held.2.1
    have aligned := aligned p _ w rfl
    rw [Nat.add_sub_cancel_left] at aligned
    exact ⟨_, .use held aligned⟩

/-! ## One object -/

theorem Object.At.untouched (at_c : o.At h (c.addr + 8)) (v : Valid env h blocks lists)
    (mem : c ∈ used blocks) (same : Untouched h h' c) : o.At h' (c.addr + 8) := by
  have least := (v.wellFormed.shaped c (mem_used.mp mem).1).least
  have bytes := v.bytes mem
  have header : h'.mem (c.addr + 8 - 8) = h.mem (c.addr + 8 - 8) := by
    rw [Nat.add_sub_cancel]
    exact same c.addr (Nat.le_refl _) (by omega)
  constructor
  · rw [header]
    exact at_c.fits
  · intro a w written
    obtain ⟨aligned, below, word⟩ := at_c.words a w written
    refine ⟨aligned, header ▸ below, (same _ (by omega) ?_).trans word⟩
    rw [Nat.add_sub_cancel, bytes] at below
    omega

theorem Object.at_new (room : size + 16 ≤ blockBytes (h.mem (p - 8))) :
    (Object.new size).At h p :=
  ⟨room, fun _ _ written => nomatch written⟩

theorem Object.At.moved (at_b : o.At h (b.addr + 8)) (bytes : blockBytes (h.mem b.addr) = b.size)
    (moved : Moved h h' blocks b size q) (room : size + 16 ≤ blockBytes (h'.mem (q - 8))) :
    (o.resize size).At h' q := by
  refine ⟨room, fun a w written => ?_⟩
  obtain ⟨fits, written⟩ := Option.ite_none_right_eq_some.mp written
  obtain ⟨aligned, below, word⟩ := at_b.words a w written
  rw [Nat.add_sub_cancel, bytes] at below
  exact ⟨aligned, by omega, (moved.words a aligned below fits).trans word⟩

/-- The word at `a` is written, and the others are kept. -/
theorem Object.At.write {a : Nat} (at_p : o.At h p) (real : 8 ≤ p) (aligned : a % 8 = 0)
    (below : a + 24 ≤ blockBytes (h.mem (p - 8))) (w : Nat) : (o.write a w).At (h.write (p + a) w) p := by
  have header : (h.write (p + a) w).mem (p - 8) = h.mem (p - 8) :=
    Function.update_of_ne (by omega) _ _
  constructor
  · rw [header]
    exact at_p.fits
  · intro a' w' written
    rw [header]
    by_cases eq : a' = a
    · subst eq
      obtain rfl : w = w' := by simpa [Object.write] using written
      exact ⟨aligned, below, Function.update_self ..⟩
    · obtain ⟨aligned', below', word⟩ := at_p.words a' w' (by simpa [Object.write, eq] using written)
      exact ⟨aligned', below', (Function.update_of_ne (by omega) _ _).trans word⟩

/-! ## All objects -/

structure Kept (env : Sbrk) (s : Recorded) : Prop where
  tracked : ∃ blocks lists, Tracked env s.session blocks lists
  live : ∀ p, p ∈ s.session.live ↔ s.objects p ≠ none
  held : ∀ p o, s.objects p = some o → o.At s.session.heap p

theorem Tracked.nodup {session : Session} (i : Tracked env session blocks lists) :
    session.live.Nodup := by
  have positive (b : Block) (mem : b ∈ blocks) : 0 < b.size := by
    have := (i.valid.wellFormed.shaped b mem).least
    omega
  have addresses := i.valid.wellFormed.tiles.spread.nodup_addr positive
  refine i.live.nodup_iff.mpr (List.Nodup.map_on ?_ i.valid.nodup)
  intro b hb c hc same
  have apart := i.valid.wellFormed.tiles.spread.apart (mem_used.mp hb).1 (mem_used.mp hc).1
  have := positive b (mem_used.mp hb).1
  have := positive c (mem_used.mp hc).1
  unfold Block.payload at same
  rcases apart with eq | before | after
  · exact eq
  · omega
  · omega

/-- A call that leaves a block alone leaves its object alone. -/
theorem Kept.held_untouched (kept : Kept env s) (i : Tracked env s.session blocks lists)
    (object : s.objects p = some o) (same : ∀ c ∈ used blocks, p = c.addr + 8 → Untouched s.session.heap h' c) :
    o.At h' p := by
  have live : p ∈ s.session.live := (kept.live p).mpr (by simp [object])
  obtain ⟨c, mem, rfl⟩ := i.block live
  exact (kept.held _ _ object).untouched i.valid mem (same c mem rfl)

theorem Kept.malloc (kept : Kept env s) (i : Tracked env s.session blocks lists)
    (allowed : Allowed env s.session (.malloc size))
    (call : sfMalloc env fuel s.session.heap size = .ok (h, p)) {x : Nat}
    (object : (if p = 0 then s.objects else Function.update s.objects p (some (.new size))) x =
      some o) : o.At h x := by
  have old (same : s.objects x = some o) : o.At h x :=
    kept.held_untouched i same fun c mem _ => sfMalloc_untouched i.valid allowed call mem
  by_cases null : p = 0
  · exact old (by rwa [if_pos null] at object)
  · rw [if_neg null] at object
    by_cases eq : x = p
    · subst eq
      obtain rfl : Object.new size = o := by simpa using object
      exact Object.at_new (sfMalloc_room i.valid allowed call null)
    · exact old (by rwa [Function.update_of_ne eq] at object)

/-- What is left when the object at `b` is given up. -/
theorem Kept.without (kept : Kept env s) (i : Tracked env s.session blocks lists)
    (others : ∀ c ∈ used blocks, c ≠ b → Untouched s.session.heap h c) {x : Nat}
    (object : Function.update s.objects (b.addr + 8) none x = some o) : o.At h x := by
  have apart : x ≠ b.addr + 8 := by
    rintro rfl
    simp at object
  rw [Function.update_of_ne apart] at object
  refine kept.held_untouched i object fun c mem start => others c mem ?_
  rintro rfl
  exact apart start

theorem Kept.free (kept : Kept env s) (i : Tracked env s.session blocks lists)
    (allowed : Allowed env s.session (.free p)) (held : p ∈ s.session.live)
    (call : sfFree s.session.heap p = .ok h) {x : Nat}
    (object : Function.update s.objects p none x = some o) : o.At h x := by
  obtain ⟨b, mem, rfl⟩ := i.block held
  exact kept.without i (fun c live other => sfFree_untouched i.valid mem (allowed.atop i.valid.wellFormed.laidOut
    (i.valid.bytes mem)) call live other) object

theorem Kept.realloc (kept : Kept env s) (i : Tracked env s.session blocks lists)
    (allowed : Allowed env s.session (.realloc p size)) (held : p ∈ s.session.live)
    (call : sfRealloc env fuel s.session.heap p size = .ok (h, q)) {x : Nat}
    (object : (if size = 0 then Function.update s.objects p none else if q = 0 then s.objects
      else Function.update (Function.update s.objects p none) q
        ((s.objects p).map (Object.resize size))) x = some o) : o.At h x := by
  obtain ⟨b, mem, rfl⟩ := i.block held
  have bytes := i.valid.bytes mem
  rw [Allowed, Nat.add_sub_cancel, bytes] at allowed
  obtain ⟨safe, may⟩ := allowed
  have atop (frees : MayFree b.size size) : SmallAtop blocks b :=
    (may frees).atop i.valid.wellFormed.laidOut bytes
  by_cases zero : size = 0
  · rw [if_pos zero] at object
    have freed := sfRealloc_zero i.valid mem zero call
    exact kept.without i (fun c live other => sfFree_untouched i.valid mem (atop (.inl zero)) freed live other) object
  rw [if_neg zero] at object
  by_cases null : q = 0
  · rw [if_pos null] at object
    subst null
    exact kept.held_untouched i object fun c live _ =>
      sfRealloc_failed i.valid mem safe atop call zero live
  rw [if_neg null] at object
  have moved := sfRealloc_moved i.valid mem safe atop call zero null
  by_cases eq : x = q
  · subst eq
    rw [Function.update_self] at object
    obtain ⟨old, before, rfl⟩ := Option.map_eq_some_iff.mp object
    exact (kept.held _ _ before).moved bytes moved
      (sfRealloc_room i.valid mem safe atop call zero null)
  · rw [Function.update_of_ne eq] at object
    exact kept.without i moved.others object

theorem Kept.use {a w : Nat} (kept : Kept env s) (i : Tracked env s.session blocks lists)
    (held : s.session.Holds p (p + a)) (aligned : a % 8 = 0) {x : Nat}
    (object : Function.update s.objects p ((s.objects p).map (Object.write · a w)) x = some o) :
    o.At (s.session.heap.write (p + a) w) x := by
  obtain ⟨live, -, below⟩ := held
  obtain ⟨b, mem, rfl⟩ := i.block live
  have least := (i.valid.wellFormed.shaped b (mem_used.mp mem).1).least
  have bytes := i.valid.bytes mem
  by_cases eq : x = b.addr + 8
  · subst eq
    rw [Function.update_self] at object
    obtain ⟨old, before, rfl⟩ := Option.map_eq_some_iff.mp object
    refine (kept.held _ _ before).write (by omega) aligned ?_ w
    rw [Nat.add_sub_cancel, bytes] at below ⊢
    omega
  · rw [Function.update_of_ne eq] at object
    refine kept.held_untouched i object fun c live start => ?_
    -- the other blocks are apart from the word that is written
    intro e low high
    apply Function.update_of_ne
    rw [Nat.add_sub_cancel, bytes] at below
    obtain rfl | before | after := i.valid.wellFormed.tiles.spread.apart (mem_used.mp live).1
      (mem_used.mp mem).1
    · exact absurd start eq
    · omega
    · omega

/-- The pointers that are live are those that have an object. -/
theorem Records.live {call : Call} (records : Records env s call t)
    (once : s.session.live.Nodup) (live : ∀ p, p ∈ s.session.live ↔ s.objects p ≠ none) :
    ∀ p, p ∈ t.session.live ↔ t.objects p ≠ none := by
  intro x
  have erased (p : Nat) : x ∈ s.session.live.erase p ↔ Function.update s.objects p none x ≠ none := by
    rw [once.mem_erase_iff, live x]
    by_cases eq : x = p <;> simp [eq]
  cases records with
  | @malloc fuel size p h call =>
    dsimp only
    split
    · exact live x
    · rw [List.mem_cons, live x]
      by_cases eq : x = p
      · simp [eq]
      · simp [eq]
  | free held call => exact erased _
  | @realloc fuel p size q h held call =>
    dsimp only
    split
    · exact erased p
    split
    · exact live x
    · rw [List.mem_cons, erased p]
      by_cases eq : x = q
      · simp [eq, (live p).mp held]
      · simp [eq]
  | @use p a w held aligned =>
    dsimp only
    rw [live x]
    by_cases eq : x = p
    · simp [eq]
    · simp [eq]

theorem Kept.step {call : Call} (kept : Kept env s) (allowed : Allowed env s.session call)
    (records : Records env s call t) : Kept env t := by
  obtain ⟨blocks, lists, i⟩ := kept.tracked
  refine ⟨i.step allowed records.step, records.live i.nodup kept.live, ?_⟩
  intro x o object
  cases records with
  | malloc call => exact kept.malloc i allowed call object
  | free held call => exact kept.free i allowed held call object
  | realloc held call => exact kept.realloc i allowed held call object
  | use held aligned => exact kept.use i held aligned object

theorem Kept.intact (kept : Kept env s) : Intact s := by
  obtain ⟨blocks, lists, i⟩ := kept.tracked
  have capacity {b : Block} (mem : b ∈ used blocks) : 32 ≤ b.size ∧
      s.session.capacity (b.addr + 8) = b.size - 16 := by
    refine ⟨(i.valid.wellFormed.shaped b (mem_used.mp mem).1).least, ?_⟩
    rw [Session.capacity, Nat.add_sub_cancel, i.valid.bytes mem]
  refine ⟨kept.live, i.nodup, kept.held, ?_, ?_⟩
  · intro p hp q hq other
    obtain ⟨b, hb, rfl⟩ := i.block hp
    obtain ⟨c, hc, rfl⟩ := i.block hq
    have size_b := capacity hb
    have size_c := capacity hc
    obtain rfl | before | after := i.valid.wellFormed.tiles.spread.apart (mem_used.mp hb).1
      (mem_used.mp hc).1
    · exact absurd rfl other
    · omega
    · omega
  · intro p hp
    obtain ⟨b, hb, rfl⟩ := i.block hp
    have size_b := capacity hb
    have within := i.valid.wellFormed.tiles.within (mem_used.mp hb).1
    omega

/-- In every run of allowed calls on live pointers, the live pointers have payloads of their own, each with room for what was asked for,
and every word that was written is there until its object is freed or cut. -/
theorem objects_stay_intact {h : Heap} (fresh : Fresh h)
    (run : Run (Records env) (fun s => Allowed env s.session) ⟨⟨h, []⟩, fun _ => none⟩ s) :
    Intact s := by
  have start : Kept env ⟨⟨h, []⟩, fun _ => none⟩ :=
    ⟨⟨[], _, fresh.tracked⟩, by simp, fun _ _ none => nomatch none⟩
  exact (run.invariant (Kept env) start fun kept allowed records =>
    kept.step allowed records).intact

/-! A word that `sf_realloc` moves from 32 to 160. -/

theorem moved_word_intact : ∃ s, Intact s ∧ s.session.live = [152] ∧
    s.session.heap.mem 160 = 7 := by
  have start : Run (Records plainSbrk) (fun s => Allowed plainSbrk s.session)
      ⟨⟨freshHeap, []⟩, fun _ => none⟩ _ := Run.refl _
  have first := start.next (.malloc oneBlock_malloc) fun _ _ => freshHeap_safe
  have second := first.next (Records.use (w := 7) oneBlock_holds (by decide)) trivial
  have result : (match sfRealloc plainSbrk 2 (oneBlock.write 32 7) 24 300 with
      | .ok (_, q) => q
      | .error _ => 0) = 152 := by decide +kernel
  cases call : sfRealloc plainSbrk 2 (oneBlock.write 32 7) 24 300 with
  | error fault => simp [call] at result
  | ok r =>
    obtain ⟨h, q⟩ := r
    obtain rfl : q = 152 := by simpa [call] using result
    have third := second.next (Records.realloc List.mem_cons_self call)
      ⟨fun _ _ => oneBlock_safe, fun _ => oneBlock_next⟩
    have intact := objects_stay_intact freshHeap_fresh third
    exact ⟨_, intact, rfl, ((intact.held 152 _ rfl).words 8 7 rfl).2.2⟩

end LinuxSystem.Allocator
