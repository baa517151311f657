import LinuxSystem.Base.Linked
import LinuxSystem.WorkQueue.Model

/-!
# The queue loses nothing and keeps the order

`Fifo` is the invariant over the program points of all threads: the path from
`front` holds what was appended and not popped, and the semaphore accounts for
its length.
-/

namespace LinuxSystem.WorkQueue

open Threads Transition

/-- Node `a` is allocated and its `next` is `b`. -/
def Queue.Follows (self : Queue) (a b : Nat) : Prop :=
  ∃ node, self.nodes a = some node ∧ node.next = b

/-- `path` leads from `front` to NULL, and `rear` is its last node. -/
structure IsPath (queue : Queue) (path : List Nat) : Prop where
  front : (path ++ [0]).head? = some queue.front
  chain : List.IsChain queue.Follows (path ++ [0])
  distinct : path.Nodup
  null : 0 ∉ path
  rear : ∀ last ∈ path.getLast?, queue.rear = last

theorem isPath_create : IsPath createQueue [] :=
  ⟨rfl, .singleton 0, List.nodup_nil, by simp, by simp⟩

theorem chain_allocated {queue : Queue} {path : List Nat}
    (chain : List.IsChain queue.Follows (path ++ [0])) {a : Nat} (mem : a ∈ path) :
    ∃ node, queue.nodes a = some node := by
  induction path with
  | nil => simp at mem
  | cons b path ih =>
    rcases List.mem_cons.mp mem with rfl | mem
    · cases path <;> exact ⟨_, chain.rel.choose_spec.1⟩
    · exact ih chain.tail mem

/-- A path only reads the nodes before its end. -/
theorem chain_congr {queue queue' : Queue} {path : List Nat} {z : Nat}
    (same : ∀ a ∈ path, queue'.nodes a = queue.nodes a)
    (chain : List.IsChain queue.Follows (path ++ [z])) :
    List.IsChain queue'.Follows (path ++ [z]) := by
  refine Linked.chain_congr (fun a ha b _ follows => ?_) chain
  rw [List.dropLast_concat] at ha
  obtain ⟨node, at_a, next⟩ := follows
  exact ⟨node, (same a ha).trans at_a, next⟩

theorem IsPath.congr {queue queue' : Queue} {path : List Nat} (isPath : IsPath queue path)
    (front : queue'.front = queue.front) (rear : queue'.rear = queue.rear)
    (same : ∀ a ∈ path, queue'.nodes a = queue.nodes a) : IsPath queue' path where
  front := front ▸ isPath.front
  chain := chain_congr same isPath.chain
  distinct := isPath.distinct
  null := isPath.null
  rear := rear ▸ isPath.rear

theorem IsPath.front_eq_zero {queue : Queue} {path : List Nat} (isPath : IsPath queue path) :
    queue.front = 0 ↔ path = [] := by
  have front := isPath.front
  cases path with
  | nil => simpa using front.symm
  | cons a path =>
    have null := isPath.null
    simp only [List.cons_append, List.head?_cons, Option.some.injEq] at front
    simp only [List.mem_cons, not_or] at null
    simp [← front, Ne.symm null.1]

/-- An append adds its node at the end and changes no item. -/
theorem IsPath.append {queue : Queue} {path : List Nat} (isPath : IsPath queue path)
    {tmp item : Nat} (new : tmp ∉ path) (base : tmp ≠ 0)
    (node : queue.nodes tmp = some ⟨item, 0⟩) :
    ∃ queue', appendSection queue tmp = some queue' ∧ IsPath queue' (path ++ [tmp]) ∧
      (∀ a, (queue'.nodes a).map (·.item) = (queue.nodes a).map (·.item)) ∧
      ∀ a ∉ path, queue'.nodes a = queue.nodes a := by
  unfold appendSection
  rcases List.eq_nil_or_concat' path with rfl | ⟨before, last, rfl⟩
  · have empty : queue.front = 0 := isPath.front_eq_zero.mpr rfl
    refine ⟨_, if_pos empty, ⟨rfl, ?_, by simp, by simpa using base.symm, by simp⟩,
      fun a => rfl, fun a _ => rfl⟩
    exact .cons_cons ⟨_, node, rfl⟩ (.singleton 0)
  have full : queue.front ≠ 0 := fun empty => by simpa using isPath.front_eq_zero.mp empty
  have rear : queue.rear = last := isPath.rear last (by simp)
  obtain ⟨old, at_last⟩ := chain_allocated isPath.chain (a := last) (by simp)
  have new' := new
  simp only [List.mem_append, List.mem_singleton, not_or] at new'
  have apart (a) (ha : a ∈ before) : a ≠ last := by
    have := List.nodup_append.mp isPath.distinct
    exact fun eq => this.2.2 a ha last (by simp) eq
  have chain := isPath.chain
  rw [List.append_assoc, List.singleton_append, List.isChain_append_cons_cons] at chain
  refine ⟨⟨queue.front, tmp, Function.update queue.nodes last (some { old with next := tmp })⟩,
    by simp [full, rear, at_last], ⟨?_, ?_, ?_, ?_, by simp⟩, ?_, ?_⟩
  · have front := isPath.front
    cases before <;> simpa using front
  · rw [List.append_assoc, List.append_assoc, List.singleton_append, List.singleton_append,
      List.isChain_append_cons_cons]
    refine ⟨chain_congr (fun a ha => by simp [apart a ha]) chain.1,
      ⟨{ old with next := tmp }, by simp, rfl⟩, .cons_cons ⟨⟨item, 0⟩, ?_, rfl⟩ (.singleton 0)⟩
    simpa [new'.2] using node
  · refine List.nodup_append.mpr ⟨isPath.distinct, List.nodup_singleton tmp, ?_⟩
    rintro a ha _ hb rfl
    exact new (List.mem_singleton.mp hb ▸ ha)
  · simpa [base.symm] using isPath.null
  · intro a
    by_cases eq : a = last <;> simp [eq, at_last]
  · intro a ha
    simp only [List.mem_append, List.mem_singleton, not_or] at ha
    simp [ha.2]

/-- A pop takes the first node and frees it. -/
theorem IsPath.pop {queue : Queue} {a : Nat} {path : List Nat} (isPath : IsPath queue (a :: path)) :
    ∃ node queue', queue.nodes a = some node ∧ popSection queue = some (node.item, queue') ∧
      IsPath queue' path ∧ ∀ b ≠ a, queue'.nodes b = queue.nodes b := by
  obtain ⟨node, at_a⟩ := chain_allocated isPath.chain (a := a) (by simp)
  have front : queue.front = a := by simpa using isPath.front.symm
  have distinct := List.nodup_cons.mp isPath.distinct
  have kept (b) (hb : b ≠ a) : Function.update queue.nodes a none b = queue.nodes b := by simp [hb]
  refine ⟨node, ⟨node.next, queue.rear, Function.update queue.nodes a none⟩, at_a,
    by simp [popSection, front, at_a], ⟨?_, ?_, distinct.2, ?_, ?_⟩, kept⟩
  · have next (b) (follows : queue.Follows a b) : b = node.next := by
      obtain ⟨node', at_a', next⟩ := follows
      rw [at_a] at at_a'
      exact next.symm.trans (congrArg QueueNode.next (Option.some.inj at_a')).symm
    cases path with
    | nil => exact congrArg some (next 0 isPath.chain.rel)
    | cons b path => exact congrArg some (next b isPath.chain.rel)
  · exact chain_congr (fun b hb => kept b fun eq => distinct.1 (eq ▸ hb)) isPath.chain.tail
  · exact fun null => isPath.null (List.mem_cons_of_mem a null)
  · intro last hl
    apply isPath.rear last
    cases path with
    | nil => simp at hl
    | cons b path => simpa [List.getLast?_cons_cons] using hl

/-! ## The invariant over all threads -/

def Point.posts : Point → Bool
  | .post => true
  | _ => false

def Point.pops : Point → Bool
  | .pop => true
  | _ => false

variable {Thread : Type} [Fintype Thread]

structure Fifo (s : State Thread) (path : List Nat) : Prop where
  isPath : IsPath s.queue path
  order : s.appended = s.popped ++ path.map s.itemOf
  balance : s.items + count Point.pops s.point + count Point.posts s.point = path.length
  -- a node that waits to be appended belongs to its thread alone
  fresh : ∀ t tmp, s.point t = .append tmp →
    tmp ≠ 0 ∧ tmp ∉ path ∧ ∃ item, s.queue.nodes tmp = some ⟨item, 0⟩
  own : ∀ t u tmp, s.point t = .append tmp → s.point u = .append tmp → t = u

theorem fifo_start : Fifo (State.start Thread) [] where
  isPath := isPath_create
  order := rfl
  balance := by simp [State.start, count, Point.pops, Point.posts]
  fresh t tmp h := by simp [State.start] at h
  own t u tmp h := by simp [State.start] at h

variable [DecidableEq Thread]

/-- Where a thread moves to a point that owns no node, what the others own stays
fresh and their own. -/
theorem Fifo.place {s : State Thread} {path path' : List Nat} (fifo : Fifo s path)
    {queue : Queue} {items : Nat} {appended popped : List Nat} {t : Thread} {point : Point}
    (isPath : IsPath queue path')
    (order : appended = popped ++ path'.map fun a => ((queue.nodes a).map (·.item)).getD 0)
    (balance : items + count Point.pops (Function.update s.point t point) +
      count Point.posts (Function.update s.point t point) = path'.length)
    (plain : ∀ tmp, point ≠ .append tmp)
    (kept : ∀ u tmp, u ≠ t → s.point u = .append tmp →
      tmp ∉ path' ∧ queue.nodes tmp = s.queue.nodes tmp) :
    Fifo ⟨queue, items, Function.update s.point t point, appended, popped⟩ path' := by
  have other (u tmp) (h : Function.update s.point t point u = .append tmp) :
      u ≠ t ∧ s.point u = .append tmp := by
    by_cases eq : u = t
    · simp [eq, plain] at h
    · exact ⟨eq, by simpa [eq] using h⟩
  refine ⟨isPath, order, balance, fun u tmp h => ?_, fun u v tmp hu hv => ?_⟩
  · obtain ⟨apart, at_u⟩ := other u tmp h
    obtain ⟨base, -, node⟩ := fifo.fresh u tmp at_u
    obtain ⟨new, same⟩ := kept u tmp apart at_u
    exact ⟨base, new, by rwa [same]⟩
  · exact fifo.own u v tmp (other u tmp hu).2 (other v tmp hv).2

theorem counts_moved {place : Thread → Point} {t : Thread} {old : Point} (at_t : place t = old)
    (new : Point) :
    count Point.pops (Function.update place t new) + old.pops.toNat =
        count Point.pops place + new.pops.toNat ∧
      count Point.posts (Function.update place t new) + old.posts.toNat =
        count Point.posts place + new.posts.toNat := by
  have pops := count_update Point.pops place t new
  have posts := count_update Point.posts place t new
  rw [at_t] at pops posts
  exact ⟨pops, posts⟩

/-- A node fresh from `calloc` is on no path and belongs to no other thread. -/
theorem Fifo.calloc {s : State Thread} {path : List Nat} (fifo : Fifo s path) {t : Thread}
    {tmp : Nat} (idle : s.point t = .idle) (item : Nat) (base : tmp ≠ 0)
    (free : s.queue.nodes tmp = none) :
    Fifo ({ s with queue := newNode s.queue tmp item }.place t (.append tmp)) path := by
  have new : tmp ∉ path := fun mem => by
    obtain ⟨node, allocated⟩ := chain_allocated fifo.isPath.chain mem
    simp [free] at allocated
  have unowned (u) : s.point u ≠ .append tmp := fun h => by
    obtain ⟨-, -, item, allocated⟩ := fifo.fresh u tmp h
    simp [free] at allocated
  have kept (a) (ha : a ≠ tmp) : (newNode s.queue tmp item).nodes a = s.queue.nodes a := by
    simp [newNode, ha]
  have other (u tmp') (apart : u ≠ t) (h : Function.update s.point t (.append tmp) u = .append tmp') :
      tmp' ≠ tmp ∧ s.point u = .append tmp' := by
    rw [Function.update_of_ne apart] at h
    exact ⟨fun eq => unowned u (eq ▸ h), h⟩
  refine ⟨fifo.isPath.congr rfl rfl fun a ha => kept a fun eq => new (eq ▸ ha), ?_, ?_,
    fun u tmp' h => ?_, fun u v tmp' hu hv => ?_⟩
  · refine fifo.order.trans (congrArg _ (List.map_congr_left fun a ha => ?_))
    simp only [State.itemOf, State.place, kept a fun eq => new (eq ▸ ha)]
  · have moved := counts_moved idle (.append tmp)
    have := fifo.balance
    simp only [Point.pops, Point.posts] at moved
    simp only [State.place]
    omega
  · by_cases apart : u = t
    · simp only [State.place, apart, Function.update_self, Point.append.injEq] at h
      subst h
      exact ⟨base, new, item, by simp [State.place, newNode]⟩
    · obtain ⟨ne, h⟩ := other u tmp' apart h
      obtain ⟨base', new', node⟩ := fifo.fresh u tmp' h
      exact ⟨base', new', by simpa only [State.place, kept tmp' ne] using node⟩
  · have mine (u) (h : Function.update s.point t (.append tmp) u = .append tmp) : u = t := by
      by_contra apart
      exact (other u tmp apart h).1 rfl
    by_cases eq : tmp' = tmp
    · subst eq
      exact (mine u hu).trans (mine v hv).symm
    · have back (u) (h : Function.update s.point t (.append tmp) u = .append tmp') :
          s.point u = .append tmp' := by
        by_cases apart : u = t
        · simp [apart, Ne.symm eq] at h
        · exact (other u tmp' apart h).2
      exact fifo.own u v tmp' (back u hu) (back v hv)

theorem step_fifo {s later : State Thread} {t : Thread} {path : List Nat} (fifo : Fifo s path)
    (h : Step s t later) : ∃ path', Fifo later path' := by
  have balance := fifo.balance
  have fresh (u tmp) (h : s.point u = .append tmp) : tmp ∉ path := (fifo.fresh u tmp h).2.1
  cases h with
  | refuse => exact ⟨path, fifo⟩
  | calloc tmp item idle _ base free => exact ⟨path, fifo.calloc idle item base free⟩
  | @append tmp queue at_t h =>
    obtain ⟨base, new, item, node⟩ := fifo.fresh t tmp at_t
    obtain ⟨queue', eq, isPath, items, same⟩ := fifo.isPath.append new base node
    obtain rfl := Option.some.inj (h.symm.trans eq)
    refine ⟨path ++ [tmp], fifo.place isPath ?_ ?_ (by simp) fun u tmp' apart at_u => ⟨?_, ?_⟩⟩
    · simp only [items, fifo.order, List.map_append, List.append_assoc]
      rfl
    · have moved := counts_moved at_t .post
      simp only [Point.pops, Point.posts, Bool.toNat_false, Bool.toNat_true] at moved
      simp only [List.length_append, List.length_singleton]
      omega
    · simp only [List.mem_append, List.mem_singleton, not_or]
      exact ⟨fresh u tmp' at_u, fun eq => apart (fifo.own u t tmp (eq ▸ at_u) at_t)⟩
    · exact same tmp' (fresh u tmp' at_u)
  | post at_t =>
    refine ⟨path, fifo.place fifo.isPath fifo.order ?_ (by simp) fun u tmp _ at_u =>
      ⟨fresh u tmp at_u, rfl⟩⟩
    have moved := counts_moved at_t .idle
    simp only [Point.pops, Point.posts, Bool.toNat_false, Bool.toNat_true] at moved
    simp only
    omega
  | wait idle some =>
    refine ⟨path, fifo.place fifo.isPath fifo.order ?_ (by simp) fun u tmp _ at_u =>
      ⟨fresh u tmp at_u, rfl⟩⟩
    have moved := counts_moved idle .pop
    simp only [Point.pops, Point.posts, Bool.toNat_false, Bool.toNat_true] at moved
    simp only
    omega
  | @pop item queue at_t h =>
    have some : 0 < count Point.pops s.point := count_pos.mpr ⟨t, by simp [at_t, Point.pops]⟩
    cases path with
    | nil => simp only [List.length_nil] at balance; omega
    | cons a path =>
      obtain ⟨node, queue', at_a, eq, isPath, same⟩ := fifo.isPath.pop
      obtain ⟨rfl, rfl⟩ := Prod.mk.inj (Option.some.inj (h.symm.trans eq))
      have distinct := List.nodup_cons.mp fifo.isPath.distinct
      refine ⟨path, fifo.place isPath ?_ ?_ (by simp) fun u tmp _ at_u => ?_⟩
      · have items : path.map s.itemOf =
            path.map fun b => ((queue.nodes b).map (·.item)).getD 0 :=
          List.map_congr_left fun b hb => by
            rw [State.itemOf, same b fun eq => distinct.1 (eq ▸ hb)]
        simp only [fifo.order, List.map_cons, items, State.itemOf, at_a]
        simp
      · have moved := counts_moved at_t .idle
        simp only [Point.pops, Point.posts, Bool.toNat_false, Bool.toNat_true] at moved
        simp only [List.length_cons] at balance ⊢
        omega
      · have new := fresh u tmp at_u
        simp only [List.mem_cons, not_or] at new
        exact ⟨new.2, same tmp new.1⟩

theorem reachable_fifo {s : State Thread} (reached : Reachable Step (State.start Thread) s) :
    ∃ path, Fifo s path :=
  reached.invariant (fun s => ∃ path, Fifo s path) ⟨[], fifo_start⟩
    fun ⟨_, fifo⟩ _ h => step_fifo fifo h

/-- Whatever the threads and the order of their steps: the items popped are a
prefix of those appended; a thread past `sem_wait` finds a node at `front`, and
neither section goes through a bad pointer; `rear` is the last node of a queue
that is not empty; and the semaphore, the threads between `sem_wait` and the pop
and the appends not yet posted add up to the length of the queue. -/
theorem work_queue_fifo {s : State Thread} (reached : Reachable Step (State.start Thread) s) :
    s.popped <+: s.appended ∧
    (∀ t, s.point t = .pop → s.queue.front ≠ 0 ∧ ∃ popped, popSection s.queue = some popped) ∧
    (∀ t tmp, s.point t = .append tmp → ∃ queue, appendSection s.queue tmp = some queue) ∧
    ∃ path, IsPath s.queue path ∧
      (s.queue.front ≠ 0 → path.getLast? = some s.queue.rear) ∧
      s.items + count Point.pops s.point + count Point.posts s.point = path.length := by
  obtain ⟨path, fifo⟩ := reachable_fifo reached
  refine ⟨⟨_, fifo.order.symm⟩, fun t pops => ?_, fun t tmp at_t => ?_,
    path, fifo.isPath, fun full => ?_, fifo.balance⟩
  · have some : 0 < count Point.pops s.point := count_pos.mpr ⟨t, by simp [pops, Point.pops]⟩
    have balance := fifo.balance
    cases path with
    | nil => simp only [List.length_nil] at balance; omega
    | cons a path =>
      obtain ⟨node, queue, -, popped, -, -⟩ := fifo.isPath.pop
      exact ⟨fun null => by simpa using fifo.isPath.front_eq_zero.mp null, _, popped⟩
  · obtain ⟨base, new, item, node⟩ := fifo.fresh t tmp at_t
    obtain ⟨queue, appended, -⟩ := fifo.isPath.append new base node
    exact ⟨queue, appended⟩
  · rcases List.eq_nil_or_concat' path with rfl | ⟨before, last, rfl⟩
    · exact absurd (fifo.isPath.front_eq_zero.mpr rfl) full
    · simpa using (fifo.isPath.rear last (by simp)).symm

/-- One thread is past `sem_wait` after another has posted its item. -/
theorem waiting_thread_finds_item :
    ∃ s : State Bool, s.point false = .pop ∧ s.appended = [7] ∧ s.queue.front ≠ 0 := by
  have start : Reachable Step (State.start Bool) _ := Run.refl _
  have appended := (start.next (.calloc (t := true) 16 7 rfl (by decide) (by decide) rfl)).next
    (.append (t := true) rfl rfl)
  have waited := (appended.next (.post (t := true) rfl)).next (.wait (t := false) rfl (by decide))
  exact ⟨_, rfl, rfl, ((work_queue_fifo waited).2.1 false rfl).1⟩

end LinuxSystem.WorkQueue
