import LinuxSystem.WorkQueue.Fifo

/-!
# Connections

`main` accepts a connection, writes its descriptor into a cell from `malloc` and
enqueues the cell; a worker dequeues it, serves the descriptor it finds there and
closes the descriptor it finds there then. The kernel may give a descriptor again
as soon as it is closed. Connections are numbered as they are accepted.
-/

namespace LinuxSystem.Server.Connections

open Threads Transition WorkQueue

/-- Where `main` is in its loop; `append` and `post` are inside `enqueue`. -/
inductive Main where
  | accept
  | malloc (connfd : Nat)
  | enqueue (tmp : Nat)
  | append (tmp : Nat)
  | post
  deriving DecidableEq, Repr

/-- `handling` has read the descriptor that it passes to `handle_request`. -/
inductive Worker where
  | dequeue
  | request (connfd : Nat)
  | handling (connfd fd : Nat)
  | close (connfd : Nat)
  deriving DecidableEq, Repr

/-- `files` has the connection of each open descriptor, `cells` the descriptor in
each cell. `main` is the thread `none` of the queue. -/
structure State (Thread : Type) where
  queue : WorkQueue.State (Option Thread)
  files : Nat → Option Nat
  cells : Nat → Option Nat
  main : Main
  worker : Thread → Worker
  accepted : Nat
  closed : List Nat

variable {Thread : Type}

def State.start (Thread : Type) : State Thread :=
  ⟨WorkQueue.State.start (Option Thread), fun _ => none, fun _ => none, .accept, fun _ => .dequeue,
    0, []⟩

variable [DecidableEq Thread]

def State.go (s : State Thread) (t : Thread) (worker : Worker) : State Thread :=
  { s with worker := Function.update s.worker t worker }

/-- One step of a worker, or of `main`. -/
inductive Step : State Thread → Option Thread → State Thread → Prop where
  | accept {s} (connfd : Nat) : s.main = .accept → s.files connfd = none →
      Step s none { s with
        files := Function.update s.files connfd (some s.accepted)
        main := .malloc connfd
        accepted := s.accepted + 1 }
  | malloc {s connfd} (tmp : Nat) : s.main = .malloc connfd → tmp ≠ 0 → s.cells tmp = none →
      Step s none { s with
        cells := Function.update s.cells tmp (some connfd)
        main := .enqueue tmp }
  | enqueue {s tmp} (node : Nat) : s.main = .enqueue tmp → tmp ≠ 0 → node ≠ 0 →
      s.queue.queue.nodes node = none → s.queue.point none = .idle →
      Step s none { s with
        queue := { s.queue with queue := newNode s.queue.queue node tmp }.place none (.append node)
        main := .append tmp }
  | append {s tmp node queue} : s.main = .append tmp → s.queue.point none = .append node →
      appendSection s.queue.queue node = some queue →
      Step s none { s with
        queue := { s.queue with
          queue := queue
          appended := s.queue.appended ++ [s.queue.itemOf node] }.place none .post
        main := .post }
  | post {s} : s.main = .post → s.queue.point none = .post →
      Step s none { s with
        queue := { s.queue with items := s.queue.items + 1 }.place none .idle
        main := .accept }
  | wait {s t} : s.worker t = .dequeue → s.queue.point (some t) = .idle → 0 < s.queue.items →
      Step s (some t) { s with
        queue := { s.queue with items := s.queue.items - 1 }.place (some t) .pop }
  | pop {s t item queue} : s.worker t = .dequeue → s.queue.point (some t) = .pop →
      popSection s.queue.queue = some (item, queue) →
      Step s (some t) ({ s with
        queue := { s.queue with
          queue := queue
          popped := s.queue.popped ++ [item] }.place (some t) .idle }.go t (.request item))
  | request {s t connfd fd} : s.worker t = .request connfd → s.cells connfd = some fd →
      Step s (some t) (s.go t (.handling connfd fd))
  | respond {s t connfd fd} : s.worker t = .handling connfd fd →
      Step s (some t) (s.go t (.close connfd))
  | close {s t connfd fd} : s.worker t = .close connfd → s.cells connfd = some fd →
      Step s (some t) ({ s with
        files := Function.update s.files fd none
        closed := s.closed ++ (s.files fd).toList }.go t .dequeue)

/-- Seen from the queue alone, a step is one of its own or none. -/
theorem step_queue {s later : State Thread} {t : Option Thread} (h : Step s t later) :
    later.queue = s.queue ∨ WorkQueue.Step s.queue t later.queue := by
  cases h with
  | accept | malloc | request | respond | close => exact .inl rfl
  | enqueue node _ item base free idle => exact .inr (.calloc node _ idle item base free)
  | append _ at_t h => exact .inr (.append at_t h)
  | post _ at_t => exact .inr (.post at_t)
  | wait _ idle some => exact .inr (.wait idle some)
  | pop _ at_t h => exact .inr (.pop at_t h)

/-! ## From `accept` to `enqueue` -/

/-- The cells of the connections so far, in order: connection `k` has the `k`-th,
but for one whose cell is still to come. -/
structure Issued (issued : List Nat) (opening : Option Nat) (cells files : Nat → Option Nat)
    (accepted : Nat) (closed : List Nat) : Prop where
  number : accepted = issued.length + opening.toList.length
  distinct : issued.Nodup
  allocated : ∀ tmp ∈ issued, cells tmp ≠ none
  opens : ∀ k tmp, issued[k]? = some tmp → k ∉ closed →
    ∃ fd, cells tmp = some fd ∧ files fd = some k
  opening : ∀ fd, opening = some fd → files fd = some issued.length
  live : ∀ fd k, files fd = some k → k < accepted ∧ k ∉ closed
  single : ∀ fd fd' k, files fd = some k → files fd' = some k → fd = fd'

section Issued

variable {issued : List Nat} {opening : Option Nat} {cells files : Nat → Option Nat}
  {accepted : Nat} {closed : List Nat}

theorem Issued.accept (h : Issued issued none cells files accepted closed) {connfd : Nat}
    (unused : files connfd = none) (past : ∀ k ∈ closed, k < accepted) :
    Issued issued (some connfd) cells (Function.update files connfd (some accepted))
      (accepted + 1) closed := by
  have number : accepted = issued.length := h.number
  have cases {fd k} (at_fd : Function.update files connfd (some accepted) fd = some k) :
      fd = connfd ∧ accepted = k ∨ fd ≠ connfd ∧ files fd = some k := by
    by_cases eq : fd = connfd
    · exact .inl ⟨eq, by simpa [eq] using at_fd⟩
    · exact .inr ⟨eq, by simpa [eq] using at_fd⟩
  constructor
  · exact congrArg (· + 1) number
  · exact h.distinct
  · exact h.allocated
  · intro k tmp at_k stays
    obtain ⟨fd, cell, at_fd⟩ := h.opens k tmp at_k stays
    have apart : fd ≠ connfd := fun eq => by simp [eq, unused] at at_fd
    exact ⟨fd, cell, by rwa [Function.update_of_ne apart]⟩
  · rintro fd ⟨⟩
    rw [Function.update_self, number]
  · intro fd k at_fd
    rcases cases at_fd with ⟨-, rfl⟩ | ⟨-, at_fd⟩
    · exact ⟨Nat.lt_succ_self _, fun mem => absurd (past _ mem) (Nat.lt_irrefl _)⟩
    · have live := h.live fd k at_fd
      exact ⟨by omega, live.2⟩
  · intro fd fd' k at_fd at_fd'
    rcases cases at_fd with ⟨eq, new⟩ | ⟨-, old⟩ <;>
      rcases cases at_fd' with ⟨eq', new'⟩ | ⟨-, old'⟩
    · exact eq.trans eq'.symm
    · exact absurd (new ▸ (h.live fd' k old').1) (Nat.lt_irrefl _)
    · exact absurd (new' ▸ (h.live fd k old).1) (Nat.lt_irrefl _)
    · exact h.single fd fd' k old old'

theorem Issued.malloc {connfd : Nat} (h : Issued issued (some connfd) cells files accepted closed)
    {tmp : Nat} (fresh : cells tmp = none) :
    Issued (issued ++ [tmp]) none (Function.update cells tmp (some connfd)) files accepted closed := by
  have new : tmp ∉ issued := fun mem => h.allocated tmp mem fresh
  constructor
  · simpa using h.number
  · exact List.nodup_append.mpr ⟨h.distinct, List.nodup_singleton tmp, fun a ha b hb eq =>
      new (List.mem_singleton.mp hb ▸ eq ▸ ha)⟩
  · intro a ha
    rcases List.mem_append.mp ha with old | last
    · rw [Function.update_of_ne (ne_of_mem_of_not_mem old new)]
      exact h.allocated a old
    · simp [List.mem_singleton.mp last]
  · intro k a at_k stays
    rw [List.getElem?_append] at at_k
    split at at_k
    · obtain ⟨fd, cell, at_fd⟩ := h.opens k a at_k stays
      have apart : a ≠ tmp := ne_of_mem_of_not_mem (List.mem_of_getElem? at_k) new
      exact ⟨fd, by rwa [Function.update_of_ne apart], at_fd⟩
    · next beyond =>
      obtain ⟨last, rfl⟩ := List.getElem?_eq_some_iff.mp at_k
      have number : k = issued.length := by
        simp only [List.length_singleton] at last
        omega
      exact ⟨connfd, by simp, number ▸ h.opening connfd rfl⟩
  · exact nofun
  · exact h.live
  · exact h.single

theorem Issued.close (h : Issued issued opening cells files accepted closed) {k fd tmp : Nat}
    (at_k : issued[k]? = some tmp) (at_fd : files fd = some k) :
    Issued issued opening cells (Function.update files fd none) accepted (closed ++ [k]) := by
  have cases {fd' k'} (h : Function.update files fd none fd' = some k') :
      fd' ≠ fd ∧ files fd' = some k' := by
    by_cases eq : fd' = fd
    · simp [eq] at h
    · exact ⟨eq, by simpa [eq] using h⟩
  have short := (List.getElem?_eq_some_iff.mp at_k).1
  constructor
  · exact h.number
  · exact h.distinct
  · exact h.allocated
  · intro k' tmp' at_k' stays
    simp only [List.mem_append, List.mem_singleton, not_or] at stays
    obtain ⟨fd', cell, at_fd'⟩ := h.opens k' tmp' at_k' stays.1
    have apart : fd' ≠ fd := by
      rintro rfl
      exact stays.2 (Option.some.inj (at_fd'.symm.trans at_fd))
    exact ⟨fd', cell, by rwa [Function.update_of_ne apart]⟩
  · intro fd' opened
    have at_fd' := h.opening fd' opened
    have apart : fd' ≠ fd := by
      rintro rfl
      have := Option.some.inj (at_fd'.symm.trans at_fd)
      omega
    rwa [Function.update_of_ne apart]
  · intro fd' k' at_fd'
    obtain ⟨apart, at_fd'⟩ := cases at_fd'
    have live := h.live fd' k' at_fd'
    refine ⟨live.1, fun mem => ?_⟩
    rcases List.mem_append.mp mem with old | last
    · exact live.2 old
    · obtain rfl := List.mem_singleton.mp last
      exact apart (h.single fd' fd k' at_fd' at_fd)
  · intro fd' fd'' k' at_fd' at_fd''
    exact h.single fd' fd'' k' (cases at_fd').2 (cases at_fd'').2

end Issued

/-! ## From `dequeue` to `Close` -/

/-- The cell a worker has. -/
def Worker.cell : Worker → Option Nat
  | .dequeue => none
  | .request connfd | .handling connfd _ | .close connfd => some connfd

/-- Every connection taken from the queue is closed, or one worker has its cell. -/
structure Taken (popped : List Nat) (worker : Thread → Worker) (cells : Nat → Option Nat)
    (closed : List Nat) : Prop where
  holds : ∀ t tmp, (worker t).cell = some tmp → ∃ k, popped[k]? = some tmp ∧ k ∉ closed
  reads : ∀ t tmp fd, worker t = .handling tmp fd → cells tmp = some fd
  apart : ∀ t u tmp, (worker t).cell = some tmp → (worker u).cell = some tmp → t = u
  served : ∀ k tmp, popped[k]? = some tmp → k ∈ closed ∨ ∃ t, (worker t).cell = some tmp
  once : closed.Nodup
  past : ∀ k ∈ closed, k < popped.length

section Taken

variable {popped closed : List Nat} {worker : Thread → Worker} {cells : Nat → Option Nat}

/-- What the other workers hold is not theirs to change. -/
theorem cell_update {t u : Thread} {now : Worker} {tmp : Nat}
    (h : (Function.update worker t now u).cell = some tmp) :
    u = t ∧ now.cell = some tmp ∨ u ≠ t ∧ (worker u).cell = some tmp := by
  by_cases eq : u = t
  · exact .inl ⟨eq, by simpa [eq] using h⟩
  · exact .inr ⟨eq, by simpa [eq] using h⟩

/-- A worker that keeps its cell. -/
theorem Taken.go (h : Taken popped worker cells closed) {t : Thread} {now : Worker}
    (same : now.cell = (worker t).cell)
    (reads : ∀ tmp fd, now = .handling tmp fd → cells tmp = some fd) :
    Taken popped (Function.update worker t now) cells closed := by
  have cell (u) : (Function.update worker t now u).cell = (worker u).cell := by
    by_cases eq : u = t <;> simp [eq, same]
  refine ⟨fun u tmp held => h.holds u tmp (cell u ▸ held), fun u tmp fd handling => ?_,
    fun u v tmp hu hv => h.apart u v tmp (cell u ▸ hu) (cell v ▸ hv), fun k tmp at_k => ?_,
    h.once, h.past⟩
  · by_cases eq : u = t
    · exact reads tmp fd (by simpa [eq] using handling)
    · exact h.reads u tmp fd (by simpa [eq] using handling)
  · simpa only [cell] using h.served k tmp at_k

/-- An idle worker takes the next cell. -/
theorem Taken.pop (h : Taken popped worker cells closed) {t : Thread} {tmp : Nat}
    (idle : worker t = .dequeue) (distinct : (popped ++ [tmp]).Nodup) :
    Taken (popped ++ [tmp]) (Function.update worker t (.request tmp)) cells closed := by
  have new : tmp ∉ popped := fun mem =>
    (List.nodup_append.mp distinct).2.2 tmp mem tmp (List.mem_singleton_self tmp) rfl
  have unheld (u) : (worker u).cell ≠ some tmp := fun held => by
    obtain ⟨k, at_k, -⟩ := h.holds u tmp held
    exact new (List.mem_of_getElem? at_k)
  have older {k a : Nat} (at_k : popped[k]? = some a) : (popped ++ [tmp])[k]? = some a := by
    rw [List.getElem?_append_left (List.getElem?_eq_some_iff.mp at_k).1, at_k]
  constructor
  · intro u a held
    rcases cell_update held with ⟨-, taken⟩ | ⟨-, held⟩
    · obtain rfl := Option.some.inj taken
      exact ⟨popped.length, by simp, fun mem => absurd (h.past _ mem) (Nat.lt_irrefl _)⟩
    · obtain ⟨k, at_k, stays⟩ := h.holds u a held
      exact ⟨k, older at_k, stays⟩
  · intro u a fd handling
    have apart : u ≠ t := by
      rintro rfl
      simp at handling
    exact h.reads u a fd (by simpa [apart] using handling)
  · intro u v a hu hv
    rcases cell_update hu with ⟨eq, taken⟩ | ⟨-, held⟩ <;>
      rcases cell_update hv with ⟨eq', taken'⟩ | ⟨-, held'⟩
    · exact eq.trans eq'.symm
    · obtain rfl := Option.some.inj taken
      exact absurd held' (unheld v)
    · obtain rfl := Option.some.inj taken'
      exact absurd held (unheld u)
    · exact h.apart u v a held held'
  · intro k a at_k
    rw [List.getElem?_append] at at_k
    split at at_k
    · refine (h.served k a at_k).imp_right fun ⟨u, held⟩ => ⟨u, ?_⟩
      have apart : u ≠ t := by
        rintro rfl
        simp [idle, Worker.cell] at held
      rwa [Function.update_of_ne apart]
    · obtain ⟨last, rfl⟩ := List.getElem?_eq_some_iff.mp at_k
      exact .inr ⟨t, by simp [Worker.cell]⟩
  · exact h.once
  · intro k mem
    have := h.past k mem
    rw [List.length_append]
    omega

/-- A worker closes the connection of its cell. -/
theorem Taken.close (h : Taken popped worker cells closed) {t : Thread} {tmp k : Nat}
    (distinct : popped.Nodup) (held : (worker t).cell = some tmp) (at_k : popped[k]? = some tmp)
    (stays : k ∉ closed) :
    Taken popped (Function.update worker t .dequeue) cells (closed ++ [k]) := by
  constructor
  · intro u a held'
    rcases cell_update held' with ⟨-, none⟩ | ⟨apart, held'⟩
    · cases none
    obtain ⟨k', at_k', stays'⟩ := h.holds u a held'
    refine ⟨k', at_k', fun mem => ?_⟩
    rcases List.mem_append.mp mem with old | last
    · exact stays' old
    · obtain rfl := List.mem_singleton.mp last
      obtain rfl := Option.some.inj (at_k.symm.trans at_k')
      exact apart (h.apart u t tmp held' held)
  · intro u a fd handling
    have apart : u ≠ t := by
      rintro rfl
      simp at handling
    exact h.reads u a fd (by simpa [apart] using handling)
  · intro u v a hu hv
    rcases cell_update hu with ⟨-, none⟩ | ⟨-, hu⟩
    · cases none
    rcases cell_update hv with ⟨-, none⟩ | ⟨-, hv⟩
    · cases none
    exact h.apart u v a hu hv
  · intro k' a at_k'
    by_cases eq : k' = k
    · exact .inl (by simp [eq])
    refine (h.served k' a at_k').imp (List.mem_append_left _) fun ⟨u, held'⟩ => ⟨u, ?_⟩
    have apart : u ≠ t := by
      rintro rfl
      obtain rfl := Option.some.inj (held.symm.trans held')
      obtain ⟨short, at_k⟩ := List.getElem?_eq_some_iff.mp at_k
      obtain ⟨short', at_k'⟩ := List.getElem?_eq_some_iff.mp at_k'
      exact eq ((distinct.getElem_inj_iff).mp (at_k'.trans at_k.symm))
    rwa [Function.update_of_ne apart]
  · exact List.nodup_append.mpr ⟨h.once, List.nodup_singleton k, fun a ha b hb eq =>
      stays (List.mem_singleton.mp hb ▸ eq ▸ ha)⟩
  · intro k' mem
    rcases List.mem_append.mp mem with old | last
    · exact h.past k' old
    · exact List.mem_singleton.mp last ▸ (List.getElem?_eq_some_iff.mp at_k).1

end Taken

/-! ## All threads together -/

/-- The cell that `main` is about to append. -/
def Main.pending : Main → List Nat
  | .enqueue tmp | .append tmp => [tmp]
  | _ => []

/-- The descriptor that has no cell yet. -/
def Main.opening : Main → Option Nat
  | .malloc connfd => some connfd
  | _ => none

def State.issued (s : State Thread) : List Nat := s.queue.appended ++ s.main.pending

/-- `main` is in `enqueue` with the cell it has. -/
def Enqueues (queue : WorkQueue.State (Option Thread)) : Main → Prop
  | .append tmp => ∃ node, queue.point none = .append node ∧ queue.itemOf node = tmp
  | .post => queue.point none = .post
  | _ => queue.point none = .idle

structure Pooled [Fintype Thread] (s : State Thread) : Prop where
  fifo : ∃ path, Fifo s.queue path
  main : Enqueues s.queue s.main
  worker : ∀ t, s.queue.point (some t) = .idle ∨
    s.queue.point (some t) = .pop ∧ s.worker t = .dequeue
  issued : Issued s.issued s.main.opening s.cells s.files s.accepted s.closed
  taken : Taken s.queue.popped s.worker s.cells s.closed

variable [Fintype Thread]

omit [DecidableEq Thread] in
theorem pooled_start : Pooled (State.start Thread) where
  fifo := ⟨[], fifo_start⟩
  main := rfl
  worker _ := .inl rfl
  issued := ⟨rfl, List.nodup_nil, nofun, nofun, nofun, nofun, nofun⟩
  taken := ⟨nofun, nofun, nofun, nofun, List.nodup_nil, nofun⟩

omit [DecidableEq Thread] in
/-- The cells that were popped are the first that were issued. -/
theorem popped_begins {s : State Thread} {path : List Nat} (fifo : Fifo s.queue path) :
    s.queue.popped <+: s.issued := by
  rw [State.issued, fifo.order, List.append_assoc]
  exact List.prefix_append ..

theorem getElem?_of_begins {l l' : List Nat} (pre : l <+: l') {k a : Nat} (at_k : l[k]? = some a) :
    l'[k]? = some a := by
  obtain ⟨rest, rfl⟩ := pre
  rw [List.getElem?_append_left (List.getElem?_eq_some_iff.mp at_k).1, at_k]

omit [DecidableEq Thread] in
/-- A worker that has a cell finds the descriptor of its connection there. -/
theorem Pooled.descriptor {s : State Thread} (pooled : Pooled s) {t : Thread} {tmp : Nat}
    (held : (s.worker t).cell = some tmp) :
    ∃ k fd, s.queue.popped[k]? = some tmp ∧ k ∉ s.closed ∧ s.cells tmp = some fd ∧
      s.files fd = some k := by
  obtain ⟨path, fifo⟩ := pooled.fifo
  obtain ⟨k, at_k, stays⟩ := pooled.taken.holds t tmp held
  obtain ⟨fd, cell, at_fd⟩ :=
    pooled.issued.opens k tmp (getElem?_of_begins (popped_begins fifo) at_k) stays
  exact ⟨k, fd, at_k, stays, cell, at_fd⟩

omit [DecidableEq Thread] in
theorem front_mem {s : WorkQueue.State (Option Thread)} {path : List Nat} (fifo : Fifo s path)
    {t : Option Thread} (pops : s.point t = .pop) : s.queue.front ∈ path := by
  have some : 0 < count Point.pops s.point := count_pos.mpr ⟨t, by simp [pops, Point.pops]⟩
  have balance := fifo.balance
  cases path with
  | nil => simp only [List.length_nil] at balance; omega
  | cons a path =>
    have front := fifo.isPath.front
    simp only [List.cons_append, List.head?_cons, Option.some.injEq] at front
    exact front ▸ List.mem_cons_self

theorem popSection_kept {self queue : Queue} {item : Nat} (h : popSection self = some (item, queue))
    {a : Nat} (apart : a ≠ self.front) : queue.nodes a = self.nodes a := by
  obtain ⟨node, -, eq⟩ := Option.bind_eq_some_iff.mp h
  obtain ⟨-, rfl⟩ := Prod.mk.inj (Option.some.inj eq)
  exact Function.update_of_ne apart ..

theorem Pooled.busy {s : State Thread} (pooled : Pooled s) {t : Thread}
    (busy : s.worker t ≠ .dequeue) (now : Worker) (u : Thread) :
    s.queue.point (some u) = .idle ∨
      s.queue.point (some u) = .pop ∧ (s.go t now).worker u = .dequeue := by
  rcases pooled.worker u with idle | ⟨pops, waits⟩
  · exact .inl idle
  · have apart : u ≠ t := fun eq => busy (eq ▸ waits)
    exact .inr ⟨pops, by simpa [State.go, apart] using waits⟩

omit [DecidableEq Thread] in
theorem Pooled.past {s : State Thread} (pooled : Pooled s) {k : Nat} (mem : k ∈ s.closed) :
    k < s.accepted := by
  obtain ⟨path, fifo⟩ := pooled.fifo
  have := pooled.taken.past k mem
  have := (popped_begins fifo).length_le
  have := pooled.issued.number
  omega

theorem step_pooled {s later : State Thread} {t : Option Thread} (pooled : Pooled s)
    (h : Step s t later) : Pooled later := by
  obtain ⟨path, fifo⟩ := pooled.fifo
  have fifo' : ∃ path, Fifo later.queue path := by
    rcases step_queue h with same | step
    · exact same ▸ pooled.fifo
    · exact step_fifo fifo step
  have issued := pooled.issued
  have main := pooled.main
  have taken := pooled.taken
  have within : s.queue.popped <+: s.issued := popped_begins fifo
  unfold State.issued at issued within
  cases h with
  | accept connfd at_accept unused =>
    rw [at_accept] at main issued
    exact ⟨fifo', main, pooled.worker, issued.accept unused fun k => pooled.past, taken⟩
  | malloc tmp at_malloc base fresh =>
    rw [at_malloc] at main issued within
    simp only [Main.pending, List.append_nil] at issued within
    refine ⟨fifo', main, pooled.worker, issued.malloc fresh,
      { taken with reads := fun t a fd handling => ?_ }⟩
    obtain ⟨k, at_k, -⟩ := taken.holds t a (by rw [handling]; rfl)
    have other : a ≠ tmp := by
      rintro rfl
      exact issued.allocated a (within.subset (List.mem_of_getElem? at_k)) fresh
    exact (Function.update_of_ne other ..).trans (taken.reads t a fd handling)
  | @enqueue tmp node at_enqueue item base free idle =>
    rw [at_enqueue] at main issued
    refine ⟨fifo', ⟨node, by simp [WorkQueue.State.place],
      by simp [WorkQueue.State.place, WorkQueue.State.itemOf, newNode]⟩, fun t => ?_, issued, taken⟩
    simpa [WorkQueue.State.place] using pooled.worker t
  | @append tmp node queue at_append at_t h =>
    rw [at_append] at main issued
    obtain ⟨node', at_t', item⟩ := main
    obtain rfl := Point.append.inj (at_t.symm.trans at_t')
    refine ⟨fifo', by simp [Enqueues, WorkQueue.State.place], fun t => ?_, ?_, taken⟩
    · simpa [WorkQueue.State.place] using pooled.worker t
    · simpa [State.issued, WorkQueue.State.place, Main.pending, Main.opening, item] using issued
  | post at_post at_t =>
    rw [at_post] at issued
    refine ⟨fifo', by simp [Enqueues, WorkQueue.State.place], fun t => ?_, issued, taken⟩
    simpa [WorkQueue.State.place] using pooled.worker t
  | @wait t idle at_t some =>
    refine ⟨fifo', ?_, fun u => ?_, issued, taken⟩
    · cases at_main : s.main <;> simpa [at_main, Enqueues, WorkQueue.State.place,
        WorkQueue.State.itemOf] using main
    · by_cases eq : u = t
      · exact .inr ⟨by simp [eq, WorkQueue.State.place], eq ▸ idle⟩
      · simpa [WorkQueue.State.place, eq] using pooled.worker u
  | @pop t item queue idle at_t h =>
    have distinct : (s.queue.popped ++ [item]).Nodup := by
      obtain ⟨path', later⟩ := fifo'
      exact issued.distinct.sublist (popped_begins later).sublist
    refine ⟨fifo', ?_, fun u => ?_, issued, taken.pop idle distinct⟩
    · cases at_main : s.main with
      | append tmp =>
        rw [at_main] at main
        obtain ⟨node, at_node, at_tmp⟩ := main
        -- the node of `main` is not the one that is popped
        have apart : node ≠ s.queue.queue.front :=
          fun eq => (fifo.fresh none node at_node).2.1 (eq ▸ front_mem fifo at_t)
        refine ⟨node, by simpa [WorkQueue.State.place, State.go] using at_node, ?_⟩
        simpa [WorkQueue.State.itemOf, WorkQueue.State.place, State.go, popSection_kept h apart]
          using at_tmp
      | accept | malloc | enqueue | post =>
        simpa [at_main, Enqueues, WorkQueue.State.place, State.go] using main
    · by_cases eq : u = t
      · exact .inl (by simp [eq, WorkQueue.State.place, State.go])
      · simpa [WorkQueue.State.place, State.go, eq] using pooled.worker u
  | @request t connfd fd at_request cell =>
    refine ⟨fifo', main, pooled.busy (by simp [at_request]) _, issued, taken.go ?_ ?_⟩
    · rw [at_request]
      rfl
    · rintro _ _ ⟨⟩
      exact cell
  | @respond t connfd fd at_handling =>
    refine ⟨fifo', main, pooled.busy (by simp [at_handling]) _, issued, taken.go ?_ ?_⟩
    · rw [at_handling]
      rfl
    · rintro _ _ ⟨⟩
  | @close t connfd fd at_close cell =>
    have held : (s.worker t).cell = some connfd := by simp [at_close, Worker.cell]
    obtain ⟨k, fd', at_k, stays, cell', at_fd⟩ := pooled.descriptor held
    obtain rfl := Option.some.inj (cell.symm.trans cell')
    have distinct := issued.distinct.sublist within.sublist
    simp only [at_fd, Option.toList_some]
    exact ⟨fifo', main, pooled.busy (by simp [at_close]) _,
      issued.close (getElem?_of_begins within at_k) at_fd, taken.close distinct held at_k stays⟩

theorem reachable_pooled {s : State Thread} (reached : Reachable Step (State.start Thread) s) :
    Pooled s :=
  reached.invariant Pooled pooled_start fun pooled _ h => step_pooled pooled h

/-- Connection `k` is the `k`-th that was accepted and the `k`-th taken from the
queue. -/
structure Orderly (s : State Thread) : Prop where
  -- a worker serves, and is going to close, the connection whose cell it took
  own : ∀ t connfd, (s.worker t).cell = some connfd → ∃ k fd, s.queue.popped[k]? = some connfd ∧
    s.cells connfd = some fd ∧ s.files fd = some k ∧
    ∀ fd', s.worker t = .handling connfd fd' → fd' = fd
  -- one worker for each connection that was taken and is not closed
  taken : ∀ k connfd, s.queue.popped[k]? = some connfd →
    (k ∉ s.closed ↔ ∃ t, (s.worker t).cell = some connfd)
  one : ∀ t u connfd, (s.worker t).cell = some connfd → (s.worker u).cell = some connfd → t = u
  once : s.closed.Nodup
  past : ∀ k ∈ s.closed, k < s.queue.popped.length
  -- the open descriptors are those of the connections that are not closed
  opened : ∀ k, (∃ fd, s.files fd = some k) ↔ k < s.accepted ∧ k ∉ s.closed
  single : ∀ fd fd' k, s.files fd = some k → s.files fd' = some k → fd = fd'
  -- the others are in the queue or on their way to it
  rest : ∃ path, IsPath s.queue.queue path ∧ s.accepted =
    s.queue.popped.length + path.length + s.main.pending.length + s.main.opening.toList.length

omit [DecidableEq Thread] in
theorem Pooled.orderly {s : State Thread} (pooled : Pooled s) : Orderly s := by
  obtain ⟨path, fifo⟩ := pooled.fifo
  have issued := pooled.issued
  have taken := pooled.taken
  have within := popped_begins fifo
  have number := issued.number
  constructor
  · intro t connfd held
    obtain ⟨k, fd, at_k, -, cell, at_fd⟩ := pooled.descriptor held
    refine ⟨k, fd, at_k, cell, at_fd, fun fd' handling => ?_⟩
    exact Option.some.inj ((taken.reads t connfd fd' handling).symm.trans cell)
  · intro k connfd at_k
    refine ⟨fun stays => (taken.served k connfd at_k).resolve_left stays, fun ⟨t, held⟩ mem => ?_⟩
    obtain ⟨k', at_k', stays⟩ := taken.holds t connfd held
    obtain ⟨short, at_k⟩ := List.getElem?_eq_some_iff.mp at_k
    obtain ⟨short', at_k'⟩ := List.getElem?_eq_some_iff.mp at_k'
    have same := (issued.distinct.sublist within.sublist).getElem_inj_iff.mp (at_k.trans at_k'.symm)
    exact stays (same ▸ mem)
  · exact taken.apart
  · exact taken.once
  · exact taken.past
  · refine fun k => ⟨fun ⟨fd, at_fd⟩ => issued.live fd k at_fd, fun ⟨below, stays⟩ => ?_⟩
    by_cases before : k < s.issued.length
    · obtain ⟨fd, -, at_fd⟩ := issued.opens k _ (List.getElem?_eq_getElem before) stays
      exact ⟨fd, at_fd⟩
    · cases at_open : s.main.opening with
      | none =>
        rw [at_open, Option.toList_none, List.length_nil] at number
        omega
      | some fd =>
        rw [at_open] at number
        have last : k = s.issued.length := by
          simp only [Option.toList_some, List.length_singleton] at number
          omega
        exact ⟨fd, last ▸ issued.opening fd at_open⟩
  · exact issued.single
  · refine ⟨path, fifo.isPath, number.trans ?_⟩
    rw [State.issued, fifo.order]
    simp only [List.length_append, List.length_map]

/-- Whatever the threads do: connections are taken in the order they come, each
by one worker, which serves and closes that connection and no other, although
descriptors are used again; none is lost and no descriptor stays open. -/
theorem connections_are_served {s : State Thread}
    (reached : Reachable Step (State.start Thread) s) : Orderly s :=
  (reachable_pooled reached).orderly

theorem descriptor_used_again :
    ∃ s : State Bool, s.closed = [0] ∧ s.files 5 = some 1 ∧ Orderly s := by
  have start : Reachable Step (State.start Bool) _ := Run.refl _
  have opened := (start.next (.accept 5 rfl rfl)).next (.malloc 16 rfl (by decide) rfl)
  have handed := ((opened.next (.enqueue 32 rfl (by decide) (by decide) rfl rfl)).next
    (.append rfl rfl rfl)).next (.post rfl rfl)
  have taken := (handed.next (.wait (t := true) rfl rfl (by decide))).next
    (.pop (t := true) rfl rfl rfl)
  have closed := ((taken.next (.request (t := true) rfl rfl)).next (.respond (t := true) rfl)).next
    (.close (t := true) rfl rfl)
  exact ⟨_, rfl, rfl, connections_are_served (closed.next (.accept 5 rfl rfl))⟩

/-! ## Every connection gets closed -/

/-- How many steps a worker still takes before it waits again, a step of the
semaphore included. -/
def Worker.weight (worker : Worker) (point : Point) : Nat :=
  match worker, point with
  | .dequeue, .pop => 4
  | .dequeue, _ => 0
  | .request _, _ => 3
  | .handling .., _ => 2
  | .close _, _ => 1

def State.weight (s : State Thread) : Nat :=
  5 * s.queue.items + ∑ t, (s.worker t).weight (s.queue.point (some t))

theorem weight_lt {s later : State Thread} {t : Thread}
    (others : ∀ u ≠ t, later.worker u = s.worker u ∧
      later.queue.point (some u) = s.queue.point (some u))
    (less : 5 * later.queue.items + (later.worker t).weight (later.queue.point (some t)) <
      5 * s.queue.items + (s.worker t).weight (s.queue.point (some t))) :
    later.weight < s.weight := by
  have same : ∑ u ∈ Finset.univ.erase t, (later.worker u).weight (later.queue.point (some u)) =
      ∑ u ∈ Finset.univ.erase t, (s.worker u).weight (s.queue.point (some u)) :=
    Finset.sum_congr rfl fun u hu => by
      obtain ⟨worker, point⟩ := others u (Finset.ne_of_mem_erase hu)
      rw [worker, point]
  unfold State.weight
  rw [← Finset.add_sum_erase _ _ (Finset.mem_univ t), ← Finset.add_sum_erase _ _ (Finset.mem_univ t),
    same]
  omega

theorem step_weight {s later : State Thread} {t : Thread} (pooled : Pooled s)
    (h : Step s (some t) later) : later.weight < s.weight := by
  have others (u) (apart : u ≠ t) : later.worker u = s.worker u ∧
      later.queue.point (some u) = s.queue.point (some u) := by
    cases h <;> simp [State.go, WorkQueue.State.place, apart]
  refine weight_lt others ?_
  cases h with
  | wait idle at_t some =>
    simp [WorkQueue.State.place, idle, at_t, Worker.weight]
    omega
  | pop idle at_t _ => simp [State.go, WorkQueue.State.place, idle, at_t, Worker.weight]
  | request at_request _ => simp [State.go, at_request, Worker.weight]
  | respond at_handling => simp [State.go, at_handling, Worker.weight]
  | close at_close _ =>
    have at_t : s.queue.point (.some t) = .idle := by simpa [at_close] using pooled.worker t
    simp [State.go, at_close, at_t, Worker.weight]

/-- While a connection waits or is served, some worker has a step. -/
theorem Pooled.progress [Nonempty Thread] {s : State Thread} (pooled : Pooled s)
    (waits : s.main = .accept) {k : Nat} (below : k < s.accepted) (stays : k ∉ s.closed) :
    ∃ t later, Step s (some t) later := by
  by_cases served : ∃ t, s.worker t ≠ .dequeue
  · obtain ⟨t, busy⟩ := served
    cases at_t : s.worker t with
    | dequeue => exact absurd at_t busy
    | request connfd =>
      obtain ⟨k, fd, -, -, cell, -⟩ := pooled.descriptor (t := t) (by rw [at_t]; rfl)
      exact ⟨t, _, .request at_t cell⟩
    | handling connfd fd => exact ⟨t, _, .respond at_t⟩
    | close connfd =>
      obtain ⟨k, fd, -, -, cell, -⟩ := pooled.descriptor (t := t) (by rw [at_t]; rfl)
      exact ⟨t, _, .close at_t cell⟩
  have idle (t) : s.worker t = .dequeue := by
    by_contra busy
    exact served ⟨t, busy⟩
  obtain ⟨path, fifo⟩ := pooled.fifo
  have main := pooled.main
  have number := pooled.issued.number
  rw [State.issued, fifo.order] at number
  rw [waits] at main number
  simp only [Main.opening, Main.pending, Option.toList_none, List.length_nil, List.append_nil,
    List.length_append, List.length_map, Nat.add_zero] at number
  have untaken : s.queue.popped.length ≤ k := by
    by_contra before
    rcases pooled.taken.served k _ (List.getElem?_eq_getElem (Nat.lt_of_not_le before)) with
      gone | ⟨t, held⟩
    · exact stays gone
    · simp [idle, Worker.cell] at held
  have posts : count Point.posts s.queue.point = 0 := count_eq_zero.mpr fun t => by
    cases t with
    | none => exact congrArg Point.posts main
    | some t =>
      rcases pooled.worker t with at_t | ⟨at_t, -⟩ <;> rw [at_t] <;> rfl
  have balance := fifo.balance
  by_cases pops : ∃ t, s.queue.point (some t) = .pop
  · obtain ⟨t, at_t⟩ := pops
    cases path with
    | nil => simp only [List.length_nil] at number; omega
    | cons a path =>
      obtain ⟨node, queue, -, popped, -⟩ := fifo.isPath.pop
      exact ⟨t, _, .pop (idle t) at_t popped⟩
  have none_pops : count Point.pops s.queue.point = 0 := count_eq_zero.mpr fun t => by
    cases t with
    | none => exact congrArg Point.pops main
    | some t =>
      rcases pooled.worker t with at_t | ⟨at_t, -⟩
      · rw [at_t]
        rfl
      · exact absurd ⟨t, at_t⟩ pops
  obtain ⟨t⟩ := ‹Nonempty Thread›
  have at_t : s.queue.point (some t) = .idle :=
    (pooled.worker t).resolve_right fun pop => pops ⟨t, pop.1⟩
  exact ⟨t, _, .wait (idle t) at_t (by omega)⟩

omit [Fintype Thread] in
/-- The workers leave alone what `main` does. -/
theorem step_worker {s later : State Thread} {t : Thread} (h : Step s (some t) later) :
    later.main = s.main ∧ later.accepted = s.accepted := by
  cases h <;> exact ⟨rfl, rfl⟩

/-- As long as every request comes to an end: whatever order the workers take,
they come to a halt after finitely many steps without a new connection, and then
every connection accepted is closed. -/
theorem every_connection_gets_closed [Nonempty Thread] {s : State Thread}
    (reached : Reachable Step (State.start Thread) s) (waits : s.main = .accept) :
    Acc (fun later before => ∃ t, Step before (some t) later) s ∧
      ∀ later, Run Step (fun _ t => t ≠ none) s later →
        (∀ t next, ¬ Step later (some t) next) → ∀ k < s.accepted, k ∈ later.closed := by
  constructor
  · have pooled := reachable_pooled reached
    clear waits reached
    induction weight : s.weight using Nat.strongRecOn generalizing s with
    | ind w ih =>
      refine ⟨_, fun later ⟨t, h⟩ => ih _ (weight ▸ step_weight pooled h) (step_pooled pooled h) rfl⟩
  · intro later run halted k below
    have kept : Pooled later ∧ later.main = .accept ∧ later.accepted = s.accepted :=
      run.invariant (fun later => Pooled later ∧ later.main = .accept ∧ later.accepted = s.accepted)
        ⟨reachable_pooled reached, waits, rfl⟩ fun ⟨pooled, main, accepted⟩ worker h => by
          obtain ⟨t, rfl⟩ := Option.ne_none_iff_exists'.mp worker
          have same := step_worker h
          exact ⟨step_pooled pooled h, same.1.trans main, same.2.trans accepted⟩
    obtain ⟨pooled, main, accepted⟩ := kept
    by_contra stays
    obtain ⟨t, next, h⟩ := pooled.progress main (accepted ▸ below) stays
    exact halted t next h

theorem first_connection_gets_closed : ∃ s : State Bool, s.accepted = 1 ∧ s.queue.items = 1 ∧
    Acc (fun later before => ∃ t, Step before (some t) later) s ∧
      ∀ later, Run Step (fun _ t => t ≠ none) s later →
        (∀ t next, ¬ Step later (some t) next) → ∀ k < s.accepted, k ∈ later.closed := by
  have start : Reachable Step (State.start Bool) _ := Run.refl _
  have opened := (start.next (.accept 5 rfl rfl)).next (.malloc 16 rfl (by decide) rfl)
  have handed := ((opened.next (.enqueue 32 rfl (by decide) (by decide) rfl rfl)).next
    (.append rfl rfl rfl)).next (.post rfl rfl)
  exact ⟨_, rfl, rfl, every_connection_gets_closed handed rfl⟩

end LinuxSystem.Server.Connections
