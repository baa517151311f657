import LinuxSystem.Server.Connections
import LinuxSystem.Server.Session

/-!
# One worker

The whole server where `NUM_WORKERS` is 1: `main` accepts connections while the
worker serves them. Nobody else uses the map, so that a request is one step.
-/

namespace LinuxSystem.Server.OneWorker

open LinuxSystem.Map Transition Connections Session

/-- `jenkins_one_at_a_time_hash`. -/
def jenkinsOneAtATimeHash (key : List UInt8) : UInt32 :=
  let mix (hash : UInt32) (byte : UInt8) : UInt32 :=
    let hash := hash + byte.toUInt32
    let hash := hash + (hash <<< UInt32.ofNat 10)
    hash ^^^ (hash >>> UInt32.ofNat 6)
  let hash := key.foldl mix (UInt32.ofNat 0)
  let hash := hash + (hash <<< UInt32.ofNat 3)
  let hash := hash ^^^ (hash >>> UInt32.ofNat 11)
  hash + (hash <<< UInt32.ofNat 15)

/-- The server, with what it has written to which connection. -/
structure State (c : Config) where
  connections : Connections.State Unit
  hashmap : Hashmap c
  answers : List (Nat × List UInt8)

variable {c : Config}

/-- `server_init`. -/
def State.start (c : Config) : State c := ⟨.start Unit, createMap c, []⟩

/-- Connection `k` comes from `clients k`. -/
inductive Step (clients : Nat → Client) : State c → Option Unit → State c → Prop where
  | respond {s connfd fd k response hashmap} : s.connections.worker () = .handling connfd fd →
      s.connections.files fd = some k → serve s.hashmap (clients k) = some (response, hashmap) →
      Step clients s (some ())
        ⟨s.connections.go () (.close connfd), hashmap, s.answers ++ [(k, response)]⟩
  | other {s t connections} :
      (∀ connfd fd, t = some () → s.connections.worker () ≠ .handling connfd fd) →
      Connections.Step s.connections t connections →
      Step clients s t { s with connections := connections }

/-- What a dictionary is told by the first clients. -/
def told (clients : Nat → Client) : Nat → Dictionary
  | 0 => .empty
  | k + 1 => (answer (told clients k) (clients k).query).2

/-- What client `k` gets from it. -/
def expected (clients : Nat → Client) (k : Nat) : Nat × List UInt8 :=
  (k, (answer (told clients k) (clients k).query).1)

/-- The first clients leave the map a dictionary. -/
def Fit (c : Config) (clients : Nat → Client) (n : Nat) : Prop :=
  ∀ k < n, Accepted c.capacity (told clients k) (clients k)

/-! ## One step -/

/-- Whether the worker has a connection that it is still to answer. -/
def Worker.unanswered : Connections.Worker → Nat
  | .request _ | .handling .. => 1
  | _ => 0

/-- Whether it has one that it is still to close. -/
def Worker.unclosed : Connections.Worker → Nat
  | .dequeue => 0
  | _ => 1

structure Kept (clients : Nat → Client) (s : State c) : Prop where
  pooled : Pooled s.connections
  taken : s.answers.length + Worker.unanswered (s.connections.worker ()) =
    s.connections.queue.popped.length
  left : s.connections.closed.length + Worker.unclosed (s.connections.worker ()) =
    s.connections.queue.popped.length
  closed : s.connections.closed = List.range s.connections.closed.length
  answers : s.answers = (List.range s.answers.length).map (expected clients)
  map : Represents s.hashmap (told clients s.answers.length)

variable {clients : Nat → Client} {s later : State c} {t : Option Unit}

/-- Seen from the connections, every step is one of theirs. -/
theorem Step.connections (h : Step clients s t later) :
    Connections.Step s.connections t later.connections := by
  cases h with
  | respond at_handling => exact .respond at_handling
  | other _ h => exact h

theorem Step.main {connections : Connections.State Unit}
    (h : Connections.Step s.connections none connections) :
    Step clients s none { s with connections := connections } :=
  .other (by simp) h

theorem accepted_le {before after : Connections.State Unit} (h : Connections.Step before t after) :
    before.accepted ≤ after.accepted := by
  cases h with
  | accept => exact Nat.le_succ _
  | malloc | enqueue | append | post | wait | pop | request | respond | close => exact Nat.le_refl _

theorem go_worker (s : Connections.State Unit) (t : Unit) (now : Connections.Worker) :
    (s.go t now).worker () = now := by
  cases t
  exact Function.update_self () now s.worker

theorem kept_start : Kept clients (State.start c) where
  pooled := pooled_start
  taken := rfl
  left := rfl
  closed := rfl
  answers := rfl
  map := represents_create c

/-- The connection of the worker is the one after those it has closed. -/
theorem Kept.connection (kept : Kept clients s) {tmp : Nat}
    (held : (s.connections.worker ()).cell = some tmp) :
    ∃ fd, s.connections.cells tmp = some fd ∧
      s.connections.files fd = some s.connections.closed.length := by
  obtain ⟨k, fd, at_k, stays, cell, at_fd⟩ := kept.pooled.descriptor held
  have below := (List.getElem?_eq_some_iff.mp at_k).1
  have beyond : s.connections.closed.length ≤ k := by
    rw [kept.closed, List.mem_range] at stays
    exact Nat.le_of_not_lt stays
  have left := kept.left
  have most : Worker.unclosed (s.connections.worker ()) ≤ 1 := by
    cases s.connections.worker () with
    | dequeue => exact Nat.zero_le 1
    | request | handling | close => exact Nat.le_refl 1
  obtain rfl : k = s.connections.closed.length := by omega
  exact ⟨fd, cell, at_fd⟩

theorem Kept.respond (kept : Kept clients s) (fit : Fit c clients s.connections.accepted)
    {connfd fd k : Nat} {response : List UInt8} {hashmap : Hashmap c}
    (at_handling : s.connections.worker () = .handling connfd fd)
    (at_fd : s.connections.files fd = some k)
    (served : serve s.hashmap (clients k) = some (response, hashmap)) :
    Kept clients ⟨s.connections.go () (.close connfd), hashmap, s.answers ++ [(k, response)]⟩ := by
  have taken := kept.taken
  have left := kept.left
  rw [at_handling] at taken left
  simp only [Worker.unanswered, Worker.unclosed] at taken left
  have held : (s.connections.worker ()).cell = some connfd := by
    rw [at_handling]
    rfl
  obtain ⟨fd', cell, at_fd'⟩ := kept.connection held
  have reads := kept.pooled.taken.reads () connfd fd at_handling
  obtain rfl := Option.some.inj (reads.symm.trans cell)
  obtain rfl : k = s.answers.length := by
    have := Option.some.inj (at_fd.symm.trans at_fd')
    omega
  have below := (kept.pooled.issued.live fd _ at_fd).1
  obtain ⟨reply, after, acts, same, represents⟩ :=
    represents_answer kept.map (clients s.answers.length) (fit _ below)
  obtain ⟨rfl, rfl⟩ := Prod.mk.inj (Option.some.inj (served.symm.trans (serve_eq _ _ acts)))
  refine ⟨step_pooled kept.pooled (.respond at_handling), ?_, ?_, kept.closed, ?_, ?_⟩
  · rw [go_worker, List.length_append]
    exact taken
  · rw [go_worker]
    exact left
  · rw [List.length_append, List.length_singleton, List.range_succ, List.map_append, ← kept.answers,
      same]
    rfl
  · rw [List.length_append]
    exact represents

theorem Kept.step (kept : Kept clients s) (fit : Fit c clients s.connections.accepted)
    (h : Step clients s t later) : Kept clients later := by
  cases h with
  | respond at_handling at_fd served => exact kept.respond fit at_handling at_fd served
  | other unhandled h =>
    have pooled := step_pooled kept.pooled h
    have taken := kept.taken
    have left := kept.left
    cases h with
    | accept | malloc | enqueue | append | post | wait =>
      exact ⟨pooled, taken, left, kept.closed, kept.answers, kept.map⟩
    | @pop _ item _ idle =>
      rw [idle] at taken left
      have longer : (s.connections.queue.popped ++ [item]).length =
          s.connections.queue.popped.length + 1 := List.length_append
      refine ⟨pooled, ?_, ?_, kept.closed, kept.answers, kept.map⟩
      · rw [go_worker]
        exact (congrArg (· + 1) taken).trans longer.symm
      · rw [go_worker]
        exact (congrArg (· + 1) left).trans longer.symm
    | request at_request =>
      rw [at_request] at taken left
      refine ⟨pooled, ?_, ?_, kept.closed, kept.answers, kept.map⟩
      · rw [go_worker]
        exact taken
      · rw [go_worker]
        exact left
    | respond at_handling => exact absurd at_handling (unhandled _ _ rfl)
    | @close _ connfd fd at_close cell =>
      rw [at_close] at taken left
      simp only [Worker.unanswered, Worker.unclosed, Nat.add_zero] at taken left
      have held : (s.connections.worker ()).cell = some connfd := by
        rw [at_close]
        rfl
      obtain ⟨fd', cell', at_fd⟩ := kept.connection held
      obtain rfl := Option.some.inj (cell.symm.trans cell')
      have closes : s.connections.closed ++ (s.connections.files fd).toList =
          List.range (s.connections.closed.length + 1) := by
        rw [at_fd, Option.toList_some, List.range_succ, ← kept.closed]
      have longer := congrArg List.length closes
      rw [List.length_range] at longer
      refine ⟨pooled, ?_, ?_, ?_, kept.answers, kept.map⟩
      · rw [go_worker]
        exact taken
      · rw [go_worker]
        exact longer.trans left
      · exact closes.trans (congrArg List.range longer.symm)

theorem reachable_kept (reached : Reachable (Step clients) (State.start c) s)
    (fit : Fit c clients s.connections.accepted) : Kept clients s := by
  refine reached.invariant (fun s => Fit c clients s.connections.accepted → Kept clients s)
    (fun _ => kept_start) (fun kept _ h fit => ?_) fit
  have before : Fit c clients _ := fun k below =>
    fit k (Nat.lt_of_lt_of_le below (accepted_le h.connections))
  exact (kept before).step before h

/-! ## Every client -/

/-- The worker is never stuck with a connection that is not closed. -/
theorem Kept.progress (kept : Kept clients s) (fit : Fit c clients s.connections.accepted)
    (waits : s.connections.main = .accept) {k : Nat} (below : k < s.connections.accepted)
    (stays : k ∉ s.connections.closed) : ∃ later, Step clients s (some ()) later := by
  obtain ⟨⟨⟩, connections, h⟩ := kept.pooled.progress waits below stays
  cases at_worker : s.connections.worker () with
  | dequeue | request | close => exact ⟨_, .other (by simp [at_worker]) h⟩
  | handling connfd fd =>
    have held : (s.connections.worker ()).cell = some connfd := by
      rw [at_worker]
      rfl
    obtain ⟨fd', cell, at_fd⟩ := kept.connection held
    have reads := kept.pooled.taken.reads () connfd fd at_worker
    obtain rfl := Option.some.inj (reads.symm.trans cell)
    have left := kept.left
    have taken := kept.taken
    rw [at_worker] at left taken
    simp only [Worker.unanswered, Worker.unclosed] at left taken
    have next : s.connections.closed.length = s.answers.length := by omega
    have below := (kept.pooled.issued.live fd _ at_fd).1
    obtain ⟨reply, after, acts, -⟩ := represents_answer kept.map
      (clients s.answers.length) (fit _ (next ▸ below))
    exact ⟨_, .respond at_worker (next ▸ at_fd) (serve_eq _ _ acts)⟩

theorem Kept.closed_le (kept : Kept clients s) :
    s.connections.closed.length ≤ s.answers.length := by
  have taken := kept.taken
  have left := kept.left
  cases at_worker : s.connections.worker () with
  | dequeue | request | handling | close =>
    rw [at_worker] at taken left
    simp only [Worker.unanswered, Worker.unclosed] at taken left
    omega

theorem Kept.answers_le (kept : Kept clients s) : s.answers.length ≤ s.connections.accepted := by
  obtain ⟨path, fifo⟩ := kept.pooled.fifo
  have := kept.taken
  have := (popped_begins fifo).length_le
  have := kept.pooled.issued.number
  omega

/-- The steps of the worker alone come to an end. -/
theorem Kept.acc (kept : Kept clients s) (fit : Fit c clients s.connections.accepted) :
    Acc (fun later before => ∃ t, Step clients before (some t) later) s := by
  induction weight : s.connections.weight using Nat.strongRecOn generalizing s with
  | ind w ih =>
    refine ⟨_, fun later ⟨t, h⟩ => ?_⟩
    have same := (step_worker h.connections).2
    exact ih _ (weight ▸ step_weight kept.pooled h.connections) (kept.step fit h) (same ▸ fit) rfl

theorem Kept.run (kept : Kept clients s) (fit : Fit c clients s.connections.accepted)
    (waits : s.connections.main = .accept) (run : Run (Step clients) (fun _ t => t ≠ none) s later) :
    Kept clients later ∧ later.connections.main = .accept ∧
      later.connections.accepted = s.connections.accepted := by
  refine run.invariant (fun later => Kept clients later ∧ later.connections.main = .accept ∧
    later.connections.accepted = s.connections.accepted) ⟨kept, waits, rfl⟩ ?_
  rintro before after t ⟨kept, main, accepted⟩ worker h
  obtain ⟨t, rfl⟩ := Option.ne_none_iff_exists'.mp worker
  have same := step_worker h.connections
  exact ⟨kept.step (accepted ▸ fit) h, same.1.trans main, same.2.trans accepted⟩

/-- With one worker the server is a dictionary for clients that come one after
the other, whatever `main` and the kernel do meanwhile: the connections are
answered in the order they are accepted, each with what the dictionary has for it
after the ones before, and none waits for ever. -/
theorem one_worker_is_dictionary (reached : Reachable (Step clients) (State.start c) s)
    (fit : Fit c clients s.connections.accepted) :
    s.answers = (List.range s.answers.length).map (expected clients) ∧
      s.connections.closed = List.range s.connections.closed.length ∧
      s.connections.closed.length ≤ s.answers.length ∧
      (s.connections.main = .accept →
        Acc (fun later before => ∃ t, Step clients before (some t) later) s ∧
          ∀ later, Run (Step clients) (fun _ t => t ≠ none) s later →
            (∀ t next, ¬ Step clients later (some t) next) →
              later.answers = (List.range s.connections.accepted).map (expected clients)) := by
  have kept := reachable_kept reached fit
  have first : s.connections.closed.length ≤ s.answers.length := kept.closed_le
  refine ⟨kept.answers, kept.closed, first, fun waits => ⟨kept.acc fit, fun later run halted => ?_⟩⟩
  obtain ⟨kept, main, accepted⟩ := kept.run fit waits run
  have all : later.answers.length = s.connections.accepted := by
    by_contra fewer
    have most := kept.answers_le
    have closed := kept.closed_le
    have stays : later.answers.length ∉ later.connections.closed := by
      rw [kept.closed, List.mem_range]
      omega
    obtain ⟨next, h⟩ := kept.progress (accepted ▸ fit) main (by omega) stays
    exact halted () next h
  rw [kept.answers, all]

/-- The map of `cream` with two entries. -/
def cream : Config := { twoSlots with hashFunction := jenkinsOneAtATimeHash }

theorem sized_one : (Query.put [97] [1]).Sized := sized_put 1

/-- A put, and gets of its key ever after. -/
def putThenGets (k : Nat) : Client :=
  if k = 0 then patient (.put [97] [1]) sized_one else patient (.get [97]) sized_a

theorem putThenGets_fit : Fit cream putThenGets 2 := by
  intro k below
  rcases k with _ | _ | k
  · simp [Accepted, putThenGets, patient, told, Dictionary.Accepts, Dictionary.empty, cream,
      twoSlots]
  · trivial
  · omega

/-- Two connections wait before the worker has taken its first step. -/
theorem put_then_get_answered : ∃ s : State cream, s.connections.accepted = 2 ∧
    ∀ later, Run (Step putThenGets) (fun _ t => t ≠ none) s later →
      (∀ t next, ¬ Step putThenGets later (some t) next) →
        later.answers = [(0, Request.responseHeader Request.OK 0),
          (1, Request.responseHeader Request.OK 1 ++ [1])] := by
  have start : Reachable (Step putThenGets) (State.start cream) _ := Run.refl _
  have opened := (start.next (.main (.accept 5 rfl rfl))).next
    (.main (.malloc 16 rfl (by decide) rfl))
  have handed := ((opened.next (.main (.enqueue 32 rfl (by decide) (by decide) rfl rfl))).next
    (.main (.append rfl rfl rfl))).next (.main (.post rfl rfl))
  have opened := (handed.next (.main (.accept 6 rfl rfl))).next
    (.main (.malloc 17 rfl (by decide) rfl))
  have handed := ((opened.next (.main (.enqueue 33 rfl (by decide) (by decide) rfl rfl))).next
    (.main (.append rfl rfl rfl))).next (.main (.post rfl rfl))
  obtain ⟨-, -, -, ends⟩ := one_worker_is_dictionary handed putThenGets_fit
  exact ⟨_, rfl, fun later run halted => (ends rfl).2 later run halted⟩

end LinuxSystem.Server.OneWorker
