import LinuxSystem.Server.Request

/-!
# Robust reads and writes

`rio_readn` and `rio_writen` over a connection that delivers and takes bytes in
pieces of any size, with signals in between. Their callers see none of that, but
for the bytes that a failed write has already sent.
-/

namespace LinuxSystem.Server.Rio

open LinuxSystem.Map Request

/-- What a `read` meets: bytes that arrived together, at least one, or a signal. -/
inductive Arrival where
  | bytes (first : UInt8) (more : List UInt8)
  | interrupt
  deriving DecidableEq, Repr

/-- What a `write` meets: room for some bytes more than `more`, no room at all,
so that it returns 0, or a signal. -/
inductive Room where
  | takes (more : Nat)
  | nothing
  | interrupt
  deriving DecidableEq, Repr

inductive Errno where
  | EINTR
  | other
  deriving DecidableEq, Repr

/-- A connected descriptor. Once the arrivals are used up a read meets `ending`;
once the rooms are, a write goes through in full or the connection is broken.
`received` is what the client has got. -/
structure Fd where
  arrivals : List Arrival
  ending : Ending
  rooms : List Room
  broken : Bool
  received : List UInt8
  errno : Errno

/-- The bytes that are still to be read. -/
def bytesOf : List Arrival → List UInt8
  | [] => []
  | .bytes first more :: rest => first :: more ++ bytesOf rest
  | .interrupt :: rest => bytesOf rest

/-- What is left of a piece. -/
def putBack : List UInt8 → List Arrival → List Arrival
  | [], rest => rest
  | first :: more, rest => .bytes first more :: rest

/-- `none` stands for -1, and no bytes for the end of the stream. -/
def read (fd : Fd) (n : Nat) : Option (List UInt8) × Fd :=
  match fd.arrivals, fd.ending with
  | [], .eof => (some [], fd)
  | [], .error => (none, { fd with errno := .other })
  | .interrupt :: rest, _ => (none, { fd with arrivals := rest, errno := .EINTR })
  | .bytes first more :: rest, _ =>
    (some ((first :: more).take n),
      { fd with arrivals := putBack ((first :: more).drop n) rest })

/-- How much a read can still consume. -/
def weight : List Arrival → Nat
  | [] => 0
  | .bytes _ more :: rest => more.length + 1 + weight rest
  | .interrupt :: rest => 1 + weight rest

theorem weight_putBack (bytes : List UInt8) (rest : List Arrival) :
    weight (putBack bytes rest) = bytes.length + weight rest := by
  cases bytes with
  | nil => simp [putBack]
  | cons => simp [putBack, weight]

theorem bytesOf_putBack (bytes : List UInt8) (rest : List Arrival) :
    bytesOf (putBack bytes rest) = bytes ++ bytesOf rest := by
  cases bytes <;> rfl

/-- What a read of at least one byte does. -/
inductive Met (fd : Fd) (n : Nat) : Option (List UInt8) × Fd → Prop where
  | interrupt {rest} : fd.arrivals = .interrupt :: rest →
      Met fd n (none, { fd with arrivals := rest, errno := .EINTR })
  | bytes {bytes arrivals} : bytes ≠ [] → bytes.length ≤ n →
      bytesOf fd.arrivals = bytes ++ bytesOf arrivals → weight arrivals < weight fd.arrivals →
      Met fd n (some bytes, { fd with arrivals := arrivals })
  | eof : fd.arrivals = [] → fd.ending = .eof → Met fd n (some [], fd)
  | error : fd.arrivals = [] → fd.ending = .error → Met fd n (none, { fd with errno := .other })

theorem read_met (fd : Fd) {n : Nat} (positive : 0 < n) : Met fd n (read fd n) := by
  cases h : fd.arrivals with
  | nil =>
    cases e : fd.ending with
    | eof =>
      have met : read fd n = (some [], fd) := by simp [read, h, e]
      exact met ▸ .eof h e
    | error =>
      have met : read fd n = (none, { fd with errno := .other }) := by simp [read, h, e]
      exact met ▸ .error h e
  | cons arrival rest =>
    cases arrival with
    | interrupt =>
      have met : read fd n = (none, { fd with arrivals := rest, errno := .EINTR }) := by
        simp [read, h]
      exact met ▸ .interrupt h
    | bytes first more =>
      have met : read fd n = (some ((first :: more).take n),
          { fd with arrivals := putBack ((first :: more).drop n) rest }) := by simp [read, h]
      rw [met]
      apply Met.bytes
      · obtain ⟨m, rfl⟩ := Nat.exists_eq_succ_of_ne_zero (by omega : n ≠ 0)
        simp
      · exact List.length_take_le n _
      · rw [h, bytesOf_putBack, ← List.append_assoc, List.take_append_drop]
        rfl
      · rw [h, weight_putBack]
        simp only [List.length_drop, List.length_cons, weight]
        omega

theorem weight_interrupted {fd after : Fd} {n : Nat} (positive : 0 < n)
    (met : read fd n = (none, after)) (interrupted : after.errno = .EINTR) :
    weight after.arrivals < weight fd.arrivals := by
  have cases := read_met fd positive
  rw [met] at cases
  cases cases with
  | interrupt eq => simp [eq, weight]
  | error => contradiction

theorem weight_read {fd after : Fd} {n : Nat} {bytes : List UInt8} (positive : 0 < n)
    (met : read fd n = (some bytes, after)) (has : bytes ≠ []) :
    weight after.arrivals < weight fd.arrivals := by
  have cases := read_met fd positive
  rw [met] at cases
  cases cases with
  | bytes _ _ _ less => exact less
  | eof => contradiction

/-- The loop of `rio_readn`, with the bytes it has stored so far. -/
def readLoop (fd : Fd) (nleft : Nat) (stored : List UInt8) : Int × List UInt8 × Fd :=
  if _positive : 0 < nleft then
    match met : read fd nleft with
    | (none, after) =>
      -- after a signal `read` is called again
      if _interrupted : after.errno = .EINTR then readLoop after nleft stored
      else (-1, stored, after)
    | (some bytes, after) =>
      if _eof : bytes = [] then (stored.length, stored, after)
      else readLoop after (nleft - bytes.length) (stored ++ bytes)
  else (stored.length, stored, fd)
termination_by weight fd.arrivals
decreasing_by
  · exact weight_interrupted _positive met _interrupted
  · exact weight_read _positive met _eof

/-- The count it returns, the buffer and the descriptor. -/
def rioReadn (fd : Fd) (buf : List UInt8) (n : Nat) : Int × List UInt8 × Fd :=
  let (ret, stored, fd) := readLoop fd n []
  (ret, stored ++ buf.drop stored.length, fd)

/-- The connection as the handlers of `Server.Request` see it. -/
def Fd.conn (fd : Fd) : Conn := ⟨bytesOf fd.arrivals, fd.ending, true⟩

/-- Whatever the pieces and the signals: the loop gives the bytes that come
first, and -1 where they are too few and the connection fails. -/
theorem readLoop_eq (fd : Fd) (nleft : Nat) (stored : List UInt8) :
    ∃ after, readLoop fd nleft stored =
      (if (bytesOf fd.arrivals).length < nleft ∧ fd.ending = .error then -1
        else ((stored ++ (bytesOf fd.arrivals).take nleft).length : Int),
        stored ++ (bytesOf fd.arrivals).take nleft, after) ∧
      bytesOf after.arrivals = (bytesOf fd.arrivals).drop nleft ∧
      (after.ending, after.rooms, after.broken, after.received) =
        (fd.ending, fd.rooms, fd.broken, fd.received) := by
  induction weighs : weight fd.arrivals using Nat.strongRecOn generalizing fd nleft stored with
  | ind w ih =>
    rw [readLoop]
    by_cases positive : 0 < nleft
    swap
    · obtain rfl : nleft = 0 := by omega
      exact ⟨fd, by simp, by simp, rfl⟩
    have cases := read_met fd positive
    rw [dif_pos positive]
    split
    · next after met =>
      rw [met] at cases
      cases cases with
      | interrupt eq =>
        have less : weight _ < w := weighs ▸ weight_interrupted positive met rfl
        rw [dif_pos rfl, eq]
        exact ih _ less { fd with arrivals := _, errno := .EINTR } nleft stored rfl
      | error eq failing =>
        rw [dif_neg (by simp)]
        exact ⟨{ fd with errno := .other }, by simp [eq, failing, bytesOf, positive],
          by simp [eq, bytesOf], rfl⟩
    · next bytes after met =>
      rw [met] at cases
      cases cases with
      | @bytes _ arrivals has short eq less =>
        rw [dif_neg has]
        obtain ⟨last, looped, left, others⟩ := ih _ (weighs ▸ less)
          { fd with arrivals := arrivals } (nleft - bytes.length) (stored ++ bytes) rfl
        have whole : (bytes ++ bytesOf arrivals).take nleft =
            bytes ++ (bytesOf arrivals).take (nleft - bytes.length) := by
          rw [List.take_append, List.take_of_length_le short]
        have drop : (bytes ++ bytesOf arrivals).drop nleft =
            (bytesOf arrivals).drop (nleft - bytes.length) := by
          rw [List.drop_append, List.drop_eq_nil_of_le short, List.nil_append]
        have fewer : (bytes ++ bytesOf arrivals).length < nleft ↔
            (bytesOf arrivals).length < nleft - bytes.length := by
          rw [List.length_append]
          omega
        refine ⟨last, ?_, by rw [left, eq, drop], others⟩
        rw [looped, eq, whole]
        simp only [fewer, List.append_assoc]
      | eof eq ending => exact ⟨fd, by simp [eq, ending, bytesOf], by simp [eq, bytesOf], rfl⟩

/-- The handlers read as `Server.Request` has it. -/
theorem rioReadn_conn (fd : Fd) (buf : List UInt8) (n : Nat) :
    ∃ ret bytes after, rioReadn fd buf n = (ret, bytes, after) ∧
      Request.rioReadn fd.conn buf n = (ret, bytes, after.conn) ∧
      (after.rooms, after.broken, after.received) = (fd.rooms, fd.broken, fd.received) := by
  obtain ⟨after, looped, left, others⟩ := readLoop_eq fd n []
  simp only [Prod.mk.injEq] at others
  have short : ((bytesOf fd.arrivals).take n).length < n ↔ (bytesOf fd.arrivals).length < n := by
    rw [List.length_take]
    omega
  refine ⟨_, _, after, by rw [rioReadn, looped], ?_, by simp [others]⟩
  simp only [Request.rioReadn, Fd.conn, short, left, others, List.nil_append]

/-! ## Writing -/

/-- The count, or -1 as `none`, of a write of some bytes. -/
def write (fd : Fd) (bytes : List UInt8) : Option Nat × Fd :=
  match fd.rooms with
  | [] =>
    if fd.broken = true then (none, { fd with errno := .other })
    else (some bytes.length, { fd with received := fd.received ++ bytes })
  | .takes more :: rest =>
    let taken := bytes.take (more + 1)
    (some taken.length, { fd with rooms := rest, received := fd.received ++ taken })
  | .nothing :: rest => (some 0, { fd with rooms := rest })
  | .interrupt :: rest => (none, { fd with rooms := rest, errno := .EINTR })

/-- What a write of at least one byte does. -/
inductive Wrote (fd : Fd) (bytes : List UInt8) : Option Nat × Fd → Prop where
  | takes {k rooms} : 0 < k → k ≤ bytes.length → rooms <:+ fd.rooms →
      rooms.length + (bytes.length - k) < fd.rooms.length + bytes.length →
      Wrote fd bytes (some k, { fd with rooms := rooms, received := fd.received ++ bytes.take k })
  | nothing {rest} : fd.rooms = .nothing :: rest → Wrote fd bytes (some 0, { fd with rooms := rest })
  | interrupt {rest} : fd.rooms = .interrupt :: rest →
      Wrote fd bytes (none, { fd with rooms := rest, errno := .EINTR })
  | broken : fd.rooms = [] → fd.broken = true → Wrote fd bytes (none, { fd with errno := .other })

theorem write_wrote (fd : Fd) {bytes : List UInt8} (has : bytes ≠ []) :
    Wrote fd bytes (write fd bytes) := by
  have some := List.length_pos_iff.mpr has
  cases h : fd.rooms with
  | nil =>
    by_cases broken : fd.broken = true
    · have wrote : write fd bytes = (none, { fd with errno := .other }) := by simp [write, h, broken]
      exact wrote ▸ .broken h broken
    · have wrote : write fd bytes = (.some bytes.length,
          { fd with rooms := [], received := fd.received ++ bytes.take bytes.length }) := by
        simp [write, h, broken]
      rw [wrote]
      exact .takes some le_rfl (List.nil_suffix ..) (by simp only [List.length_nil]; omega)
  | cons room rest =>
    cases room with
    | takes more =>
      have wrote : write fd bytes = (.some (min (more + 1) bytes.length), { fd with
          rooms := rest, received := fd.received ++ bytes.take (min (more + 1) bytes.length) }) := by
        simp [write, h, List.take_eq_take_min]
      rw [wrote]
      refine .takes (by omega) (by omega) (h ▸ List.suffix_cons ..) ?_
      rw [h, List.length_cons]
      omega
    | nothing =>
      have wrote : write fd bytes = (.some 0, { fd with rooms := rest }) := by simp [write, h]
      exact wrote ▸ .nothing h
    | interrupt =>
      have wrote : write fd bytes = (none, { fd with rooms := rest, errno := .EINTR }) := by
        simp [write, h]
      exact wrote ▸ .interrupt h

/-- `nwritten <= 0`. -/
def NoProgress (nwritten : Option Nat) : Prop := nwritten.getD 0 = 0

instance (nwritten : Option Nat) : Decidable (NoProgress nwritten) :=
  inferInstanceAs (Decidable (_ = _))

theorem fewer_rooms {fd : Fd} {bytes : List UInt8} (has : bytes ≠ [])
    (stuck : NoProgress (write fd bytes).1) (interrupted : (write fd bytes).2.errno = .EINTR) :
    (write fd bytes).2.rooms.length < fd.rooms.length := by
  have cases := write_wrote fd has
  generalize write fd bytes = wrote at cases stuck interrupted
  cases cases with
  | takes positive => exact absurd stuck (by simp [NoProgress]; omega)
  | nothing eq | interrupt eq => simp [eq]
  | broken => contradiction

theorem fewer_bytes {fd : Fd} {bytes : List UInt8} (has : bytes ≠ [])
    (progress : ¬ NoProgress (write fd bytes).1) :
    (write fd bytes).2.rooms.length + (bytes.drop ((write fd bytes).1.getD 0)).length <
      fd.rooms.length + bytes.length := by
  have cases := write_wrote fd has
  generalize write fd bytes = wrote at cases progress
  cases cases with
  | takes _ _ _ less => simpa using less
  | nothing | interrupt | broken => exact absurd rfl progress

/-- The loop of `rio_writen` for `n` bytes, with those that are left. -/
def writeLoop (fd : Fd) (n : Nat) (left : List UInt8) : Int × Fd :=
  if _has : left ≠ [] then
    let nwritten := (write fd left).1
    let after := (write fd left).2
    if _stuck : NoProgress nwritten then
      -- a write that returns 0 leaves `errno` as an earlier call set it
      if _interrupted : after.errno = .EINTR then writeLoop after n left
      else (-1, after)
    else writeLoop after n (left.drop (nwritten.getD 0))
  else (n, fd)
termination_by fd.rooms.length + left.length
decreasing_by
  · exact Nat.add_lt_add_right (fewer_rooms _has _stuck _interrupted) _
  · exact fewer_bytes _has _stuck

/-- `Rio_writen`, which compares the count. -/
def rioWriten (fd : Fd) (bytes : List UInt8) : Int × Fd :=
  let (ret, fd) := writeLoop fd bytes.length bytes
  if ret ≠ bytes.length then (-1, fd) else (0, fd)

/-- Nothing but signals and pieces comes in the way of a write. -/
def Sturdy (fd : Fd) : Prop := fd.broken = false ∧ Room.nothing ∉ fd.rooms

/-- What a sequence of writes has sent, if they were to send `message`. -/
structure Sent (fd after : Fd) (message : List UInt8) (ret : Int) (sent : List UInt8) : Prop where
  received : after.received = fd.received ++ sent
  start : sent <+: message
  whole : ret = -1 ∨ sent = message
  failed : ret = -1 → sent ≠ message ∧ ¬ Sturdy fd
  reads : (after.arrivals, after.ending, after.broken) = (fd.arrivals, fd.ending, fd.broken)
  rooms : after.rooms <:+ fd.rooms

theorem writeLoop_sent (fd : Fd) (n : Nat) (left : List UInt8) :
    ∃ sent, Sent fd (writeLoop fd n left).2 left (writeLoop fd n left).1 sent ∧
      ((writeLoop fd n left).1 = -1 ∨ (writeLoop fd n left).1 = n) := by
  induction weighs : fd.rooms.length + left.length using Nat.strongRecOn generalizing fd left with
  | ind w ih =>
    rw [writeLoop]
    by_cases has : left = []
    · subst has
      rw [dif_neg (by simp)]
      exact ⟨[], ⟨by simp, by simp, .inr rfl, by simp, rfl, List.suffix_refl _⟩, .inr rfl⟩
    rw [dif_pos has]
    have cases := write_wrote fd has
    dsimp only
    generalize write fd left = wrote at cases
    cases cases with
    | @takes k rooms positive enough suffix less =>
      obtain ⟨sent, h, ret⟩ := ih _ (by simpa [← weighs] using less) { fd with
        rooms := rooms, received := fd.received ++ left.take k } (left.drop k) rfl
      rw [dif_neg (by simp [NoProgress]; omega)]
      refine ⟨left.take k ++ sent, ⟨by simp [h.received], ?_, ?_, ?_, h.reads,
        h.rooms.trans suffix⟩, ret⟩
      · simpa using (List.prefix_append_right_inj (left.take k)).mpr h.start
      · rcases h.whole with failed | whole
        · exact .inl failed
        · exact .inr (by rw [whole, List.take_append_drop])
      · intro failed
        obtain ⟨short, weak⟩ := h.failed failed
        refine ⟨fun whole => short ?_, fun sturdy => weak ⟨sturdy.1, fun mem => ?_⟩⟩
        · rw [← List.append_right_inj (left.take k), whole, List.take_append_drop]
        · exact sturdy.2 (suffix.subset mem)
    | @nothing rest eq =>
      have stuck : NoProgress (some 0) := rfl
      rw [dif_pos stuck]
      have weak : ¬ Sturdy fd := fun sturdy => sturdy.2 (by simp [eq])
      by_cases stale : fd.errno = .EINTR
      · rw [dif_pos stale]
        obtain ⟨sent, h, ret⟩ := ih _ (by simp [← weighs, eq]) { fd with rooms := rest } left rfl
        exact ⟨sent, ⟨h.received, h.start, h.whole, fun failed => ⟨(h.failed failed).1, weak⟩,
          h.reads, h.rooms.trans (eq ▸ List.suffix_cons ..)⟩, ret⟩
      · rw [dif_neg stale]
        exact ⟨[], ⟨by simp, by simp, .inl rfl, fun _ => ⟨Ne.symm has, weak⟩, rfl,
          eq ▸ List.suffix_cons ..⟩, .inl rfl⟩
    | @interrupt rest eq =>
      have stuck : NoProgress none := rfl
      rw [dif_pos stuck, dif_pos rfl]
      obtain ⟨sent, h, ret⟩ := ih _ (by simp [← weighs, eq])
        { fd with rooms := rest, errno := .EINTR } left rfl
      refine ⟨sent, ⟨h.received, h.start, h.whole, fun failed => ?_, h.reads,
        h.rooms.trans (eq ▸ List.suffix_cons ..)⟩, ret⟩
      obtain ⟨short, weak⟩ := h.failed failed
      exact ⟨short, fun sturdy => weak ⟨sturdy.1, fun mem => sturdy.2 (by simp [eq, mem])⟩⟩
    | broken eq broken =>
      have stuck : NoProgress none := rfl
      rw [dif_pos stuck, dif_neg (by simp)]
      refine ⟨[], ⟨by simp, by simp, .inl rfl, fun _ => ⟨Ne.symm has, ?_⟩, rfl,
        List.suffix_refl _⟩, .inl rfl⟩
      exact fun sturdy => by simp [sturdy.1] at broken

/-- `Rio_writen` sends all of the message and returns 0, or a part of it, from
the start, and returns -1. -/
theorem rioWriten_sent (fd : Fd) (message : List UInt8) :
    ∃ sent, Sent fd (rioWriten fd message).2 message (rioWriten fd message).1 sent ∧
      ((rioWriten fd message).1 = -1 ∨ (rioWriten fd message).1 = 0) := by
  obtain ⟨sent, h, ret⟩ := writeLoop_sent fd message.length message
  unfold rioWriten
  dsimp only
  rcases ret with failed | whole
  · rw [if_pos (by omega)]
    exact ⟨sent, failed ▸ h, .inl rfl⟩
  · rw [if_neg (by omega)]
    have all : sent = message := by
      rcases h.whole with failed | all
      · omega
      · exact all
    exact ⟨sent, ⟨h.received, h.start, .inr all, by simp, h.reads, h.rooms⟩, .inr rfl⟩

end LinuxSystem.Server.Rio
