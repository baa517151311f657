import LinuxSystem.Server.Rio

/-!
# Buffered reads

`rio_readnb` and `rio_readlineb` read through the internal buffer of a `rio_t`.
A caller sees one stream: neither the pieces that arrive nor the refills show.
-/

namespace LinuxSystem.Server.Buffered

open Request Server.Rio

def RIO_BUFSIZE : Nat := 8192

theorem bufsize_pos : 0 < RIO_BUFSIZE := by decide

def INT_MAX : Nat := 2147483647

def newline : UInt8 := UInt8.ofNat 10

/-- `rio_t`. The pointer counts from the start of `rio_buf`. -/
structure Rio where
  rioFd : Fd
  rioCnt : Int
  rioBufptr : Nat
  rioBuf : Fin RIO_BUFSIZE → UInt8

def rioReadinitb (rp : Rio) (fd : Fd) : Rio := { rp with rioFd := fd, rioCnt := 0, rioBufptr := 0 }

/-- `read` into `rio_buf`. -/
def Rio.load (rp : Rio) (fd : Fd) (bytes : List UInt8) : Rio :=
  ⟨fd, bytes.length, 0, fun i => bytes.getD i (rp.rioBuf i)⟩

/-- The loop of `rio_read`: `none` when there are bytes in the buffer, else what
`rio_read` returns. -/
def refill (rp : Rio) : Option (Option (List UInt8)) × Rio :=
  if rp.rioCnt ≤ 0 then
    match _met : read rp.rioFd RIO_BUFSIZE with
    | (none, fd) =>
      let failed := { rp with rioFd := fd, rioCnt := -1 }
      if _interrupted : fd.errno = .EINTR then refill failed else (some none, failed)
    | (some [], fd) => (some (some []), { rp with rioFd := fd, rioCnt := 0 })
    | (some (first :: more), fd) => (none, rp.load fd (first :: more))
  else (none, rp)
termination_by weight rp.rioFd.arrivals
decreasing_by exact weight_interrupted bufsize_pos _met _interrupted

/-- `none` stands for -1, and no bytes for the end of the stream. -/
def rioRead (rp : Rio) (n : Nat) : Option (List UInt8) × Rio :=
  match refill rp with
  | (some ret, rp) => (ret, rp)
  | (none, rp) =>
    let cnt := if rp.rioCnt < n then rp.rioCnt.toNat else n
    (some (((List.ofFn rp.rioBuf).drop rp.rioBufptr).take cnt),
      { rp with rioBufptr := rp.rioBufptr + cnt, rioCnt := rp.rioCnt - cnt })

/-- What a call returns and stores at `usrbuf`, and whether a NUL follows it. -/
structure Reply where
  ret : Int
  data : List UInt8
  nul : Bool
  deriving DecidableEq, Repr

theorem fewer_left {nleft : Nat} {first : UInt8} {more : List UInt8} (positive : 0 < nleft) :
    nleft - (first :: more).length < nleft :=
  Nat.sub_lt positive (Nat.succ_pos _)

def readnbLoop (n : Nat) (rp : Rio) (nleft : Nat) (stored : List UInt8) : Reply × Rio :=
  if _positive : 0 < nleft then
    match rioRead rp nleft with
    | (none, rp) => (⟨-1, stored, false⟩, rp)
    | (some [], rp) => (⟨n - nleft, stored, false⟩, rp)
    | (some (first :: more), rp) =>
      readnbLoop n rp (nleft - (first :: more).length) (stored ++ first :: more)
  else (⟨n - nleft, stored, false⟩, rp)
termination_by nleft
decreasing_by exact fewer_left _positive

def rioReadnb (rp : Rio) (n : Nat) : Reply × Rio := readnbLoop n rp n []

/-- The loop of `rio_readlineb` from `n` on; `n` is an `int`, and `none` stands
for its overflow. -/
def readlinebLoop : Nat → Nat → Rio → List UInt8 → Option (Reply × Rio)
  | 0, n, rp, stored => some (⟨n - 1, stored, true⟩, rp)
  | allowance + 1, n, rp, stored =>
    match rioRead rp 1 with
    | (none, rp) => some (⟨-1, stored, false⟩, rp)
    | (some [], rp) =>
      if n = 1 then some (⟨0, stored, false⟩, rp) else some (⟨n - 1, stored, true⟩, rp)
    | (some (byte :: _), rp) =>
      if n = INT_MAX then none
      else if byte = newline then some (⟨n, stored ++ [byte], true⟩, rp)
      else readlinebLoop allowance (n + 1) rp (stored ++ [byte])

/-- The `NUL` is written for a `maxlen` of 0 also, and 0 returned. -/
def rioReadlineb (rp : Rio) (maxlen : Nat) : Option (Reply × Rio) :=
  readlinebLoop (maxlen - 1) 1 rp []

inductive Call where
  | readnb (n : Nat)
  | readlineb (maxlen : Nat)
  deriving DecidableEq, Repr

def Call.run (rp : Rio) : Call → Option (Reply × Rio)
  | .readnb n => some (rioReadnb rp n)
  | .readlineb maxlen => rioReadlineb rp maxlen

/-- The replies to some calls, in order. -/
def session (rp : Rio) : List Call → Option (List Reply × Rio)
  | [] => some ([], rp)
  | call :: calls => do
    let (reply, rp) ← call.run rp
    let (replies, rp) ← session rp calls
    return (reply :: replies, rp)

/-! ## The stream -/

/-- The bytes to come, and how they end. -/
structure Stream where
  bytes : List UInt8
  ending : Ending

/-- At most `k` bytes, and none after a newline. -/
def lineOf : Nat → List UInt8 → List UInt8
  | 0, _ | _ + 1, [] => []
  | k + 1, byte :: rest => if byte = newline then [byte] else byte :: lineOf k rest

/-- A line that is not cut off by the end of the stream. -/
def Whole (k : Nat) (line : List UInt8) : Prop := line.length = k ∨ newline ∈ line

instance (k : Nat) (line : List UInt8) : Decidable (Whole k line) :=
  inferInstanceAs (Decidable (_ ∨ _))

def Stream.readnb (stream : Stream) (n : Nat) : Reply :=
  if stream.bytes.length < n ∧ stream.ending = .error then ⟨-1, stream.bytes, false⟩
  else ⟨(stream.bytes.take n).length, stream.bytes.take n, false⟩

def Stream.readlineb (stream : Stream) (maxlen : Nat) : Reply :=
  let line := lineOf (maxlen - 1) stream.bytes
  if Whole (maxlen - 1) line then ⟨line.length, line, true⟩
  else if stream.ending = .error then ⟨-1, line, false⟩
  else ⟨line.length, line, line ≠ []⟩

def Stream.reply (stream : Stream) : Call → Reply
  | .readnb n => stream.readnb n
  | .readlineb maxlen => stream.readlineb maxlen

/-- Each call goes on where the data of the one before ends. -/
def Stream.session (stream : Stream) : List Call → List Reply × Stream
  | [] => ([], stream)
  | call :: calls =>
    let reply := stream.reply call
    let (replies, last) := Stream.session ⟨stream.bytes.drop reply.data.length, stream.ending⟩ calls
    (reply :: replies, last)

example : (Stream.session ⟨[65, 66, 10, 67, 68, 69], .eof⟩
    [.readlineb 80, .readnb 2, .readlineb 80, .readlineb 80]).1 =
      [⟨3, [65, 66, 10], true⟩, ⟨2, [67, 68], false⟩, ⟨1, [69], true⟩, ⟨0, [], false⟩] := by
  decide

/-! ## What the buffer holds -/

def Rio.unread (rp : Rio) : List UInt8 :=
  ((List.ofFn rp.rioBuf).drop rp.rioBufptr).take rp.rioCnt.toNat

def Rio.stream (rp : Rio) : Stream := ⟨rp.unread ++ bytesOf rp.rioFd.arrivals, rp.rioFd.ending⟩

def Rio.Valid (rp : Rio) : Prop := rp.rioBufptr + rp.rioCnt.toNat ≤ RIO_BUFSIZE

theorem rioReadinitb_stream (rp : Rio) (fd : Fd) :
    (rioReadinitb rp fd).Valid ∧ (rioReadinitb rp fd).stream = ⟨bytesOf fd.arrivals, fd.ending⟩ :=
  ⟨Nat.zero_le _, rfl⟩

theorem length_unread {rp : Rio} (valid : rp.Valid) : rp.unread.length = rp.rioCnt.toNat := by
  have room : rp.rioBufptr + rp.rioCnt.toNat ≤ RIO_BUFSIZE := valid
  rw [Rio.unread, List.length_take, List.length_drop, List.length_ofFn]
  omega

theorem unread_empty {rp : Rio} (empty : rp.rioCnt ≤ 0) : rp.unread = [] := by
  rw [Rio.unread, Int.toNat_of_nonpos empty, List.take_zero]

theorem load_unread (rp : Rio) (fd : Fd) {bytes : List UInt8} (fits : bytes.length ≤ RIO_BUFSIZE) :
    (rp.load fd bytes).unread = bytes := by
  apply List.ext_getElem
  · rw [Rio.unread, List.length_take, List.length_drop, List.length_ofFn, Rio.load]
    simp only [Int.toNat_natCast]
    omega
  · intro i _ inside
    simp [Rio.unread, Rio.load, List.getD_eq_getElem?_getD, inside]

/-- What the loop of `rio_read` leaves. -/
inductive Refills (rp : Rio) : Option (Option (List UInt8)) × Rio → Prop where
  | ready {after : Rio} : after.Valid → 0 < after.rioCnt → after.stream = rp.stream →
      Refills rp (none, after)
  | eof {after : Rio} : after.Valid → after.stream = rp.stream → rp.stream = ⟨[], .eof⟩ →
      Refills rp (some (some []), after)
  | error {after : Rio} : after.Valid → after.stream = rp.stream → rp.stream = ⟨[], .error⟩ →
      Refills rp (some none, after)

/-- A buffer that is empty shows what is still to arrive. -/
theorem stream_empty {rp : Rio} (empty : rp.rioCnt ≤ 0) :
    rp.stream = ⟨bytesOf rp.rioFd.arrivals, rp.rioFd.ending⟩ := by
  rw [Rio.stream, unread_empty empty, List.nil_append]

theorem refill_refills {rp : Rio} (valid : rp.Valid) : Refills rp (refill rp) := by
  induction weighs : weight rp.rioFd.arrivals using Nat.strongRecOn generalizing rp with
  | ind w ih =>
    rw [refill]
    by_cases empty : rp.rioCnt ≤ 0
    swap
    · rw [if_neg empty]
      exact .ready valid (Int.not_le.mp empty) rfl
    rw [if_pos empty]
    have emptied : rp.rioBufptr + 0 ≤ RIO_BUFSIZE := by
      have room : rp.rioBufptr + rp.rioCnt.toNat ≤ RIO_BUFSIZE := valid
      omega
    have cases := read_met rp.rioFd bufsize_pos
    split
    · next fd met =>
      rw [met] at cases
      cases cases with
      | @interrupt rest eq =>
        have less : weight rest < w := weighs ▸ weight_interrupted bufsize_pos met rfl
        rw [dif_pos rfl]
        have same : Rio.stream { rp with
            rioFd := { rp.rioFd with arrivals := rest, errno := .EINTR }, rioCnt := -1 } = rp.stream := by
          rw [stream_empty (by simp), stream_empty empty, eq]
          rfl
        have refills := @ih (weight rest) less { rp with
          rioFd := { rp.rioFd with arrivals := rest, errno := .EINTR }, rioCnt := -1 } emptied rfl
        generalize refill _ = refilled at refills
        cases refills with
        | ready ok some eq => exact .ready ok some (eq.trans same)
        | eof ok eq ended => exact .eof ok (eq.trans same) (same ▸ ended)
        | error ok eq failed => exact .error ok (eq.trans same) (same ▸ failed)
      | error eq failing =>
        rw [dif_neg (by simp)]
        have ended := stream_empty empty
        rw [eq, failing] at ended
        refine .error emptied ?_ ended
        rw [ended, stream_empty (by simp)]
        simp [eq, failing, bytesOf]
    · next fd met =>
      rw [met] at cases
      cases cases with
      | bytes has => exact absurd rfl has
      | eof eq ending =>
        have ended := stream_empty empty
        rw [eq, ending] at ended
        refine .eof emptied ?_ ended
        rw [ended, stream_empty (by simp)]
        simp [eq, ending, bytesOf]
    · next first more fd met =>
      rw [met] at cases
      cases cases with
      | @bytes _ arrivals _ fits eq _ =>
        refine .ready ?_ ?_ ?_
        · show 0 + ((first :: more).length : Int).toNat ≤ RIO_BUFSIZE
          rw [Int.toNat_natCast, Nat.zero_add]
          exact fits
        · exact Int.natCast_pos.mpr (Nat.succ_pos _)
        · rw [stream_empty empty, eq, Rio.stream, load_unread _ _ fits]
          rfl

/-- What `rio_read` returns for at least one byte: the bytes that come first, at
least one of them while there are any. -/
inductive Reads (rp : Rio) (n : Nat) : Option (List UInt8) × Rio → Prop where
  | bytes {bytes rest : List UInt8} {after : Rio} : after.Valid → bytes ≠ [] → bytes.length ≤ n →
      rp.stream.bytes = bytes ++ rest → after.stream = ⟨rest, rp.stream.ending⟩ →
      Reads rp n (some bytes, after)
  | eof {after : Rio} : after.Valid → after.stream = rp.stream → rp.stream = ⟨[], .eof⟩ →
      Reads rp n (some [], after)
  | error {after : Rio} : after.Valid → after.stream = rp.stream → rp.stream = ⟨[], .error⟩ →
      Reads rp n (none, after)

theorem rioRead_reads {rp : Rio} {n : Nat} (valid : rp.Valid) (positive : 0 < n) :
    Reads rp n (rioRead rp n) := by
  have refills := refill_refills valid
  rw [rioRead]
  generalize refill rp = refilled at refills
  cases refills with
  | eof ok same ended => exact .eof ok same ended
  | error ok same failed => exact .error ok same failed
  | @ready after ok some same =>
    have size := length_unread ok
    have room : after.rioBufptr + after.rioCnt.toNat ≤ RIO_BUFSIZE := ok
    dsimp only
    have cnt_eq : (if after.rioCnt < n then after.rioCnt.toNat else n) = min after.rioCnt.toNat n := by
      split <;> omega
    rw [cnt_eq]
    have taken : ((List.ofFn after.rioBuf).drop after.rioBufptr).take (min after.rioCnt.toNat n) =
        after.unread.take (min after.rioCnt.toNat n) := by
      rw [Rio.unread, List.take_take]
      congr 1
      omega
    rw [taken]
    refine Reads.bytes ?_ ?_ ?_ (?_ : _ = _ ++ (after.unread.drop (min after.rioCnt.toNat n) ++
      bytesOf after.rioFd.arrivals)) ?_
    · show after.rioBufptr + _ + (after.rioCnt - _).toNat ≤ RIO_BUFSIZE
      omega
    · rw [← List.length_pos_iff, List.length_take]
      omega
    · rw [List.length_take]
      omega
    · rw [← same, ← List.append_assoc, List.take_append_drop]
      rfl
    · rw [← same]
      have left : (after.rioCnt - (min after.rioCnt.toNat n : Nat)).toNat =
          after.rioCnt.toNat - min after.rioCnt.toNat n := by omega
      simp only [Rio.stream, Rio.unread, left, List.drop_take, List.drop_drop]

/-! ## One call -/

/-- The reply that the stream has for a call, and the stream after it. -/
structure Serves (rp : Rio) (reply : Reply) (expected : Reply) (after : Rio) : Prop where
  valid : after.Valid
  reply : reply = expected
  stream : after.stream = ⟨rp.stream.bytes.drop expected.data.length, rp.stream.ending⟩

theorem readnbLoop_serves {rp : Rio} (valid : rp.Valid) (n nleft : Nat) (stored : List UInt8)
    (count : stored.length + nleft = n) :
    ∃ after, readnbLoop n rp nleft stored =
        (⟨if rp.stream.bytes.length < nleft ∧ rp.stream.ending = .error then -1
          else (stored ++ rp.stream.bytes.take nleft).length,
          stored ++ rp.stream.bytes.take nleft, false⟩, after) ∧
      after.Valid ∧ after.stream = ⟨rp.stream.bytes.drop nleft, rp.stream.ending⟩ := by
  induction nleft using Nat.strongRecOn generalizing rp stored with
  | ind nleft ih =>
    rw [readnbLoop]
    by_cases positive : 0 < nleft
    swap
    · obtain rfl : nleft = 0 := by omega
      obtain rfl : stored.length = n := count
      exact ⟨rp, by simp, valid, by simp⟩
    rw [dif_pos positive]
    have reads := rioRead_reads valid positive
    split
    · next after met =>
      rw [met] at reads
      cases reads with
      | error ok same failed => exact ⟨after, by simp [failed, positive], ok, by simp [same, failed]⟩
    · next after met =>
      rw [met] at reads
      cases reads with
      | bytes _ has => exact absurd rfl has
      | eof ok same ended =>
        refine ⟨after, ?_, ok, by simp [same, ended]⟩
        have ret : (n : Int) - nleft = stored.length := by omega
        simp [ended, ret]
    · next first more after met =>
      rw [met] at reads
      cases reads with
      | @bytes _ rest _ ok _ short eq left =>
        obtain ⟨last, looped, ok', left'⟩ := ih (nleft - (first :: more).length)
          (fewer_left positive) ok (stored ++ first :: more)
          (by rw [List.length_append]; omega)
        have take : (first :: more ++ rest).take nleft =
            first :: more ++ rest.take (nleft - (first :: more).length) := by
          rw [List.take_append, List.take_of_length_le short]
        have drop : (first :: more ++ rest).drop nleft =
            rest.drop (nleft - (first :: more).length) := by
          rw [List.drop_append, List.drop_eq_nil_of_le short, List.nil_append]
        have fewer : (first :: more ++ rest).length < nleft ↔
            rest.length < nleft - (first :: more).length := by
          rw [List.length_append]
          omega
        refine ⟨last, ?_, ok', ?_⟩
        · rw [looped, left, eq, take]
          simp only [fewer, List.append_assoc]
        · rw [left', left, eq, drop]

theorem drop_taken (n : Nat) (bytes : List UInt8) : bytes.drop (bytes.take n).length = bytes.drop n := by
  rw [List.length_take]
  rcases Nat.le_total n bytes.length with enough | short
  · rw [Nat.min_eq_left enough]
  · rw [Nat.min_eq_right short, List.drop_length, List.drop_eq_nil_of_le short]

theorem rioReadnb_serves {rp : Rio} (valid : rp.Valid) (n : Nat) :
    Serves rp (rioReadnb rp n).1 (rp.stream.readnb n) (rioReadnb rp n).2 := by
  obtain ⟨after, looped, ok, left⟩ := readnbLoop_serves valid n n [] (Nat.zero_add n)
  rw [rioReadnb, looped]
  by_cases failed : rp.stream.bytes.length < n ∧ rp.stream.ending = .error
  · have all : rp.stream.bytes.take n = rp.stream.bytes :=
      List.take_of_length_le (Nat.le_of_lt failed.1)
    refine ⟨ok, by simp [Stream.readnb, failed, all], ?_⟩
    rw [left, Stream.readnb, if_pos failed, List.drop_length,
      List.drop_eq_nil_of_le (Nat.le_of_lt failed.1)]
  · refine ⟨ok, by simp [Stream.readnb, failed], ?_⟩
    rw [left, Stream.readnb, if_neg failed, drop_taken]

theorem whole_cons {k : Nat} {byte : UInt8} {line : List UInt8} (inner : byte ≠ newline) :
    Whole (k + 1) (byte :: line) ↔ Whole k line := by
  simp [Whole, inner.symm]

theorem readlinebLoop_serves {rp : Rio} (valid : rp.Valid) (allowance n : Nat) (stored : List UInt8)
    (count : n = stored.length + 1) (bound : allowance + n ≤ INT_MAX) :
    ∃ after, readlinebLoop allowance n rp stored = some
        (if Whole allowance (lineOf allowance rp.stream.bytes) then
          ⟨(stored ++ lineOf allowance rp.stream.bytes).length,
            stored ++ lineOf allowance rp.stream.bytes, true⟩
        else if rp.stream.ending = .error then
          ⟨-1, stored ++ lineOf allowance rp.stream.bytes, false⟩
        else ⟨(stored ++ lineOf allowance rp.stream.bytes).length,
          stored ++ lineOf allowance rp.stream.bytes,
          stored ++ lineOf allowance rp.stream.bytes ≠ []⟩, after) ∧
      after.Valid ∧ after.stream =
        ⟨rp.stream.bytes.drop (lineOf allowance rp.stream.bytes).length, rp.stream.ending⟩ := by
  induction allowance generalizing rp n stored with
  | zero =>
    have ret : (n : Int) - 1 = stored.length := by omega
    exact ⟨rp, by simp [readlinebLoop, lineOf, Whole, ret], valid, by simp [lineOf]⟩
  | succ allowance ih =>
    rw [readlinebLoop]
    have reads := rioRead_reads valid Nat.one_pos
    split
    · next after met =>
      rw [met] at reads
      cases reads with
      | error ok same failed =>
        exact ⟨after, by simp [failed, lineOf, Whole], ok, by simp [same, failed, lineOf]⟩
    · next after met =>
      rw [met] at reads
      cases reads with
      | bytes _ has => exact absurd rfl has
      | eof ok same ended =>
        refine ⟨after, ?_, ok, by simp [same, ended, lineOf]⟩
        have ret : (n : Int) - 1 = stored.length := by omega
        by_cases first : n = 1
        · have nothing : stored = [] := List.length_eq_zero_iff.mp (by omega)
          simp [first, ended, lineOf, Whole, nothing]
        · have something : stored ≠ [] := fun nothing => first (by simp [count, nothing])
          simp [first, ended, lineOf, Whole, ret, something]
    · next byte more after met =>
      rw [met] at reads
      cases reads with
      | @bytes _ rest _ ok _ short eq left =>
        obtain rfl : more = [] := List.length_eq_zero_iff.mp (by simpa using short)
        rw [List.singleton_append] at eq
        rw [if_neg (by omega)]
        by_cases ends : byte = newline
        · rw [if_pos ends]
          refine ⟨after, ?_, ok, by simp [left, eq, lineOf, ends]⟩
          simp [eq, lineOf, ends, Whole, count]
        · rw [if_neg ends]
          obtain ⟨last, looped, ok', left'⟩ := ih ok (n + 1) (stored ++ [byte])
            (by simp [count]) (by omega)
          have line : lineOf (allowance + 1) rp.stream.bytes = byte :: lineOf allowance rest := by
            rw [eq, lineOf, if_neg ends]
          refine ⟨last, ?_, ok', ?_⟩
          · rw [looped, line, if_congr (whole_cons ends) rfl rfl, left]
            simp only [List.append_assoc, List.singleton_append]
          · rw [left', line, left, eq]
            rfl

theorem rioReadlineb_serves {rp : Rio} (valid : rp.Valid) {maxlen : Nat}
    (bound : maxlen ≤ INT_MAX) : ∃ reply after, rioReadlineb rp maxlen = some (reply, after) ∧
      Serves rp reply (rp.stream.readlineb maxlen) after := by
  have room : maxlen - 1 + 1 ≤ INT_MAX := by
    have : 1 ≤ INT_MAX := by decide
    omega
  obtain ⟨after, looped, ok, left⟩ := readlinebLoop_serves valid (maxlen - 1) 1 [] rfl room
  refine ⟨_, after, looped, ok, rfl, ?_⟩
  rw [left, Stream.readlineb]
  split
  · rfl
  · split <;> rfl

/-! ## Any calls -/

/-- `rio_readlineb` counts in an `int`. -/
def Call.Counts : Call → Prop
  | .readnb _ => True
  | .readlineb maxlen => maxlen ≤ INT_MAX

theorem run_serves {rp : Rio} (valid : rp.Valid) {call : Call} (counts : call.Counts) :
    ∃ reply after, call.run rp = some (reply, after) ∧
      Serves rp reply (rp.stream.reply call) after := by
  cases call with
  | readnb n => exact ⟨_, _, rfl, rioReadnb_serves valid n⟩
  | readlineb maxlen => exact rioReadlineb_serves valid counts

theorem session_stream {rp : Rio} (valid : rp.Valid) {calls : List Call}
    (counts : ∀ call ∈ calls, call.Counts) :
    ∃ replies after, session rp calls = some (replies, after) ∧ after.Valid ∧
      rp.stream.session calls = (replies, after.stream) := by
  induction calls generalizing rp with
  | nil => exact ⟨[], rp, rfl, valid, rfl⟩
  | cons call calls ih =>
    obtain ⟨reply, after, ran, serves⟩ := run_serves valid (counts call List.mem_cons_self)
    obtain ⟨replies, last, rest, ok, served⟩ := ih serves.valid
      fun call mem => counts call (List.mem_cons_of_mem _ mem)
    refine ⟨reply :: replies, last, by simp [session, ran, rest], ok, ?_⟩
    rw [serves.stream] at served
    simp only [Stream.session, served, serves.reply]

theorem lineOf_start (k : Nat) (bytes : List UInt8) : lineOf k bytes <+: bytes := by
  induction k generalizing bytes with
  | zero => simp [lineOf]
  | succ k ih =>
    cases bytes with
    | nil => simp [lineOf]
    | cons byte rest =>
      rw [lineOf]
      split
      · exact ⟨rest, rfl⟩
      · exact List.cons_prefix_cons.mpr ⟨rfl, ih rest⟩

/-- What a call stores is what the stream starts with. -/
theorem reply_start (stream : Stream) (call : Call) : (stream.reply call).data <+: stream.bytes := by
  cases call with
  | readnb n =>
    rw [Stream.reply, Stream.readnb]
    split
    · exact List.prefix_rfl
    · exact List.take_prefix n _
  | readlineb maxlen =>
    rw [Stream.reply, Stream.readlineb]
    split
    · exact lineOf_start _ _
    · split <;> exact lineOf_start _ _

theorem session_data (stream : Stream) (calls : List Call) :
    (stream.session calls).1.flatMap (·.data) ++ (stream.session calls).2.bytes = stream.bytes := by
  induction calls generalizing stream with
  | nil => rfl
  | cons call calls ih =>
    obtain ⟨rest, eq⟩ := reply_start stream call
    simp only [Stream.session, List.flatMap_cons, List.append_assoc, ih]
    rw [← eq, List.drop_left]

/-- After `rio_readinitb` any calls get what the stream has for them, however its
bytes arrive, and each byte once: what they store and what is left, in the buffer
and to arrive, is the stream. -/
theorem buffered_reads_stream (rp : Rio) (fd : Fd) {calls : List Call}
    (counts : ∀ call ∈ calls, call.Counts) :
    ∃ replies after, session (rioReadinitb rp fd) calls = some (replies, after) ∧
      Stream.session ⟨bytesOf fd.arrivals, fd.ending⟩ calls = (replies, after.stream) ∧
      replies.flatMap (·.data) ++ (after.unread ++ bytesOf after.rioFd.arrivals) =
        bytesOf fd.arrivals := by
  obtain ⟨valid, eq⟩ := rioReadinitb_stream rp fd
  obtain ⟨replies, after, ran, -, served⟩ := session_stream valid counts
  rw [eq] at served
  have data := session_data ⟨bytesOf fd.arrivals, fd.ending⟩ calls
  rw [served] at data
  exact ⟨replies, after, ran, served, data⟩

/-- Two lines in three pieces, with a signal, through a buffer full of old bytes. -/
theorem lines_in_pieces : ∃ after,
    session (rioReadinitb ⟨⟨[], .eof, [], false, [], .other⟩, 5, 3, fun _ => 255⟩
      ⟨[.bytes 65 [], .interrupt, .bytes 66 [10, 67], .bytes 68 []], .eof, [], false, [], .other⟩)
      [.readlineb 80, .readlineb 80, .readlineb 80] =
        some ([⟨3, [65, 66, 10], true⟩, ⟨2, [67, 68], true⟩, ⟨0, [], false⟩], after) := by
  have counts : ∀ call ∈ [Call.readlineb 80, .readlineb 80, .readlineb 80], call.Counts := by
    simp [Call.Counts, INT_MAX]
  obtain ⟨replies, after, ran, served, -⟩ := buffered_reads_stream
    ⟨⟨[], .eof, [], false, [], .other⟩, 5, 3, fun _ => 255⟩
    ⟨[.bytes 65 [], .interrupt, .bytes 66 [10, 67], .bytes 68 []], .eof, [], false, [], .other⟩ counts
  obtain rfl := congrArg Prod.fst served
  exact ⟨after, ran⟩

end LinuxSystem.Server.Buffered
