import LinuxSystem.Server.Rio

/-!
# Handlers on a descriptor

The handlers again, with every `Rio_readn` and `Rio_writen` on the descriptor
itself. They do to the map what `Server.Request` says of the bytes that arrive,
and the client gets the response it says, or the start of it.
-/

namespace LinuxSystem.Server.Wire

open LinuxSystem.Map Request Rio

/-- What a handler returns, and the descriptor and the map after it; `none`
where the call on the map never returns. -/
structure Served (c : Config) where
  ret : Int
  fd : Fd
  map : Option (Hashmap c)

variable {c : Config}

/-- A call on the map that fails leaves its own `errno`. -/
def leaveErrno (fd : Fd) (errno : Option Map.Errno) : Fd :=
  if errno = none then fd else { fd with errno := .other }

/-- The last `Rio_writen` of a handler and the `return` after it. -/
def respond (fd : Fd) (response : List UInt8) (map : Hashmap c) : Served c :=
  let (ret, fd) := rioWriten fd response
  if ret < 0 then ⟨-1, fd, some map⟩ else ⟨0, fd, some map⟩

def handlePut (fd : Fd) (header : RequestHeader) (buffers : Buffers) (map : Hashmap c) : Served c :=
  if badKeySize header ∨ badValueSize header then respond fd (responseHeader BAD_REQUEST 0) map
  else
    let (n, key, fd) := Rio.rioReadn fd buffers.key header.keySize
    if n < 0 then ⟨-1, fd, some map⟩
    else
      let (n, val, fd) := Rio.rioReadn fd buffers.val header.valueSize
      if n < 0 then ⟨-1, fd, some map⟩
      else
        let mapKey : MapKey := ⟨buffers.keyBase, key.take header.keySize⟩
        let mapVal : MapVal := ⟨buffers.valBase, val.take header.valueSize⟩
        match put map mapKey mapVal true with
        | none => ⟨0, fd, none⟩
        | some outcome =>
          let responseCode := if outcome.ret = true then OK else BAD_REQUEST
          respond (leaveErrno fd outcome.errno) (responseHeader responseCode 0) outcome.self

def handleGet (fd : Fd) (header : RequestHeader) (buffers : Buffers) (map : Hashmap c) : Served c :=
  if badKeySize header then respond fd (responseHeader BAD_REQUEST 0) map
  else
    let (n, key, fd) := Rio.rioReadn fd buffers.key header.keySize
    if n < 0 then ⟨-1, fd, some map⟩
    else
      let mapKey : MapKey := ⟨buffers.keyBase, key.take header.keySize⟩
      let outcome := get map mapKey
      let fd := leaveErrno fd outcome.errno
      let mapVal := outcome.ret
      if mapVal.valBase = 0 then respond fd (responseHeader NOT_FOUND 0) outcome.self
      else
        let (ret, fd) := rioWriten fd (responseHeader OK mapVal.bytes.length)
        if ret < 0 then ⟨-1, fd, some outcome.self⟩ else respond fd mapVal.bytes outcome.self

def handleEvict (fd : Fd) (header : RequestHeader) (buffers : Buffers) (map : Hashmap c) :
    Served c :=
  if badKeySize header then respond fd (responseHeader BAD_REQUEST 0) map
  else
    let (n, key, fd) := Rio.rioReadn fd buffers.key header.keySize
    if n < 0 then ⟨-1, fd, some map⟩
    else
      let mapKey : MapKey := ⟨buffers.keyBase, key.take header.keySize⟩
      let outcome := delete map mapKey
      respond (leaveErrno fd outcome.errno) (responseHeader OK 0) outcome.self

def handleClear (fd : Fd) (map : Hashmap c) : Served c :=
  let outcome := clearMap map
  let responseCode := if outcome.ret = true then OK else BAD_REQUEST
  respond (leaveErrno fd outcome.errno) (responseHeader responseCode 0) outcome.self

def handleRequest (fd : Fd) (buffers : Buffers) (map : Hashmap c) : Served c :=
  let (n, bytes, fd) := Rio.rioReadn fd buffers.header headerSize
  let header := requestHeader bytes
  if n < 0 then ⟨-1, fd, some map⟩
  else if header.requestCode = PUT then { handlePut fd header buffers map with ret := 0 }
  else if header.requestCode = GET then { handleGet fd header buffers map with ret := 0 }
  else if header.requestCode = EVICT then { handleEvict fd header buffers map with ret := 0 }
  else if header.requestCode = CLEAR then { handleClear fd map with ret := 0 }
  else respond fd (responseHeader UNSUPPORTED 0) map

/-! ## What the client gets -/

/-- The map is as `handled` has it, and the client gets what it writes, or the
start of that where the connection does not take it all. -/
structure Delivers (fd : Fd) (served : Served c) (handled : Handled c) : Prop where
  map : served.map = handled.map
  sent : ∃ sent, served.fd.received = fd.received ++ sent ∧ sent <+: handled.written ∧
    (Sturdy fd → sent = handled.written ∧ served.ret = handled.ret)

/-- A read changes nothing that a response depends on. -/
theorem Delivers.after_read {fd after : Fd} {served : Served c} {handled : Handled c}
    (delivers : Delivers after served handled)
    (same : (after.rooms, after.broken, after.received) = (fd.rooms, fd.broken, fd.received)) :
    Delivers fd served handled := by
  simp only [Prod.mk.injEq] at same
  obtain ⟨sent, received, start, whole⟩ := delivers.sent
  refine ⟨delivers.map, sent, same.2.2 ▸ received, start, fun sturdy => whole ?_⟩
  exact ⟨same.2.1 ▸ sturdy.1, same.1 ▸ sturdy.2⟩

theorem Delivers.after_errno {fd : Fd} {errno : Option Map.Errno} {served : Served c}
    {handled : Handled c} (delivers : Delivers (leaveErrno fd errno) served handled) :
    Delivers fd served handled := by
  apply delivers.after_read
  unfold leaveErrno
  split <;> rfl

theorem fail_delivers (fd : Fd) (map : Hashmap c) :
    Delivers fd (⟨-1, fd, some map⟩ : Served c) (Request.fail map) :=
  ⟨rfl, [], by simp, by simp [Request.fail], fun _ => ⟨rfl, rfl⟩⟩

theorem respond_delivers (fd : Fd) (conn : Conn) (writable : conn.writable = true)
    (response : List UInt8) (called : Option Call) (map : Hashmap c) :
    Delivers fd (respond fd response map) (Request.respond conn response called map) := by
  obtain ⟨sent, h, ret⟩ := rioWriten_sent fd response
  rw [Request.respond, if_pos writable, respond]
  dsimp only
  rcases ret with failed | done
  · rw [if_pos (by omega)]
    exact ⟨rfl, sent, h.received, h.start, fun sturdy => absurd sturdy (h.failed failed).2⟩
  · rw [if_neg (by omega)]
    have all : sent = response := by
      rcases h.whole with failed | all
      · omega
      · exact all
    exact ⟨rfl, sent, h.received, h.start, fun _ => ⟨all, rfl⟩⟩

/-- A header and the value after it, written one after the other. -/
theorem value_delivers (fd : Fd) (conn : Conn) (writable : conn.writable = true)
    (header value : List UInt8) (called : Option Call) (map : Hashmap c) :
    Delivers fd (if (rioWriten fd header).1 < 0 then ⟨-1, (rioWriten fd header).2, some map⟩
        else respond (rioWriten fd header).2 value map)
      (Request.respond conn (header ++ value) called map) := by
  obtain ⟨sent, h, ret⟩ := rioWriten_sent fd header
  rw [Request.respond, if_pos writable]
  rcases ret with failed | done
  · rw [if_pos (by omega)]
    exact ⟨rfl, sent, h.received, h.start.trans (List.prefix_append ..),
      fun sturdy => absurd sturdy (h.failed failed).2⟩
  · rw [if_neg (by omega)]
    have all : sent = header := by
      rcases h.whole with failed | all
      · omega
      · exact all
    have rest := respond_delivers (rioWriten fd header).2 conn writable value called map
    rw [Request.respond, if_pos writable] at rest
    obtain ⟨sent', received, start, whole⟩ := rest.sent
    refine ⟨rest.map, header ++ sent', ?_, ?_, fun sturdy => ?_⟩
    · rw [received, h.received, all, List.append_assoc]
    · exact (List.prefix_append_right_inj header).mpr start
    · have reads := h.reads
      simp only [Prod.mk.injEq] at reads
      obtain ⟨eq, ret⟩ := whole ⟨reads.2.2.trans sturdy.1, fun mem => sturdy.2 (h.rooms.subset mem)⟩
      exact ⟨congrArg (header ++ ·) eq, ret⟩

theorem handlePut_delivers (fd : Fd) (header : RequestHeader) (buffers : Buffers)
    (map : Hashmap c) :
    Delivers fd (handlePut fd header buffers map)
      (Request.handlePut fd.conn header buffers map) := by
  unfold handlePut Request.handlePut
  split
  · exact respond_delivers fd _ rfl _ _ _
  obtain ⟨n, key, after, read, read', same⟩ := rioReadn_conn fd buffers.key header.keySize
  rw [read, read']
  dsimp only
  refine Delivers.after_read ?_ same
  split
  · exact fail_delivers after map
  obtain ⟨n, val, last, read, read', same⟩ := rioReadn_conn after buffers.val header.valueSize
  rw [read, read']
  dsimp only
  refine Delivers.after_read ?_ same
  split
  · exact fail_delivers last map
  cases put map ⟨buffers.keyBase, key.take header.keySize⟩
    ⟨buffers.valBase, val.take header.valueSize⟩ true with
  | none => exact ⟨rfl, [], by simp, by simp, fun _ => ⟨rfl, rfl⟩⟩
  | some outcome => exact (respond_delivers (leaveErrno last _) _ rfl _ _ _).after_errno

theorem handleGet_delivers (fd : Fd) (header : RequestHeader) (buffers : Buffers)
    (map : Hashmap c) :
    Delivers fd (handleGet fd header buffers map)
      (Request.handleGet fd.conn header buffers map) := by
  unfold handleGet Request.handleGet
  split
  · exact respond_delivers fd _ rfl _ _ _
  obtain ⟨n, key, after, read, read', same⟩ := rioReadn_conn fd buffers.key header.keySize
  rw [read, read']
  dsimp only
  refine Delivers.after_read ?_ same
  split
  · exact fail_delivers after map
  apply Delivers.after_errno
  split
  · exact respond_delivers _ _ rfl _ _ _
  · exact value_delivers _ _ rfl _ _ _ _

theorem handleEvict_delivers (fd : Fd) (header : RequestHeader) (buffers : Buffers)
    (map : Hashmap c) :
    Delivers fd (handleEvict fd header buffers map)
      (Request.handleEvict fd.conn header buffers map) := by
  unfold handleEvict Request.handleEvict
  split
  · exact respond_delivers fd _ rfl _ _ _
  obtain ⟨n, key, after, read, read', same⟩ := rioReadn_conn fd buffers.key header.keySize
  rw [read, read']
  dsimp only
  refine Delivers.after_read ?_ same
  split
  · exact fail_delivers after map
  · exact (respond_delivers (leaveErrno after _) _ rfl _ _ _).after_errno

theorem Delivers.returned {fd : Fd} {served : Served c} {handled : Handled c}
    (delivers : Delivers fd served handled) :
    Delivers fd { served with ret := 0 } { handled with ret := 0 } := by
  obtain ⟨sent, received, start, whole⟩ := delivers.sent
  exact ⟨delivers.map, sent, received, start, fun sturdy => ⟨(whole sturdy).1, rfl⟩⟩

theorem handleRequest_delivers (fd : Fd) (buffers : Buffers) (map : Hashmap c) :
    Delivers fd (handleRequest fd buffers map) (Request.handleRequest fd.conn buffers map) := by
  unfold handleRequest Request.handleRequest
  obtain ⟨n, bytes, after, read, read', same⟩ := rioReadn_conn fd buffers.header headerSize
  rw [read, read']
  dsimp only
  refine Delivers.after_read ?_ same
  split
  · exact fail_delivers after map
  split
  · exact (handlePut_delivers after _ buffers map).returned
  split
  · exact (handleGet_delivers after _ buffers map).returned
  split
  · exact (handleEvict_delivers after _ buffers map).returned
  split
  · exact (respond_delivers (leaveErrno after _) _ rfl _ _ _).after_errno.returned
  · exact respond_delivers after _ rfl _ _ _

/-- Pieces and signals change neither what a request does to the map nor, where
no write fails, what the client gets; a write that fails leaves it with the
start of the response. -/
theorem requests_in_pieces (fd : Fd) (buffers : Buffers) (map : Hashmap c) :
    let served := handleRequest fd buffers map
    let handled := Request.handleRequest fd.conn buffers map
    served.map = handled.map ∧
      ∃ sent, served.fd.received = fd.received ++ sent ∧ sent <+: handled.written ∧
        (Sturdy fd → sent = handled.written ∧ served.ret = handled.ret) :=
  have delivers := handleRequest_delivers fd buffers map
  ⟨delivers.map, delivers.sent⟩

end LinuxSystem.Server.Wire
