import LinuxSystem.Base.Machine
import LinuxSystem.Map.Dictionary
import LinuxSystem.Server.Wire

/-!
# Sessions

Clients come one after the other, each with a whole request, in pieces of any
size. They get the answers of a dictionary, as long as the map keeps to one.
-/

namespace LinuxSystem.Server.Session

open LinuxSystem.Map Request Rio

inductive Query where
  | put (key val : List UInt8)
  | get (key : List UInt8)
  | evict (key : List UInt8)
  | clear
  deriving DecidableEq, Repr

/-- The sizes the server takes. -/
def Query.Sized : Query → Prop
  | .put key val => (1 ≤ key.length ∧ key.length ≤ maxKeySize) ∧
      1 ≤ val.length ∧ val.length ≤ maxValueSize
  | .get key | .evict key => 1 ≤ key.length ∧ key.length ≤ maxKeySize
  | .clear => True

def header (requestCode keySize valueSize : Nat) : List UInt8 :=
  UInt8.ofNat requestCode :: (wordBytes keySize ++ wordBytes valueSize)

def Query.encode : Query → List UInt8
  | .put key val => header PUT key.length val.length ++ (key ++ val)
  | .get key => header GET key.length 0 ++ key
  | .evict key => header EVICT key.length 0 ++ key
  | .clear => header CLEAR 0 0

/-- The call on the map, with the buffers the server reads into. -/
def Query.call (buffers : Buffers) : Query → Call
  | .put key val => .put ⟨buffers.keyBase, key⟩ ⟨buffers.valBase, val⟩ true
  | .get key => .get ⟨buffers.keyBase, key⟩
  | .evict key => .delete ⟨buffers.keyBase, key⟩
  | .clear => .clearMap

theorem requestHeader_header (requestCode keySize valueSize : Nat) (code : requestCode < 2 ^ 8)
    (key : keySize < 2 ^ 32) (value : valueSize < 2 ^ 32) :
    requestHeader (header requestCode keySize valueSize) = ⟨requestCode, keySize, valueSize⟩ := by
  simp only [requestHeader, header, word, wordBytes, List.cons_append, List.nil_append,
    List.getD_cons_zero, List.getD_cons_succ, UInt8.toNat_ofNat', RequestHeader.mk.injEq]
  omega

@[simp] theorem length_header (requestCode keySize valueSize : Nat) :
    (header requestCode keySize valueSize).length = headerSize := rfl

theorem take_header (requestCode keySize valueSize : Nat) (rest : List UInt8) :
    (header requestCode keySize valueSize ++ rest).take headerSize =
      header requestCode keySize valueSize :=
  List.take_left' (length_header ..)

theorem drop_header (requestCode keySize valueSize : Nat) (rest : List UInt8) :
    (header requestCode keySize valueSize ++ rest).drop headerSize = rest :=
  List.drop_left' (length_header ..)

/-- The server understands what `encode` writes, whatever comes after it. -/
theorem complete_encode {query : Query} (sized : query.Sized) (buffers : Buffers)
    (rest : List UInt8) : Complete (query.encode ++ rest) (query.call buffers) := by
  cases query with
  | put key val =>
    simp only [Query.Sized, maxKeySize, maxValueSize] at sized
    have header := requestHeader_header PUT key.length val.length (by decide) (by omega) (by omega)
    simp only [Complete, Query.call, Query.encode, List.append_assoc, take_header, drop_header,
      header, List.length_append, length_header, List.take_left, List.drop_left]
    simp only [badKeySize, badValueSize, maxKeySize, maxValueSize, true_and, and_true]
    omega
  | get key | evict key =>
    simp only [Query.Sized, maxKeySize] at sized
    have header := requestHeader_header GET key.length 0 (by decide) (by omega) (by omega)
    have header' := requestHeader_header EVICT key.length 0 (by decide) (by omega) (by omega)
    simp only [Complete, Query.call, Query.encode, List.append_assoc, take_header, drop_header,
      header, header', List.length_append, length_header, List.take_left]
    simp only [badKeySize, maxKeySize, true_and, and_true]
    omega
  | clear =>
    have header := requestHeader_header CLEAR 0 0 (by decide) (by omega) (by omega)
    simp only [Complete, Query.call, Query.encode, take_header, header, List.length_append,
      length_header, true_and]
    omega

/-! ## What the server does with a whole request -/

variable {c : Config}

theorem rioReadn_enough {conn : Conn} (buf : List UInt8) {n : Nat} (h : n ≤ conn.stream.length) :
    Request.rioReadn conn buf n =
      ((n : Int), conn.stream.take n ++ buf.drop n, { conn with stream := conn.stream.drop n }) := by
  simp [Request.rioReadn, h]

/-- The response to a call that returns. -/
def response : Reply → List UInt8
  | ⟨.flag true, _, _⟩ => responseHeader OK 0
  | ⟨.flag false, _, _⟩ => responseHeader BAD_REQUEST 0
  | ⟨.val val, _, _⟩ =>
    if val.valBase = 0 then responseHeader NOT_FOUND 0
    else responseHeader OK val.bytes.length ++ val.bytes
  | ⟨.node _, _, _⟩ => responseHeader OK 0

theorem handlePut_complete (conn : Conn) {header : RequestHeader} (buffers : Buffers)
    (map : Hashmap c) (keySize : ¬ badKeySize header) (valueSize : ¬ badValueSize header)
    (enough : header.keySize + header.valueSize ≤ conn.stream.length)
    (writable : conn.writable = true) {outcome : Outcome c Bool}
    (returned : put map ⟨buffers.keyBase, conn.stream.take header.keySize⟩
      ⟨buffers.valBase, (conn.stream.drop header.keySize).take header.valueSize⟩ true =
        some outcome) :
    Request.handlePut conn header buffers map =
      ⟨0, responseHeader (if outcome.ret = true then OK else BAD_REQUEST) 0,
        some (.put ⟨buffers.keyBase, conn.stream.take header.keySize⟩
          ⟨buffers.valBase, (conn.stream.drop header.keySize).take header.valueSize⟩ true),
        some outcome.self⟩ := by
  have enough' : header.valueSize ≤ (conn.stream.drop header.keySize).length := by
    rw [List.length_drop]
    omega
  rw [Request.handlePut, if_neg (by simp [keySize, valueSize]),
    rioReadn_enough buffers.key (by omega : header.keySize ≤ conn.stream.length)]
  dsimp only
  rw [if_neg (by omega), rioReadn_enough buffers.val enough']
  dsimp only
  rw [if_neg (by omega), List.take_left' (by rw [List.length_take]; omega),
    List.take_left' (by rw [List.length_take]; omega), returned]
  simp [Request.respond, writable]

theorem handleGet_complete (conn : Conn) {header : RequestHeader} (buffers : Buffers)
    (map : Hashmap c) (keySize : ¬ badKeySize header) (enough : header.keySize ≤ conn.stream.length)
    (writable : conn.writable = true) :
    Request.handleGet conn header buffers map =
      ⟨0, response ((get map ⟨buffers.keyBase, conn.stream.take header.keySize⟩).reply .val).1,
        some (.get ⟨buffers.keyBase, conn.stream.take header.keySize⟩),
        some (get map ⟨buffers.keyBase, conn.stream.take header.keySize⟩).self⟩ := by
  rw [Request.handleGet, if_neg keySize, rioReadn_enough buffers.key enough]
  dsimp only
  rw [if_neg (by omega), List.take_left' (by rw [List.length_take]; omega), Request.respond,
    if_pos writable]
  rfl

theorem handleEvict_complete (conn : Conn) {header : RequestHeader} (buffers : Buffers)
    (map : Hashmap c) (keySize : ¬ badKeySize header) (enough : header.keySize ≤ conn.stream.length)
    (writable : conn.writable = true) :
    Request.handleEvict conn header buffers map =
      ⟨0, responseHeader OK 0,
        some (.delete ⟨buffers.keyBase, conn.stream.take header.keySize⟩),
        some (delete map ⟨buffers.keyBase, conn.stream.take header.keySize⟩).self⟩ := by
  rw [Request.handleEvict, if_neg keySize, rioReadn_enough buffers.key enough]
  dsimp only
  rw [if_neg (by omega), List.take_left' (by rw [List.length_take]; omega), Request.respond,
    if_pos writable]

theorem readHeader {conn : Conn} (buffers : Buffers) (enough : headerSize ≤ conn.stream.length) :
    Request.rioReadn conn buffers.header headerSize =
      ((headerSize : Int), conn.stream.take headerSize, conn.rest) := by
  rw [rioReadn_enough buffers.header enough, List.drop_eq_nil_of_le buffers.header_length.le,
    List.append_nil]
  rfl

/-- The response to a whole request is the reply of the call it asks for. -/
theorem handleRequest_complete {conn : Conn} {buffers : Buffers} {query : Query}
    (complete : Complete conn.stream (query.call buffers)) (writable : conn.writable = true)
    (map : Hashmap c) {reply : Reply} {after : Hashmap c}
    (acts : act map (query.call buffers) = some (reply, after)) :
    (Request.handleRequest conn buffers map).written = response reply ∧
      (Request.handleRequest conn buffers map).map = some after := by
  have left : conn.rest.stream.length = conn.stream.length - headerSize := by simp [Conn.rest]
  cases query with
  | put key val =>
    obtain ⟨code, keySize, valueSize, enough, rfl, rfl⟩ := complete
    obtain ⟨outcome, returned, eq⟩ := Option.map_eq_some_iff.mp acts
    obtain ⟨rfl, rfl⟩ := Prod.mk.inj eq
    rw [Request.handleRequest, readHeader buffers (by omega)]
    dsimp only
    rw [if_neg (by decide), if_pos code,
      handlePut_complete conn.rest buffers map keySize valueSize (by omega) writable returned]
    refine ⟨?_, rfl⟩
    cases outcome.ret <;> simp [response]
  | get key =>
    obtain ⟨code, keySize, enough, rfl⟩ := complete
    obtain ⟨rfl, rfl⟩ := Prod.mk.inj (Option.some.inj acts)
    rw [Request.handleRequest, readHeader buffers (by omega)]
    dsimp only
    rw [if_neg (by decide), if_neg (by rw [code]; decide), if_pos code,
      handleGet_complete conn.rest buffers map keySize (by omega) writable]
    exact ⟨rfl, rfl⟩
  | evict key =>
    obtain ⟨code, keySize, enough, rfl⟩ := complete
    obtain ⟨rfl, rfl⟩ := Prod.mk.inj (Option.some.inj acts)
    rw [Request.handleRequest, readHeader buffers (by omega)]
    dsimp only
    rw [if_neg (by decide), if_neg (by rw [code]; decide), if_neg (by rw [code]; decide),
      if_pos code, handleEvict_complete conn.rest buffers map keySize (by omega) writable]
    exact ⟨rfl, rfl⟩
  | clear =>
    obtain ⟨code, enough⟩ := complete
    obtain ⟨rfl, rfl⟩ := Prod.mk.inj (Option.some.inj acts)
    rw [Request.handleRequest, readHeader buffers enough]
    dsimp only
    rw [if_neg (by decide), if_neg (by rw [code]; decide), if_neg (by rw [code]; decide),
      if_neg (by rw [code]; decide), if_pos code, Request.handleClear, Request.respond,
      if_pos (show conn.rest.writable = true from writable)]
    refine ⟨?_, rfl⟩
    cases (clearMap map).ret <;> simp [response]

/-! ## Sessions of whole requests -/

/-- A client that sends a request in full and takes the whole response, with the
buffers the server has for it. -/
structure Client where
  query : Query
  fd : Fd
  buffers : Buffers
  asks : Complete (bytesOf fd.arrivals) (query.call buffers)
  sturdy : Sturdy fd
  fresh : fd.received = []

/-- What the client gets from the server. -/
def serve (map : Hashmap c) (client : Client) : Option (List UInt8 × Hashmap c) :=
  let served := Wire.handleRequest client.fd client.buffers map
  served.map.map (served.fd.received, ·)

/-- The response that a dictionary has for a request. -/
def answer (d : Dictionary) : Query → List UInt8 × Dictionary
  | .put key val => (responseHeader OK 0, d.put key val)
  | .get key =>
    (match d.find key with
      | none => responseHeader NOT_FOUND 0
      | some val => responseHeader OK val.length ++ val, d)
  | .evict key => (responseHeader OK 0, d.delete key)
  | .clear => (responseHeader OK 0, .empty)

def consult (d : Dictionary) (client : Client) : Option (List UInt8 × Dictionary) :=
  some (answer d client.query)

/-- The put, if it is one, leaves the map a dictionary. -/
def Accepted (capacity : Nat) (d : Dictionary) (client : Client) : Prop :=
  match client.query with
  | .put key _ => d.Accepts capacity key
  | _ => True

theorem serve_eq (map : Hashmap c) (client : Client) {reply : Reply} {after : Hashmap c}
    (acts : act map (client.query.call client.buffers) = some (reply, after)) :
    serve map client = some (response reply, after) := by
  have delivers := Wire.handleRequest_delivers client.fd client.buffers map
  have complete : Complete client.fd.conn.stream (client.query.call client.buffers) := client.asks
  obtain ⟨written, changed⟩ := handleRequest_complete complete rfl map acts
  obtain ⟨sent, received, -, whole⟩ := delivers.sent
  rw [serve, delivers.map, changed, received, client.fresh, (whole client.sturdy).1, written]
  rfl

/-- One request: the map replies as the dictionary does, and goes on with it. -/
theorem represents_answer {map : Hashmap c} {d : Dictionary} (represents : Represents map d)
    (client : Client) (accepted : Accepted c.capacity d client) :
    ∃ reply after, act map (client.query.call client.buffers) = some (reply, after) ∧
      response reply = (answer d client.query).1 ∧ Represents after (answer d client.query).2 := by
  obtain ⟨keyBase, valBase⟩ := client.buffers.allocated
  unfold Accepted at accepted
  cases asked : client.query with
  | put key val =>
    rw [asked] at accepted
    obtain ⟨outcome, returned, stored, after⟩ :=
      represents.put ⟨_, key⟩ ⟨_, val⟩ keyBase valBase accepted true
    refine ⟨_, outcome.self, by rw [Query.call, act, returned]; rfl, ?_, after⟩
    rw [stored]
    rfl
  | get key =>
    refine ⟨_, map, by rw [Query.call, act, Outcome.reply, get_self], ?_, represents⟩
    rw [answer, ← represents.find ⟨_, key⟩ keyBase, valueOf, response]
    split <;> rfl
  | evict key => exact ⟨_, _, rfl, rfl, represents.delete ⟨_, key⟩ keyBase⟩
  | clear =>
    refine ⟨_, _, rfl, ?_, represents.clear⟩
    rw [clearMap_eq represents.sound]
    rfl

/-- Whatever the pieces the requests come in: in a session that leaves the map a
dictionary, every client gets what the dictionary has for it. -/
theorem session_is_dictionary (c : Config) (clients : List Client)
    (accepted : Machine.Through consult (Accepted c.capacity) .empty clients) :
    Machine.replies serve (createMap c) clients = Machine.replies consult .empty clients := by
  have agree (d : Dictionary) (map : Hashmap c) (client : Client) (represents : Represents map d)
      (accepted : Accepted c.capacity d client) :
      Machine.Agree (fun d map => Represents map d) (consult d client) (serve map client) := by
    obtain ⟨reply, after, acts, same, represents⟩ := represents_answer represents client accepted
    rw [serve_eq map client acts]
    exact .some ⟨same.symm, represents⟩
  exact (Machine.replies_of_traced
    (Machine.trace_agree agree (represents_create c) accepted)).symm

/-- One byte at a time, and a signal after each. -/
def pieces (bytes : List UInt8) : List Arrival :=
  bytes.flatMap fun byte => [.bytes byte [], .interrupt]

theorem bytesOf_pieces (bytes : List UInt8) : bytesOf (pieces bytes) = bytes := by
  induction bytes with
  | nil => rfl
  | cons byte bytes ih => exact congrArg (byte :: ·) ih

theorem some_allocated : (1 : Nat) ≠ 0 ∧ (2 : Nat) ≠ 0 := by decide

def someBuffers : Buffers where
  header := List.replicate headerSize (UInt8.ofNat 0)
  keyBase := 1
  key := List.replicate maxKeySize (UInt8.ofNat 0)
  valBase := 2
  val := List.replicate maxValueSize (UInt8.ofNat 0)
  header_length := List.length_replicate
  key_length := List.length_replicate
  val_length := List.length_replicate
  allocated := some_allocated

def patient (query : Query) (sized : query.Sized) : Client where
  query := query
  fd := ⟨pieces query.encode, .eof, [.interrupt, .takes 0], false, [], .other⟩
  buffers := someBuffers
  asks := by simpa [bytesOf_pieces] using complete_encode sized someBuffers []
  sturdy := ⟨rfl, by simp⟩
  fresh := rfl

theorem sized_a : (Query.get [97]).Sized := by simp [Query.Sized, maxKeySize]

theorem sized_put (byte : UInt8) : (Query.put [97] [byte]).Sized := by
  simp [Query.Sized, maxKeySize, maxValueSize]

def shortSession : List Client :=
  [patient (.put [97] [1]) (sized_put 1), patient (.get [97]) sized_a,
    patient (.evict [97]) sized_a, patient (.get [97]) sized_a,
    patient (.put [97] [2]) (sized_put 2), patient (.get [97]) sized_a]

theorem short_session_answered :
    Machine.replies serve (createMap twoSlots) shortSession =
      some [responseHeader OK 0, responseHeader OK 1 ++ [1], responseHeader OK 0,
        responseHeader NOT_FOUND 0, responseHeader OK 0, responseHeader OK 1 ++ [2]] := by
  have accepted : Machine.Through consult (Accepted twoSlots.capacity) .empty shortSession := by
    simp [Machine.Through, shortSession, consult, answer, Accepted, patient, Dictionary.Accepts,
      Dictionary.empty, Dictionary.put, Dictionary.delete, twoSlots]
  rw [session_is_dictionary twoSlots shortSession accepted]
  rfl

end LinuxSystem.Server.Session
