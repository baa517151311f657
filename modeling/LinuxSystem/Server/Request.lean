import LinuxSystem.Map.ReadYourWrite

/-!
# Requests

`handle_request` and its handlers, from the bytes of the connection to the call
on the map and the bytes of the response. The handlers take a read for complete
unless it returns a negative number. At the end of the stream `Rio_readn`
returns a short count, and what it did not fill of the buffers stays as `malloc`
or the stack left it.
-/

namespace LinuxSystem.Server.Request

open LinuxSystem.Map

/-- What a read meets after the last byte. -/
inductive Ending where
  | eof
  | error
  deriving DecidableEq, Repr

/-- The bytes the client has sent and the server has not read, and whether a
write succeeds. -/
structure Conn where
  stream : List UInt8
  ending : Ending
  writable : Bool
  deriving DecidableEq, Repr

def maxKeySize : Nat := 2048

def maxValueSize : Nat := 4096

def headerSize : Nat := 9

/-- The buffers of one request, with what they hold before it is read. `Malloc`
does not return NULL. -/
structure Buffers where
  header : List UInt8
  keyBase : Nat
  key : List UInt8
  valBase : Nat
  val : List UInt8
  header_length : header.length = headerSize
  key_length : key.length = maxKeySize
  val_length : val.length = maxValueSize
  allocated : keyBase ≠ 0 ∧ valBase ≠ 0

structure RequestHeader where
  requestCode : Nat
  keySize : Nat
  valueSize : Nat
  deriving DecidableEq, Repr

/-- A little-endian `uint32_t` at an offset. -/
def word (bytes : List UInt8) (i : Nat) : Nat :=
  (bytes.getD i 0).toNat + 2 ^ 8 * (bytes.getD (i + 1) 0).toNat +
    2 ^ 16 * (bytes.getD (i + 2) 0).toNat + 2 ^ 24 * (bytes.getD (i + 3) 0).toNat

/-- The packed `request_header_t`. -/
def requestHeader (bytes : List UInt8) : RequestHeader :=
  ⟨(bytes.getD 0 0).toNat, word bytes 1, word bytes 5⟩

def PUT : Nat := 0x01
def GET : Nat := 0x02
def EVICT : Nat := 0x04
def CLEAR : Nat := 0x08

def OK : Nat := 200
def UNSUPPORTED : Nat := 220
def BAD_REQUEST : Nat := 400
def NOT_FOUND : Nat := 404

/-- The count it returns, the buffer and the connection. -/
def rioReadn (conn : Conn) (buf : List UInt8) (n : Nat) : Int × List UInt8 × Conn :=
  let got := conn.stream.take n
  let ret : Int := if got.length < n ∧ conn.ending = .error then -1 else got.length
  (ret, got ++ buf.drop got.length, { conn with stream := conn.stream.drop n })

def wordBytes (n : Nat) : List UInt8 :=
  [UInt8.ofNat n, UInt8.ofNat (n / 2 ^ 8), UInt8.ofNat (n / 2 ^ 16), UInt8.ofNat (n / 2 ^ 24)]

/-- The packed `response_header_t`. -/
def responseHeader (responseCode valueSize : Nat) : List UInt8 :=
  wordBytes responseCode ++ wordBytes valueSize

/-- What a handler returns and writes, the call it makes on the map, and the map
after it; `none` where the call never returns. -/
structure Handled (c : Config) where
  ret : Int
  written : List UInt8
  called : Option Call
  map : Option (Hashmap c)

variable {c : Config}

/-- The `Rio_writen` of a response and the `return` after it. -/
def respond (conn : Conn) (response : List UInt8) (called : Option Call) (map : Hashmap c) :
    Handled c :=
  if conn.writable = true then ⟨0, response, called, some map⟩ else ⟨-1, [], called, some map⟩

def fail (map : Hashmap c) : Handled c := ⟨-1, [], none, some map⟩

def badKeySize (header : RequestHeader) : Prop := header.keySize < 1 ∨ maxKeySize < header.keySize

def badValueSize (header : RequestHeader) : Prop :=
  header.valueSize < 1 ∨ maxValueSize < header.valueSize

instance (header : RequestHeader) : Decidable (badKeySize header) :=
  inferInstanceAs (Decidable (_ ∨ _))

instance (header : RequestHeader) : Decidable (badValueSize header) :=
  inferInstanceAs (Decidable (_ ∨ _))

def handlePut (conn : Conn) (header : RequestHeader) (buffers : Buffers) (map : Hashmap c) :
    Handled c :=
  if badKeySize header ∨ badValueSize header then
    respond conn (responseHeader BAD_REQUEST 0) none map
  else
    let (n, key, conn) := rioReadn conn buffers.key header.keySize
    if n < 0 then fail map
    else
      let (n, val, conn) := rioReadn conn buffers.val header.valueSize
      if n < 0 then fail map
      else
        let mapKey : MapKey := ⟨buffers.keyBase, key.take header.keySize⟩
        let mapVal : MapVal := ⟨buffers.valBase, val.take header.valueSize⟩
        let called := Call.put mapKey mapVal true
        match put map mapKey mapVal true with
        | none => ⟨0, [], some called, none⟩
        | some outcome =>
          let responseCode := if outcome.ret = true then OK else BAD_REQUEST
          respond conn (responseHeader responseCode 0) (some called) outcome.self

def handleGet (conn : Conn) (header : RequestHeader) (buffers : Buffers) (map : Hashmap c) :
    Handled c :=
  if badKeySize header then respond conn (responseHeader BAD_REQUEST 0) none map
  else
    let (n, key, conn) := rioReadn conn buffers.key header.keySize
    if n < 0 then fail map
    else
      let mapKey : MapKey := ⟨buffers.keyBase, key.take header.keySize⟩
      let outcome := get map mapKey
      let mapVal := outcome.ret
      let response :=
        if mapVal.valBase = 0 then responseHeader NOT_FOUND 0
        else responseHeader OK mapVal.bytes.length ++ mapVal.bytes
      respond conn response (some (.get mapKey)) outcome.self

def handleEvict (conn : Conn) (header : RequestHeader) (buffers : Buffers) (map : Hashmap c) :
    Handled c :=
  if badKeySize header then respond conn (responseHeader BAD_REQUEST 0) none map
  else
    let (n, key, conn) := rioReadn conn buffers.key header.keySize
    if n < 0 then fail map
    else
      let mapKey : MapKey := ⟨buffers.keyBase, key.take header.keySize⟩
      respond conn (responseHeader OK 0) (some (.delete mapKey)) (delete map mapKey).self

def handleClear (conn : Conn) (map : Hashmap c) : Handled c :=
  let outcome := clearMap map
  let responseCode := if outcome.ret = true then OK else BAD_REQUEST
  respond conn (responseHeader responseCode 0) (some .clearMap) outcome.self

/-- What a handler returns is not passed on. -/
def handleRequest (conn : Conn) (buffers : Buffers) (map : Hashmap c) : Handled c :=
  let (n, bytes, conn) := rioReadn conn buffers.header headerSize
  let header := requestHeader bytes
  if n < 0 then fail map
  else if header.requestCode = PUT then { handlePut conn header buffers map with ret := 0 }
  else if header.requestCode = GET then { handleGet conn header buffers map with ret := 0 }
  else if header.requestCode = EVICT then { handleEvict conn header buffers map with ret := 0 }
  else if header.requestCode = CLEAR then { handleClear conn map with ret := 0 }
  else respond conn (responseHeader UNSUPPORTED 0) none map

/-! ## What a handler does -/

/-- The map after a request, by the call it makes. -/
def mapAfter (map : Hashmap c) : Option Call → Option (Hashmap c)
  | none => some map
  | some call => (act map call).map Prod.snd

@[simp] theorem mapAfter_put (map : Hashmap c) (key : MapKey) (val : MapVal) (force : Bool) :
    mapAfter map (some (.put key val force)) = (put map key val force).map Outcome.self := by
  simp [mapAfter, act, Outcome.reply, Function.comp_def]

@[simp] theorem mapAfter_get (map : Hashmap c) (key : MapKey) :
    mapAfter map (some (.get key)) = some (get map key).self := rfl

@[simp] theorem mapAfter_delete (map : Hashmap c) (key : MapKey) :
    mapAfter map (some (.delete key)) = some (delete map key).self := rfl

@[simp] theorem mapAfter_clearMap (map : Hashmap c) :
    mapAfter map (some .clearMap) = some (clearMap map).self := rfl

/-- The map changes by the call a handler makes and by nothing else. -/
def Handled.Obeys (handled : Handled c) (map : Hashmap c) : Prop :=
  handled.map = mapAfter map handled.called

@[simp] theorem called_respond (conn : Conn) (response : List UInt8) (called : Option Call)
    (map : Hashmap c) : (respond conn response called map).called = called := by
  unfold respond
  split <;> rfl

@[simp] theorem map_respond (conn : Conn) (response : List UInt8) (called : Option Call)
    (map : Hashmap c) : (respond conn response called map).map = some map := by
  unfold respond
  split <;> rfl

theorem fail_obeys (map : Hashmap c) : (fail map).Obeys map := rfl

theorem respond_obeys {conn : Conn} {response : List UInt8} {called : Option Call}
    {map after : Hashmap c} (h : mapAfter map called = some after) :
    (respond conn response called after).Obeys map := by
  simp [Handled.Obeys, h]

theorem handlePut_obeys (conn : Conn) (header : RequestHeader) (buffers : Buffers)
    (map : Hashmap c) : (handlePut conn header buffers map).Obeys map := by
  unfold handlePut
  split
  · exact respond_obeys rfl
  dsimp only
  split
  · exact fail_obeys map
  split
  · exact fail_obeys map
  split
  · rename_i stuck
    simp [Handled.Obeys, stuck]
  · rename_i returned
    exact respond_obeys (by simp [returned])

theorem handleGet_obeys (conn : Conn) (header : RequestHeader) (buffers : Buffers)
    (map : Hashmap c) : (handleGet conn header buffers map).Obeys map := by
  unfold handleGet
  split
  · exact respond_obeys rfl
  dsimp only
  split
  · exact fail_obeys map
  · exact respond_obeys rfl

theorem handleEvict_obeys (conn : Conn) (header : RequestHeader) (buffers : Buffers)
    (map : Hashmap c) : (handleEvict conn header buffers map).Obeys map := by
  unfold handleEvict
  split
  · exact respond_obeys rfl
  dsimp only
  split
  · exact fail_obeys map
  · exact respond_obeys rfl

theorem handleRequest_obeys (conn : Conn) (buffers : Buffers) (map : Hashmap c) :
    (handleRequest conn buffers map).Obeys map := by
  unfold handleRequest
  dsimp only
  split
  · exact fail_obeys map
  split
  · exact handlePut_obeys _ _ _ map
  split
  · exact handleGet_obeys _ _ _ map
  split
  · exact handleEvict_obeys _ _ _ map
  split
  · exact respond_obeys rfl
  · exact respond_obeys rfl

/-! ## Which call a request makes -/

/-- Reading `n` bytes does not fail; it may still come short. -/
def Reads (conn : Conn) (n : Nat) : Prop := conn.ending = .error → n ≤ conn.stream.length

/-- The first `n` bytes of a buffer after a read of `n` bytes. -/
def filled (stream buf : List UInt8) (n : Nat) : List UInt8 :=
  (stream.take n ++ buf.drop (stream.take n).length).take n

theorem filled_eq {stream : List UInt8} (buf : List UInt8) {n : Nat} (h : n ≤ stream.length) :
    filled stream buf n = stream.take n := by
  simp [filled, h]

theorem readn_neg (conn : Conn) (buf : List UInt8) (n : Nat) :
    (rioReadn conn buf n).1 < 0 ↔ ¬ Reads conn n := by
  have short : (conn.stream.take n).length < n ↔ ¬ n ≤ conn.stream.length := by
    rw [List.length_take]
    omega
  simp only [rioReadn, Reads, short]
  split
  · rename_i failed
    simp [failed]
  · rename_i enough
    refine iff_of_false (by omega) fun failed => enough ?_
    rw [Classical.not_imp] at failed
    exact ⟨failed.2, failed.1⟩

theorem reads_add {conn : Conn} (buf : List UInt8) {m n : Nat} :
    Reads conn (m + n) ↔ Reads conn m ∧ Reads (rioReadn conn buf m).2.2 n := by
  simp only [Reads, rioReadn, List.length_drop]
  constructor
  · intro h
    exact ⟨fun failing => by have := h failing; omega, fun failing => by have := h failing; omega⟩
  · intro h failing
    have := h.1 failing
    have := h.2 failing
    omega

theorem handlePut_called (conn : Conn) (header : RequestHeader) (buffers : Buffers)
    (map : Hashmap c) {call : Call} : (handlePut conn header buffers map).called = some call ↔
      ¬ badKeySize header ∧ ¬ badValueSize header ∧ Reads conn (header.keySize + header.valueSize) ∧
      call = .put ⟨buffers.keyBase, filled conn.stream buffers.key header.keySize⟩
        ⟨buffers.valBase,
          filled (conn.stream.drop header.keySize) buffers.val header.valueSize⟩ true := by
  unfold handlePut
  split
  · rename_i bad
    simp only [called_respond]
    grind
  rename_i accepted
  dsimp only
  rw [reads_add buffers.key]
  split
  · rename_i failed
    simp [fail, (readn_neg _ _ _).mp failed]
  rename_i keyRead
  split
  · rename_i failed
    simp [fail, (readn_neg _ _ _).mp failed]
  rename_i valRead
  rw [readn_neg, not_not] at keyRead valRead
  simp only [not_or] at accepted
  have calls {called : Call} : some called = some call ↔
      ¬ badKeySize header ∧ ¬ badValueSize header ∧
        (Reads conn header.keySize ∧
          Reads (rioReadn conn buffers.key header.keySize).2.2 header.valueSize) ∧
        call = called := by
    simp [accepted, keyRead, valRead, eq_comm]
  split
  · exact calls
  · rw [called_respond]
    exact calls

theorem handleEvict_called (conn : Conn) (header : RequestHeader) (buffers : Buffers)
    (map : Hashmap c) {call : Call} : (handleEvict conn header buffers map).called = some call ↔
      ¬ badKeySize header ∧ Reads conn header.keySize ∧
      call = .delete ⟨buffers.keyBase, filled conn.stream buffers.key header.keySize⟩ := by
  unfold handleEvict
  split
  · rename_i bad
    simp [bad]
  rename_i accepted
  dsimp only
  split
  · rename_i failed
    simp [fail, (readn_neg _ _ _).mp failed]
  rename_i keyRead
  rw [readn_neg, not_not] at keyRead
  rw [called_respond]
  simp only [accepted, keyRead, not_false_eq_true, true_and, Option.some.injEq]
  exact eq_comm

theorem handleGet_called {conn : Conn} {header : RequestHeader} {buffers : Buffers}
    {map : Hashmap c} {call : Call} (h : (handleGet conn header buffers map).called = some call) :
    ∃ key, call = .get key := by
  unfold handleGet at h
  split at h
  · simp at h
  dsimp only at h
  split at h
  · simp [fail] at h
  · rw [called_respond, Option.some.injEq] at h
    exact ⟨_, h.symm⟩

/-- The header the handlers see: bytes that did not come are those on the stack. -/
def seenHeader (stream : List UInt8) (buffers : Buffers) : RequestHeader :=
  requestHeader (stream.take headerSize ++ buffers.header.drop (stream.take headerSize).length)

theorem seenHeader_eq {stream : List UInt8} (buffers : Buffers) (h : headerSize ≤ stream.length) :
    seenHeader stream buffers = requestHeader (stream.take headerSize) := by
  rw [seenHeader, List.length_take, Nat.min_eq_left h, ← buffers.header_length, List.drop_length,
    List.append_nil]

/-- The connection after the header. -/
def Conn.rest (conn : Conn) : Conn := { conn with stream := conn.stream.drop headerSize }

theorem handleRequest_called (conn : Conn) (buffers : Buffers) (map : Hashmap c) {call : Call} :
    (handleRequest conn buffers map).called = some call ↔ Reads conn headerSize ∧
      let header := seenHeader conn.stream buffers
      if header.requestCode = PUT then
        (handlePut conn.rest header buffers map).called = some call
      else if header.requestCode = GET then
        (handleGet conn.rest header buffers map).called = some call
      else if header.requestCode = EVICT then
        (handleEvict conn.rest header buffers map).called = some call
      else header.requestCode = CLEAR ∧ call = .clearMap := by
  unfold handleRequest
  dsimp only
  split
  · rename_i failed
    simp [fail, (readn_neg _ _ _).mp failed]
  rename_i headerRead
  rw [readn_neg, not_not] at headerRead
  have seen : requestHeader (rioReadn conn buffers.header headerSize).2.1 =
      seenHeader conn.stream buffers := rfl
  have rest : (rioReadn conn buffers.header headerSize).2.2 = conn.rest := rfl
  simp only [headerRead, true_and, seen, rest]
  split_ifs with put get evict clear
  · rfl
  · rfl
  · rfl
  · simp only [handleClear, called_respond, Option.some.injEq, clear, true_and]
    exact eq_comm
  · simp [clear]

/-! ## Complete requests -/

/-- The stream asks for the call in full: it holds the header, and the key and
the value with the sizes the header gives, within their bounds. -/
def Complete (stream : List UInt8) (call : Call) : Prop :=
  let header := requestHeader (stream.take headerSize)
  let keyBytes := (stream.drop headerSize).take header.keySize
  let valueBytes := ((stream.drop headerSize).drop header.keySize).take header.valueSize
  match call with
  | .put key val _ => header.requestCode = PUT ∧ ¬ badKeySize header ∧ ¬ badValueSize header ∧
      headerSize + header.keySize + header.valueSize ≤ stream.length ∧
      key.bytes = keyBytes ∧ val.bytes = valueBytes
  | .get key => header.requestCode = GET ∧ ¬ badKeySize header ∧
      headerSize + header.keySize ≤ stream.length ∧ key.bytes = keyBytes
  | .delete key => header.requestCode = EVICT ∧ ¬ badKeySize header ∧
      headerSize + header.keySize ≤ stream.length ∧ key.bytes = keyBytes
  | .clearMap => header.requestCode = CLEAR ∧ headerSize ≤ stream.length

/-- The request leaves the map alone, or it changes it by a call that its bytes
ask for in full. -/
def ChangesWhenComplete (conn : Conn) (buffers : Buffers) (map : Hashmap c) : Prop :=
  (handleRequest conn buffers map).map = some map ∨
    ∃ call, (handleRequest conn buffers map).called = some call ∧
      (handleRequest conn buffers map).map = (act map call).map Prod.snd ∧
      Complete conn.stream call

/-- The client does not close its side before the end of the request that the
handlers see, where they accept its code and its sizes. -/
def Reaches (stream : List UInt8) (buffers : Buffers) : Prop :=
  let header := seenHeader stream buffers
  (header.requestCode = PUT → ¬ badKeySize header → ¬ badValueSize header →
    headerSize + header.keySize + header.valueSize ≤ stream.length) ∧
  (header.requestCode = EVICT → ¬ badKeySize header →
    headerSize + header.keySize ≤ stream.length) ∧
  (header.requestCode = CLEAR → headerSize ≤ stream.length)

theorem complete_put {conn : Conn} {buffers : Buffers}
    (code : (seenHeader conn.stream buffers).requestCode = PUT)
    {map : Hashmap c} {call : Call}
    (called : (handlePut conn.rest (seenHeader conn.stream buffers) buffers map).called = some call) :
    Complete conn.stream call ↔ headerSize + (seenHeader conn.stream buffers).keySize +
      (seenHeader conn.stream buffers).valueSize ≤ conn.stream.length := by
  obtain ⟨keySize, valueSize, -, rfl⟩ := (handlePut_called _ _ _ _).mp called
  constructor
  · rintro ⟨-, -, -, enough, -⟩
    rwa [seenHeader_eq buffers (by omega)]
  · intro enough
    rw [seenHeader_eq buffers (by omega)] at *
    refine ⟨code, keySize, valueSize, enough, filled_eq _ ?_, filled_eq _ ?_⟩
    · simp only [Conn.rest, List.length_drop]
      omega
    · simp only [Conn.rest, List.length_drop]
      omega

theorem complete_evict {conn : Conn} {buffers : Buffers}
    (code : (seenHeader conn.stream buffers).requestCode = EVICT)
    {map : Hashmap c} {call : Call}
    (called : (handleEvict conn.rest (seenHeader conn.stream buffers) buffers map).called =
      some call) :
    Complete conn.stream call ↔
      headerSize + (seenHeader conn.stream buffers).keySize ≤ conn.stream.length := by
  obtain ⟨keySize, -, rfl⟩ := (handleEvict_called _ _ _ _).mp called
  constructor
  · rintro ⟨-, -, enough, -⟩
    rwa [seenHeader_eq buffers (by omega)]
  · intro enough
    rw [seenHeader_eq buffers (by omega)] at *
    refine ⟨code, keySize, enough, filled_eq _ ?_⟩
    simp only [Conn.rest, List.length_drop]
    omega

theorem complete_clear {stream : List UInt8} {buffers : Buffers}
    (code : (seenHeader stream buffers).requestCode = CLEAR) :
    Complete stream .clearMap ↔ headerSize ≤ stream.length := by
  constructor
  · exact And.right
  · intro enough
    rw [seenHeader_eq buffers enough] at code
    exact ⟨code, enough⟩

theorem complete_of_called {conn : Conn} {buffers : Buffers}
    (reaches : conn.ending = .error ∨ Reaches conn.stream buffers) {map : Hashmap c} {call : Call}
    (called : (handleRequest conn buffers map).called = some call) :
    Complete conn.stream call ∨ ∃ key, call = .get key := by
  obtain ⟨headerRead, called⟩ := (handleRequest_called _ _ _).mp called
  dsimp only at called
  have rest : conn.rest.stream.length = conn.stream.length - headerSize := by simp [Conn.rest]
  split_ifs at called with put get evict
  · obtain ⟨keySize, valueSize, read, -⟩ := (handlePut_called _ _ _ _).mp called
    refine .inl ((complete_put put called).mpr ?_)
    obtain failing | reaches := reaches
    · have := headerRead failing
      have := read failing
      omega
    · exact reaches.1 put keySize valueSize
  · exact .inr (handleGet_called called)
  · obtain ⟨keySize, read, -⟩ := (handleEvict_called _ _ _ _).mp called
    refine .inl ((complete_evict evict called).mpr ?_)
    obtain failing | reaches := reaches
    · have := headerRead failing
      have := read failing
      omega
    · exact reaches.2.1 evict keySize
  · obtain ⟨clear, rfl⟩ := called
    refine .inl ((complete_clear clear).mpr ?_)
    obtain failing | reaches := reaches
    · exact headerRead failing
    · exact reaches.2.2 clear

/-! ## Every incomplete call changes some map -/

/-- The first put on a new map. -/
theorem first_put (c : Config) {key : MapKey} {val : MapVal} (base : key.keyBase ≠ 0)
    (value : val.valBase ≠ 0) (force : Bool) :
    ∃ outcome, put (createMap c) key val force = some outcome ∧ Sound outcome.self ∧
      outcome.self.size = 1 ∧ ∃ i, Holds outcome.self.nodes i key := by
  obtain ⟨outcome, returned⟩ := put_returns (sound_create c) key val force
  refine ⟨outcome, returned, put_sound (sound_create c) returned, ?_⟩
  have effect : PutEffect (createMap c) key val force outcome := by
    apply putSection_effect
    rwa [put, if_neg (by simp [createMap, base, value])] at returned
  have empty : (createMap c).size = 0 := rfl
  have := c.positive
  cases effect with
  | full size => omega
  | store i stored room path slot =>
    obtain ⟨rfl, -⟩ | ⟨-, holds⟩ := slot
    · exact ⟨rfl, i, holds_update.mpr (by simp [Live, base])⟩
    · exact absurd rfl holds.keyed
  | evict noRoom => omega

theorem some_map_changes {call : Call} (changes : match call with
      | .put key val _ => key.keyBase ≠ 0 ∧ val.valBase ≠ 0
      | .get _ => False
      | .delete key => key.keyBase ≠ 0
      | .clearMap => True) :
    ∃ map : Hashmap c, mapAfter map (some call) ≠ some map := by
  have sized {a b : Hashmap c} (ne : a.size ≠ b.size) : some a ≠ some b := fun eq =>
    ne (by rw [Option.some.inj eq])
  match call with
  | .put key val force =>
    obtain ⟨outcome, returned, -, one, -⟩ := first_put c changes.1 changes.2 force
    refine ⟨createMap c, ?_⟩
    rw [mapAfter_put, returned]
    exact sized (by rw [one]; exact Nat.one_ne_zero)
  | .delete key =>
    have value : (⟨1, []⟩ : MapVal).valBase ≠ 0 := Nat.one_ne_zero
    obtain ⟨outcome, -, sound, one, i, holds⟩ := first_put c changes value true
    refine ⟨outcome.self, ?_⟩
    rw [mapAfter_delete]
    obtain ⟨-, absent⟩ | ⟨j, held, eq⟩ := delete_cases sound key
    · exact absurd holds (absent changes i)
    · rw [eq]
      have := (size_deleteSection sound held.1).2
      exact sized (by omega)
  | .clearMap =>
    have base : (⟨1, []⟩ : MapKey).keyBase ≠ 0 := Nat.one_ne_zero
    have value : (⟨1, []⟩ : MapVal).valBase ≠ 0 := Nat.one_ne_zero
    obtain ⟨outcome, -, sound, one, -⟩ := first_put c base value true
    refine ⟨outcome.self, ?_⟩
    rw [mapAfter_clearMap, clearMap, if_neg (by simp [sound.valid])]
    exact sized (by rw [one]; exact Nat.zero_ne_one)

/-- The request makes this call whatever the map, and the call changes some map. -/
theorem complete_of_changes {conn : Conn} {buffers : Buffers}
    (whole : ∀ map : Hashmap c, ChangesWhenComplete conn buffers map) {call : Call}
    (called : ∀ map : Hashmap c, (handleRequest conn buffers map).called = some call)
    (changes : ∃ map : Hashmap c, mapAfter map (some call) ≠ some map) :
    Complete conn.stream call := by
  obtain ⟨map, changed⟩ := changes
  obtain same | ⟨call', called', -, complete⟩ := whole map
  · rw [handleRequest_obeys, called map] at same
    exact absurd same changed
  · rw [called map, Option.some.injEq] at called'
    exact called' ▸ complete

/-- On every map the request changes it only by a call that its bytes ask for in
full, exactly when the client closes its side no earlier than the end of the
request the handlers see, or when the connection fails rather than ends. -/
theorem only_complete_requests_change (c : Config) (conn : Conn) (buffers : Buffers) :
    (∀ map : Hashmap c, ChangesWhenComplete conn buffers map) ↔
      conn.ending = .error ∨ Reaches conn.stream buffers := by
  constructor
  · intro whole
    by_cases failing : conn.ending = .error
    · exact .inl failing
    have reads {conn' : Conn} {n : Nat} (h : conn'.ending = conn.ending) : Reads conn' n :=
      fun failing' => absurd (h ▸ failing') failing
    have begun {call : Call} {map : Hashmap c} :=
      (@handleRequest_called c conn buffers map call).mpr
    refine .inr ⟨fun code keySize valueSize => ?_, fun code keySize => ?_, fun code => ?_⟩
    · have called (map : Hashmap c) :=
        (handlePut_called conn.rest _ buffers map).mpr ⟨keySize, valueSize, reads rfl, rfl⟩
      refine (complete_put code (called (createMap c))).mp (complete_of_changes whole
        (fun map => begun ⟨reads rfl, ?_⟩) (some_map_changes buffers.allocated))
      simpa [code] using called map
    · have called (map : Hashmap c) :=
        (handleEvict_called conn.rest _ buffers map).mpr ⟨keySize, reads rfl, rfl⟩
      refine (complete_evict code (called (createMap c))).mp (complete_of_changes whole
        (fun map => begun ⟨reads rfl, ?_⟩) (some_map_changes buffers.allocated.1))
      simpa [code, PUT, GET, EVICT] using called map
    · refine (complete_clear code).mp (complete_of_changes whole
        (fun map => begun ⟨reads rfl, ?_⟩) (some_map_changes trivial))
      simp [code, PUT, GET, EVICT, CLEAR]
  · intro reaches map
    have obeys := handleRequest_obeys conn buffers map
    unfold Handled.Obeys at obeys
    cases called : (handleRequest conn buffers map).called with
    | none => exact .inl (by rw [obeys, called]; rfl)
    | some call =>
      rw [called] at obeys
      obtain complete | ⟨key, rfl⟩ := complete_of_called reaches called
      · exact .inr ⟨call, called, obeys, complete⟩
      · refine .inl (obeys.trans ?_)
        rw [mapAfter_get, Map.get]
        split <;> rfl

/-- The header of a put with a key and a value of one byte each, and no more. -/
def headerOnly : Conn := ⟨[1, 1, 0, 0, 0, 1, 0, 0, 0], .eof, true⟩

def zeroBuffers : Buffers where
  header := List.replicate headerSize 0
  keyBase := 1
  key := List.replicate maxKeySize 0
  valBase := 2
  val := List.replicate maxValueSize 0
  header_length := List.length_replicate
  key_length := List.length_replicate
  val_length := List.length_replicate
  allocated := ⟨Nat.one_ne_zero, by decide⟩

/-- The put stores a key and a value the client never sent. -/
theorem truncated_put_stores :
    (handleRequest headerOnly zeroBuffers (createMap twoSlots)).called =
        some (.put ⟨1, [0]⟩ ⟨2, [0]⟩ true) ∧
      ¬ ChangesWhenComplete headerOnly zeroBuffers (createMap twoSlots) := by
  have called : (handleRequest headerOnly zeroBuffers (createMap twoSlots)).called =
      some (.put ⟨1, [0]⟩ ⟨2, [0]⟩ true) := rfl
  have size : (handleRequest headerOnly zeroBuffers (createMap twoSlots)).map.map Hashmap.size =
      some 1 := rfl
  refine ⟨called, ?_⟩
  rintro (same | ⟨call, called', -, complete⟩)
  · rw [same] at size
    exact absurd size (by decide)
  · rw [called, Option.some.injEq] at called'
    subst called'
    exact absurd complete.2.2.2.1 (by decide)

end LinuxSystem.Server.Request
