import LinuxSystem.Base.Triples

/-!
# The Fractionated Morse cipher

The `-f` half of `main` with `print_buffer`, `clean_buffer`, `write_buffer` and
`print_buffer_decode`. A `char` is signed: `getchar` gives 0xFF for EOF, and the
bytes from 0x80 on are below 0x21.
-/

namespace LinuxSystem.Morse

/-- The characters of the tables, and the NUL that ends a string. -/
inductive Symbol where
  | nul
  | dot
  | dash
  | x
  deriving DecidableEq, Repr

/-- The codes of the characters from `!` on; the empty ones stand for none. -/
def morseTable : List (List Symbol) := [
  -- ! to /
   [.dash, .dot, .dash, .dot, .dash, .dash], [.dot, .dash, .dot, .dot, .dash, .dot], [], [], [],
   [], [.dot, .dash, .dash, .dash, .dash, .dot], [.dash, .dot, .dash, .dash, .dot],
   [.dash, .dot, .dash, .dash, .dot, .dash], [], [], [.dash, .dash, .dot, .dot, .dash, .dash],
   [.dash, .dot, .dot, .dot, .dot, .dash], [.dot, .dash, .dot, .dash, .dot, .dash], [],
  -- 0 to 9
   [.dash, .dash, .dash, .dash, .dash], [.dot, .dash, .dash, .dash, .dash],
   [.dot, .dot, .dash, .dash, .dash], [.dot, .dot, .dot, .dash, .dash],
   [.dot, .dot, .dot, .dot, .dash], [.dot, .dot, .dot, .dot, .dot],
   [.dash, .dot, .dot, .dot, .dot], [.dash, .dash, .dot, .dot, .dot],
   [.dash, .dash, .dash, .dot, .dot], [.dash, .dash, .dash, .dash, .dot],
  -- : to @
   [.dash, .dash, .dash, .dot, .dot, .dot], [.dash, .dot, .dash, .dot, .dash, .dot], [],
   [.dash, .dot, .dot, .dot, .dash], [], [.dot, .dot, .dash, .dash, .dot, .dot],
   [.dot, .dash, .dash, .dot, .dash, .dot],
  -- A to Z
   [.dot, .dash], [.dash, .dot, .dot, .dot], [.dash, .dot, .dash, .dot], [.dash, .dot, .dot],
   [.dot], [.dot, .dot, .dash, .dot], [.dash, .dash, .dot], [.dot, .dot, .dot, .dot],
   [.dot, .dot], [.dot, .dash, .dash, .dash], [.dash, .dot, .dash], [.dot, .dash, .dot, .dot],
   [.dash, .dash], [.dash, .dot], [.dash, .dash, .dash], [.dot, .dash, .dash, .dot],
   [.dash, .dash, .dot, .dash], [.dot, .dash, .dot], [.dot, .dot, .dot], [.dash],
   [.dot, .dot, .dash], [.dot, .dot, .dot, .dash], [.dot, .dash, .dash],
   [.dash, .dot, .dot, .dash], [.dash, .dot, .dash, .dash], [.dash, .dash, .dot, .dot],
  -- [ to z
   [], [], [], [], [], [], [], [], [], [], [], [], [], [], [], [], [], [], [], [], [], [], [], [],
   [], [], [], [], [], [], [], []]

def fractionatedTable : List (Symbol × Symbol × Symbol) := [
   (.dot, .dot, .dot), (.dot, .dot, .dash), (.dot, .dot, .x), (.dot, .dash, .dot),
   (.dot, .dash, .dash), (.dot, .dash, .x), (.dot, .x, .dot), (.dot, .x, .dash), (.dot, .x, .x),
   (.dash, .dot, .dot), (.dash, .dot, .dash), (.dash, .dot, .x), (.dash, .dash, .dot),
   (.dash, .dash, .dash), (.dash, .dash, .x), (.dash, .x, .dot), (.dash, .x, .dash),
   (.dash, .x, .x), (.x, .dot, .dot), (.x, .dot, .dash), (.x, .dot, .x), (.x, .dash, .dot),
   (.x, .dash, .dash), (.x, .dash, .x), (.x, .x, .dot), (.x, .x, .dash)]

def EOF : UInt8 := 0xFF
def tab : UInt8 := 0x09
def newline : UInt8 := 0x0A
def space : UInt8 := 0x20

/-- A to Z. -/
def fmAlphabet : List UInt8 := (List.range 26).map fun i => UInt8.ofNat (65 + i)

/-- A key that `validargs` accepts; no key at all fills `fm_key` as the empty
one does. -/
structure Key where
  letters : List UInt8
  capital : ∀ c ∈ letters, c ∈ fmAlphabet
  distinct : letters.Nodup

def Key.fmKey (key : Key) : List UInt8 :=
  key.letters ++ fmAlphabet.filter fun c => c ∉ key.letters

def noKey : Key := ⟨[], by simp, by simp⟩

/-- The entry of `morse_table` for a character from `!` to `z`. -/
def morse (temp : UInt8) : List Symbol := morseTable.getD (temp.toNat - 0x21) []

/-! ## The buffer -/

/-- The ring of eight characters; the ninth is always NUL. The flags are
indices that wrap at 8 and at -1. -/
structure Buffer where
  cells : Fin 8 → Symbol
  number : Nat
  writeFlag : Fin 8
  readFlag : Fin 8

/-- What `clean_buffer` leaves, and what the buffer is at first. -/
def cleanBuffer : Buffer := ⟨fun _ => .nul, 0, 0, 0⟩

def writeBuffer (buffer : Buffer) (temp : Symbol) : Buffer :=
  { buffer with
    cells := Function.update buffer.cells buffer.writeFlag temp
    writeFlag := buffer.writeFlag + 1
    number := buffer.number + 1 }

/-! ## Encoding -/

/-- `failed` is `EXIT_FAILURE`, after which nothing more is read or written. -/
structure Encoder where
  buffer : Buffer
  out : List UInt8
  failed : Bool
  pre : UInt8

/-- One turn of the `for` of `print_buffer`: a mismatch takes back the steps of
`read_flag`. -/
def tryEntry (cells : Fin 8 → Symbol) (readFlag : Fin 8) (entry : Symbol × Symbol × Symbol) :
    Bool × Fin 8 :=
  if cells readFlag = entry.1 then
    let readFlag := readFlag + 1
    if cells readFlag = entry.2.1 then
      let readFlag := readFlag + 1
      if cells readFlag = entry.2.2 then (true, readFlag + 1)
      else (false, readFlag - 1 - 1)
    else (false, readFlag - 1)
  else (false, readFlag)

def findEntry (cells : Fin 8 → Symbol) :
    List (Symbol × Symbol × Symbol) → Nat → Fin 8 → Option Nat × Fin 8
  | [], _, readFlag => (none, readFlag)
  | entry :: table, ii, readFlag =>
    match tryEntry cells readFlag entry with
    | (true, readFlag) => (some ii, readFlag)
    | (false, readFlag) => findEntry cells table (ii + 1) readFlag

/-- The `while` of `print_buffer`, by `buffer_number`. -/
def printLoop (fmKey : List UInt8) : Nat → Encoder → Encoder
  | number + 3, self =>
    match findEntry self.buffer.cells fractionatedTable 0 self.buffer.readFlag with
    | (some ii, readFlag) =>
      printLoop fmKey number { self with
        buffer := { self.buffer with number := number, readFlag := readFlag }
        out := self.out ++ [fmKey.getD ii 0] }
    | (none, readFlag) =>
      { self with buffer := { self.buffer with readFlag := readFlag }, failed := true }
  | _, self => self

def printBuffer (fmKey : List UInt8) (self : Encoder) : Encoder :=
  printLoop fmKey self.buffer.number self

/-- `write_buffer`, and the `print_buffer` that follows it everywhere. -/
def put (fmKey : List UInt8) (self : Encoder) (temp : Symbol) : Encoder :=
  if self.failed = true then self
  else printBuffer fmKey { self with buffer := writeBuffer self.buffer temp }

/-- The test of the table entry compares the pointer to its string with NULL,
so a character with an empty code passes. The `char pre` after a newline is
another variable. -/
def encodeByte (fmKey : List UInt8) (self : Encoder) (temp : UInt8) : Encoder :=
  if self.failed = true then self
  else if temp = space ∨ temp = newline ∨ temp = tab then
    let self :=
      if self.pre ≠ space ∧ self.pre ≠ newline ∧ temp ≠ tab then put fmKey self .x else self
    if self.failed = true then self
    else if temp = newline then
      { self with out := self.out ++ [newline], buffer := cleanBuffer, pre := temp }
    else { self with pre := temp }
  else if 0x7A < temp ∨ temp < 0x21 then { self with failed := true }
  else { put fmKey ((morse temp).foldl (put fmKey) self) .x with pre := temp }

/-- The `-f -e` loop. -/
def encode (key : Key) (input : List UInt8) : Encoder :=
  (input.takeWhile fun temp => temp ≠ EOF).foldl (encodeByte key.fmKey)
    ⟨cleanBuffer, [], false, 0x3F⟩

/-! ## Decoding -/

/-- `pre` is `none` for the `?` it starts with. -/
structure Decoder where
  buffer : Buffer
  out : List UInt8
  pre : Option Symbol

def Buffer.cell (buffer : Buffer) (j : Nat) : Symbol :=
  if h : j < 8 then buffer.cells ⟨j, h⟩ else .nul

/-- The string of the buffer from `j` on is a code. -/
def Buffer.spells (buffer : Buffer) : Nat → List Symbol → Bool
  | j, [] => buffer.cell j = .nul
  | j, temp :: code => buffer.cell j = temp && buffer.spells (j + 1) code

/-- The table has a 90th entry, which is empty. -/
def printBufferDecode (self : Decoder) : Decoder :=
  match (List.range 89).find? fun i =>
      self.buffer.spells 0 (morseTable.getD i []) && morseTable.getD i [] ≠ [] with
  | some i => { self with out := self.out ++ [UInt8.ofNat (i + 33)] }
  | none => self

/-- The body of the `for` over the three characters of an entry. -/
def decodeSymbol (newlineFlag : Bool) (self : Decoder) (temp : Symbol) : Decoder :=
  if temp = .x then
    if self.pre = some .x ∧ newlineFlag = false then
      { self with out := self.out ++ [space], pre := some .x }
    else
      { printBufferDecode { self with buffer := writeBuffer self.buffer .nul } with
        buffer := cleanBuffer, pre := some .x }
  else { self with buffer := writeBuffer self.buffer temp, pre := some temp }

/-- `none` where `fractionated_table` is read past its end: at a character that
is not in `fm_key`. -/
def decodeLoop (fmKey : List UInt8) : List UInt8 → Decoder → Option Decoder
  | [], self => some self
  | temp :: input, self =>
    if temp = EOF then some self
    else if temp = newline then
      let self := if self.buffer.cell 0 ≠ .nul then printBufferDecode self else self
      decodeLoop fmKey input { self with buffer := cleanBuffer, out := self.out ++ [newline] }
    else
      match (fmKey.idxOf? temp).bind (fractionatedTable[·]?) with
      | none => none
      | some (first, second, third) =>
        let newlineFlag := input.head? = some newline
        decodeLoop fmKey input ([first, second, third].foldl (decodeSymbol newlineFlag) self)

/-- The `-f -d` loop. -/
def decode (key : Key) (input : List UInt8) : Option (List UInt8) :=
  (decodeLoop key.fmKey input ⟨cleanBuffer, [], none⟩).map Decoder.out

end LinuxSystem.Morse
