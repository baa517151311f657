import LinuxSystem.Base.Keyed
import LinuxSystem.Morse.Model

/-!
# The Polybius cipher

The `-p` half of `main` and of `validargs`. An argument is a C string without
its NUL. Signed overflow, which C leaves undefined, wraps.
-/

namespace LinuxSystem.Polybius

open Morse (EOF tab newline space)

abbrev Arg := List UInt8

/-- `!` to `~`. -/
def polybiusAlphabet : List UInt8 := (List.range 94).map fun i => UInt8.ofNat (33 + i)

/-- A value kept in an `int`. -/
def int (n : Int) : Int := n.bmod (2 ^ 32)

/-- `-` and one letter. -/
def option (letter : UInt8) : Arg := [0x2D, letter]

def isDigit (c : UInt8) : Bool := 0x30 ≤ c && c ≤ 0x39

/-! ## validargs -/

/-- The loop over the digits of a row or column count, and where it stops. -/
def readDigits (n : Int) : Arg → Int × Arg
  | [] => (n, [])
  | c :: rest => if isDigit c then readDigits (int (10 * n + c.toNat - 0x30)) rest else (n, c :: rest)

/-- The loop over the characters of a key. -/
def validKey : Arg → Bool
  | [] => true
  | c :: rest => polybiusAlphabet.contains c && !rest.contains c && validKey rest

structure Options where
  row : Int
  col : Int
  key : Option Arg

/-- The loop over the options. `none` goes on reading at the NULL after the last
argument, and `some none` returns 0. The check of a row count looks at the
column count read so far. -/
def readOptions (self : Options) : List Arg → Option (Option Options)
  | [] => some (some self)
  | flag :: rest =>
    if flag = option 0x72 then
      match rest with
      | [] => none
      | value :: rest =>
        let (row, left) := readDigits 0 value
        if left ≠ [] ∨ 15 < row ∨ self.col < 9 then some none
        else readOptions { self with row := row } rest
    else if flag = option 0x63 then
      match rest with
      | [] => none
      | value :: rest =>
        let (col, left) := readDigits 0 value
        if left ≠ [] ∨ 15 < col ∨ col < 9 then some none
        else readOptions { self with col := col } rest
    else if flag = option 0x6B then
      match rest with
      | [] => none
      | value :: rest =>
        if validKey value then readOptions { self with key := some value } rest else some none
    else some none

/-- `validargs` on the arguments after `-p`: the mode, and `key`. -/
def validargsP : List Arg → Option (UInt16 × Option Arg)
  | [] => none
  | flag :: args =>
    if flag = option 0x65 ∨ flag = option 0x64 then
      let r : UInt16 := if flag = option 0x65 then 0 else 0x2000
      match readOptions ⟨10, 10, none⟩ args with
      | none => none
      | some none => some (0, none)
      | some (some options) =>
        if int (options.row * options.col) < polybiusAlphabet.length then some (0, none)
        else some (r + UInt16.ofInt (16 * options.row + options.col), options.key)
    else some (0, none)

/-! ## main -/

/-- The columns that `main` takes from the mode. -/
def columns (mode : UInt16) : Nat := (mode &&& 0xF).toNat

/-- `polybius_table`, which is all NUL at first. -/
def polybiusTable (key : Option Arg) : List UInt8 :=
  let letters := match key with
    | none => polybiusAlphabet
    | some key => Keyed.mixed polybiusAlphabet key
  letters ++ List.replicate (257 - letters.length) 0

def isBlank (c : UInt8) : Bool := c = newline || c = space || c = tab

def hexDigit (n : Nat) : UInt8 := UInt8.ofNat (if n < 10 then 0x30 + n else 0x41 + (n - 10))

/-- `printf("%X", n)`. -/
def printHex (n : Nat) : List UInt8 :=
  if n < 16 then [hexDigit n] else printHex (n / 16) ++ [hexDigit (n % 16)]

/-- What the encoder writes for one character; `none` when its search runs past
the end of the table. -/
def encodeByte (table : List UInt8) (col : Nat) (c : UInt8) : Option (List UInt8) :=
  if isBlank c then some [c]
  else (table.idxOf? c).map fun i =>
    let r := i / col
    printHex r ++ printHex (i - r * col)

/-- The `-p -e` loop. -/
def encode (table : List UInt8) (col : Nat) (input : List UInt8) : Option (List UInt8) :=
  ((input.takeWhile fun c => c ≠ EOF).mapM (encodeByte table col)).map List.flatten

/-- A `char`, which is signed. -/
def charValue (temp : UInt8) : Int := (temp.toNat : Int).bmod 256

/-- The number the decoder makes of a character, a digit or not. -/
def digitValue (temp : UInt8) : Int :=
  if isDigit temp then charValue temp - 48 else charValue temp - 65 + 10

/-- What the decoder writes for two characters, the first not a blank; `none`
when it reads outside the table. -/
def decodePair (table : List UInt8) (col : Nat) (first second : UInt8) : Option UInt8 :=
  let r := digitValue first
  let c := digitValue second
  if isBlank second then some (UInt8.ofInt c)
  else
    let k := r * col + c
    if 0 ≤ k then table[k.toNat]? else none

/-- The `-p -d` loop. The second `getchar` may be the one that meets the end. -/
def decode (table : List UInt8) (col : Nat) : List UInt8 → Option (List UInt8)
  | [] => some []
  | [temp] =>
    if temp = EOF then some []
    else if isBlank temp then some [temp]
    else (decodePair table col temp EOF).map fun c => [c]
  | temp :: second :: input =>
    if temp = EOF then some []
    else if isBlank temp then (decode table col (second :: input)).map (temp :: ·)
    else do
      let c ← decodePair table col temp second
      let rest ← decode table col input
      some (c :: rest)

end LinuxSystem.Polybius
