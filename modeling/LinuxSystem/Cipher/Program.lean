import LinuxSystem.Cipher.Bounds

/-!
# The program

`main` as a whole: the arguments, the tables and the four loops. Two runs of it
make a message of a text and a text of a message.
-/

namespace LinuxSystem.Cipher

open Filling
open Morse (EOF fmAlphabet)
open Polybius (Arg option polybiusAlphabet polybiusTable columns isBlank hexDigit digitValue Typed
  validargsP)

/-- The exit status, and what has been printed; the usage is printed to `stderr`. -/
structure Exit where
  status : Nat
  out : List UInt8
  deriving DecidableEq, Repr

def exitSuccess : Nat := 0

def exitFailure : Nat := 1

/-- The `-f -e` loop on a filled `fm_key`. -/
def encodeMorse (fmKey : List UInt8) (input : List UInt8) : Exit :=
  let self := (input.takeWhile fun temp => temp ≠ EOF).foldl (Morse.encodeByte fmKey)
    ⟨Morse.cleanBuffer, [], false, 0x3F⟩
  ⟨if self.failed = true then exitFailure else exitSuccess, self.out⟩

/-- The `-f -d` loop. -/
def decodeMorse (fmKey : List UInt8) (input : List UInt8) : Option Exit :=
  (Morse.decodeLoop fmKey input ⟨Morse.cleanBuffer, [], none⟩).map fun self => ⟨exitSuccess, self.out⟩

/-- `main` with the arguments after the program's name. The search of `fm_key`
leaves its NUL out. -/
def main (args : List Arg) (input : List UInt8) : Option Exit :=
  if args = [] then some ⟨exitFailure, []⟩
  else do
    let (mode, key) ← validargs args
    if mode &&& 0x8000 ≠ 0 then some ⟨exitSuccess, []⟩
    else if mode = 0 then some ⟨exitFailure, []⟩
    else if mode &&& 0xF000 = 0 ∨ mode &&& 0xF000 = 0x2000 then do
      let table ← fillPolybiusTable key
      let out ← (if mode &&& 0xF000 = 0 then Polybius.encode table (columns mode) input
        else Polybius.decode table (columns mode) input)
      some ⟨exitSuccess, out⟩
    else if mode &&& 0xF000 = 0x4000 then do
      let fmKey ← fillFmKey key
      some (encodeMorse (fmKey.take 26) input)
    else if mode &&& 0xF000 = 0x6000 then do
      let fmKey ← fillFmKey key
      decodeMorse (fmKey.take 26) input
    else some ⟨exitSuccess, []⟩

/-! ## The two Polybius modes -/

variable {args : List Arg} {mode : UInt16} {key : Option Arg}

theorem validargsF_mode (run : validargsF args = some (mode, key)) :
    mode = 0 ∨ mode = 0x4000 ∨ mode = 0x6000 := by
  have morse (flag : Arg) : (if flag = option 0x65 then (0x4000 : UInt16) else 0x6000) = 0x4000 ∨
      (if flag = option 0x65 then (0x4000 : UInt16) else 0x6000) = 0x6000 := by
    split
    · exact .inl rfl
    · exact .inr rfl
  unfold validargsF at run
  split at run
  · cases run
  split at run
  · dsimp only at run
    split at run
    · cases run
      exact .inr (morse _)
    · split at run
      · split at run
        · cases run
          exact .inr (morse _)
        · cases run
          exact .inl rfl
      · cases run
        exact .inl rfl
    · cases run
      exact .inl rfl
  · cases run
    exact .inl rfl

/-- Only `-p` sets neither of the two highest bits of a mode that is not 0. -/
theorem validargs_polybius (run : validargs args = some (mode, key)) (nonzero : mode ≠ 0)
    (polybius : mode &&& 0xF000 = 0 ∨ mode &&& 0xF000 = 0x2000) :
    ∃ rest, validargsP rest = some (mode, key) := by
  cases args with
  | nil => cases run
  | cons flag rest =>
    rw [validargs] at run
    split at run
    · cases run
      exact absurd polybius (by decide)
    split at run
    · exact ⟨rest, run⟩
    split at run
    · rcases validargsF_mode run with zero | rfl | rfl
      · exact absurd zero nonzero
      · exact absurd polybius (by decide)
      · exact absurd polybius (by decide)
    · cases run
      exact absurd rfl nonzero

theorem polybius_accepted (run : validargs args = some (mode, key)) (nonzero : mode ≠ 0)
    (polybius : mode &&& 0xF000 = 0 ∨ mode &&& 0xF000 = 0x2000) :
    9 ≤ columns mode ∧ columns mode ≤ 15 ∧ ∀ k, key = some k → Polybius.validKey k = true := by
  obtain ⟨rest, run⟩ := validargs_polybius run nonzero polybius
  exact Polybius.validargsP_accepted run nonzero

theorem no_help (polybius : mode &&& 0xF000 = 0 ∨ mode &&& 0xF000 = 0x2000) :
    mode &&& 0x8000 = 0 := by
  have inside : mode &&& 0x8000 = mode &&& 0xF000 &&& 0x8000 := by
    rw [UInt16.and_assoc]
    rfl
  rw [inside]
  rcases polybius with eq | eq <;> rw [eq] <;> rfl

theorem args_ne_nil (run : validargs args = some (mode, key)) : args ≠ [] := by
  rintro rfl
  cases run

theorem main_polybius (run : validargs args = some (mode, key)) (nonzero : mode ≠ 0)
    (polybius : mode &&& 0xF000 = 0 ∨ mode &&& 0xF000 = 0x2000) (input : List UInt8) :
    main args input = (if mode &&& 0xF000 = 0 then
      Polybius.encode (polybiusTable key) (columns mode) input
      else Polybius.decode (polybiusTable key) (columns mode) input).map (⟨exitSuccess, ·⟩) := by
  obtain ⟨-, -, valid⟩ := polybius_accepted run nonzero polybius
  have table : fillPolybiusTable key = some (polybiusTable key) :=
    fillPolybiusTable_eq fun k same => (keyLoop_polybius k).trans (valid k same)
  rw [main, if_neg (args_ne_nil run), run, Option.bind_eq_bind, Option.bind_some]
  dsimp only
  rw [no_help polybius, if_neg (not_not.mpr rfl), if_neg nonzero, if_pos polybius, table]
  exact Option.map_eq_bind.symm

theorem decodes_nonzero (decodes : mode &&& 0xF000 = 0x2000) :
    mode ≠ 0 ∧ mode &&& 0xF000 ≠ 0 := by
  constructor
  · rintro rfl
    revert decodes
    decide
  · rw [decodes]
    decide

/-! ## One letter -/

section Letter

variable {key' : Option Arg} {col col' i : Nat} {c : UInt8}

/-- The letters of a table, and NULs after them. -/
structure Lettered (table letters : List UInt8) : Prop where
  perm : letters.Perm polybiusAlphabet
  letter : ∀ i (h : i < letters.length), table[i]? = some letters[i]
  nul : ∀ i, 94 ≤ i → i < 257 → table[i]? = some 0

theorem Lettered.length {table letters : List UInt8} (lettered : Lettered table letters) :
    letters.length = 94 := lettered.perm.length_eq

theorem polybiusTable_lettered (valid : ∀ k, key = some k → Polybius.validKey k = true) :
    ∃ letters, Lettered (polybiusTable key) letters := by
  obtain ⟨letters, perm, table⟩ := polybiusTable_eq valid
  have size : letters.length = 94 := perm.length_eq
  refine ⟨letters, perm, fun i inside => ?_, fun i low high => ?_⟩
  · rw [table, filled, List.getElem?_append_left inside, List.getElem?_eq_getElem inside]
  · rw [table, filled, List.getElem?_append_right (by omega), List.getElem?_replicate,
      if_pos (by omega)]

theorem Lettered.nodup {table letters : List UInt8} (lettered : Lettered table letters) :
    letters.Nodup := lettered.perm.nodup_iff.mpr Polybius.polybiusAlphabet_nodup

/-- A letter is written as its row and its column. -/
theorem encode_letter (valid : ∀ k, key = some k → Polybius.validKey k = true) {letters : List UInt8}
    (lettered : Lettered (polybiusTable key) letters) (low : 9 ≤ col) (high : col ≤ 15)
    (inside : i < letters.length) : Polybius.encode (polybiusTable key) col [letters[i]] =
      some [hexDigit (i / col), hexDigit (i % col)] := by
  have size := lettered.length
  have letter : letters[i] ∈ polybiusAlphabet :=
    lettered.perm.mem_iff.mp (List.getElem_mem inside)
  obtain ⟨i', below, found, entry⟩ := Polybius.idxOf?_polybiusTable valid letter
  rw [lettered.letter i' (by omega), Option.some_inj, lettered.nodup.getElem_inj_iff] at entry
  subst entry
  obtain ⟨more, solid⟩ := Polybius.letter_plain _ letter
  have row : i' / col < 16 := Nat.div_lt_of_lt_mul (by omega)
  have column : i' % col < 16 := by
    have := Nat.mod_lt i' (show 0 < col by omega)
    omega
  have written : Polybius.encodeByte (polybiusTable key) col letters[i'] =
      some [hexDigit (i' / col), hexDigit (i' % col)] := by
    have rest : i' - i' / col * col = i' % col := by
      rw [Nat.mod_eq_sub_mul_div, Nat.mul_comm]
    rw [Polybius.encodeByte, solid, if_neg Bool.false_ne_true, found, Option.map_some]
    dsimp only
    rw [rest, Polybius.printHex_digit row, Polybius.printHex_digit column]
    rfl
  have single : Polybius.encode (polybiusTable key) col [letters[i']] =
      some ([letters[i']].flatMap fun _ => [hexDigit (i' / col), hexDigit (i' % col)]) :=
    Polybius.encode_cells (by simpa using more) (by simpa using written)
  exact single

theorem decode_digits (table : List UInt8) {r d : Nat} (row : r < 16) (column : d < 16) :
    Polybius.decode table col [hexDigit r, hexDigit d] = (table[r * col + d]?).map ([·]) := by
  obtain ⟨-, plain, blank, first⟩ := Polybius.hexDigit_spec row
  obtain ⟨-, -, blank', second⟩ := Polybius.hexDigit_spec column
  have index : ((r : Nat) : Int) * col + ((d : Nat) : Int) = ((r * col + d : Nat) : Int) := by
    push_cast
    rfl
  have read : Polybius.decodePair table col (hexDigit r) (hexDigit d) = table[r * col + d]? := by
    simp only [Polybius.decodePair, blank', Bool.false_eq_true, if_false, first, second, index]
    rw [if_pos (Int.natCast_nonneg _), Int.toNat_natCast]
  rw [Polybius.decode, if_neg plain, blank, if_neg Bool.false_ne_true, read]
  cases table[r * col + d]? <;> rfl

end Letter

/-! ## Two runs -/

/-- Every text that one run encodes, the other decodes. -/
def ReadsBack (argsE argsD : List Arg) : Prop :=
  ∀ text, Typed text → ∃ code, main argsE text = some ⟨exitSuccess, code⟩ ∧
    main argsD code = some ⟨exitSuccess, text⟩

section Tables

variable {key' : Option Arg} {col col' : Nat} {table letters letters' : List UInt8}

theorem encode_cons {c : UInt8} {text cell code : List UInt8} (plain : c ≠ EOF)
    (here : Polybius.encodeByte table col c = some cell)
    (rest : Polybius.encode table col text = some code) :
    Polybius.encode table col (c :: text) = some (cell ++ code) := by
  obtain ⟨pieces, run, rfl⟩ := Option.map_eq_some_iff.mp rest
  rw [Polybius.encode, List.takeWhile_cons_of_pos (by simpa using plain), List.mapM_cons, here, run]
  rfl

theorem decode_encode (valid : ∀ k, key = some k → Polybius.validKey k = true) (low : 9 ≤ col)
    (high : col ≤ 15) {text : List UInt8} (typed : Typed text) :
    ∃ code, Polybius.encode (polybiusTable key) col text = some code ∧
      Polybius.decode (polybiusTable key) col code = some text := by
  induction text with
  | nil => exact ⟨[], rfl, rfl⟩
  | cons c text ih =>
    obtain ⟨code, written, read⟩ := ih fun c mem => typed c (List.mem_cons_of_mem _ mem)
    rcases typed c List.mem_cons_self with letter | blank
    · obtain ⟨r, row, d, -, pair, back⟩ := Polybius.encodeByte_letter valid low high letter
      refine ⟨_, encode_cons (Polybius.letter_plain c letter).1 pair written, ?_⟩
      rw [List.cons_append, List.singleton_append, Polybius.decode_pair _ row back, read]
      rfl
    · have here : Polybius.encodeByte (polybiusTable key) col c = some [c] := if_pos blank
      refine ⟨_, encode_cons (Polybius.blank_plain blank) here written, ?_⟩
      rw [List.singleton_append, Polybius.decode_blank _ blank, read]
      rfl

/-- With more columns the last letter is read among the NULs, and with fewer two
letters are read in one place. -/
theorem columns_eq (lettered : Lettered table letters') (low : 9 ≤ col) (high : col ≤ 15)
    (high' : col' ≤ 15) (distinct : letters.Nodup) (size : letters.length = 94)
    (solid : ∀ c ∈ letters, c ≠ 0)
    (found : ∀ i (h : i < letters.length), table[i / col * col' + i % col]? = some letters[i]) :
    col = col' := by
  rcases Nat.lt_trichotomy col col' with more | same | fewer
  · have last := found 93 (by omega)
    have whole : 93 / col * col + 93 % col = 93 := by
      rw [Nat.mul_comm]
      exact Nat.div_add_mod 93 col
    have some_rows : 1 ≤ 93 / col := (Nat.le_div_iff_mul_le (by omega)).mpr (by omega)
    have few_rows : 93 / col < 11 := Nat.div_lt_of_lt_mul (by omega)
    have column := Nat.mod_lt 93 (show 0 < col by omega)
    have least : 93 / col * (col + 1) ≤ 93 / col * col' := Nat.mul_le_mul_left _ more
    have most : 93 / col * col' ≤ 10 * 15 := Nat.mul_le_mul (by omega) high'
    rw [Nat.mul_succ] at least
    rw [lettered.nul _ (by omega) (by omega)] at last
    exact absurd (Option.some.inj last).symm (solid _ (List.getElem_mem _))
  · exact same
  · have first := found col (by omega)
    have second := found col' (by omega)
    rw [Nat.div_self (by omega), Nat.mod_self, Nat.one_mul, Nat.add_zero] at first
    rw [Nat.div_eq_of_lt fewer, Nat.mod_eq_of_lt fewer, Nat.zero_mul, Nat.zero_add] at second
    exact distinct.getElem_inj_iff.mp (Option.some.inj (first.symm.trans second))

theorem polybiusTable_ext {key' : Option Arg} {letters letters' : List UInt8}
    (valid : ∀ k, key = some k → Polybius.validKey k = true)
    (valid' : ∀ k, key' = some k → Polybius.validKey k = true)
    (lettered : Lettered (polybiusTable key) letters)
    (lettered' : Lettered (polybiusTable key') letters')
    (same : ∀ i (h : i < letters.length), (polybiusTable key')[i]? = some letters[i]) :
    polybiusTable key = polybiusTable key' := by
  have size := lettered.length
  apply List.ext_getElem?
  intro i
  by_cases inside : i < letters.length
  · rw [lettered.letter i inside, same i inside]
  · by_cases below : i < 257
    · rw [lettered.nul i (by omega) below, lettered'.nul i (by omega) below]
    · rw [List.getElem?_eq_none (by rw [length_polybiusTable valid]; omega),
        List.getElem?_eq_none (by rw [length_polybiusTable valid']; omega)]

end Tables

/-- A decoder run reads back what an encoder run writes exactly when it has the
same columns and the same alphabet in its table. -/
theorem reads_back_iff {argsE argsD : List Arg} {modeE modeD : UInt16} {keyE keyD : Option Arg}
    (runE : validargs argsE = some (modeE, keyE)) (nonzero : modeE ≠ 0)
    (encodes : modeE &&& 0xF000 = 0) (runD : validargs argsD = some (modeD, keyD))
    (decodes : modeD &&& 0xF000 = 0x2000) :
    ReadsBack argsE argsD ↔
      columns modeE = columns modeD ∧ polybiusTable keyE = polybiusTable keyD := by
  obtain ⟨nonzeroD, noEncoder⟩ := decodes_nonzero decodes
  obtain ⟨low, high, valid⟩ := polybius_accepted runE nonzero (.inl encodes)
  obtain ⟨-, high', valid'⟩ := polybius_accepted runD nonzeroD (.inr decodes)
  have mainE := main_polybius runE nonzero (.inl encodes)
  have mainD := main_polybius runD nonzeroD (.inr decodes)
  simp only [if_pos encodes] at mainE
  simp only [if_neg noEncoder] at mainD
  constructor
  · intro reads
    obtain ⟨letters, lettered⟩ := polybiusTable_lettered valid
    obtain ⟨letters', lettered'⟩ := polybiusTable_lettered valid'
    have size := lettered.length
    have found (i : Nat) (inside : i < letters.length) :
        (polybiusTable keyD)[i / columns modeE * columns modeD + i % columns modeE]? =
          some letters[i] := by
      have letter : letters[i] ∈ polybiusAlphabet :=
        lettered.perm.mem_iff.mp (List.getElem_mem inside)
      obtain ⟨code, written, read⟩ := reads [letters[i]] (by simpa [Typed] using .inl letter)
      rw [mainE, encode_letter valid lettered low high inside] at written
      obtain rfl := (Exit.mk.inj (Option.some.inj written)).2
      have row : i / columns modeE < 16 := Nat.div_lt_of_lt_mul (by omega)
      have column : i % columns modeE < 16 := by
        have := Nat.mod_lt i (show 0 < columns modeE by omega)
        omega
      rw [mainD, decode_digits _ row column, Option.map_map, Option.map_eq_some_iff] at read
      obtain ⟨c, at_place, eq⟩ := read
      rw [at_place, List.singleton_inj.mp (Exit.mk.inj eq).2]
    have solid (c : UInt8) (mem : c ∈ letters) : c ≠ 0 :=
      polybiusAlphabet_text c (lettered.perm.mem_iff.mp mem)
    have same := columns_eq lettered' low high high' lettered.nodup size solid found
    refine ⟨same, polybiusTable_ext valid valid' lettered lettered' fun i inside => ?_⟩
    have place := found i inside
    rwa [← same, Nat.mul_comm, Nat.div_add_mod] at place
  · rintro ⟨same, table⟩ text typed
    obtain ⟨code, written, read⟩ := decode_encode valid low high typed
    refine ⟨code, ?_, ?_⟩
    · rw [mainE, written]
      rfl
    · rw [mainD, ← same, ← table, read]
      rfl

/-- `-p -e -k ba -c 12` and `-p -d -c 12 -r 9 -k ba` are inverse on every text. -/
theorem reads_back_ba :
    ReadsBack [option 0x70, option 0x65, option 0x6B, [0x62, 0x61], option 0x63, [0x31, 0x32]]
      [option 0x70, option 0x64, option 0x63, [0x31, 0x32], option 0x72, [0x39], option 0x6B,
        [0x62, 0x61]] :=
  (reads_back_iff
    (show validargs [option 0x70, option 0x65, option 0x6B, [0x62, 0x61], option 0x63, [0x31, 0x32]] =
      some (0xAC, some [0x62, 0x61]) by decide +kernel) (by decide) (by decide)
    (show validargs [option 0x70, option 0x64, option 0x63, [0x31, 0x32], option 0x72, [0x39],
      option 0x6B, [0x62, 0x61]] = some (0x209C, some [0x62, 0x61]) by decide +kernel)
    (by decide)).mpr ⟨by decide, rfl⟩

end LinuxSystem.Cipher
