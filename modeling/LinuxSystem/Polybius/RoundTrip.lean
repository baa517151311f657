import LinuxSystem.Polybius.Model
import Mathlib.Data.List.TakeWhile

/-!
# Decoding undoes encoding

For every key and every column count that `validargs` accepts, each character of
the alphabet is two digits, and the decoder reads them back.
-/

namespace LinuxSystem.Polybius

open Morse (EOF tab newline space)

variable {options accepted : Options} {args : List Arg} {key : Option Arg} {mode : UInt16}
  {col : Nat} {c : UInt8}

/-! ## What `validargs` accepts -/

/-- What every branch of the option loop keeps. -/
structure Options.Valid (options : Options) : Prop where
  low : 9 ≤ options.col
  high : options.col ≤ 15
  keyed : ∀ key, options.key = some key → validKey key = true

theorem default_valid : Options.Valid ⟨10, 10, none⟩ := ⟨by decide, by decide, nofun⟩

/-- The option loop only accepts a column count from 9 to 15 and a valid key. -/
theorem readOptions_valid (valid : options.Valid)
    (read : readOptions options args = some (some accepted)) : accepted.Valid := by
  fun_induction readOptions options args with
  | case1 =>
    cases read
    exact valid
  | case4 _ _ _ _ _ _ _ ih => exact ih ⟨valid.low, valid.high, valid.keyed⟩ read
  | case7 options value rest col left _ kept _ ih =>
    push Not at kept
    exact ih ⟨kept.2.2, kept.2.1, valid.keyed⟩ read
  | case9 options value rest good _ _ ih =>
    apply ih _ read
    refine ⟨valid.low, valid.high, ?_⟩
    rintro key same
    cases same
    exact good
  | _ => cases read

/-- The column count is the last nibble of the mode, whatever the row count. -/
theorem columns_mode {r : UInt16} (plain : r.toNat % 16 = 0) (row : Int) {col : Int}
    (low : 9 ≤ col) (high : col ≤ 15) :
    (columns (r + UInt16.ofInt (16 * row + col)) : Int) = col := by
  have mask := Nat.and_two_pow_sub_one_eq_mod (r + UInt16.ofInt (16 * row + col)).toNat 4
  rw [columns, UInt16.toNat_and, show UInt16.toNat 0xF = 2 ^ 4 - 1 from rfl, mask,
    UInt16.toNat_add, UInt16.ofInt, UInt16.toNat_ofNat']
  omega

/-- How a nonzero mode comes about. -/
theorem validargsP_some (run : validargsP args = some (mode, key)) (nonzero : mode ≠ 0) :
    ∃ flag rest r accepted, args = flag :: rest ∧ UInt16.toNat r % 256 = 0 ∧
      readOptions ⟨10, 10, none⟩ rest = some (some accepted) ∧
      ¬ int (accepted.row * accepted.col) < polybiusAlphabet.length ∧
      mode = r + UInt16.ofInt (16 * accepted.row + accepted.col) ∧ key = accepted.key := by
  have rejected {p : Prop} (zero : some ((0 : UInt16), (none : Option Arg)) = some (mode, key)) : p :=
    absurd (Prod.ext_iff.1 (Option.some.inj zero)).1.symm nonzero
  cases args with
  | nil => cases run
  | cons flag args =>
    rw [validargsP] at run
    by_cases known : flag = option 0x65 ∨ flag = option 0x64
    · have plain : UInt16.toNat (if flag = option 0x65 then 0 else 0x2000) % 256 = 0 := by
        split <;> rfl
      revert plain run
      rw [if_pos known]
      generalize (if flag = option 0x65 then (0 : UInt16) else 0x2000) = r
      intro run plain
      cases read : readOptions ⟨10, 10, none⟩ args with
      | none => simp [read] at run
      | some outcome =>
        cases outcome with
        | none => exact rejected (by simpa [read] using run)
        | some accepted =>
          simp only [read] at run
          split at run
          · exact rejected run
          · rename_i room
            cases run
            exact ⟨flag, args, r, accepted, rfl, plain, read, room, rfl, rfl⟩
    · rw [if_neg known] at run
      exact rejected run

/-- A nonzero mode comes with a valid key, if any, and 9 to 15 columns. -/
theorem validargsP_accepted (run : validargsP args = some (mode, key)) (nonzero : mode ≠ 0) :
    9 ≤ columns mode ∧ columns mode ≤ 15 ∧ ∀ k, key = some k → validKey k = true := by
  obtain ⟨flag, rest, r, accepted, -, plain, read, -, rfl, rfl⟩ := validargsP_some run nonzero
  have valid := readOptions_valid default_valid read
  have low := valid.low
  have high := valid.high
  have col := columns_mode (show r.toNat % 16 = 0 by omega) accepted.row low high
  exact ⟨by omega, by omega, valid.keyed⟩

/-! ## The table -/

theorem polybiusAlphabet_nodup : polybiusAlphabet.Nodup := by decide +kernel

theorem validKey_iff {key : Arg} :
    validKey key = true ↔ (∀ c ∈ key, c ∈ polybiusAlphabet) ∧ key.Nodup := by
  induction key with
  | nil => simp [validKey]
  | cons c key ih =>
    have fresh : (!key.contains c) = true ↔ c ∉ key := by simp
    simp only [validKey, Bool.and_eq_true, ih, List.contains_iff_mem, fresh, List.mem_cons,
      forall_eq_or_imp, List.nodup_cons]
    tauto

/-- The letters at the start of the table. -/
theorem polybiusTable_letters (valid : ∀ k, key = some k → validKey k = true) :
    ∃ letters, letters.Perm polybiusAlphabet ∧ letters <+: polybiusTable key := by
  cases key with
  | none => exact ⟨polybiusAlphabet, .refl _, List.prefix_append _ _⟩
  | some k =>
    obtain ⟨within, distinct⟩ := validKey_iff.1 (valid k rfl)
    exact ⟨_, Keyed.mixed_perm polybiusAlphabet_nodup distinct within, List.prefix_append _ _⟩

/-- Every character of the alphabet is found in the first 94 places. -/
theorem idxOf?_polybiusTable (valid : ∀ k, key = some k → validKey k = true)
    (letter : c ∈ polybiusAlphabet) :
    ∃ i < 94, (polybiusTable key).idxOf? c = some i ∧ (polybiusTable key)[i]? = some c := by
  obtain ⟨letters, perm, rest, table⟩ := polybiusTable_letters valid
  have mem := perm.mem_iff.2 letter
  have before := List.idxOf_lt_length_iff.2 mem
  have size : letters.length = 94 := perm.length_eq
  have within : letters.idxOf c < (polybiusTable key).length := by
    rw [← table, List.length_append]
    omega
  have entry : (polybiusTable key)[letters.idxOf c]? = some c := by
    rw [← table, List.getElem?_append_left before, List.getElem?_eq_getElem before,
      List.getElem_idxOf]
  refine ⟨letters.idxOf c, size ▸ before, ?_, entry⟩
  have found : c ∈ polybiusTable key := List.mem_of_getElem? entry
  obtain ⟨i, first⟩ := Option.isSome_iff_exists.1 (List.isSome_idxOf?.2 found)
  have place := List.idxOf_eq_getD_idxOf? c (polybiusTable key)
  rw [first, Option.getD_some] at place
  rw [first, ← place, ← table, List.idxOf_append_of_mem mem]

/-! ## One character -/

theorem letter_plain : ∀ c ∈ polybiusAlphabet, c ≠ EOF ∧ isBlank c = false := by
  decide +kernel

theorem blank_plain (blank : isBlank c = true) : c ≠ EOF := by
  rintro rfl
  exact absurd blank (by decide)

theorem printHex_digit {n : Nat} (small : n < 16) : printHex n = [hexDigit n] := by
  rw [printHex, if_pos small]

/-- `0` to `9` and `A` to `F`. -/
def hexDigits : List UInt8 :=
  [0x30, 0x31, 0x32, 0x33, 0x34, 0x35, 0x36, 0x37, 0x38, 0x39, 0x41, 0x42, 0x43, 0x44, 0x45, 0x46]

theorem hexDigit_spec {n : Nat} (small : n < 16) :
    hexDigit n ∈ hexDigits ∧ hexDigit n ≠ EOF ∧ isBlank (hexDigit n) = false ∧
      digitValue (hexDigit n) = n := by
  have all : ∀ n : Fin 16, hexDigit n ∈ hexDigits ∧ hexDigit n ≠ EOF ∧
      isBlank (hexDigit n) = false ∧ digitValue (hexDigit n) = n := by
    decide +kernel
  exact all ⟨n, small⟩

/-- A letter is written as its row and its column, one digit each, and these two
digits are read as the letter. -/
theorem encodeByte_letter (valid : ∀ k, key = some k → validKey k = true) (low : 9 ≤ col)
    (high : col ≤ 15) (letter : c ∈ polybiusAlphabet) :
    ∃ r < 16, ∃ d < 16,
      encodeByte (polybiusTable key) col c = some [hexDigit r, hexDigit d] ∧
      decodePair (polybiusTable key) col (hexDigit r) (hexDigit d) = some c := by
  obtain ⟨i, before, found, entry⟩ := idxOf?_polybiusTable valid letter
  have row : i / col < 16 := by
    apply Nat.div_lt_of_lt_mul
    omega
  have cell : i / col * col + (i - i / col * col) = i :=
    Nat.add_sub_of_le (Nat.div_mul_le_self i col)
  have column : i - i / col * col < 16 := by
    have small := Nat.mod_lt i (show 0 < col by omega)
    rw [Nat.mod_eq_sub_mul_div, Nat.mul_comm] at small
    omega
  refine ⟨i / col, row, i - i / col * col, column, ?_, ?_⟩
  · rw [encodeByte, (letter_plain c letter).2, found]
    simp [printHex_digit row, printHex_digit column]
  · obtain ⟨-, -, -, first⟩ := hexDigit_spec row
    obtain ⟨-, -, blank, second⟩ := hexDigit_spec column
    have index : ((i / col : Nat) : Int) * col + ((i - i / col * col : Nat) : Int) = i := by
      exact_mod_cast cell
    simp only [decodePair, blank, Bool.false_eq_true, if_false, first, second, index]
    simpa using entry

theorem decode_blank (table : List UInt8) (blank : isBlank c = true) (code : List UInt8) :
    decode table col (c :: code) = (decode table col code).map (c :: ·) := by
  cases code <;> simp [decode, blank_plain blank, blank]

theorem decode_pair (table : List UInt8) {r d : Nat} (row : r < 16)
    (read : decodePair table col (hexDigit r) (hexDigit d) = some c) (code : List UInt8) :
    decode table col (hexDigit r :: hexDigit d :: code) =
      (decode table col code).map (c :: ·) := by
  obtain ⟨-, plain, blank, -⟩ := hexDigit_spec row
  rw [decode, if_neg plain, blank, read]
  cases decode table col code <;> rfl

/-! ## Whole texts -/

/-- The characters of a text: the alphabet, space, tab and newline. -/
def Typed (text : List UInt8) : Prop := ∀ c ∈ text, c ∈ polybiusAlphabet ∨ isBlank c = true

theorem encode_cells {table : List UInt8} {text : List UInt8} {cell : UInt8 → List UInt8}
    (plain : ∀ c ∈ text, c ≠ EOF) (cells : ∀ c ∈ text, encodeByte table col c = some (cell c)) :
    encode table col text = some (text.flatMap cell) := by
  have whole : (text.takeWhile fun c => c ≠ EOF) = text := by
    apply List.takeWhile_eq_self_iff.2
    simpa using plain
  rw [encode, whole]
  clear whole plain
  induction text with
  | nil => rfl
  | cons c text ih =>
    have rest := ih fun c mem => cells c (List.mem_cons_of_mem _ mem)
    rw [Option.map_eq_some_iff] at rest ⊢
    obtain ⟨pieces, run, joined⟩ := rest
    refine ⟨cell c :: pieces, ?_, ?_⟩
    · simp [cells c List.mem_cons_self, run]
    · rw [List.flatten_cons, joined, List.flatMap_cons]

/-- For the key and the columns of any accepted arguments, the decoder gives back
every text the encoder was given. The encoder passes blanks through and writes
two hexadecimal digits for any other character. -/
theorem decode_returns_message (args : List Arg) (run : validargsP args = some (mode, key))
    (accepted : mode ≠ 0) {text : List UInt8} (typed : Typed text) :
    ∃ cell : UInt8 → List UInt8,
      encode (polybiusTable key) (columns mode) text = some (text.flatMap cell) ∧
      decode (polybiusTable key) (columns mode) (text.flatMap cell) = some text ∧
      ∀ c ∈ text, if isBlank c then cell c = [c]
        else ∃ r ∈ hexDigits, ∃ d ∈ hexDigits, cell c = [r, d] := by
  obtain ⟨low, high, valid⟩ := validargsP_accepted run accepted
  generalize columns mode = col at low high
  let cell (c : UInt8) := (encodeByte (polybiusTable key) col c).getD []
  have blank {c : UInt8} (h : isBlank c = true) : cell c = [c] := by
    simp [cell, encodeByte, h]
  have letter {c : UInt8} (mem : c ∈ polybiusAlphabet) :
      ∃ r < 16, ∃ d < 16, cell c = [hexDigit r, hexDigit d] ∧
        encodeByte (polybiusTable key) col c = some (cell c) ∧
        decodePair (polybiusTable key) col (hexDigit r) (hexDigit d) = some c := by
    obtain ⟨r, row, d, column, written, read⟩ := encodeByte_letter valid low high mem
    exact ⟨r, row, d, column, by simp [cell, written], by simp [cell, written], read⟩
  refine ⟨cell, ?_, ?_, ?_⟩
  · apply encode_cells
    · intro c mem
      obtain h | h := typed c mem
      · exact (letter_plain c h).1
      · exact blank_plain h
    · intro c mem
      obtain h | h := typed c mem
      · obtain ⟨r, _, d, _, _, written, _⟩ := letter h
        exact written
      · rw [blank h, encodeByte, if_pos h]
  · induction text with
    | nil => rfl
    | cons c text ih =>
      have rest := ih fun c mem => typed c (List.mem_cons_of_mem _ mem)
      rw [List.flatMap_cons]
      obtain h | h := typed c List.mem_cons_self
      · obtain ⟨r, row, d, _, pair, _, read⟩ := letter h
        rw [pair]
        simp [decode_pair _ row read, rest]
      · rw [blank h]
        simp [decode_blank _ h, rest]
  · intro c mem
    obtain h | h := typed c mem
    · obtain ⟨r, row, d, column, pair, _, _⟩ := letter h
      simp only [(letter_plain c h).2, Bool.false_eq_true, if_false]
      exact ⟨_, (hexDigit_spec row).1, _, (hexDigit_spec column).1, pair⟩
    · simp only [h, if_true]
      exact blank h

/-- The text `Go!` and a newline under the key `o!`, in eleven columns. -/
theorem decode_returns_go :
    ∃ cell : UInt8 → List UInt8,
      encode (polybiusTable (some [0x6F, 0x21])) (columns 0xAB) [0x47, 0x6F, 0x21, 0x0A] =
        some ([0x47, 0x6F, 0x21, 0x0A].flatMap cell) ∧
      decode (polybiusTable (some [0x6F, 0x21])) (columns 0xAB)
        ([0x47, 0x6F, 0x21, 0x0A].flatMap cell) = some [0x47, 0x6F, 0x21, 0x0A] ∧
      ∀ c ∈ [0x47, 0x6F, 0x21, 0x0A], if isBlank c then cell c = [c]
        else ∃ r ∈ hexDigits, ∃ d ∈ hexDigits, cell c = [r, d] :=
  decode_returns_message [option 0x65, option 0x63, [0x31, 0x31], option 0x6B, [0x6F, 0x21]]
    (by decide +kernel) (by decide) (by unfold Typed; decide +kernel)

end LinuxSystem.Polybius
