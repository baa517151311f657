import LinuxSystem.Cipher.Arguments
import LinuxSystem.Morse.Bounds

/-!
# Table reads of the four loops

Which inputs the cipher loops read inside their tables. Only the Morse encoder
checks its character; the others trust the text to be one of the cipher's.
-/

namespace LinuxSystem.Cipher

open Filling
open Morse (EOF newline fmAlphabet)
open Polybius (Arg option polybiusAlphabet polybiusTable columns isBlank digitValue)

/-! ## `-p -e` -/

theorem polybiusTable_eq {key : Option Arg}
    (valid : ∀ k, key = some k → Polybius.validKey k = true) :
    ∃ letters, letters.Perm polybiusAlphabet ∧ polybiusTable key = filled 0 257 letters := by
  cases key with
  | none => exact ⟨polybiusAlphabet, .refl _, rfl⟩
  | some k =>
    obtain ⟨within, distinct⟩ := Polybius.validKey_iff.mp (valid k rfl)
    exact ⟨_, Keyed.mixed_perm Polybius.polybiusAlphabet_nodup distinct within, rfl⟩

theorem length_polybiusTable {key : Option Arg}
    (valid : ∀ k, key = some k → Polybius.validKey k = true) :
    (polybiusTable key).length = 257 := by
  obtain ⟨letters, perm, table⟩ := polybiusTable_eq valid
  rw [table, length_filled 0]
  rw [perm.length_eq]
  decide

theorem mem_polybiusTable {key : Option Arg}
    (valid : ∀ k, key = some k → Polybius.validKey k = true) (c : UInt8) :
    c ∈ polybiusTable key ↔ c ∈ polybiusAlphabet ∨ c = 0 := by
  obtain ⟨letters, perm, table⟩ := polybiusTable_eq valid
  have size : letters.length = 94 := perm.length_eq
  rw [table, filled, List.mem_append, List.mem_replicate, perm.mem_iff, size]
  simp

theorem mapM_isSome_iff {α β : Type*} (f : α → Option β) (l : List α) :
    (l.mapM f).isSome ↔ ∀ a ∈ l, (f a).isSome := by
  induction l with
  | nil => simp
  | cons a l ih =>
    rw [List.mapM_cons, List.forall_mem_cons, ← ih]
    cases f a with
    | none => simp
    | some b => cases l.mapM f <;> simp

theorem encode_isSome_iff (table : List UInt8) (col : Nat) (input : List UInt8) :
    (Polybius.encode table col input).isSome ↔
      ∀ c ∈ input.takeWhile (fun c => c ≠ EOF), isBlank c = true ∨ c ∈ table := by
  rw [Polybius.encode, Option.isSome_map, mapM_isSome_iff]
  apply forall₂_congr
  intro c _
  rw [Polybius.encodeByte]
  split
  · rename_i blank
    simp [blank]
  · rename_i solid
    rw [Option.isSome_map, List.isSome_idxOf?]
    simp [solid]

/-! ## `-p -d` -/

/-- The two characters of each table read of the decoder. The second one may be
the end of the input. -/
def pairs : List UInt8 → List (UInt8 × UInt8)
  | [] => []
  | [temp] => if temp = EOF ∨ isBlank temp = true then [] else [(temp, EOF)]
  | temp :: second :: input =>
    if temp = EOF then []
    else if isBlank temp = true then pairs (second :: input)
    else (temp, second) :: pairs input

/-- A blank after the first character is printed without a read. -/
def InTable (col : Nat) (pair : UInt8 × UInt8) : Prop :=
  isBlank pair.2 = true ∨
    0 ≤ digitValue pair.1 * col + digitValue pair.2 ∧
      digitValue pair.1 * col + digitValue pair.2 < 257

theorem decodePair_isSome_iff {table : List UInt8} (size : table.length = 257) (col : Nat)
    (first second : UInt8) :
    (Polybius.decodePair table col first second).isSome ↔ InTable col (first, second) := by
  rw [Polybius.decodePair, InTable]
  dsimp only
  split
  · rename_i blank
    simp [blank]
  · rename_i solid
    generalize digitValue first * col + digitValue second = k
    split
    · rename_i low
      have index : k.toNat < 257 ↔ k < 257 := by omega
      simp [solid, low, size, index]
    · rename_i low
      simp [solid, low]

theorem decode_isSome_iff {table : List UInt8} (size : table.length = 257) (col : Nat)
    (input : List UInt8) :
    (Polybius.decode table col input).isSome ↔ ∀ pair ∈ pairs input, InTable col pair := by
  induction input using pairs.induct with
  | case1 => simp [Polybius.decode, pairs]
  | case2 temp stops =>
    rw [pairs, if_pos stops, Polybius.decode]
    rcases stops with last | blank
    · simp [last]
    · split <;> simp
  | case3 temp reads =>
    obtain ⟨more, solid⟩ := not_or.mp reads
    rw [pairs, if_neg reads, Polybius.decode, if_neg more, if_neg solid, Option.isSome_map,
      decodePair_isSome_iff size]
    simp
  | case4 second input => simp [Polybius.decode, pairs]
  | case5 temp second input more blank ih =>
    rw [pairs, if_neg more, if_pos blank, Polybius.decode, if_neg more, if_pos blank,
      Option.isSome_map, ih]
  | case6 temp second input more solid ih =>
    rw [pairs, if_neg more, if_neg solid, Polybius.decode, if_neg more, if_neg solid,
      List.forall_mem_cons, ← decodePair_isSome_iff size, ← ih]
    cases Polybius.decodePair table col temp second with
    | none => simp
    | some c => cases Polybius.decode table col input <;> simp

/-! ## All four -/

/-- With any accepted arguments, what each loop reads inside its tables: the
Polybius encoder a text of the alphabet, blanks and NULs; the Polybius decoder
pairs that stay under 257; the Morse encoder everything; the Morse decoder
capital letters and newlines. -/
theorem tables_read_inside_iff {args : List Arg} {mode : UInt16} {key : Option Arg}
    (run : validargs (option 0x70 :: args) = some (mode, key)) (nonzero : mode ≠ 0)
    (fm : Morse.Key) (input : List UInt8) :
    ((Polybius.encode (polybiusTable key) (columns mode) input).isSome ↔
      ∀ c ∈ input.takeWhile (fun c => c ≠ EOF),
        isBlank c = true ∨ c ∈ polybiusAlphabet ∨ c = 0) ∧
    ((Polybius.decode (polybiusTable key) (columns mode) input).isSome ↔
      ∀ pair ∈ pairs input, InTable (columns mode) pair) ∧
    (Morse.encodeAt fm input).isSome ∧
    ((Morse.decodeAt fm input).isSome ↔
      ∀ temp ∈ input.takeWhile (fun temp => temp ≠ EOF), temp = newline ∨ temp ∈ fmAlphabet) := by
  rw [validargs_p] at run
  have valid := (Polybius.validargsP_accepted run nonzero).2.2
  refine ⟨?_, decode_isSome_iff (length_polybiusTable valid) _ input, ?_, ?_⟩
  · rw [encode_isSome_iff]
    simp only [mem_polybiusTable valid]
  · rw [Morse.encodeAt_eq]
    rfl
  · rw [Morse.decodeAt_eq, Morse.decode, Option.isSome_map,
      Morse.decodeLoop_isSome_iff (Morse.fmKey_length fm)]
    simp only [Morse.mem_fmKey]

/-- The vector `-p -e` and no Morse key, on the one letter `G`. -/
theorem tables_read_inside_G :
    ((Polybius.encode (polybiusTable none) (columns 0xAA) [0x47]).isSome ↔
      ∀ c ∈ [0x47].takeWhile (fun c => c ≠ EOF), isBlank c = true ∨ c ∈ polybiusAlphabet ∨ c = 0) ∧
    ((Polybius.decode (polybiusTable none) (columns 0xAA) [0x47]).isSome ↔
      ∀ pair ∈ pairs [0x47], InTable (columns 0xAA) pair) ∧
    (Morse.encodeAt Morse.noKey [0x47]).isSome ∧
    ((Morse.decodeAt Morse.noKey [0x47]).isSome ↔
      ∀ temp ∈ [0x47].takeWhile (fun temp => temp ≠ EOF), temp = newline ∨ temp ∈ fmAlphabet) :=
  tables_read_inside_iff
    (show validargs [option 0x70, option 0x65] = some (0xAA, none) by decide +kernel) (by decide)
    Morse.noKey [0x47]

/-- The byte 7 for the Polybius encoder. -/
theorem tables_read_outside :
    ¬ ∀ (args : List Arg) (mode : UInt16) (key : Option Arg),
      validargs (option 0x70 :: args) = some (mode, key) → mode ≠ 0 →
      ∀ (fm : Morse.Key) (input : List UInt8),
        (Polybius.encode (polybiusTable key) (columns mode) input).isSome ∧
        (Polybius.decode (polybiusTable key) (columns mode) input).isSome ∧
        (Morse.encodeAt fm input).isSome ∧ (Morse.decodeAt fm input).isSome := by
  intro inside
  have bell := (inside [option 0x65] 0xAA none (by decide +kernel) (by decide) Morse.noKey [7]).1
  rw [encode_isSome_iff] at bell
  revert bell
  decide +kernel

end LinuxSystem.Cipher
