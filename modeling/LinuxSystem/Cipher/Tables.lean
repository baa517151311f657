import LinuxSystem.Base.Filling
import LinuxSystem.Morse.RoundTrip
import LinuxSystem.Polybius.RoundTrip

/-!
# Keys and tables

The key loops of `validargs` and the part of `main` that fills `polybius_table`
and `fm_key`, one loop at a time. A write past the end of an array is `none`.
-/

namespace LinuxSystem.Cipher

open Filling
open Morse (fmAlphabet)
open Polybius (Arg polybiusAlphabet)

/-- A scan of a string for a character: `key in polybius_alphabet`, `key not
repeat`, and the `for` that sets `flag`. -/
def scan (c : UInt8) : List UInt8 → Bool
  | [] => false
  | d :: rest => if c = d then true else scan c rest

/-- `key validation`: `false` returns 0. -/
def keyLoop (alphabet : List UInt8) : Arg → Bool
  | [] => true
  | c :: rest =>
    if scan c alphabet = false then false
    else if scan c rest = true then false
    else keyLoop alphabet rest

/-- The loop that copies a string, with the table and `i` after it. -/
def copyLoop (table : List UInt8) (i : Nat) : List UInt8 → Option (List UInt8 × Nat)
  | [] => some (table, i)
  | c :: rest => do
    let table ← store table i c
    copyLoop table (i + 1) rest

/-- The loop that inserts what the key leaves of the alphabet. -/
def insertLoop (key : Arg) (table : List UInt8) (i : Nat) :
    List UInt8 → Option (List UInt8 × Nat)
  | [] => some (table, i)
  | c :: rest =>
    if scan c key = true then insertLoop key table i rest
    else do
      let table ← store table i c
      insertLoop key table (i + 1) rest

def insertKey (alphabet table : List UInt8) (key : Arg) : Option (List UInt8) := do
  let (table, i) ← copyLoop table 0 key
  let (table, _) ← insertLoop key table i alphabet
  some table

/-- `polybius_table`, which is all NUL at first; `none` for the key is NULL. -/
def fillPolybiusTable : Option Arg → Option (List UInt8)
  | none => do
    let (table, i) ← copyLoop (List.replicate 257 0) 0 polybiusAlphabet
    store table i 0
  | some key => insertKey polybiusAlphabet (List.replicate 257 0) key

/-- `fm_key`. -/
def fillFmKey : Option Arg → Option (List UInt8)
  | none => do
    let (table, _) ← copyLoop (List.replicate 27 0) 0 (fmAlphabet.take 26)
    some table
  | some key => insertKey fmAlphabet (List.replicate 27 0) key

/-! ## The key loop -/

@[simp] theorem scan_iff (c : UInt8) (l : List UInt8) : scan c l = true ↔ c ∈ l := by
  induction l with
  | nil => simp [scan]
  | cons d l ih =>
    rw [scan, List.mem_cons]
    split <;> simp_all

theorem scan_eq_false_iff (c : UInt8) (l : List UInt8) : scan c l = false ↔ c ∉ l := by
  rw [← scan_iff, Bool.not_eq_true]

theorem keyLoop_iff (alphabet : List UInt8) (key : Arg) :
    keyLoop alphabet key = true ↔ (∀ c ∈ key, c ∈ alphabet) ∧ key.Nodup := by
  induction key with
  | nil => simp [keyLoop]
  | cons c key ih =>
    rw [keyLoop, List.forall_mem_cons, List.nodup_cons]
    by_cases foreign : c ∈ alphabet
    · by_cases again : c ∈ key
      · simp [scan_eq_false_iff, foreign, again]
      · simp [scan_eq_false_iff, foreign, again, ih]
    · simp [scan_eq_false_iff, foreign]

/-- The key loop rejects a key exactly for a foreign character or a repetition. -/
theorem keyLoop_eq_false_iff (alphabet : List UInt8) (key : Arg) :
    keyLoop alphabet key = false ↔ (∃ c ∈ key, c ∉ alphabet) ∨ ¬ key.Nodup := by
  rw [← Bool.not_eq_true, keyLoop_iff, not_and_or]
  simp only [not_forall, exists_prop]

theorem keyLoop_polybius (key : Arg) : keyLoop polybiusAlphabet key = Polybius.validKey key := by
  rw [Bool.eq_iff_iff, keyLoop_iff, Polybius.validKey_iff]

/-! ## Filling a table -/

theorem copyLoop_filled {size : Nat} (source string : List UInt8)
    (room : string.length + source.length ≤ size) :
    copyLoop (filled 0 size string) string.length source =
      some (filled 0 size (string ++ source), (string ++ source).length) := by
  induction source generalizing string with
  | nil => simp [copyLoop]
  | cons c source ih =>
    rw [List.length_cons] at room
    have length : string.length + 1 = (string ++ [c]).length := by
      rw [List.length_append, List.length_singleton]
    have later := ih (string ++ [c]) (by omega)
    rw [← List.append_cons, ← length] at later
    rw [copyLoop, store_filled 0 (by omega)]
    exact later

theorem insertLoop_filled {size : Nat} (key : Arg) (alphabet string : List UInt8)
    (room : string.length + (alphabet.filter fun c => c ∉ key).length ≤ size) :
    insertLoop key (filled 0 size string) string.length alphabet =
      some (filled 0 size (string ++ alphabet.filter fun c => c ∉ key),
        (string ++ alphabet.filter fun c => c ∉ key).length) := by
  induction alphabet generalizing string with
  | nil => simp [insertLoop]
  | cons c alphabet ih =>
    rw [insertLoop]
    by_cases known : c ∈ key
    · rw [if_pos ((scan_iff c key).mpr known)]
      simp only [List.filter_cons, known, not_true_eq_false, decide_false, Bool.false_eq_true,
        ↓reduceIte] at room ⊢
      exact ih string room
    · rw [if_neg (by simpa using known)]
      simp only [List.filter_cons, known, not_false_eq_true, decide_true, ↓reduceIte,
        List.length_cons] at room ⊢
      have length : string.length + 1 = (string ++ [c]).length := by
        rw [List.length_append, List.length_singleton]
      have later := ih (string ++ [c]) (by omega)
      rw [← List.append_cons, ← length] at later
      rw [store_filled 0 (by omega)]
      exact later

/-- A key that the key loop accepts leaves room for the rest of the alphabet. -/
theorem insertKey_eq {alphabet : List UInt8} (ordered : alphabet.Nodup) {size : Nat}
    (fits : alphabet.length ≤ size) {key : Arg} (valid : keyLoop alphabet key = true) :
    insertKey alphabet (List.replicate size 0) key =
      some (filled 0 size (Keyed.mixed alphabet key)) := by
  obtain ⟨within, distinct⟩ := (keyLoop_iff alphabet key).mp valid
  have length := Keyed.length_mixed ordered distinct within
  rw [Keyed.mixed, List.length_append] at length
  have copied : copyLoop (List.replicate size 0) 0 key = some (filled 0 size key, key.length) :=
    copyLoop_filled key [] (by rw [List.length_nil]; omega)
  have inserted := insertLoop_filled key alphabet key (by omega : _ ≤ size)
  rw [insertKey, copied]
  simp only [Option.bind_eq_bind, Option.bind_some, inserted]
  rfl

/-! ## The tables -/

/-- The string at the front of an array. -/
def cString (table : List UInt8) : List UInt8 := table.takeWhile (· ≠ 0)

/-- A table starts with the key, goes on with the rest of the alphabet in order,
has every letter of it once, and ends with a NUL within the array. -/
structure PermutationTable (alphabet : List UInt8) (key : Arg) (size : Nat) (table : List UInt8) :
    Prop where
  length : table.length = size
  string : cString table = key ++ alphabet.filter fun c => c ∉ key
  permutes : (cString table).Perm alphabet
  terminated : table[(cString table).length]? = some 0

theorem cString_filled {size : Nat} {string : List UInt8} (text : ∀ c ∈ string, c ≠ 0) :
    cString (filled 0 size string) = string :=
  takeWhile_filled text

theorem filled_permutes {alphabet : List UInt8} (ordered : alphabet.Nodup)
    (text : ∀ c ∈ alphabet, c ≠ 0) {size : Nat} (fits : alphabet.length < size) {key : Arg}
    (valid : keyLoop alphabet key = true) :
    PermutationTable alphabet key size (filled 0 size (Keyed.mixed alphabet key)) := by
  obtain ⟨within, distinct⟩ := (keyLoop_iff alphabet key).mp valid
  have length := Keyed.length_mixed ordered distinct within
  have string : cString (filled 0 size (Keyed.mixed alphabet key)) = Keyed.mixed alphabet key :=
    cString_filled fun c mem => text c ((Keyed.mem_mixed within).mp mem)
  refine ⟨length_filled 0 (by omega), string, ?_, ?_⟩
  · rw [string]
    exact Keyed.mixed_perm ordered distinct within
  · rw [string]
    exact filled_terminated 0 (by omega)

theorem polybiusAlphabet_text : ∀ c ∈ polybiusAlphabet, c ≠ 0 := by decide +kernel

theorem fmAlphabet_text : ∀ c ∈ fmAlphabet, c ≠ 0 := by decide +kernel

theorem fillPolybiusTable_some {key : Arg} (valid : keyLoop polybiusAlphabet key = true) :
    fillPolybiusTable (some key) = some (filled 0 257 (Keyed.mixed polybiusAlphabet key)) :=
  insertKey_eq Polybius.polybiusAlphabet_nodup (by decide) valid

theorem fillFmKey_some {key : Arg} (valid : keyLoop fmAlphabet key = true) :
    fillFmKey (some key) = some (filled 0 27 (Keyed.mixed fmAlphabet key)) :=
  insertKey_eq Morse.fmAlphabet_nodup (by decide) valid

/-- The NUL that is written after the alphabet is there already. -/
theorem fillPolybiusTable_none :
    fillPolybiusTable none = some (filled 0 257 (Keyed.mixed polybiusAlphabet [])) := by
  decide +kernel

theorem fillFmKey_none : fillFmKey none = some (filled 0 27 (Keyed.mixed fmAlphabet [])) := by
  decide +kernel

/-- The tables are the ones the cipher loops were modelled with. -/
theorem fillPolybiusTable_eq {key : Option Arg}
    (valid : ∀ k, key = some k → keyLoop polybiusAlphabet k = true) :
    fillPolybiusTable key = some (Polybius.polybiusTable key) := by
  cases key with
  | none => exact fillPolybiusTable_none
  | some key => exact fillPolybiusTable_some (valid key rfl)

theorem fillFmKey_eq (key : Morse.Key) :
    fillFmKey (some key.letters) = some (key.fmKey ++ [0]) := by
  have valid : keyLoop fmAlphabet key.letters = true :=
    (keyLoop_iff _ _).mpr ⟨key.capital, key.distinct⟩
  have length : (Keyed.mixed fmAlphabet key.letters).length = 26 :=
    Keyed.length_mixed Morse.fmAlphabet_nodup key.distinct key.capital
  rw [fillFmKey_some valid, filled, length]
  rfl

/-- Both key loops reject exactly the keys with a foreign or a repeated
character, and every other key, the empty one and none at all, fills its table
with a permutation of the alphabet. -/
theorem accepted_keys_permute (key : Arg) :
    (keyLoop polybiusAlphabet key = false ↔
      (∃ c ∈ key, c ∉ polybiusAlphabet) ∨ ¬ key.Nodup) ∧
    (keyLoop fmAlphabet key = false ↔ (∃ c ∈ key, c ∉ fmAlphabet) ∨ ¬ key.Nodup) ∧
    (keyLoop polybiusAlphabet key = true → ∃ table, fillPolybiusTable (some key) = some table ∧
      PermutationTable polybiusAlphabet key 257 table) ∧
    (keyLoop fmAlphabet key = true → ∃ table, fillFmKey (some key) = some table ∧
      PermutationTable fmAlphabet key 27 table) ∧
    (∃ table, fillPolybiusTable none = some table ∧
      PermutationTable polybiusAlphabet [] 257 table) ∧
    ∃ table, fillFmKey none = some table ∧ PermutationTable fmAlphabet [] 27 table := by
  have polybius {key : Arg} (valid : keyLoop polybiusAlphabet key = true) :=
    filled_permutes Polybius.polybiusAlphabet_nodup polybiusAlphabet_text
      (show polybiusAlphabet.length < 257 by decide) valid
  have fm {key : Arg} (valid : keyLoop fmAlphabet key = true) :=
    filled_permutes Morse.fmAlphabet_nodup fmAlphabet_text
      (show fmAlphabet.length < 27 by decide) valid
  refine ⟨keyLoop_eq_false_iff _ _, keyLoop_eq_false_iff _ _, ?_, ?_, ?_, ?_⟩
  · intro valid
    exact ⟨_, fillPolybiusTable_some valid, polybius valid⟩
  · intro valid
    exact ⟨_, fillFmKey_some valid, fm valid⟩
  · exact ⟨_, fillPolybiusTable_none, polybius rfl⟩
  · exact ⟨_, fillFmKey_none, fm rfl⟩

/-- Both alphabets accept the key `ZA`. -/
theorem accepted_keys_permute_ZA :
    (∃ table, fillPolybiusTable (some [0x5A, 0x41]) = some table ∧
      PermutationTable polybiusAlphabet [0x5A, 0x41] 257 table) ∧
    ∃ table, fillFmKey (some [0x5A, 0x41]) = some table ∧
      PermutationTable fmAlphabet [0x5A, 0x41] 27 table :=
  ⟨(accepted_keys_permute [0x5A, 0x41]).2.2.1 (by decide),
    (accepted_keys_permute [0x5A, 0x41]).2.2.2.1 (by decide)⟩

end LinuxSystem.Cipher
