import LinuxSystem.Morse.RoundTrip

/-!
# Table reads of the Morse loops

The two loops with every read of `fractionated_table`, `fm_key` and
`morse_table` checked: `none` is an index outside the table. They do what the
unchecked loops do, so only an index of 26 into `fractionated_table` goes wrong,
in the decoder, where the search of `fm_key` finds nothing.
-/

namespace LinuxSystem.Morse

/-! ## Encoding -/

/-- The `for` of `print_buffer` from `ii` on, `n` turns before 26. -/
def findEntryAt (cells : Fin 8 → Symbol) : Nat → Nat → Fin 8 → Option (Option Nat × Fin 8)
  | 0, _, readFlag => some (none, readFlag)
  | n + 1, ii, readFlag => do
    let entry ← fractionatedTable[ii]?
    match tryEntry cells readFlag entry with
    | (true, readFlag) => some (some ii, readFlag)
    | (false, readFlag) => findEntryAt cells n (ii + 1) readFlag

def printLoopAt (fmKey : List UInt8) : Nat → Encoder → Option Encoder
  | number + 3, self => do
    match ← findEntryAt self.buffer.cells 26 0 self.buffer.readFlag with
    | (some ii, readFlag) =>
      let letter ← fmKey[ii]?
      printLoopAt fmKey number { self with
        buffer := { self.buffer with number := number, readFlag := readFlag }
        out := self.out ++ [letter] }
    | (none, readFlag) =>
      some { self with buffer := { self.buffer with readFlag := readFlag }, failed := true }
  | _, self => some self

def putAt (fmKey : List UInt8) (self : Encoder) (temp : Symbol) : Option Encoder :=
  if self.failed = true then some self
  else
    let self := { self with buffer := writeBuffer self.buffer temp }
    printLoopAt fmKey self.buffer.number self

def encodeByteAt (fmKey : List UInt8) (self : Encoder) (temp : UInt8) : Option Encoder :=
  if self.failed = true then some self
  else if temp = space ∨ temp = newline ∨ temp = tab then do
    let self ← (if self.pre ≠ space ∧ self.pre ≠ newline ∧ temp ≠ tab then putAt fmKey self .x
      else some self)
    if self.failed = true then some self
    else if temp = newline then
      some { self with out := self.out ++ [newline], buffer := cleanBuffer, pre := temp }
    else some { self with pre := temp }
  else if 0x7A < temp ∨ temp < 0x21 then some { self with failed := true }
  else do
    let code ← morseTable[temp.toNat - 0x21]?
    let self ← code.foldlM (putAt fmKey) self
    let self ← putAt fmKey self .x
    some { self with pre := temp }

/-- The `-f -e` loop. -/
def encodeAt (key : Key) (input : List UInt8) : Option Encoder :=
  (input.takeWhile fun temp => temp ≠ EOF).foldlM (encodeByteAt key.fmKey)
    ⟨cleanBuffer, [], false, 0x3F⟩

/-! ## Decoding -/

/-- The `for` of `print_buffer_decode` from `i` on, `n` turns before 89. -/
def findCodeAt (buffer : Buffer) : Nat → Nat → Option (Option Nat)
  | 0, _ => some none
  | n + 1, i => do
    let code ← morseTable[i]?
    if buffer.spells 0 code ∧ code ≠ [] then some (some i) else findCodeAt buffer n (i + 1)

def printBufferDecodeAt (self : Decoder) : Option Decoder := do
  match ← findCodeAt self.buffer 89 0 with
  | some i => some { self with out := self.out ++ [UInt8.ofNat (i + 33)] }
  | none => some self

def decodeSymbolAt (newlineFlag : Bool) (self : Decoder) (temp : Symbol) : Option Decoder :=
  if temp = .x then
    if self.pre = some .x ∧ newlineFlag = false then
      some { self with out := self.out ++ [space], pre := some .x }
    else do
      let self ← printBufferDecodeAt { self with buffer := writeBuffer self.buffer .nul }
      some { self with buffer := cleanBuffer, pre := some .x }
  else some { self with buffer := writeBuffer self.buffer temp, pre := some temp }

/-- The `for` over `fm_key` from `ii` on; it ends with 26 when nothing is found. -/
def searchAt (fmKey : List UInt8) (temp : UInt8) : Nat → Nat → Option Nat
  | 0, ii => some ii
  | n + 1, ii => do
    let letter ← fmKey[ii]?
    if temp = letter then some ii else searchAt fmKey temp n (ii + 1)

def decodeLoopAt (fmKey : List UInt8) : List UInt8 → Decoder → Option Decoder
  | [], self => some self
  | temp :: input, self =>
    if temp = EOF then some self
    else if temp = newline then do
      let self ← (if self.buffer.cell 0 ≠ .nul then printBufferDecodeAt self else some self)
      decodeLoopAt fmKey input { self with buffer := cleanBuffer, out := self.out ++ [newline] }
    else do
      let ii ← searchAt fmKey temp 26 0
      let (first, second, third) ← fractionatedTable[ii]?
      let self ← [first, second, third].foldlM (decodeSymbolAt (input.head? = some newline)) self
      decodeLoopAt fmKey input self

/-- The `-f -d` loop. -/
def decodeAt (key : Key) (input : List UInt8) : Option (List UInt8) :=
  (decodeLoopAt key.fmKey input ⟨cleanBuffer, [], none⟩).map Decoder.out

/-! ## The encoder stays inside -/

theorem findEntryAt_eq (cells : Fin 8 → Symbol) (n ii : Nat) (total : ii + n = 26)
    (readFlag : Fin 8) : findEntryAt cells n ii readFlag =
      some (findEntry cells (fractionatedTable.drop ii) ii readFlag) := by
  have size : fractionatedTable.length = 26 := rfl
  induction n generalizing ii readFlag with
  | zero =>
    have done : fractionatedTable.drop ii = [] := List.drop_eq_nil_of_le (by omega)
    rw [done, findEntryAt, findEntry]
  | succ n ih =>
    have inside : ii < fractionatedTable.length := by omega
    rw [findEntryAt, List.getElem?_eq_getElem inside, List.drop_eq_getElem_cons inside, findEntry]
    simp only [Option.bind_eq_bind, Option.bind_some]
    rcases tryEntry cells readFlag fractionatedTable[ii] with ⟨_ | _, readFlag'⟩
    · exact ih (ii + 1) (by omega) readFlag'
    · rfl

theorem findEntry_lt {cells : Fin 8 → Symbol} {readFlag readFlag' : Fin 8} {ii : Nat}
    (found : findEntry cells fractionatedTable 0 readFlag = (some ii, readFlag')) : ii < 26 := by
  rw [findEntry_eq] at found
  dsimp only at found
  split at found
  · rename_i mem
    have entry := List.idxOf_lt_length_iff.mpr mem
    simp only [Prod.mk.injEq, Option.some.injEq, Nat.zero_add] at found
    exact found.1 ▸ entry
  · cases found

theorem printLoopAt_eq {fmKey : List UInt8} (length : fmKey.length = 26) (number : Nat)
    (self : Encoder) : printLoopAt fmKey number self = some (printLoop fmKey number self) := by
  fun_induction printLoop fmKey number self with
  | case1 self number ii readFlag found ih =>
    have inside : ii < fmKey.length := length ▸ findEntry_lt found
    have letter : fmKey.getD ii 0 = fmKey[ii] := by
      rw [List.getD_eq_getElem?_getD, List.getElem?_eq_getElem inside, Option.getD_some]
    rw [printLoopAt, findEntryAt_eq _ 26 0 rfl, List.drop_zero, found]
    simp only [Option.bind_eq_bind, Option.bind_some, List.getElem?_eq_getElem inside]
    rw [← letter]
    exact ih
  | case2 self number readFlag found =>
    rw [printLoopAt, findEntryAt_eq _ 26 0 rfl, List.drop_zero, found]
    rfl
  | case3 number self short => rw [printLoopAt]; exact short

theorem putAt_eq {fmKey : List UInt8} (length : fmKey.length = 26) :
    putAt fmKey = fun self temp => pure (put fmKey self temp) := by
  funext self temp
  rw [putAt, put]
  split
  · rfl
  · exact printLoopAt_eq length _ _

theorem morseTable_inside {temp : UInt8} (inside : ¬ (0x7A < temp ∨ temp < 0x21)) :
    morseTable[temp.toNat - 0x21]? = some (morse temp) := by
  rw [not_or, UInt8.not_lt, UInt8.not_lt, UInt8.le_iff_toNat_le, UInt8.le_iff_toNat_le] at inside
  have low : 0x21 ≤ temp.toNat := inside.2
  have high : temp.toNat ≤ 0x7A := inside.1
  have size : morseTable.length = 90 := rfl
  have index : temp.toNat - 0x21 < morseTable.length := by omega
  rw [morse, List.getD_eq_getElem?_getD, List.getElem?_eq_getElem index, Option.getD_some]

theorem encodeByteAt_eq {fmKey : List UInt8} (length : fmKey.length = 26) :
    encodeByteAt fmKey = fun self temp => pure (encodeByte fmKey self temp) := by
  funext self temp
  unfold encodeByteAt encodeByte
  split
  · rfl
  split
  · -- a blank
    have written : (if self.pre ≠ space ∧ self.pre ≠ newline ∧ temp ≠ tab then putAt fmKey self .x
        else some self) = some (if self.pre ≠ space ∧ self.pre ≠ newline ∧ temp ≠ tab then
          put fmKey self .x else self) := by
      rw [putAt_eq length, apply_ite some]
      rfl
    rw [written]
    dsimp only [Option.bind_eq_bind, Option.bind_some, Option.pure_def]
    generalize (if self.pre ≠ space ∧ self.pre ≠ newline ∧ temp ≠ tab then put fmKey self .x
      else self) = marked
    split
    · rfl
    · split <;> rfl
  split
  · rfl
  · rename_i inside
    rw [morseTable_inside inside, putAt_eq length]
    dsimp only [Option.bind_eq_bind, Option.bind_some]
    rw [List.foldlM_pure]
    rfl

theorem encodeAt_eq (key : Key) (input : List UInt8) :
    encodeAt key input = some (encode key input) := by
  rw [encodeAt, encodeByteAt_eq (fmKey_length key), List.foldlM_pure]
  rfl

/-! ## The decoder but for one index -/

theorem findCodeAt_eq (buffer : Buffer) (n i : Nat) (total : i + n = 89) :
    findCodeAt buffer n i = some ((List.range' i n).find? fun i =>
      buffer.spells 0 (morseTable.getD i []) && morseTable.getD i [] ≠ []) := by
  have size : morseTable.length = 90 := rfl
  induction n generalizing i with
  | zero => rfl
  | succ n ih =>
    have inside : i < morseTable.length := by omega
    have code : morseTable.getD i [] = morseTable[i] := by
      rw [List.getD_eq_getElem?_getD, List.getElem?_eq_getElem inside, Option.getD_some]
    rw [findCodeAt, List.getElem?_eq_getElem inside, List.range'_succ, List.find?_cons, code]
    dsimp only [Option.bind_eq_bind, Option.bind_some]
    rw [ih (i + 1) (by omega)]
    by_cases here : buffer.spells 0 morseTable[i] ∧ morseTable[i] ≠ []
    · have test : (buffer.spells 0 morseTable[i] && decide (morseTable[i] ≠ [])) = true := by
        simpa using here
      rw [if_pos here, test]
    · have test : (buffer.spells 0 morseTable[i] && decide (morseTable[i] ≠ [])) = false := by
        simpa using here
      rw [if_neg here, test]

theorem printBufferDecodeAt_eq (self : Decoder) :
    printBufferDecodeAt self = some (printBufferDecode self) := by
  rw [printBufferDecodeAt, findCodeAt_eq _ 89 0 rfl, printBufferDecode, List.range_eq_range']
  dsimp only [Option.bind_eq_bind, Option.bind_some]
  generalize List.find? _ _ = found
  cases found <;> rfl

theorem decodeSymbolAt_eq (newlineFlag : Bool) :
    decodeSymbolAt newlineFlag = fun self temp => pure (decodeSymbol newlineFlag self temp) := by
  funext self temp
  unfold decodeSymbolAt decodeSymbol
  split
  · split
    · rfl
    · rw [printBufferDecodeAt_eq]
      rfl
  · rfl

/-- The search ends at the letter, or at 26 when the key does not have it. -/
theorem searchAt_eq {fmKey : List UInt8} (length : fmKey.length = 26) (temp : UInt8) (n ii : Nat)
    (total : ii + n = 26) :
    searchAt fmKey temp n ii = some (ii + (fmKey.drop ii).idxOf temp) := by
  induction n generalizing ii with
  | zero =>
    have done : fmKey.drop ii = [] := List.drop_eq_nil_of_le (by omega)
    rw [done, searchAt]
    rfl
  | succ n ih =>
    have inside : ii < fmKey.length := by omega
    rw [searchAt, List.getElem?_eq_getElem inside, List.drop_eq_getElem_cons inside, List.idxOf_cons]
    dsimp only [Option.bind_eq_bind, Option.bind_some]
    rw [ih (ii + 1) (by omega)]
    by_cases here : temp = fmKey[ii]
    · simp [here]
    · have other : (fmKey[ii] == temp) = false := by simpa using Ne.symm here
      rw [if_neg here, other, cond_false]
      congr 1
      omega

theorem entry_of_search {fmKey : List UInt8} (length : fmKey.length = 26) (temp : UInt8) :
    fractionatedTable[fmKey.idxOf temp]? =
      (fmKey.idxOf? temp).bind fun ii => fractionatedTable[ii]? := by
  rw [List.idxOf_eq_getD_idxOf?]
  cases fmKey.idxOf? temp with
  | none =>
    rw [Option.getD_none, length]
    rfl
  | some ii => rfl

theorem decodeLoopAt_eq {fmKey : List UInt8} (length : fmKey.length = 26) (input : List UInt8)
    (self : Decoder) : decodeLoopAt fmKey input self = decodeLoop fmKey input self := by
  induction input generalizing self with
  | nil => rfl
  | cons temp input ih =>
    rw [decodeLoopAt, decodeLoop]
    split
    · rfl
    split
    · have printed : (if self.buffer.cell 0 ≠ .nul then printBufferDecodeAt self else some self) =
          some (if self.buffer.cell 0 ≠ .nul then printBufferDecode self else self) := by
        rw [printBufferDecodeAt_eq, apply_ite some]
      rw [printed]
      exact ih _
    · rw [searchAt_eq length temp 26 0 rfl, decodeSymbolAt_eq, List.drop_zero, Nat.zero_add]
      dsimp only [Option.bind_eq_bind, Option.bind_some]
      rw [entry_of_search length]
      cases (fmKey.idxOf? temp).bind fun ii => fractionatedTable[ii]? with
      | none => rfl
      | some entry =>
        dsimp only [Option.bind_some]
        rw [List.foldlM_pure]
        exact ih _

/-- The decoder reads past `fractionated_table` at the first byte that is neither
a newline nor a letter of the key. -/
theorem decodeLoop_isSome_iff {fmKey : List UInt8} (length : fmKey.length = 26)
    (input : List UInt8) (self : Decoder) :
    (decodeLoop fmKey input self).isSome ↔
      ∀ temp ∈ input.takeWhile (fun temp => temp ≠ EOF), temp = newline ∨ temp ∈ fmKey := by
  induction input generalizing self with
  | nil => simp [decodeLoop]
  | cons temp input ih =>
    rw [decodeLoop]
    by_cases last : temp = EOF
    · simp [last]
    rw [if_neg last, List.takeWhile_cons_of_pos (by simpa using last), List.forall_mem_cons]
    by_cases line : temp = newline
    · rw [if_pos line, ih, and_iff_right (.inl line)]
    rw [if_neg line, or_iff_right line]
    by_cases known : temp ∈ fmKey
    · have index : fmKey.idxOf temp < fractionatedTable.length := by
        have := List.idxOf_lt_length_iff.mpr known
        have size : fractionatedTable.length = 26 := rfl
        omega
      rw [← entry_of_search length, List.getElem?_eq_getElem index, and_iff_right known]
      exact ih _
    · rw [List.idxOf?_eq_none_iff.mpr known]
      simp [known]

theorem decodeAt_eq (key : Key) (input : List UInt8) : decodeAt key input = decode key input := by
  rw [decodeAt, decode, decodeLoopAt_eq (fmKey_length key)]

end LinuxSystem.Morse
