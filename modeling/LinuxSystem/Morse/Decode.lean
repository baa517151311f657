import LinuxSystem.Morse.Text
import Mathlib.Data.List.GetD

/-!
# What the decoder reads

`decodeFrom` is the decoder on the marks of a line. A word leaves a clean buffer
behind. The space after a word is its second `x`, and the decoder does not write
it where that `x` is in the last letter before the newline.
-/

namespace LinuxSystem.Morse

open Triples

/-! ## Reading a code -/

/-- The string of the buffer. -/
def Reads (buffer : Buffer) (code : List Symbol) : Prop :=
  ∀ j < 8, buffer.cell j = code.getD j .nul

theorem spells_iff {buffer : Buffer} {code : List Symbol} (reads : Reads buffer code)
    (nul : Symbol.nul ∉ code) {entry : List Symbol} (entry_nul : Symbol.nul ∉ entry) {j : Nat}
    (short : j + entry.length < 8) : buffer.spells j entry = true ↔ code.drop j = entry := by
  induction entry generalizing j with
  | nil =>
    rw [Buffer.spells, reads j (by simpa using short), decide_eq_true_eq, List.drop_eq_nil_iff]
    by_cases within : j < code.length
    · simp only [List.getD_eq_getElem _ _ within]
      have : code[j] ≠ .nul := fun eq => nul (eq ▸ List.getElem_mem within)
      simp only [this, false_iff]
      omega
    · simp only [List.getD_eq_default _ _ (Nat.le_of_not_lt within), true_iff]
      omega
  | cons temp entry ih =>
    rw [List.mem_cons, not_or] at entry_nul
    rw [List.length_cons] at short
    rw [Buffer.spells, Bool.and_eq_true, ih entry_nul.2 (by omega), reads j (by omega),
      decide_eq_true_eq]
    by_cases within : j < code.length
    · rw [List.getD_eq_getElem _ _ within, List.drop_eq_getElem_cons within, List.cons.injEq]
    · rw [List.getD_eq_default _ _ (Nat.le_of_not_lt within),
        List.drop_eq_nil_of_le (Nat.le_of_not_lt within)]
      simp [entry_nul.1]

theorem morseTable_entry (i : Nat) :
    Symbol.nul ∉ morseTable.getD i [] ∧ (morseTable.getD i []).length ≤ 6 := by
  have entries : ∀ entry ∈ morseTable, Symbol.nul ∉ entry ∧ entry.length ≤ 6 := by decide
  rw [List.getD_eq_getElem?_getD]
  cases entry : morseTable[i]? with
  | none => simp
  | some code => exact entries code (List.mem_of_getElem? entry)

/-- No two entries share a code. -/
theorem find_code : ∀ i < 90, morseTable.getD i [] ≠ [] → ((List.range 89).find? fun j =>
    decide (morseTable.getD i [] = morseTable.getD j []) && morseTable.getD j [] ≠ []) = some i := by
  decide +kernel

/-- `print_buffer_decode` looks the string of the buffer up in the table. -/
theorem find_spelled {buffer : Buffer} {code : List Symbol} (reads : Reads buffer code)
    (nul : Symbol.nul ∉ code) :
    ((List.range 89).find? fun j =>
        buffer.spells 0 (morseTable.getD j []) && morseTable.getD j [] ≠ []) =
      (List.range 89).find? fun j =>
        decide (code = morseTable.getD j []) && morseTable.getD j [] ≠ [] := by
  have same (j : Nat) : buffer.spells 0 (morseTable.getD j []) =
      decide (code = morseTable.getD j []) := by
    obtain ⟨entry_nul, short⟩ := morseTable_entry j
    rw [Bool.eq_iff_iff, spells_iff reads nul entry_nul (by omega), List.drop_zero,
      decide_eq_true_eq]
  simp only [same]

theorem print_empty {self : Decoder} (reads : Reads self.buffer []) :
    printBufferDecode self = self := by
  have missing : ((List.range 89).find? fun j =>
      decide ([] = morseTable.getD j []) && morseTable.getD j [] ≠ []) = none := by
    rw [List.find?_eq_none]
    intro j _ found
    simp only [ne_eq, Bool.and_eq_true, decide_eq_true_eq] at found
    exact found.2 found.1.symm
  rw [printBufferDecode, find_spelled reads (by simp), missing]

theorem print_letter {self : Decoder} (l : Letter) (reads : Reads self.buffer (morse l.char)) :
    printBufferDecode self = { self with out := self.out ++ [l.char] } := by
  have low := UInt8.le_iff_toNat_le.mp l.low
  have high := UInt8.le_iff_toNat_le.mp l.high
  simp only [UInt8.reduceToNat] at low high
  rw [printBufferDecode, find_spelled reads (morseTable_entry _).1, morse,
    find_code (l.char.toNat - 0x21) (by omega) l.coded]
  have : l.char.toNat - 0x21 + 33 = l.char.toNat := by omega
  simp [this]

/-! ## The marks of a line -/

/-- The marks of a line, with `after` more of them to come before the newline:
`newline_flag` is set at the last three. -/
def decodeFrom (after : Nat) : List Symbol → Decoder → Decoder
  | [], self => self
  | temp :: l, self =>
    decodeFrom after l (decodeSymbol (decide (l.length + after < 3)) self temp)

theorem decodeFrom_append (after : Nat) (l l' : List Symbol) (self : Decoder) :
    decodeFrom after (l ++ l') self = decodeFrom after l' (decodeFrom (l'.length + after) l self) := by
  induction l generalizing self with
  | nil => rfl
  | cons temp l ih => simp only [List.cons_append, decodeFrom, ih, List.length_append, add_assoc]

/-- The buffer holds the marks of a code that has not ended. -/
structure Written (buffer : Buffer) (code : List Symbol) : Prop where
  reads : Reads buffer code
  writeFlag : buffer.writeFlag.val = code.length

theorem written_clean : Written cleanBuffer [] where
  reads j h := by simp [Buffer.cell, cleanBuffer]
  writeFlag := rfl

theorem reads_write {buffer : Buffer} {code : List Symbol} (written : Written buffer code)
    (temp : Symbol) : Reads (writeBuffer buffer temp) (code ++ [temp]) := by
  intro j hj
  have before := written.reads j hj
  simp only [Buffer.cell, hj, ↓reduceDIte, writeBuffer] at before ⊢
  by_cases last : j = code.length
  · have : (⟨j, hj⟩ : Fin 8) = buffer.writeFlag := Fin.ext (last.trans written.writeFlag.symm)
    rw [this, Function.update_self]
    simp [last]
  · have : (⟨j, hj⟩ : Fin 8) ≠ buffer.writeFlag := fun eq =>
      last ((congrArg Fin.val eq).trans written.writeFlag)
    rw [Function.update_of_ne this, before]
    by_cases older : j < code.length
    · rw [List.getD_append _ _ _ _ older]
    · rw [List.getD_eq_default _ _ (by omega), List.getD_eq_default _ _ (by simp; omega)]

theorem Written.write {buffer : Buffer} {code : List Symbol} (written : Written buffer code)
    (room : code.length < 7) (temp : Symbol) :
    Written (writeBuffer buffer temp) (code ++ [temp]) where
  reads := reads_write written temp
  writeFlag := by
    have := written.writeFlag
    simp only [writeBuffer, Fin.val_add, List.length_append, List.length_singleton, this]
    exact Nat.mod_eq_of_lt (by omega)

/-- The NUL written at the end of a code. -/
theorem Written.nul {buffer : Buffer} {code : List Symbol} (written : Written buffer code) :
    Reads (writeBuffer buffer .nul) code := by
  intro j hj
  rw [reads_write written .nul j hj]
  by_cases within : j < code.length
  · rw [List.getD_append _ _ _ _ within]
  · rw [List.getD_append_right _ _ _ _ (Nat.le_of_not_lt within),
      List.getD_eq_default _ _ (Nat.le_of_not_lt within)]
    cases j - code.length with
    | zero => rfl
    | succ n => rfl

theorem decode_marks (after : Nat) (self : Decoder) {marks code : List Symbol}
    (mark : ∀ temp ∈ marks, temp = .dot ∨ temp = .dash) (written : Written self.buffer code)
    (room : code.length + marks.length < 8) :
    Written (decodeFrom after marks self).buffer (code ++ marks) ∧
      (decodeFrom after marks self).out = self.out ∧
      (self.pre ≠ some .x ∨ marks ≠ [] → (decodeFrom after marks self).pre ≠ some .x) := by
  induction marks generalizing code self with
  | nil => simpa [decodeFrom] using written
  | cons temp marks ih =>
    obtain ⟨here, mark⟩ := List.forall_mem_cons.mp mark
    have plain : temp ≠ .x := by rintro rfl; simp at here
    rw [List.length_cons] at room
    rw [decodeFrom, decodeSymbol, if_neg plain]
    obtain ⟨written, out, pre⟩ := ih
      { self with buffer := writeBuffer self.buffer temp, pre := some temp } mark
      (written.write (by omega) temp)
      (by simp only [List.length_append, List.length_singleton]; omega)
    exact ⟨by simpa using written, out, fun _ => pre (.inl (by simp [plain]))⟩

theorem morse_length (char : UInt8) : (morse char).length ≤ 6 := (morseTable_entry _).2

/-- The marks of one character, read into a clean buffer. -/
theorem decode_code (after : Nat) (l : Letter) {self : Decoder}
    (clean : self.buffer = cleanBuffer) :
    Written (decodeFrom after (morse l.char) self).buffer (morse l.char) ∧
      (decodeFrom after (morse l.char) self).out = self.out ∧
      (decodeFrom after (morse l.char) self).pre ≠ some .x := by
  have short := morse_length l.char
  have mark : ∀ temp ∈ morse l.char, temp = .dot ∨ temp = .dash := by
    intro temp mem
    exact morse_mark mem
  have empty : Written self.buffer [] := clean ▸ written_clean
  obtain ⟨written, out, pre⟩ := decode_marks after self mark empty (by rw [List.length_nil]; omega)
  exact ⟨written, out, pre (.inr l.coded)⟩

theorem decode_letter (after : Nat) (l : Letter) {self : Decoder}
    (clean : self.buffer = cleanBuffer) :
    decodeFrom after l.marks self = ⟨cleanBuffer, self.out ++ [l.char], some .x⟩ := by
  obtain ⟨written, out, pre⟩ := decode_code ([Symbol.x].length + after) l clean
  have ends : ¬ ((decodeFrom ([Symbol.x].length + after) (morse l.char) self).pre = some .x ∧
      decide (([] : List Symbol).length + after < 3) = false) := by
    intro both
    exact pre both.1
  rw [Letter.marks, decodeFrom_append, decodeFrom, decodeFrom, decodeSymbol, if_pos rfl, if_neg ends,
    print_letter l written.nul, out]

theorem decode_letters (after : Nat) (letters : List Letter) {self : Decoder}
    (clean : self.buffer = cleanBuffer) :
    decodeFrom after (letters.flatMap Letter.marks) self =
      ⟨cleanBuffer, self.out ++ letters.map Letter.char,
        if letters = [] then self.pre else some .x⟩ := by
  induction letters generalizing self with
  | nil => simp [decodeFrom, ← clean]
  | cons l letters ih =>
    rw [List.flatMap_cons, decodeFrom_append, decode_letter _ l clean, ih rfl]
    simp

/-- The second `x` writes the space unless it is in the last letter of the line. -/
theorem decode_word (after : Nat) (word : Word) {self : Decoder}
    (clean : self.buffer = cleanBuffer) :
    decodeFrom after word.marks self =
      ⟨cleanBuffer, self.out ++ word.letters.map Letter.char ++
        (if after < 3 then [] else [space]), some .x⟩ := by
  rw [Word.marks, Word.body, decodeFrom_append, decode_letters _ _ clean, if_neg word.nonempty,
    decodeFrom, decodeFrom, decodeSymbol, if_pos rfl]
  have ended : Written cleanBuffer [] := written_clean
  by_cases last : after < 3
  · rw [if_neg (by simp [last]), print_empty (by simpa using ended.nul)]
    simp [last]
  · rw [if_pos (by simp [last]), if_neg last]

/-- What the decoder does at a newline. -/
def endLine (self : Decoder) : Decoder :=
  let self := if self.buffer.cell 0 ≠ .nul then printBufferDecode self else self
  { self with buffer := cleanBuffer, out := self.out ++ [newline] }

theorem endLine_clean {self : Decoder} (clean : self.buffer = cleanBuffer) :
    endLine self = { self with out := self.out ++ [newline] } := by
  have : self.buffer.cell 0 = .nul := by rw [clean]; rfl
  simp only [endLine, this, ne_eq, not_true_eq_false, ↓reduceIte]
  rw [← clean]

/-- A code that the newline finds in the buffer. -/
theorem endLine_letter (after : Nat) (l : Letter) {self : Decoder}
    (clean : self.buffer = cleanBuffer) :
    (endLine (decodeFrom after (morse l.char) self)).out =
      self.out ++ [l.char] ++ [newline] := by
  obtain ⟨written, out, -⟩ := decode_code after l clean
  have first : (decodeFrom after (morse l.char) self).buffer.cell 0 ≠ .nul := by
    have plain : Symbol.nul ∉ morse l.char := (morseTable_entry _).1
    rw [written.reads 0 (by decide)]
    cases code : morse l.char with
    | nil => exact absurd code l.coded
    | cons temp code' =>
      rw [List.getD_cons_zero]
      rintro rfl
      exact plain (by simp [code])
  simp only [endLine, first, ne_eq, not_false_eq_true, ↓reduceIte]
  rw [print_letter l written.reads, out]

/-- The last word of a line, without the at most two `x` that the encoder
dropped at the newline. -/
theorem endLine_word (word : Word) {marks dropped : List Symbol} (few : dropped.length < 3)
    (cut : word.marks = marks ++ dropped) {self : Decoder} (clean : self.buffer = cleanBuffer) :
    (endLine (decodeFrom 0 marks self)).out =
      self.out ++ word.letters.map Letter.char ++ [newline] := by
  match dropped, few with
  | [], _ =>
    rw [List.append_nil] at cut
    rw [← cut, decode_word 0 word clean, endLine_clean rfl]
    simp
  | [_], _ =>
    rw [← (List.append_inj' cut rfl).1, Word.body, decode_letters 0 _ clean, endLine_clean rfl]
  | [a, b], _ =>
    rw [show marks ++ [a, b] = marks ++ [a] ++ [b] by simp] at cut
    have body := (List.append_inj' cut rfl).1
    rw [Word.body, ← List.dropLast_append_getLast word.nonempty, List.flatMap_append,
      List.flatMap_singleton, Letter.marks, ← List.append_assoc] at body
    rw [← (List.append_inj' body rfl).1, decodeFrom_append, decode_letters _ _ clean,
      endLine_letter 0 _ rfl]
    conv_rhs => rw [← List.dropLast_append_getLast word.nonempty]
    simp

/-- What comes back of a line when the encoder dropped the last marks of it: the
space before its last word is lost where fewer than three marks of that word
are left. -/
def Line.arrives (dropped : Nat) : Line → List UInt8
  | [] => [newline]
  | [word] => word.letters.map Letter.char ++ [newline]
  | word :: word' :: line =>
    word.letters.map Letter.char ++
      (if (Line.marks (word' :: line)).length < dropped + 3 then [] else [space]) ++
      Line.arrives dropped (word' :: line)

theorem three_le_marks (word : Word) : 3 ≤ word.marks.length := by
  rw [Word.marks, Word.body, ← List.dropLast_append_getLast word.nonempty]
  have := List.length_pos_iff.mpr (word.letters.getLast word.nonempty).coded
  simp only [List.flatMap_append, List.flatMap_singleton, Letter.marks, List.length_append,
    List.length_singleton]
  omega

theorem endLine_line (line : Line) {marks dropped : List Symbol} (few : dropped.length < 3)
    (cut : line.marks = marks ++ dropped) {self : Decoder} (clean : self.buffer = cleanBuffer) :
    (endLine (decodeFrom 0 marks self)).out = self.out ++ line.arrives dropped.length := by
  induction line generalizing marks self with
  | nil =>
    have empty : marks = [] := (List.append_eq_nil_iff.mp cut.symm).1
    rw [empty, decodeFrom, endLine_clean clean, Line.arrives]
  | cons word line ih =>
    match line with
    | [] =>
      rw [Line.marks_cons, Line.marks, List.flatMap_nil, List.append_nil] at cut
      rw [endLine_word word few cut clean, Line.arrives, List.append_assoc]
    | word' :: line =>
      rw [Line.marks_cons] at cut
      have long := three_le_marks word'
      rcases List.append_eq_append_iff.mp cut with ⟨rest, rfl, later⟩ | ⟨rest, -, rfl⟩
      · have after := congrArg List.length later
        rw [List.length_append] at after
        rw [decodeFrom_append, decode_word _ word clean, ih later rfl, Line.arrives, after]
        simp only [Nat.add_zero, Nat.add_comm dropped.length, Nat.add_lt_add_iff_right,
          List.append_assoc]
      · rw [Line.marks_cons] at few
        simp only [List.length_append] at few
        omega

end LinuxSystem.Morse
