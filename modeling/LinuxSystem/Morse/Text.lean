import LinuxSystem.Morse.Ring

/-!
# Encodable text

A text is a list of lines, a line a list of words, a word a nonempty list of
characters with a code. `Line.marks` are the symbols of a line: one `x` ends a
character and one more its word, so no three stand in a row.
-/

namespace LinuxSystem.Morse

open Triples

structure Letter where
  char : UInt8
  low : 0x21 ≤ char
  high : char ≤ 0x7A
  coded : morse char ≠ []

structure Word where
  letters : List Letter
  nonempty : letters ≠ []

abbrev Line := List Word

/-- Single spaces between the words, and a newline at the end. -/
def Line.bytes (line : Line) : List UInt8 :=
  [space].intercalate (line.map fun word => word.letters.map Letter.char) ++ [newline]

def textBytes (text : List Line) : List UInt8 := text.flatMap Line.bytes

def Letter.marks (l : Letter) : List Symbol := morse l.char ++ [.x]

/-- The marks of a word without the `x` of the blank after it. -/
def Word.body (word : Word) : List Symbol := word.letters.flatMap Letter.marks

def Word.marks (word : Word) : List Symbol := word.body ++ [.x]

def Line.marks (line : Line) : List Symbol := line.flatMap Word.marks

@[simp] theorem Line.bytes_nil : Line.bytes [] = [newline] := rfl

theorem Line.bytes_singleton (word : Word) :
    Line.bytes [word] = word.letters.map Letter.char ++ [newline] := by
  simp [Line.bytes]

theorem Line.bytes_cons (word word' : Word) (line : Line) :
    Line.bytes (word :: word' :: line) =
      word.letters.map Letter.char ++ space :: Line.bytes (word' :: line) := by
  simp [Line.bytes, List.intercalate_cons_cons]

theorem Line.mem_bytes {line : Line} {temp : UInt8} (mem : temp ∈ line.bytes) :
    temp = space ∨ temp = newline ∨ ∃ l : Letter, temp = l.char := by
  induction line with
  | nil => exact .inr (.inl (by simpa using mem))
  | cons word line ih =>
    match line with
    | [] =>
      rw [Line.bytes_singleton, List.mem_append, List.mem_map, List.mem_singleton] at mem
      obtain ⟨l, -, rfl⟩ | rfl := mem
      · exact .inr (.inr ⟨l, rfl⟩)
      · exact .inr (.inl rfl)
    | word' :: line =>
      rw [Line.bytes_cons, List.mem_append, List.mem_map, List.mem_cons] at mem
      obtain ⟨l, -, rfl⟩ | rfl | mem := mem
      · exact .inr (.inr ⟨l, rfl⟩)
      · exact .inl rfl
      · exact ih mem

theorem Line.marks_cons (word : Word) (line : Line) :
    Line.marks (word :: line) = word.marks ++ line.marks := List.flatMap_cons

/-! ## The tables -/

theorem morse_mark {char : UInt8} {temp : Symbol} (mem : temp ∈ morse char) :
    temp = .dot ∨ temp = .dash := by
  have marks : ∀ code ∈ morseTable, ∀ temp ∈ code, temp = .dot ∨ temp = .dash := by decide
  rw [morse, List.getD_eq_getElem?_getD] at mem
  cases entry : morseTable[char.toNat - 0x21]? with
  | none => simp [entry] at mem
  | some code =>
    rw [entry] at mem
    exact marks code (List.mem_of_getElem? entry) temp mem

theorem mem_fractionatedTable {a b c : Symbol} : (a, b, c) ∈ fractionatedTable ↔
    (a ≠ .nul ∧ b ≠ .nul ∧ c ≠ .nul) ∧ ¬ (a = .x ∧ b = .x ∧ c = .x) := by
  cases a <;> cases b <;> cases c <;> decide

/-! ## No three separators in a row -/

/-- No NUL and no three `x` in a row, when `before` of them stand in front. -/
def Separated : Nat → List Symbol → Prop
  | _, [] => True
  | before, temp :: l =>
    if temp = .x then before < 2 ∧ Separated (before + 1) l else temp ≠ .nul ∧ Separated 0 l

theorem Separated.tail {before : Nat} {temp : Symbol} {l : List Symbol}
    (h : Separated before (temp :: l)) : temp ≠ .nul ∧ ∃ before', Separated before' l := by
  rw [Separated] at h
  split at h
  · rename_i eq
    exact ⟨by simp [eq], _, h.2⟩
  · exact ⟨h.1, _, h.2⟩

theorem not_separated_three (before : Nat) (l : List Symbol) :
    ¬ Separated before (.x :: .x :: .x :: l) := by
  simp only [Separated, ↓reduceIte]
  omega

theorem Separated.printable {before : Nat} {l : List Symbol} (h : Separated before l) :
    Printable l := by
  induction l using triples.induct generalizing before with
  | case1 a b c l ih =>
    obtain ⟨first, _, h'⟩ := h.tail
    obtain ⟨second, _, h'⟩ := h'.tail
    obtain ⟨third, _, rest⟩ := h'.tail
    refine List.forall_mem_cons.mpr ⟨mem_fractionatedTable.mpr ⟨⟨first, second, third⟩, ?_⟩, ih rest⟩
    rintro ⟨rfl, rfl, rfl⟩
    exact not_separated_three _ _ h
  | case2 l short => simp [Printable, triples]

theorem separated_mark {before : Nat} {temp : Symbol} {l : List Symbol}
    (mark : temp = .dot ∨ temp = .dash) (h : Separated 0 l) : Separated before (temp :: l) := by
  rcases mark with rfl | rfl
  · exact ⟨by decide, h⟩
  · exact ⟨by decide, h⟩

theorem separated_marks {code l : List Symbol} (marks : ∀ temp ∈ code, temp = .dot ∨ temp = .dash)
    (h : Separated 0 l) : Separated 0 (code ++ l) := by
  induction code with
  | nil => exact h
  | cons temp code ih =>
    obtain ⟨mark, marks⟩ := List.forall_mem_cons.mp marks
    exact separated_mark mark (ih marks)

theorem separated_x {before : Nat} {l : List Symbol} (few : before < 2)
    (h : Separated (before + 1) l) : Separated before (.x :: l) := by
  rw [Separated, if_pos rfl]
  exact ⟨few, h⟩

theorem separated_letter {before : Nat} (letter : Letter) {l : List Symbol} (h : Separated 1 l) :
    Separated before (letter.marks ++ l) := by
  have coded := letter.coded
  have marks : ∀ temp ∈ morse letter.char, temp = .dot ∨ temp = .dash := fun _ => morse_mark
  rw [Letter.marks]
  generalize morse letter.char = code at coded marks
  match code with
  | temp :: code =>
    obtain ⟨mark, marks⟩ := List.forall_mem_cons.mp marks
    rw [List.append_assoc, List.cons_append]
    exact separated_mark mark (separated_marks marks (separated_x (by decide) h))

theorem separated_letters {before : Nat} {letters : List Letter} (nonempty : letters ≠ [])
    {l : List Symbol} (h : Separated 1 l) :
    Separated before (letters.flatMap Letter.marks ++ l) := by
  induction letters generalizing before with
  | nil => exact absurd rfl nonempty
  | cons letter letters ih =>
    rw [List.flatMap_cons, List.append_assoc]
    apply separated_letter letter
    by_cases last : letters = []
    · simpa [last] using h
    · exact ih last

theorem separated_line (before : Nat) (line : Line) : Separated before line.marks := by
  induction line generalizing before with
  | nil => trivial
  | cons word line ih =>
    rw [Line.marks, List.flatMap_cons, Word.marks, List.append_assoc]
    exact separated_letters word.nonempty (separated_x (by decide) (ih 2))

end LinuxSystem.Morse
