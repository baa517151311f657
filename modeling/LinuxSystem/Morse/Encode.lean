import LinuxSystem.Morse.Text
import Mathlib.Data.List.TakeWhile

/-!
# What the encoder writes

A line comes out as the letters of the triples of its marks; `clean_buffer`
drops the one or two marks left over at the newline.
-/

namespace LinuxSystem.Morse

open Triples

variable (fmKey : List UInt8)

def Line.encoded (line : Line) : List UInt8 :=
  (triples line.marks).map (letter fmKey) ++ [newline]

/-- The encoder within a line, after the marks `read` of it. -/
structure Within (start : List UInt8) (read : List Symbol) (e : Encoder) : Prop where
  ok : e.failed = false
  out : e.out = start ++ (triples read).map (letter fmKey)
  pending : Pending e.buffer (leftover read)

variable {fmKey} {start : List UInt8} {read : List Symbol} {self : Encoder}

theorem Within.run (within : Within fmKey start read self) {l : List Symbol}
    (printable : Printable (read ++ l)) :
    Within fmKey start (read ++ l) (l.foldl (put fmKey) self) := by
  have cut := triples_append read l
  obtain ⟨buffer, pending, eq⟩ := put_run fmKey self l within.pending (leftover_length read)
    within.ok (printable_append.mp printable).2
  rw [eq]
  exact ⟨within.ok, by simp [within.out, cut], by rwa [leftover_append]⟩

theorem Within.pre (within : Within fmKey start read self) (pre : UInt8) :
    Within fmKey start read { self with pre := pre } :=
  ⟨within.ok, within.out, within.pending⟩

/-- What `pre` is after a character with a code. -/
def Solid (pre : UInt8) : Prop := pre ≠ space ∧ pre ≠ newline

theorem Letter.solid (l : Letter) : Solid l.char := by
  have := l.low
  constructor
  · rintro eq
    simp [eq, space] at this
  · rintro eq
    simp [eq, newline] at this

theorem encode_letter (l : Letter) (within : Within fmKey start read self)
    (printable : Printable (read ++ l.marks)) :
    Within fmKey start (read ++ l.marks) (encodeByte fmKey self l.char) ∧
      (encodeByte fmKey self l.char).pre = l.char := by
  have low := l.low
  have high := l.high
  have blank : ¬ (l.char = space ∨ l.char = newline ∨ l.char = tab) := by
    rintro (eq | eq | eq) <;> simp [eq, space, newline, tab] at low
  have coded : ¬ (0x7A < l.char ∨ l.char < 0x21) := by
    rw [not_or, UInt8.not_lt, UInt8.not_lt]
    exact ⟨high, low⟩
  have step : encodeByte fmKey self l.char =
      { l.marks.foldl (put fmKey) self with pre := l.char } := by
    rw [encodeByte, if_neg (by simp [within.ok]), if_neg blank, if_neg coded, Letter.marks,
      List.foldl_append]
    rfl
  rw [step]
  exact ⟨(within.run printable).pre _, rfl⟩

/-- The space after a word. -/
theorem encode_space (within : Within fmKey start read self) (solid : Solid self.pre)
    (printable : Printable (read ++ [.x])) :
    Within fmKey start (read ++ [.x]) (encodeByte fmKey self space) := by
  have run := within.run printable
  have ok : (put fmKey self .x).failed = false := run.ok
  have written : (if self.pre ≠ space ∧ self.pre ≠ newline ∧ space ≠ tab then put fmKey self .x
      else self) = put fmKey self .x := if_pos ⟨solid.1, solid.2, by decide⟩
  have step : encodeByte fmKey self space = { put fmKey self .x with pre := space } := by
    rw [encodeByte, if_neg (by simp [within.ok]), if_pos (.inl rfl)]
    simp only [written, ok, Bool.false_eq_true, ↓reduceIte]
    exact if_neg (by decide)
  rw [step]
  exact run.pre _

/-- The newline after a word. -/
theorem encode_newline (within : Within fmKey start read self) (solid : Solid self.pre)
    (printable : Printable (read ++ [.x])) :
    encodeByte fmKey self newline =
      ⟨cleanBuffer, start ++ (triples (read ++ [.x])).map (letter fmKey) ++ [newline], false,
        newline⟩ := by
  have run := within.run printable
  have ok : (put fmKey self .x).failed = false := run.ok
  have out : (put fmKey self .x).out = _ := run.out
  have written : (if self.pre ≠ space ∧ self.pre ≠ newline ∧ newline ≠ tab then put fmKey self .x
      else self) = put fmKey self .x := if_pos ⟨solid.1, solid.2, by decide⟩
  rw [encodeByte, if_neg (by simp [within.ok]), if_pos (.inr (.inl rfl))]
  simp only [written, ok, Bool.false_eq_true, ↓reduceIte, out]

theorem encode_letters (letters : List Letter) (within : Within fmKey start read self)
    (solid : letters = [] → Solid self.pre)
    (printable : Printable (read ++ letters.flatMap Letter.marks)) :
    Within fmKey start (read ++ letters.flatMap Letter.marks)
        ((letters.map Letter.char).foldl (encodeByte fmKey) self) ∧
      Solid ((letters.map Letter.char).foldl (encodeByte fmKey) self).pre := by
  induction letters generalizing read self with
  | nil => exact ⟨by simpa using within, solid rfl⟩
  | cons l letters ih =>
    rw [List.flatMap_cons, ← List.append_assoc] at printable ⊢
    obtain ⟨within, pre⟩ := encode_letter l within (printable_append.mp printable).1
    exact ih within (fun _ => by rw [pre]; exact l.solid) printable

theorem encode_words {line : Line} (nonempty : line ≠ []) (within : Within fmKey start read self)
    (printable : Printable (read ++ line.marks)) :
    line.bytes.foldl (encodeByte fmKey) self =
      ⟨cleanBuffer, start ++ (triples (read ++ line.marks)).map (letter fmKey) ++ [newline], false,
        newline⟩ := by
  induction line generalizing read self with
  | nil => exact absurd rfl nonempty
  | cons word line ih =>
    rw [Line.marks_cons, Word.marks, Word.body, ← List.append_assoc, ← List.append_assoc]
      at printable
    have blank := (printable_append.mp printable).1
    obtain ⟨within, solid⟩ := encode_letters word.letters within
      (fun empty => absurd empty word.nonempty) (printable_append.mp blank).1
    cases line with
    | nil =>
      rw [Line.bytes_singleton, List.foldl_append, List.foldl_cons, List.foldl_nil,
        encode_newline within solid blank]
      simp [Line.marks, Word.marks, Word.body]
    | cons word' line =>
      rw [Line.bytes_cons, List.foldl_append, List.foldl_cons,
        ih (by simp) (encode_space within solid blank) printable]
      simp [Line.marks, Word.marks, Word.body]

/-- A line from a clean buffer, whatever `pre` is. -/
theorem encode_line (line : Line) (ok : self.failed = false) (clean : self.buffer = cleanBuffer) :
    line.bytes.foldl (encodeByte fmKey) self =
      ⟨cleanBuffer, self.out ++ line.encoded fmKey, false, newline⟩ := by
  have pending : Pending self.buffer [] := clean ▸ pending_clean
  by_cases empty : line = []
  · subst empty
    rw [Line.bytes_nil, List.foldl_cons, List.foldl_nil, encodeByte, if_neg (by simp [ok]),
      if_pos (.inr (.inl rfl))]
    have written : ∃ buffer, (if self.pre ≠ space ∧ self.pre ≠ newline ∧ newline ≠ tab then
        put fmKey self .x else self) = { self with buffer := buffer } := by
      split
      · exact ⟨_, put_short fmKey self pending (by simp) ok .x⟩
      · exact ⟨self.buffer, rfl⟩
    obtain ⟨buffer, eq⟩ := written
    simp only [eq, ok, Bool.false_eq_true, ↓reduceIte]
    rfl
  · have within : Within fmKey self.out [] self := ⟨ok, by simp [triples], pending⟩
    rw [encode_words empty within (separated_line 0 line).printable, Line.encoded,
      List.nil_append, List.append_assoc]

theorem encode_text (text : List Line) (ok : self.failed = false)
    (clean : self.buffer = cleanBuffer) :
    ((textBytes text).foldl (encodeByte fmKey) self).failed = false ∧
      ((textBytes text).foldl (encodeByte fmKey) self).out =
        self.out ++ text.flatMap (Line.encoded fmKey) := by
  induction text generalizing self with
  | nil => exact ⟨ok, by simp [textBytes]⟩
  | cons line text ih =>
    rw [textBytes, List.flatMap_cons, List.foldl_append, encode_line line ok clean,
      List.flatMap_cons, ← List.append_assoc]
    exact ih rfl rfl

/-- No byte of a text ends the input. -/
theorem bytes_ne_EOF (text : List Line) : ∀ temp ∈ textBytes text, temp ≠ EOF := by
  intro temp mem
  obtain ⟨line, -, mem⟩ := List.mem_flatMap.mp mem
  obtain rfl | rfl | ⟨l, rfl⟩ := Line.mem_bytes mem
  · decide
  · decide
  · intro eq
    have := l.high
    simp [eq, EOF] at this

theorem encode_eq (key : Key) (text : List Line) :
    (encode key (textBytes text)).failed = false ∧
      (encode key (textBytes text)).out = text.flatMap (Line.encoded key.fmKey) := by
  have all : (textBytes text).takeWhile (fun temp => temp ≠ EOF) = textBytes text :=
    List.takeWhile_eq_self_iff.mpr fun temp mem => by simpa using bytes_ne_EOF text temp mem
  rw [encode, all]
  exact encode_text text rfl rfl

end LinuxSystem.Morse
