import LinuxSystem.Morse.Chunks

/-!
# What the encoder rejects

The test for an empty code compares a pointer with NULL, so only characters
outside the table are turned down at once. Any other text fails where the marks
of a line, cut in threes from its start, have `xxx`.
-/

namespace LinuxSystem.Morse

open Triples

def Blank (temp : UInt8) : Prop := temp = space ∨ temp = newline ∨ temp = tab

instance : DecidablePred Blank := fun _ => inferInstanceAs (Decidable (_ ∨ _ ∨ _))

/-- No blank, and no entry of `morse_table` either. -/
def Outside (temp : UInt8) : Prop := ¬ Blank temp ∧ (0x7A < temp ∨ temp < 0x21)

instance : DecidablePred Outside := fun _ => inferInstanceAs (Decidable (_ ∧ _))

/-- A character whose entry is the empty string. -/
def Uncoded (temp : UInt8) : Prop := ¬ Blank temp ∧ ¬ Outside temp ∧ morse temp = []

instance : DecidablePred Uncoded := fun _ => inferInstanceAs (Decidable (_ ∧ _))

/-- A character without a code. -/
def Unencodable (temp : UInt8) : Prop := Outside temp ∨ Uncoded temp

/-- The marks of one byte after the byte `pre`: an `x` ends a character, and one
more the group of spaces after it. -/
def marksAfter (pre temp : UInt8) : List Symbol :=
  if Blank temp then if pre ≠ space ∧ pre ≠ newline ∧ temp ≠ tab then [.x] else []
  else morse temp ++ [.x]

/-- The marks of each line, the first one going on from `read`. -/
def lineMarks (pre : UInt8) (read : List Symbol) : List UInt8 → List (List Symbol)
  | [] => [read]
  | temp :: input =>
    if temp = newline then (read ++ marksAfter pre temp) :: lineMarks temp [] input
    else lineMarks temp (read ++ marksAfter pre temp) input

/-- Some line has three marks `x` that fall into one triple. -/
def Chokes (input : List UInt8) : Prop :=
  ∃ marks ∈ lineMarks 0x3F [] input, separators ∈ triples marks

instance : DecidablePred Chokes := fun input =>
  inferInstanceAs (Decidable (∃ marks ∈ lineMarks 0x3F [] input, separators ∈ triples marks))

theorem marksAfter_ne_nul (pre temp : UInt8) : ∀ symbol ∈ marksAfter pre temp, symbol ≠ .nul := by
  intro symbol mem
  unfold marksAfter at mem
  split at mem
  · split at mem <;> simp_all
  · rw [List.mem_append, List.mem_singleton] at mem
    rcases mem with mark | rfl
    · rcases morse_mark mark with rfl | rfl <;> decide
    · decide

theorem chokes_of_read {read : List Symbol} (found : separators ∈ triples read) (pre : UInt8)
    (input : List UInt8) : ∃ marks ∈ lineMarks pre read input, separators ∈ triples marks := by
  induction input generalizing pre read with
  | nil => exact ⟨read, by simp [lineMarks], found⟩
  | cons temp input ih =>
    have later : separators ∈ triples (read ++ marksAfter pre temp) := by
      rw [triples_append]
      exact List.mem_append_left _ found
    rw [lineMarks]
    split
    · exact ⟨_, List.mem_cons_self, later⟩
    · exact ih later temp

variable {fmKey start : List UInt8} {read : List Symbol} {self : Encoder}

/-- The encoder after the marks of one byte. -/
def marked (fmKey : List UInt8) (self : Encoder) (temp : UInt8) : Encoder :=
  (marksAfter self.pre temp).foldl (put fmKey) self

theorem encodeByte_outside (ok : self.failed = false) {temp : UInt8} (outside : Outside temp) :
    (encodeByte fmKey self temp).failed = true := by
  have blank : ¬ (temp = space ∨ temp = newline ∨ temp = tab) := outside.1
  rw [encodeByte, if_neg (by simp [ok]), if_neg blank, if_pos outside.2]

theorem encodeByte_blank (ok : self.failed = false) {temp : UInt8} (blank : Blank temp) :
    encodeByte fmKey self temp =
      if (marked fmKey self temp).failed = true then marked fmKey self temp
      else if temp = newline then
        { marked fmKey self temp with
          out := (marked fmKey self temp).out ++ [newline], buffer := cleanBuffer, pre := temp }
      else { marked fmKey self temp with pre := temp } := by
  have written : (if self.pre ≠ space ∧ self.pre ≠ newline ∧ temp ≠ tab then put fmKey self .x
      else self) = marked fmKey self temp := by
    rw [marked, marksAfter, if_pos blank]
    split <;> rfl
  have blank : temp = space ∨ temp = newline ∨ temp = tab := blank
  rw [encodeByte, if_neg (by simp [ok]), if_pos blank, written]

theorem encodeByte_char (ok : self.failed = false) {temp : UInt8} (blank : ¬ Blank temp)
    (inside : ¬ Outside temp) :
    encodeByte fmKey self temp = { marked fmKey self temp with pre := temp } := by
  have inside : ¬ (0x7A < temp ∨ temp < 0x21) := fun out => inside ⟨blank, out⟩
  have solid : ¬ (temp = space ∨ temp = newline ∨ temp = tab) := blank
  rw [encodeByte, if_neg (by simp [ok]), if_neg solid, if_neg inside, marked, marksAfter,
    if_neg blank, List.foldl_append]
  rfl

theorem encodeByte_failed (ok : self.failed = false) {temp : UInt8} (inside : ¬ Outside temp)
    (failed : (marked fmKey self temp).failed = true) :
    (encodeByte fmKey self temp).failed = true := by
  by_cases blank : Blank temp
  · rw [encodeByte_blank ok blank, if_pos failed]
    exact failed
  · rw [encodeByte_char ok blank inside]
    exact failed

theorem encodeByte_ok (ok : self.failed = false) {temp : UInt8} (inside : ¬ Outside temp)
    (good : (marked fmKey self temp).failed = false) :
    encodeByte fmKey self temp =
      if temp = newline then
        ⟨cleanBuffer, (marked fmKey self temp).out ++ [newline], false, temp⟩
      else { marked fmKey self temp with pre := temp } := by
  by_cases blank : Blank temp
  · rw [encodeByte_blank ok blank, if_neg (by simp [good])]
    split
    · simp only [good]
    · rfl
  · have other : temp ≠ newline := fun eq => blank (.inr (.inl eq))
    rw [encodeByte_char ok blank inside, if_neg other]

theorem encode_stopped (failed : self.failed = true) (input : List UInt8) :
    (input.foldl (encodeByte fmKey) self).failed = true := by
  induction input with
  | nil => exact failed
  | cons temp input ih => rwa [List.foldl_cons, encodeByte, if_pos failed]

/-- From any place in a line: a failure comes from a character outside the
table, or from `xxx` in the marks of this line or a later one. -/
theorem encode_failed_iff (input : List UInt8) (chunked : Chunked fmKey start read self)
    (marks : ∀ symbol ∈ read, symbol ≠ .nul) :
    (input.foldl (encodeByte fmKey) self).failed = true ↔
      (∃ temp ∈ input, Outside temp) ∨
        ∃ marks ∈ lineMarks self.pre read input, separators ∈ triples marks := by
  induction input generalizing start read self with
  | nil => simp [lineMarks, chunked.failed]
  | cons temp input ih =>
    cases failed : self.failed with
    | true =>
      have later := chokes_of_read (chunked.failed.mp failed) self.pre (temp :: input)
      exact iff_of_true (encode_stopped failed _) (.inr later)
    | false =>
      rw [List.foldl_cons]
      by_cases outside : Outside temp
      · exact iff_of_true (encode_stopped (encodeByte_outside failed outside) _)
          (.inl ⟨temp, List.mem_cons_self, outside⟩)
      have solid : ∀ symbol ∈ read ++ marksAfter self.pre temp, symbol ≠ .nul := by
        intro symbol mem
        exact (List.mem_append.mp mem).elim (marks symbol) (marksAfter_ne_nul _ _ symbol)
      have written : Chunked fmKey start (read ++ marksAfter self.pre temp)
          (marked fmKey self temp) := chunked.run solid
      have first : (∃ b ∈ temp :: input, Outside b) ↔ ∃ b ∈ input, Outside b := by
        simp [outside]
      rw [first, lineMarks]
      cases choked : (marked fmKey self temp).failed with
      | true =>
        have found := written.failed.mp choked
        refine iff_of_true (encode_stopped (encodeByte_failed failed outside choked) _) (.inr ?_)
        split
        · exact ⟨_, List.mem_cons_self, found⟩
        · exact chokes_of_read found temp input
      | false =>
        rw [encodeByte_ok failed outside choked]
        split
        · -- the marks of this line are complete, and the buffer is clean
          have none : separators ∉ triples (read ++ marksAfter self.pre temp) := by
            simp [← written.failed, choked]
          rw [ih (chunked_start _ temp) (by simp)]
          simp [none]
        · exact ih (written.pre temp) solid

theorem encode_fails_iff (key : Key) (input : List UInt8) (bytes : ∀ temp ∈ input, temp ≠ EOF) :
    (encode key input).failed = true ↔ (∃ temp ∈ input, Outside temp) ∨ Chokes input := by
  have all : input.takeWhile (fun temp => temp ≠ EOF) = input :=
    List.takeWhile_eq_self_iff.mpr fun temp mem => by simpa using bytes temp mem
  rw [encode, all]
  exact encode_failed_iff input (chunked_start [] 0x3F) (by simp)

/-- The encoder rejects exactly the unencodable texts if and only if a character
outside the table is there, or a character with an empty code is there exactly
when the marks choke. -/
theorem rejects_unencodable_iff (key : Key) (input : List UInt8)
    (bytes : ∀ temp ∈ input, temp ≠ EOF) :
    ((encode key input).failed = true ↔ ∃ temp ∈ input, Unencodable temp) ↔
      (∃ temp ∈ input, Outside temp) ∨ ((∃ temp ∈ input, Uncoded temp) ↔ Chokes input) := by
  have unencodable : (∃ temp ∈ input, Unencodable temp) ↔
      (∃ temp ∈ input, Outside temp) ∨ ∃ temp ∈ input, Uncoded temp := by
    simp only [Unencodable, and_or_left, exists_or]
  rw [encode_fails_iff key input bytes, unencodable]
  by_cases outside : ∃ temp ∈ input, Outside temp
  · simp only [outside, true_or]
  · simp only [outside, false_or]
    exact iff_comm

/-- Three separate spaces in the first line: an empty text whose marks choke. -/
theorem rejects_unencodable_blanks :
    ((encode noKey [0x20, 0x09, 0x20, 0x09, 0x20]).failed = true ↔
        ∃ temp ∈ [0x20, 0x09, 0x20, 0x09, 0x20], Unencodable temp) ↔
      (∃ temp ∈ [0x20, 0x09, 0x20, 0x09, 0x20], Outside temp) ∨
        ((∃ temp ∈ [0x20, 0x09, 0x20, 0x09, 0x20], Uncoded temp) ↔
          Chokes [0x20, 0x09, 0x20, 0x09, 0x20]) :=
  rejects_unencodable_iff noKey [0x20, 0x09, 0x20, 0x09, 0x20] (by decide +kernel)

/-- The character `#` has an empty code and is let through. -/
theorem hash_not_rejected :
    ¬ ∀ (key : Key) (input : List UInt8), (∀ temp ∈ input, 1 ≤ temp ∧ temp ≤ 127) →
      ((encode key input).failed = true ↔ ∃ temp ∈ input, Unencodable temp) := by
  intro exact
  have uncoded : ∃ temp ∈ [(0x23 : UInt8)], Unencodable temp := ⟨0x23, by decide, .inr (by decide)⟩
  have fails := (exact noKey [0x23] (by decide +kernel)).mpr uncoded
  rw [encode_fails_iff noKey [0x23] (by decide +kernel)] at fails
  revert fails
  decide

end LinuxSystem.Morse
