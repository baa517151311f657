import Mathlib.Tactic

/-!
# Unicode encoding forms

The standard encodings of sequences of scalar values, to compare a converter
against. `Char` is exactly the scalar values, and its UTF-8 encoding is the
library's `String.utf8EncodeChar`.
-/

namespace Unicode

/-- The UTF-8 bit layout of a code point below 2^21, surrogates included. -/
def utf8Units (v : Nat) : List UInt8 :=
  if v ≤ 0x7F then [UInt8.ofNat v]
  else if v ≤ 0x7FF then [UInt8.ofNat (v / 64 % 32 + 0xC0), UInt8.ofNat (v % 64 + 0x80)]
  else if v ≤ 0xFFFF then
    [UInt8.ofNat (v / 4096 % 16 + 0xE0), UInt8.ofNat (v / 64 % 64 + 0x80),
     UInt8.ofNat (v % 64 + 0x80)]
  else
    [UInt8.ofNat (v / 262144 % 8 + 0xF0), UInt8.ofNat (v / 4096 % 64 + 0x80),
     UInt8.ofNat (v / 64 % 64 + 0x80), UInt8.ofNat (v % 64 + 0x80)]

/-- The one or two UTF-16 code units of a code point, surrogates included. -/
def utf16Units (v : Nat) : List UInt16 :=
  if v < 0x10000 then [UInt16.ofNat v]
  else
    [UInt16.ofNat (0xD800 + (v - 0x10000) / 0x400), UInt16.ofNat (0xDC00 + (v - 0x10000) % 0x400)]

/-- The UTF-8 encoding form of a sequence of scalar values. -/
def utf8 (s : List Char) : List UInt8 := s.flatMap String.utf8EncodeChar

/-- The UTF-16 encoding form of a sequence of scalar values. -/
def utf16 (s : List Char) : List UInt16 := s.flatMap fun c => utf16Units c.toNat

/-- The two bytes of a code unit, least significant first. -/
def littleEndian (u : UInt16) : List UInt8 := [UInt8.ofNat u.toNat, UInt8.ofNat (u.toNat / 256)]

/-- The two bytes of a code unit, most significant first. -/
def bigEndian (u : UInt16) : List UInt8 := [UInt8.ofNat (u.toNat / 256), UInt8.ofNat u.toNat]

def utf16le (s : List Char) : List UInt8 := (utf16 s).flatMap littleEndian

def utf16be (s : List Char) : List UInt8 := (utf16 s).flatMap bigEndian

/-- A leading (high) surrogate. -/
def isHigh (u : UInt16) : Bool := 0xD800 ≤ u && u ≤ 0xDBFF

/-- A trailing (low) surrogate. -/
def isLow (u : UInt16) : Bool := 0xDC00 ≤ u && u ≤ 0xDFFF

/-- Every leading surrogate has a trailing one right after it, and no other
unit is a trailing surrogate. -/
def wellFormed : List UInt16 → Bool
  | [] => true
  | [u] => !isHigh u && !isLow u
  | u :: v :: rest =>
    if isHigh u then isLow v && wellFormed rest else !isLow u && wellFormed (v :: rest)

/-- Induction over well-formed sequences: a unit that is no surrogate, or a
surrogate pair, in front of a well-formed rest. -/
theorem wellFormed_induction {motive : List UInt16 → Prop} (nil : motive [])
    (unit : ∀ u rest, isHigh u = false → isLow u = false → wellFormed rest = true →
      motive rest → motive (u :: rest))
    (pair : ∀ u v rest, isHigh u = true → isLow v = true → wellFormed rest = true →
      motive rest → motive (u :: v :: rest))
    (s : List UInt16) (h : wellFormed s = true) : motive s := by
  induction s using wellFormed.induct with
  | case1 => exact nil
  | case2 u =>
    simp only [wellFormed, Bool.and_eq_true, Bool.not_eq_true'] at h
    exact unit u [] h.1 h.2 rfl nil
  | case3 u v rest hu ih =>
    simp only [wellFormed, hu, ↓reduceIte, Bool.and_eq_true] at h
    exact pair u v rest hu h.1 h.2 (ih h.2)
  | case4 u v rest hu ih =>
    simp only [wellFormed, hu, Bool.false_eq_true, ↓reduceIte, Bool.and_eq_true,
      Bool.not_eq_true'] at h
    exact unit u (v :: rest) (by simpa using hu) h.1 h.2 (ih h.2)

theorem utf8Units_one {v : Nat} (h : v ≤ 0x7F) : utf8Units v = [UInt8.ofNat v] := by
  rw [utf8Units, if_pos h]

theorem utf8Units_two {v : Nat} (h₁ : ¬ v ≤ 0x7F) (h : v ≤ 0x7FF) :
    utf8Units v = [UInt8.ofNat (v / 64 % 32 + 0xC0), UInt8.ofNat (v % 64 + 0x80)] := by
  rw [utf8Units, if_neg h₁, if_pos h]

theorem utf8Units_three {v : Nat} (h₁ : ¬ v ≤ 0x7FF) (h : v ≤ 0xFFFF) :
    utf8Units v =
      [UInt8.ofNat (v / 4096 % 16 + 0xE0), UInt8.ofNat (v / 64 % 64 + 0x80),
       UInt8.ofNat (v % 64 + 0x80)] := by
  rw [utf8Units, if_neg (by omega), if_neg h₁, if_pos h]

theorem utf8Units_four {v : Nat} (h : ¬ v ≤ 0xFFFF) :
    utf8Units v =
      [UInt8.ofNat (v / 262144 % 8 + 0xF0), UInt8.ofNat (v / 4096 % 64 + 0x80),
       UInt8.ofNat (v / 64 % 64 + 0x80), UInt8.ofNat (v % 64 + 0x80)] := by
  rw [utf8Units, if_neg (by omega), if_neg (by omega), if_neg h]

theorem utf8_eq (s : List Char) : utf8 s = (s.map Char.toNat).flatMap utf8Units := by
  rw [List.flatMap_map]
  rfl

theorem utf16_eq (s : List Char) : utf16 s = (s.map Char.toNat).flatMap utf16Units := by
  rw [List.flatMap_map]
  rfl

theorem char_lt (c : Char) : c.toNat < 0x110000 := by
  rcases c.valid with h | ⟨_, h⟩
  · exact Nat.lt_trans h (by decide)
  · exact h

/-- No scalar value is a surrogate. -/
theorem char_not_surrogate (c : Char) : c.toNat < 0xD800 ∨ 0xDFFF < c.toNat := by
  rcases c.valid with h | ⟨h, _⟩
  · exact Or.inl h
  · exact Or.inr h

theorem isHigh_iff (u : UInt16) : isHigh u = true ↔ 0xD800 ≤ u.toNat ∧ u.toNat ≤ 0xDBFF := by
  simp [isHigh, UInt16.le_iff_toNat_le]

theorem isLow_iff (u : UInt16) : isLow u = true ↔ 0xDC00 ≤ u.toNat ∧ u.toNat ≤ 0xDFFF := by
  simp [isLow, UInt16.le_iff_toNat_le]

theorem wellFormed_unit {u : UInt16} (hh : isHigh u = false) (hl : isLow u = false)
    (rest : List UInt16) : wellFormed (u :: rest) = wellFormed rest := by
  cases rest <;> simp [wellFormed, hh, hl]

theorem wellFormed_pair {u v : UInt16} (hu : isHigh u = true) (hv : isLow v = true)
    (rest : List UInt16) : wellFormed (u :: v :: rest) = wellFormed rest := by
  simp [wellFormed, hu, hv]

/-- The encoding form of any text is well formed. -/
theorem wellFormed_utf16 (s : List Char) : wellFormed (utf16 s) = true := by
  induction s with
  | nil => rfl
  | cons c s ih =>
    have max := char_lt c
    have scalar := char_not_surrogate c
    have unit {n : Nat} (hn : n < 0x10000) : (UInt16.ofNat n).toNat = n := by simp; omega
    rw [utf16, List.flatMap_cons, utf16Units]
    split
    · rw [List.cons_append, List.nil_append, wellFormed_unit _ _ _]
      · exact ih
      · rw [← Bool.not_eq_true, isHigh_iff, unit (by omega)]; omega
      · rw [← Bool.not_eq_true, isLow_iff, unit (by omega)]; omega
    · rw [List.cons_append, List.cons_append, List.nil_append, wellFormed_pair _ _ _]
      · exact ih
      · rw [isHigh_iff, unit (by omega)]; omega
      · rw [isLow_iff, unit (by omega)]; omega

end Unicode
