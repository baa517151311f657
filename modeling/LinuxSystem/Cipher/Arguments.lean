import LinuxSystem.Cipher.Tables

/-!
# The argument vector

`validargs` on the arguments after the program's name. Every test dereferences
its argument before it looks at `argc`, so the NULL at the end of the vector is
read where a cipher's mode or an option's value is missing.
-/

namespace LinuxSystem.Cipher

open Morse (fmAlphabet)
open Polybius (Arg Options option polybiusAlphabet isDigit int readDigits readOptions validKey
  validargsP)

/-- `validargs` after `-f`, where `argc` is compared with 5 before an argument
of the key is read. -/
def validargsF : List Arg → Option (UInt16 × Option Arg)
  | [] => none
  | flag :: args =>
    if flag = option 0x65 ∨ flag = option 0x64 then
      let r : UInt16 := if flag = option 0x65 then 0x4000 else 0x6000
      match args with
      | [] => some (r, none)
      | [flag, key] =>
        if flag = option 0x6B then
          if keyLoop fmAlphabet key = true then some (r, some key) else some (0, none)
        else some (0, none)
      | _ => some (0, none)
    else some (0, none)

/-- The mode, and `key` where the mode is not 0. `none` dereferences the NULL at
the end of the vector. -/
def validargs : List Arg → Option (UInt16 × Option Arg)
  | [] => none
  | flag :: args =>
    if flag = option 0x68 then some (0x8000, none)
    else if flag = option 0x70 then validargsP args
    else if flag = option 0x66 then validargsF args
    else some (0, none)

theorem validargs_p (args : List Arg) : validargs (option 0x70 :: args) = validargsP args := by
  rw [validargs, if_neg (by decide), if_pos rfl]

/-! ## Counts -/

/-- The number a digit string writes, with `n` before it. -/
def decimalFrom (n : Nat) (value : Arg) : Nat :=
  value.foldl (fun n c => 10 * n + (c.toNat - 0x30)) n

def decimal (value : Arg) : Nat := decimalFrom 0 value

def AllDigits (value : Arg) : Prop := ∀ c ∈ value, isDigit c = true

theorem int_step (n d : Int) : int (10 * int n + d) = int (10 * n + d) := by
  simp only [int, Int.bmod]
  omega

theorem digit_range {c : UInt8} (digit : isDigit c = true) : 0x30 ≤ c.toNat ∧ c.toNat ≤ 0x39 := by
  simpa [isDigit, UInt8.le_iff_toNat_le] using digit

theorem readDigits_digits {value : Arg} (digits : AllDigits value) (n : Nat) :
    readDigits (int n) value = (int (decimalFrom n value), []) := by
  induction value generalizing n with
  | nil => rfl
  | cons c value ih =>
    obtain ⟨digit, digits⟩ := List.forall_mem_cons.mp digits
    obtain ⟨low, high⟩ := digit_range digit
    have step : int (10 * int n + c.toNat - 0x30) = int ((10 * n + (c.toNat - 0x30) : Nat) : Int) := by
      rw [Int.add_sub_assoc, int_step]
      congr 1
      omega
    rw [readDigits, if_pos digit, step, ih digits]
    rfl

theorem readDigits_left {value : Arg} (n : Int) :
    (readDigits n value).2 = [] ↔ AllDigits value := by
  induction value generalizing n with
  | nil => simp [readDigits, AllDigits]
  | cons c value ih =>
    rw [readDigits]
    split
    · rename_i digit
      rw [ih, AllDigits, AllDigits, List.forall_mem_cons]
      exact (and_iff_right digit).symm
    · rename_i other
      simp [AllDigits, other]

/-- What the loop over the digits reads of a whole argument. -/
theorem readDigits_value {value : Arg} (digits : AllDigits value) :
    readDigits 0 value = (int (decimal value), []) :=
  readDigits_digits digits 0

/-! ## The option loop -/

/-- The option loop takes the option with its value. -/
inductive Accepted : Arg → Arg → Prop
  | row {value : Arg} (digits : AllDigits value) (high : int (decimal value) ≤ 15) :
      Accepted (option 0x72) value
  | col {value : Arg} (digits : AllDigits value) (low : 9 ≤ int (decimal value))
      (high : int (decimal value) ≤ 15) : Accepted (option 0x63) value
  | key {value : Arg} (valid : keyLoop polybiusAlphabet value = true) : Accepted (option 0x6B) value

/-- `-r`, `-c` and `-k`. -/
def TakesValue (flag : Arg) : Prop :=
  flag = option 0x72 ∨ flag = option 0x63 ∨ flag = option 0x6B

instance : DecidablePred TakesValue := fun _ => inferInstanceAs (Decidable (_ ∨ _ ∨ _))

/-- What an accepted option changes. -/
def take (self : Options) (flag value : Arg) : Options :=
  if flag = option 0x72 then { self with row := int (decimal value) }
  else if flag = option 0x63 then { self with col := int (decimal value) }
  else { self with key := some value }

@[simp] theorem take_row (self : Options) (value : Arg) :
    take self (option 0x72) value = { self with row := int (decimal value) } := rfl

@[simp] theorem take_col (self : Options) (value : Arg) :
    take self (option 0x63) value = { self with col := int (decimal value) } := rfl

@[simp] theorem take_key (self : Options) (value : Arg) :
    take self (option 0x6B) value = { self with key := some value } := rfl

theorem readOptions_accepted {self : Options} (wide : 9 ≤ self.col) {flag value : Arg}
    (accepted : Accepted flag value) (rest : List Arg) :
    readOptions self (flag :: value :: rest) = readOptions (take self flag value) rest := by
  cases accepted with
  | row digits high =>
    rw [readOptions, if_pos rfl, readDigits_value digits, take_row]
    exact if_neg (by simp; omega)
  | col digits low high =>
    rw [readOptions, if_neg (by decide), if_pos rfl, readDigits_value digits, take_col]
    exact if_neg (by simp; omega)
  | key valid =>
    rw [keyLoop_polybius] at valid
    rw [readOptions, if_neg (by decide), if_neg (by decide), if_pos rfl, take_key]
    exact if_pos valid

theorem readOptions_rejected (self : Options) {flag value : Arg}
    (rejected : ¬ Accepted flag value) (rest : List Arg) :
    readOptions self (flag :: value :: rest) = some none := by
  have stops (n : Int) (other : ¬ AllDigits value) : (readDigits n value).2 ≠ [] := by
    rwa [Ne, readDigits_left]
  rw [readOptions]
  split
  · rename_i row
    subst row
    by_cases digits : AllDigits value
    · rw [readDigits_value digits]
      have high : ¬ int (decimal value) ≤ 15 := fun high => rejected (.row digits high)
      exact if_pos (.inr (.inl (by omega)))
    · exact if_pos (.inl (stops 0 digits))
  · split
    · rename_i col
      subst col
      by_cases digits : AllDigits value
      · rw [readDigits_value digits]
        apply if_pos
        by_contra within
        push Not at within
        exact rejected (.col digits (by omega) (by omega))
      · exact if_pos (.inl (stops 0 digits))
    · split
      · rename_i key
        subst key
        rw [← keyLoop_polybius]
        exact if_neg fun valid => rejected (.key valid)
      · rfl

theorem readOptions_single (self : Options) (flag : Arg) :
    readOptions self [flag] = if TakesValue flag then none else some none := by
  rw [readOptions]
  unfold TakesValue
  grind

/-- Some option is accepted with every value before it and has none itself. -/
inductive MissesValue : List Arg → Prop
  | here {flag : Arg} (takes : TakesValue flag) : MissesValue [flag]
  | later {flag value : Arg} {rest : List Arg} (accepted : Accepted flag value)
      (misses : MissesValue rest) : MissesValue (flag :: value :: rest)

/-- The value that `flag` has last. -/
def lastValue (flag : Arg) : List Arg → Option Arg
  | name :: value :: rest => (lastValue flag rest).or (if name = flag then some value else none)
  | _ => none

theorem col_take (self : Options) (flag value : Arg) : (take self flag value).col =
    if flag = option 0x72 then self.col
    else if flag = option 0x63 then int (decimal value) else self.col := by
  unfold take
  generalize int (decimal value) = count
  split_ifs <;> rfl

theorem take_wide {self : Options} (wide : 9 ≤ self.col) {flag value : Arg}
    (accepted : Accepted flag value) : 9 ≤ (take self flag value).col := by
  rw [col_take]
  cases accepted with
  | row =>
    rw [if_pos rfl]
    exact wide
  | col digits low high =>
    rw [if_neg (by decide), if_pos rfl]
    exact low
  | key =>
    rw [if_neg (by decide), if_neg (by decide)]
    exact wide

theorem readOptions_none_iff (args : List Arg) {self : Options} (wide : 9 ≤ self.col) :
    readOptions self args = none ↔ MissesValue args := by
  induction args using lastValue.induct generalizing self with
  | case1 flag value rest ih =>
    by_cases accepted : Accepted flag value
    · rw [readOptions_accepted wide accepted, ih (take_wide wide accepted)]
      constructor
      · exact .later accepted
      · intro misses
        cases misses with
        | later _ misses => exact misses
    · rw [readOptions_rejected self accepted]
      apply iff_of_false (by simp)
      intro misses
      cases misses with
      | later accepted' _ => exact accepted accepted'
  | case2 args short =>
    rcases args with _ | ⟨flag, _ | ⟨value, rest⟩⟩
    · exact iff_of_false (by simp [readOptions]) nofun
    · rw [readOptions_single]
      constructor
      · intro none
        by_contra misses
        rw [if_neg fun takes => misses (.here takes)] at none
        cases none
      · rintro ⟨takes⟩
        exact if_pos takes
    · exact (short flag value rest rfl).elim

/-- Where `validargs` reads past the vector: the cipher without its mode, or an
option of `-p` without its value. -/
inductive RunsOff : List Arg → Prop
  | cipher {flag : Arg} (known : flag = option 0x70 ∨ flag = option 0x66) : RunsOff [flag]
  | value {mode : Arg} {args : List Arg} (known : mode = option 0x65 ∨ mode = option 0x64)
      (misses : MissesValue args) : RunsOff (option 0x70 :: mode :: args)

theorem runsOff_p_iff (mode : Arg) (args : List Arg) :
    RunsOff (option 0x70 :: mode :: args) ↔
      (mode = option 0x65 ∨ mode = option 0x64) ∧ MissesValue args := by
  constructor
  · intro runs
    cases runs with
    | value known misses => exact ⟨known, misses⟩
  · rintro ⟨known, misses⟩
    exact .value known misses

theorem validargsP_none_iff (args : List Arg) :
    validargsP args = none ↔ RunsOff (option 0x70 :: args) := by
  cases args with
  | nil => exact iff_of_true rfl (.cipher (.inl rfl))
  | cons mode args =>
    have read := readOptions_none_iff args (show 9 ≤ (⟨10, 10, none⟩ : Options).col by decide)
    rw [validargsP, runsOff_p_iff, ← read]
    split
    · rename_i known
      rw [and_iff_right known]
      cases readOptions ⟨10, 10, none⟩ args with
      | none => simp
      | some outcome =>
        cases outcome with
        | none => simp
        | some options =>
          apply iff_of_false _ (by simp)
          dsimp only
          split <;> simp
    · rename_i known
      exact iff_of_false (by simp) fun both => known both.1

theorem validargsF_none_iff (args : List Arg) :
    validargsF args = none ↔ RunsOff (option 0x66 :: args) := by
  cases args with
  | nil => exact iff_of_true rfl (.cipher (.inr rfl))
  | cons mode args =>
    have stays : ¬ RunsOff (option 0x66 :: mode :: args) := nofun
    apply iff_of_false _ stays
    unfold validargsF
    dsimp only
    split
    · split
      · simp
      · split
        · split <;> simp
        · simp
      · simp
    · simp

/-- For every vector with at least one argument, `validargs` stays within it
exactly when no mode and no value is missing at its end. -/
theorem validargs_stays_iff (flag : Arg) (args : List Arg) :
    (validargs (flag :: args)).isSome ↔ ¬ RunsOff (flag :: args) := by
  rw [Option.isSome_iff_ne_none, not_iff_not, validargs]
  by_cases help : flag = option 0x68
  · subst help
    rw [if_pos rfl]
    refine iff_of_false (by simp) ?_
    intro runs
    cases runs with
    | cipher known => revert known; decide
  rw [if_neg help]
  by_cases polybius : flag = option 0x70
  · subst polybius
    rw [if_pos rfl, validargsP_none_iff]
  rw [if_neg polybius]
  by_cases morse : flag = option 0x66
  · subst morse
    rw [if_pos rfl, validargsF_none_iff]
  rw [if_neg morse]
  refine iff_of_false (by simp) ?_
  intro runs
  cases runs with
  | cipher known => exact known.elim polybius morse
  | value known misses => exact polybius rfl

/-- `-p` alone: the next argument is the NULL. -/
theorem validargs_runs_off_p : ¬ ∀ args : List Arg, args ≠ [] → (validargs args).isSome := by
  intro stays
  have none := stays [option 0x70] (by simp)
  revert none
  decide

end LinuxSystem.Cipher
