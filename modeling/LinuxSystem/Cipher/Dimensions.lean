import LinuxSystem.Cipher.Arguments

/-!
# Rows and columns

The two nibbles of the mode that `main` takes for the dimensions of the table.
The check of a row count has `col<9` where `row<9` is meant, and a count that
wraps in an `int` is compared after it has wrapped.
-/

namespace LinuxSystem.Cipher

open Polybius (Arg Options option polybiusAlphabet int readOptions validargsP columns)

/-- The rows that `main` takes from the mode. -/
def rows (mode : UInt16) : Nat := ((mode &&& 0xF0) / 16).toNat

/-- The last count of an option, or `n` when there is none. -/
def lastCount (flag : Arg) (n : Nat) (args : List Arg) : Nat :=
  ((lastValue flag args).map decimal).getD n

/-- The dimensions are those of the last `-r` and `-c`, and fit the table. -/
structure Faithful (mode : UInt16) (args : List Arg) : Prop where
  rows_eq : rows mode = lastCount (option 0x72) 10 args
  columns_eq : columns mode = lastCount (option 0x63) 10 args
  rows_range : 9 ≤ rows mode ∧ rows mode ≤ 15
  columns_range : 9 ≤ columns mode ∧ columns mode ≤ 15
  holds : polybiusAlphabet.length ≤ rows mode * columns mode

/-- What the option loop keeps, for the counts read so far. -/
structure Dimensions (options : Options) (r c : Nat) : Prop where
  row : options.row = int r
  col : options.col = int c
  rowHigh : options.row ≤ 15
  colLow : 9 ≤ options.col
  colHigh : options.col ≤ 15

theorem lastCount_pair (flag name value : Arg) (n : Nat) (rest : List Arg) :
    lastCount flag n (name :: value :: rest) =
      lastCount flag (if name = flag then decimal value else n) rest := by
  rw [lastCount, lastCount, lastValue]
  cases lastValue flag rest with
  | none => split <;> rfl
  | some last => rfl

theorem row_take (self : Options) (flag value : Arg) : (take self flag value).row =
    if flag = option 0x72 then int (decimal value) else self.row := by
  unfold take
  generalize int (decimal value) = count
  split_ifs <;> rfl

theorem options_apart : option 0x72 ≠ option 0x63 ∧ option 0x6B ≠ option 0x72 ∧
    option 0x6B ≠ option 0x63 := by
  decide

theorem row_take_le {self : Options} (rowHigh : self.row ≤ 15) {flag value : Arg}
    (accepted : Accepted flag value) : (take self flag value).row ≤ 15 := by
  rw [row_take]
  cases accepted with
  | row digits high =>
    rw [if_pos rfl]
    exact high
  | col =>
    rw [if_neg options_apart.1.symm]
    exact rowHigh
  | key =>
    rw [if_neg options_apart.2.1]
    exact rowHigh

theorem col_take_le {self : Options} (colHigh : self.col ≤ 15) {flag value : Arg}
    (accepted : Accepted flag value) : (take self flag value).col ≤ 15 := by
  rw [col_take]
  cases accepted with
  | row =>
    rw [if_pos rfl]
    exact colHigh
  | col digits low high =>
    rw [if_neg options_apart.1.symm, if_pos rfl]
    exact high
  | key =>
    rw [if_neg options_apart.2.1, if_neg options_apart.2.2]
    exact colHigh

theorem Dimensions.step {self : Options} {r c : Nat} (dims : Dimensions self r c)
    {flag value : Arg} (accepted : Accepted flag value) :
    Dimensions (take self flag value) (if flag = option 0x72 then decimal value else r)
      (if flag = option 0x63 then decimal value else c) := by
  obtain ⟨row, col, rowHigh, colLow, colHigh⟩ := dims
  constructor
  · rw [row_take, row]
    split <;> rfl
  · rw [col_take, col]
    split
    · rename_i isRow
      rw [if_neg (isRow ▸ options_apart.1)]
    · split <;> rfl
  · exact row_take_le rowHigh accepted
  · exact take_wide colLow accepted
  · exact col_take_le colHigh accepted

/-- The whole option loop. -/
theorem readOptions_dimensions (args : List Arg) {self options : Options} {r c : Nat}
    (dims : Dimensions self r c) (read : readOptions self args = some (some options)) :
    Dimensions options (lastCount (option 0x72) r args) (lastCount (option 0x63) c args) := by
  induction args using lastValue.induct generalizing self r c with
  | case1 flag value rest ih =>
    by_cases accepted : Accepted flag value
    · rw [readOptions_accepted dims.colLow accepted] at read
      rw [lastCount_pair, lastCount_pair]
      exact ih (dims.step accepted) read
    · rw [readOptions_rejected self accepted] at read
      cases read
  | case2 args short =>
    rcases args with _ | ⟨flag, _ | ⟨value, rest⟩⟩
    · rw [readOptions] at read
      cases read
      exact dims
    · rw [readOptions_single] at read
      split at read <;> cases read
    · exact (short flag value rest rfl).elim

/-! ## The mode -/

theorem int_small {n : Int} (low : -2 ^ 31 ≤ n) (high : n < 2 ^ 31) : int n = n := by
  simp only [int, Int.bmod]
  omega

/-- The row count is the nibble above the last. -/
theorem rows_mode {r : UInt16} (plain : r.toNat % 256 = 0) {row col : Int} (low : 0 ≤ row)
    (high : row ≤ 15) (colLow : 0 ≤ col) (colHigh : col ≤ 15) :
    (rows (r + UInt16.ofInt (16 * row + col)) : Int) = row := by
  have mask (n : Nat) : (n &&& 0xF0) / 16 = n / 16 % 16 := by
    rw [show 16 = 2 ^ 4 from rfl, Nat.and_div_two_pow]
    exact Nat.and_two_pow_sub_one_eq_mod (n / 2 ^ 4) 4
  rw [rows, UInt16.toNat_div, UInt16.toNat_and, show UInt16.toNat 0xF0 = 0xF0 from rfl,
    show UInt16.toNat 16 = 16 from rfl, mask, UInt16.toNat_add, UInt16.ofInt, UInt16.toNat_ofNat']
  omega

/-- For every accepted argument vector, whatever the order and the number of the
options, the dimensions in the mode are faithful exactly when the last row count
is at least 9 and no last count leaves an `int`. -/
theorem dimensions_faithful_iff {flag : Arg} {args : List Arg} {mode : UInt16} {key : Option Arg}
    (run : validargs (option 0x70 :: flag :: args) = some (mode, key)) (nonzero : mode ≠ 0) :
    Faithful mode args ↔
      9 ≤ lastCount (option 0x72) 10 args ∧ lastCount (option 0x72) 10 args < 2 ^ 31 ∧
        lastCount (option 0x63) 10 args < 2 ^ 31 := by
  rw [validargs_p] at run
  obtain ⟨flag, rest, r, options, same, plain, read, room, rfl, -⟩ :=
    Polybius.validargsP_some run nonzero
  cases same
  have start : Dimensions ⟨10, 10, none⟩ 10 10 := by
    constructor <;> decide
  obtain ⟨row, col, rowHigh, colLow, colHigh⟩ := readOptions_dimensions args start read
  constructor
  · intro faithful
    obtain ⟨rows_eq, columns_eq, ⟨low, high⟩, ⟨_, _⟩, _⟩ := faithful
    omega
  · rintro ⟨low, small, colSmall⟩
    rw [int_small (by omega) (by omega)] at row col
    have rows_eq := rows_mode plain (by omega) rowHigh (by omega) colHigh
    have columns_eq := Polybius.columns_mode (show r.toNat % 16 = 0 by omega) options.row colLow
      colHigh
    have product : 0 ≤ options.row * options.col ∧ options.row * options.col ≤ 15 * 15 :=
      ⟨Int.mul_nonneg (by omega) (by omega), Int.mul_le_mul rowHigh colHigh (by omega) (by omega)⟩
    refine ⟨by omega, by omega, by omega, by omega, ?_⟩
    rw [int_small (by omega) (by omega)] at room
    zify
    rw [rows_eq, columns_eq]
    omega

/-- The vector `-p -e -c 12 -r 9`. -/
theorem dimensions_faithful_nine_twelve :
    Faithful 0x9C [option 0x63, [0x31, 0x32], option 0x72, [0x39]] ↔
      9 ≤ lastCount (option 0x72) 10 [option 0x63, [0x31, 0x32], option 0x72, [0x39]] ∧
      lastCount (option 0x72) 10 [option 0x63, [0x31, 0x32], option 0x72, [0x39]] < 2 ^ 31 ∧
      lastCount (option 0x63) 10 [option 0x63, [0x31, 0x32], option 0x72, [0x39]] < 2 ^ 31 :=
  dimensions_faithful_iff
    (show validargs [option 0x70, option 0x65, option 0x63, [0x31, 0x32], option 0x72, [0x39]] =
      some (0x9C, none) by decide +kernel) (by decide)

/-- The vector `-p -e -r 7 -c 15` is accepted. -/
theorem seven_rows_accepted :
    ¬ ∀ (flag : Arg) (args : List Arg) (mode : UInt16) (key : Option Arg),
      validargs (option 0x70 :: flag :: args) = some (mode, key) → mode ≠ 0 →
        Faithful mode args := by
  intro faithful
  have seven := faithful (option 0x65) [option 0x72, [0x37], option 0x63, [0x31, 0x35]] 0x7F none
    (by decide +kernel) (by decide)
  have low := seven.rows_range.1
  revert low
  decide

end LinuxSystem.Cipher
