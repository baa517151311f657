import LinuxSystem.Base.Filling
import LinuxSystem.Base.Split
import LinuxSystem.Shell.Model

/-!
# Splitting a command line

`parsing_arg` with `get_com_argv_pipe`. The calls of `strsep` until it gives
NULL are `List.splitOn`, and a position in the copy of the line is what is left
of it. `none` is an access outside an array or a block, or to a pointer that was
never set.
-/

namespace LinuxSystem.Shell

open Filling

/-- An array of 100 pointers, NULL where it holds no string. -/
abbrev Argv := List (Option Path)

/-- What `memset` leaves. -/
def cleared : Argv := List.replicate 100 none

/-- The global variables of the parser; `pipes` are the arrays `com_argv_pipe_0`
to `com_argv_pipe_9`. -/
structure Parser where
  comArgv : Argv
  pipes : Fin 10 → Argv
  comArgc : Nat
  pipeTime : Nat
  inputFile : Option Path
  outputFile : Option Path

/-- A number without an array leaves `p` as it was. -/
def getComArgvPipe (x : Nat) : Option (Fin 10) :=
  if h : x < 10 then some ⟨x, h⟩ else none

/-! ## Blocks -/

def calloc (size : Nat) : List Char := List.replicate size '\x00'

def strcpy (block : List Char) (s : Path) : Option (List Char) :=
  if s.length < block.length then some (s ++ '\x00' :: block.drop (s.length + 1)) else none

/-- `strncpy`, which writes `n` characters and no NUL after them. -/
def strncpyBlock (block : List Char) (s : Path) (n : Nat) : Option (List Char) :=
  if n ≤ block.length then some (s.take n ++ List.replicate (n - s.length) '\x00' ++ block.drop n)
  else none

/-- `stripwhite` of a block: it reads up to a NUL. -/
def stripwhiteBlock (block : List Char) : Option Path :=
  if '\x00' ∈ block then some (stripwhite (block.takeWhile (· ≠ '\x00'))) else none

/-! ## parsing_arg -/

/-- The loop over the words of a string, which are copied one after another;
`stop` is the test for an operator, and the pipe branch has none. -/
def argLoop (stop : Path → Bool) (argv : Argv) (argc : Nat) : List Path → Option (Argv × Nat)
  | [] => some (argv, argc)
  | arg :: rest =>
    if stop arg then some (argv, argc)
    else if arg.length ≠ 0 then do
      let argv ← store argv argc (some arg)
      argLoop stop argv (argc + 1) rest
    else argLoop stop argv argc rest

/-- The loop over the segments of a pipe. -/
def pipeLoop (self : Parser) : List Path → Option Parser
  | [] => some self
  | argOut :: rest => do
    let cur ← getComArgvPipe self.pipeTime
    let (argv, argc) ← argLoop (fun _ => false) (self.pipes cur) 0 (argOut.splitOn ' ')
    pipeLoop { self with
      pipes := Function.update self.pipes cur argv
      comArgc := argc
      pipeTime := self.pipeTime + 1 } rest

/-- What follows the first `c` of the line: `strchr(argv_copy, c) + 1`. -/
def after (c : Char) (line : Path) : Path := (line.dropWhile (· ≠ c)).tail

/-- A name up to the end of the line. -/
def lastFile (cur : Path) : Option Path := do
  let block ← strcpy (calloc (cur.length + 1)) (stripwhite cur)
  some (block.takeWhile (· ≠ '\x00'))

/-- A name up to the other operator, in a block of `mid_len` characters. -/
def midFile (cur : Path) (midLen : Nat) : Option Path := do
  let block ← strncpyBlock (calloc midLen) cur midLen
  stripwhiteBlock block

def isOperator (c : Char) : Bool := c = '|' || c = '<' || c = '>'

def parsingArg (self : Parser) (line : Path) : Option (Parser × Nat) := do
  let self := { self with comArgv := cleared, pipes := fun _ => cleared, comArgc := 0, pipeTime := 0 }
  if '|' ∈ line then
    let self ← pipeLoop self (line.splitOn '|')
    some (self, 105)
  else
    let (argv, argc) ← argLoop (fun arg => arg.any isOperator) self.comArgv 0 (line.splitOn ' ')
    let self := { self with comArgv := argv, comArgc := argc }
    let input := line.idxOf '<'
    let output := line.idxOf '>'
    if '<' ∉ line ∧ '>' ∈ line then
      let file ← lastFile (after '>' line)
      some ({ self with outputFile := some file }, 101)
    else if '<' ∈ line ∧ '>' ∉ line then
      let file ← lastFile (after '<' line)
      some ({ self with inputFile := some file }, 102)
    else if '<' ∈ line ∧ '>' ∈ line then
      if input < output then
        let inFile ← midFile (after '<' line) (output - input - 1)
        let outFile ← lastFile (after '>' line)
        some ({ self with inputFile := some inFile, outputFile := some outFile }, 103)
      else
        let outFile ← midFile (after '>' line) (input - output - 1)
        let inFile ← lastFile (after '<' line)
        some ({ self with outputFile := some outFile, inputFile := some inFile }, 104)
    else some (self, 0)

/-! ## The word loop -/

/-- An array that holds words and NULLs after them. -/
def holding (words : List Path) : Argv := filled none 100 (words.map some)

/-- The words before the first one with an operator are appended. -/
theorem argLoop_holding (stop : Path → Bool) (args words : List Path)
    (room : words.length + ((args.takeWhile (!stop ·)).filter (· ≠ [])).length ≤ 100) :
    argLoop stop (holding words) words.length args =
      some (holding (words ++ (args.takeWhile (!stop ·)).filter (· ≠ [])),
        (words ++ (args.takeWhile (!stop ·)).filter (· ≠ [])).length) := by
  induction args generalizing words with
  | nil => simp [argLoop]
  | cons arg args ih =>
    rw [argLoop]
    cases stopped : stop arg with
    | true => simp [stopped]
    | false =>
      by_cases empty : arg = []
      · subst empty
        simpa [stopped] using ih words (by simpa [stopped] using room)
      · have kept : ((arg :: args).takeWhile (!stop ·)).filter (· ≠ []) =
            arg :: (args.takeWhile (!stop ·)).filter (· ≠ []) := by
          simp [stopped, empty]
        have written : store (holding words) words.length (some arg) = some (holding (words ++ [arg])) := by
          have fits : (words.map some).length < 100 := by
            rw [kept, List.length_cons] at room
            rw [List.length_map]
            omega
          simpa [holding] using store_filled none fits (some arg)
        rw [kept] at room ⊢
        have next := ih (words ++ [arg]) (by simpa [Nat.add_assoc, Nat.add_comm 1] using room)
        simpa [empty, written] using next

/-- In a cleared array the words of a string that has no operator, which leave
room for the NULL after them. -/
theorem argLoop_words {string : Path} (short : string.length < 100) :
    argLoop (fun _ => false) cleared 0 (string.splitOn ' ') =
      some (holding (Split.words ' ' string), (Split.words ' ' string).length) := by
  have room : (Split.words ' ' string).length ≤ 100 :=
    Nat.le_trans (Split.length_words_le ' ' string) (Nat.le_of_lt short)
  have all : (string.splitOn ' ').takeWhile (fun _ => !false) = string.splitOn ' ' :=
    List.takeWhile_eq_self_iff.mpr (fun _ _ => rfl)
  have run := argLoop_holding (fun _ => false) (string.splitOn ' ') []
  rw [all] at run
  exact run (by rwa [List.length_nil, Nat.zero_add])

end LinuxSystem.Shell
