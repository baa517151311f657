import Mathlib.Data.List.DropRight

/-!
# Changing directory in the shell

`com_cd` with `update_pwd` and `stripwhite`. The working directory belongs to
the kernel, which answers every `chdir` as it likes.
-/

namespace LinuxSystem.Shell

/-- A C string, without the NUL that ends it. -/
abbrev Path := List Char

/-- `PWD_SIZE`, which counts the NUL. -/
def pwdSize : Nat := 1024

def whitespace (c : Char) : Bool := c = ' ' || c = '\t'

def stripwhite (string : Path) : Path :=
  (string.dropWhile whitespace).rdropWhile whitespace

/-- `strncpy (path, src, strlen (src))` into a buffer that is NUL after `path`. -/
def strncpy (path src : Path) : Path := src ++ path.drop src.length

/-- What a cleared buffer holds after `getcwd`, which fails when the name and
its NUL do not fit. -/
def getcwd (dir : Path) : Path := if dir.length < pwdSize then dir else []

/-- The working directory, and the buffer `pwd`. -/
structure State where
  cwd : Path
  pwd : Path
  deriving DecidableEq

def updatePwd (s : State) : State := { s with pwd := getcwd s.cwd }

/-- What `main` starts with. -/
def startIn (dir : Path) : State := updatePwd ⟨dir, []⟩

/-- What is typed after `cd`, and what `chdir` would make of any path at that
moment: the new working directory, or a failure. -/
structure Call where
  arg : Path
  chdir : Path → Path → Option Path

/-- The end of `com_cd`: 1 when `chdir` fails. -/
def changeTo (call : Call) (s : State) (path : Path) : Nat × State :=
  match call.chdir s.cwd path with
  | none => (1, s)
  | some dir => (0, { s with cwd := dir })

/-- `none` when a string is copied that `path` is too small for. -/
def comCd (home : Path) (s : State) (call : Call) : Option (Nat × State) :=
  let arg := stripwhite call.arg
  if pwdSize ≤ arg.length then none
  else if arg = [] then
    if pwdSize ≤ home.length then none
    else some (changeTo call (updatePwd s) (strncpy arg home))
  else if arg = ['-'] then some (changeTo call s (strncpy arg s.pwd))
  else some (changeTo call (updatePwd s) arg)

end LinuxSystem.Shell
