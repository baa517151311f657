import LinuxSystem.Base.Descriptors
import LinuxSystem.Shell.Pipes

/-!
# Running a line

`execute_line` with `find_command` and `pipe_proc`: the processes that a line starts
and the descriptors they start with. A process whose `execvp` fails inside a pipe
leaves the loop like its parent would, and goes on as a second shell. A line for which
`pipe` or `fork` fails is left out.
-/

namespace LinuxSystem.Shell

open Descriptors

/-- An open file; pipes are numbered as they are made. -/
inductive File where
  | inherited (d : Nat)
  | readEnd (pipe : Nat)
  | writeEnd (pipe : Nat)
  | named (path : Path)
  deriving DecidableEq, Repr

abbrev Files := Table File

/-- A process that a line starts, when it has left the code of the loop. -/
inductive Process where
  | command (argv : Argv) (files : Files)
  | shell (files : Files)
  | exited
  deriving DecidableEq, Repr

/-- A shell between two lines, with the number of pipes so far. -/
structure Sfish where
  parser : Parser
  files : Files
  pipes : Nat

/-- `pipe(fd)`. -/
def pipe (files : Files) (n : Nat) : (Nat × Nat) × Files :=
  let readFd := files.lowest
  let files := files.put readFd (.readEnd n)
  let writeFd := files.lowest
  ((readFd, writeFd), files.put writeFd (.writeEnd n))

/-- The child of `pipe_proc`, up to `execvp`. -/
def pipeProc (files : Files) (input output : Nat) : Files :=
  let files := if input ≠ 0 then (files.dup2 input 0).close input else files
  if output ≠ 1 then (files.dup2 output 1).close output else files

/-- `execvp`, or the `break` and the two `close` after the loop. -/
def execOrBreak (found : Argv → Bool) (argv : Argv) (files : Files) (fd : Nat × Nat) : Process :=
  if found argv then .command argv files else .shell ((files.close fd.1).close fd.2)

/-- The local variables of the pipe branch, and the processes started so far. -/
structure Loop where
  files : Files
  pipes : Nat
  input : Nat
  fd : Nat × Nat
  started : List Process

/-- One turn of the loop; `none` where there is no array for the words. -/
def stage (found : Argv → Bool) (parser : Parser) (s : Loop) (i : Nat) : Option Loop := do
  let cur ← getComArgvPipe i
  let argv := parser.pipes cur
  let (fd, files) := pipe s.files s.pipes
  if i = parser.pipeTime - 1 then
    let child := if s.input ≠ 0 then files.dup2 s.input 0 else files
    some { s with
      files := files
      pipes := s.pipes + 1
      fd := fd
      started := s.started ++ [execOrBreak found argv child fd] }
  else
    let child := pipeProc files s.input fd.2
    some {
      files := files.close fd.2
      pipes := s.pipes + 1
      input := fd.1
      fd := fd
      started := s.started ++ [execOrBreak found argv child fd] }

/-- The pipe branch; `fd` is set in the first turn. -/
def executePipe (found : Argv → Bool) (self : Sfish) : Option (Sfish × List Process) := do
  let s ← (List.range self.parser.pipeTime).foldlM (stage found self.parser)
    ⟨self.files, self.pipes, 0, (0, 0), []⟩
  some ({ self with files := (s.files.close s.fd.1).close s.fd.2, pipes := s.pipes }, s.started)

/-- `open`, `dup2` and `close`; where `open` fails, so do the others. -/
def redirect (opens : Path → Bool) (files : Files) (file : Option Path) (d : Nat) : Files :=
  match file.filter opens with
  | none => files
  | some path =>
    let fd := files.lowest
    ((files.put fd (.named path)).dup2 fd d).close fd

/-- Whether `pipe` and `fork` succeed, a command is found, and a name can be opened. -/
structure Kernel where
  forks : Bool
  found : Argv → Bool
  creates : Path → Bool
  reads : Path → Bool

/-- The child of a line without a pipe. -/
def redirectProc (kernel : Kernel) (parser : Parser) (dirPipe : Nat) (files : Files) : Files :=
  if dirPipe = 101 then redirect kernel.creates files parser.outputFile 1
  else if dirPipe = 102 then redirect kernel.reads files parser.inputFile 0
  else if dirPipe = 103 ∨ dirPipe = 104 then
    redirect kernel.reads (redirect kernel.creates files parser.outputFile 1) parser.inputFile 0
  else files

inductive Command where
  | cd
  | pwd
  | help
  | exit
  deriving DecidableEq, Repr

/-- `commands` has no last entry without a name; the memory behind it is taken for one. -/
def findCommand (name : Path) : Option Command :=
  if name = ['c', 'd'] then some .cd
  else if name = ['p', 'w', 'd'] then some .pwd
  else if name = ['h', 'e', 'l', 'p'] then some .help
  else if name = ['e', 'x', 'i', 't'] then some .exit
  else none

/-- The command word of a line. -/
def commandWord (line : Path) : Path :=
  (line.dropWhile whitespace).takeWhile fun c => !whitespace c

/-- A line that is no builtin. -/
def executeOther (kernel : Kernel) (self : Sfish) (line : Path) : Option (Sfish × List Process) := do
  let (parser, dirPipe) ← parsingArg self.parser line
  let self := { self with parser := parser }
  if dirPipe = 105 then executePipe kernel.found self
  else
    let files := redirectProc kernel parser dirPipe self.files
    let child := if kernel.found parser.comArgv then .command parser.comArgv files else .exited
    some (self, [child])

/-- The standard descriptors are in use, and no file is an end of a pipe to come. -/
structure Ready (files : Files) (pipes : Nat) : Prop where
  stdin : files.file 0 ≠ none
  stdout : files.file 1 ≠ none
  past : ∀ d k, files.file d = some (.readEnd k) ∨ files.file d = some (.writeEnd k) → k < pipes

/-- What `pipe` does to a table. -/
structure Piping (files after : Files) (n : Nat) (fd : Nat × Nat) : Prop where
  readUnused : files.file fd.1 = none
  writeUnused : files.file fd.2 = none
  distinct : fd.2 ≠ fd.1
  file : ∀ d, after.file d = if d = fd.2 then some (.writeEnd n)
    else if d = fd.1 then some (.readEnd n) else files.file d
  opened : after.opened = files.opened + 2

theorem pipe_piping (files : Files) (n : Nat) : Piping files (pipe files n).2 n (pipe files n).1 := by
  have read := files.file_lowest
  have write := (files.put files.lowest (.readEnd n)).file_lowest
  have distinct : (files.put files.lowest (.readEnd n)).lowest ≠ files.lowest := by
    intro same
    rw [same, Table.file_put, if_pos rfl] at write
    cases write
  have opened := Table.opened_put write (.writeEnd n)
  have before := Table.opened_put read (.readEnd n)
  rw [Table.file_put, if_neg distinct] at write
  refine ⟨read, write, distinct, fun d => ?_, ?_⟩
  · rw [pipe, Table.file_put, Table.file_put]
  · rw [before] at opened
    exact opened

theorem Ready.mono {files : Files} {pipes pipes' : Nat} (ready : Ready files pipes)
    (more : pipes ≤ pipes') : Ready files pipes' :=
  ⟨ready.stdin, ready.stdout, fun d k holds => Nat.lt_of_lt_of_le (ready.past d k holds) more⟩

/-! ## The processes of a pipe -/

/-- What stage `i` of `n` has, when the pipes of the line are numbered from `first`
on. The pipe of the last stage is joined to nothing. -/
structure Wired (before : Files) (first n i : Nat) (files : Files) : Prop where
  stdin : files.file 0 = if i = 0 then before.file 0 else some (.readEnd (first + i - 1))
  stdout : files.file 1 = if i + 1 = n then before.file 1 else some (.writeEnd (first + i))
  others : ∀ d, 2 ≤ d → before.file d ≠ none → files.file d = before.file d
  -- the pipe after the last stage is joined to nothing
  writers : ∀ d k, files.file d = some (.writeEnd k) → before.file d = some (.writeEnd k) ∨
    d = 1 ∧ k = first + i ∨ k + 1 = first + n
  past : ∀ d k, files.file d = some (.readEnd k) ∨ files.file d = some (.writeEnd k) → k < first + n

/-- A stage runs its words, or goes on as a shell. -/
def Starts (found : Argv → Bool) (parser : Parser) (before : Files) (first i : Nat)
    (process : Process) : Prop :=
  ∃ cur files, getComArgvPipe i = some cur ∧ Wired before first parser.pipeTime i files ∧
    process = if found (parser.pipes cur) then .command (parser.pipes cur) files else .shell files

/-- The shell keeps what it had, and the read ends of `j` pipes besides. -/
structure Leaks (before : Files) (first j : Nat) (files : Files) : Prop where
  kept : ∀ d, before.file d ≠ none → files.file d = before.file d
  new : ∀ d f, before.file d = none → files.file d = some f →
    ∃ k, first ≤ k ∧ k < first + j ∧ f = .readEnd k
  held : ∀ k, first ≤ k → k < first + j → ∃ d, files.file d = some (.readEnd k)
  opened : files.opened = before.opened + j

/-- The loop after `j` stages that were not the last. -/
structure Between (found : Argv → Bool) (parser : Parser) (before : Files) (first j : Nat)
    (s : Loop) : Prop where
  leaks : Leaks before first j s.files
  pipes : s.pipes = first + j
  input : if j = 0 then s.input = 0
    else before.file s.input = none ∧ s.files.file s.input = some (.readEnd (first + j - 1))
  count : s.started.length = j
  started : ∀ i process, s.started[i]? = some process → Starts found parser before first i process

section Stage

variable {found : Argv → Bool} {parser : Parser} {before files after : Files} {first j n d k : Nat}
  {s : Loop} {fd : Nat × Nat}

/-! ### The table of the shell -/

theorem Leaks.unused (leaks : Leaks before first j files) (unused : files.file d = none) :
    before.file d = none := by
  by_contra used
  exact used (leaks.kept d used ▸ unused)

theorem Leaks.writer (leaks : Leaks before first j files)
    (writes : files.file d = some (.writeEnd k)) : before.file d = some (.writeEnd k) := by
  cases old : before.file d with
  | none =>
    obtain ⟨_, -, -, eq⟩ := leaks.new d _ old writes
    cases eq
  | some f =>
    rw [leaks.kept d (by simp [old])] at writes
    exact old.symm.trans writes

theorem Leaks.past (leaks : Leaks before first j files) (ready : Ready before first)
    (holds : files.file d = some (.readEnd k) ∨ files.file d = some (.writeEnd k)) :
    k < first + j := by
  rcases holds with reads | writes
  · cases old : before.file d with
    | none =>
      obtain ⟨_, -, below, eq⟩ := leaks.new d _ old reads
      cases eq
      exact below
    | some f =>
      rw [leaks.kept d (by simp [old])] at reads
      exact Nat.lt_of_lt_of_le (ready.past d k (.inl reads)) (Nat.le_add_right _ _)
  · exact Nat.lt_of_lt_of_le (ready.past d k (.inr (leaks.writer writes))) (Nat.le_add_right _ _)

theorem Leaks.ready (leaks : Leaks before first j files) (ready : Ready before first) :
    Ready files (first + j) where
  stdin := by
    rw [leaks.kept 0 ready.stdin]
    exact ready.stdin
  stdout := by
    rw [leaks.kept 1 ready.stdout]
    exact ready.stdout
  past _ _ holds := leaks.past ready holds

/-- The shell closes the end it does not read from. -/
theorem Piping.close_write (piping : Piping files after n fd) (d : Nat) :
    (after.close fd.2).file d = if d = fd.1 then some (.readEnd n) else files.file d := by
  rw [Table.file_close, piping.file]
  by_cases write : d = fd.2
  · rw [if_pos write, write, if_neg piping.distinct, piping.writeUnused]
  · rw [if_neg write, if_neg write]

theorem Piping.close_both (piping : Piping files after n fd) (d : Nat) :
    ((after.close fd.1).close fd.2).file d = files.file d := by
  rw [Table.file_close, Table.file_close, piping.file]
  by_cases write : d = fd.2
  · rw [if_pos write, write, piping.writeUnused]
  · by_cases read : d = fd.1
    · rw [if_neg write, if_pos read, read, piping.readUnused]
    · rw [if_neg write, if_neg read, if_neg write, if_neg read]

theorem Leaks.next (leaks : Leaks before first j files) (piping : Piping files after (first + j) fd) :
    Leaks before first (j + 1) (after.close fd.2) := by
  have file := piping.close_write
  constructor
  · intro d used
    have other : d ≠ fd.1 := by
      rintro rfl
      exact used (leaks.unused piping.readUnused)
    rw [file, if_neg other]
    exact leaks.kept d used
  · intro d f unused new
    rw [file] at new
    by_cases read : d = fd.1
    · rw [if_pos read] at new
      cases new
      exact ⟨first + j, by omega, by omega, rfl⟩
    · rw [if_neg read] at new
      obtain ⟨k, low, high, eq⟩ := leaks.new d f unused new
      exact ⟨k, low, by omega, eq⟩
  · intro k low high
    by_cases last : k = first + j
    · exact ⟨fd.1, by rw [file, if_pos rfl, last]⟩
    · obtain ⟨d, holds⟩ := leaks.held k low (by omega)
      have other : d ≠ fd.1 := by
        rintro rfl
        rw [piping.readUnused] at holds
        cases holds
      exact ⟨d, by rw [file, if_neg other, holds]⟩
  · have closed : (after.close fd.2).opened + 1 = after.opened :=
      Table.opened_close (by simp [piping.file])
    have := piping.opened
    have := leaks.opened
    omega

theorem Leaks.last (leaks : Leaks before first j files) (piping : Piping files after n fd) :
    Leaks before first j ((after.close fd.1).close fd.2) := by
  have file := piping.close_both
  refine ⟨fun d used => ?_, fun d f unused new => ?_, fun k low high => ?_, ?_⟩
  · rw [file, leaks.kept d used]
  · exact leaks.new d f unused (file d ▸ new)
  · obtain ⟨d, holds⟩ := leaks.held k low high
    exact ⟨d, by rw [file, holds]⟩
  · have first : (after.close fd.1).opened + 1 = after.opened :=
      Table.opened_close (by simp [piping.file, piping.distinct.symm])
    have second : ((after.close fd.1).close fd.2).opened + 1 = (after.close fd.1).opened :=
      Table.opened_close (by simp [piping.file, piping.distinct])
    have := piping.opened
    have := leaks.opened
    omega

/-! ### The table of a stage -/

theorem Piping.used (piping : Piping files after n fd) {f : File} (used : files.file d = some f) :
    after.file d = some f := by
  have write : d ≠ fd.2 := by
    rintro rfl
    simp [piping.writeUnused] at used
  have read : d ≠ fd.1 := by
    rintro rfl
    simp [piping.readUnused] at used
  rw [piping.file, if_neg write, if_neg read, used]

/-- What `pipe` adds is the new pipe. -/
theorem Piping.cases (piping : Piping files after n fd) {f : File} (holds : after.file d = some f) :
    d = fd.2 ∧ f = .writeEnd n ∨ d = fd.1 ∧ f = .readEnd n ∨ files.file d = some f := by
  rw [piping.file] at holds
  split at holds
  · next write => exact .inl ⟨write, (Option.some.inj holds).symm⟩
  split at holds
  · next read => exact .inr (.inl ⟨read, (Option.some.inj holds).symm⟩)
  · exact .inr (.inr holds)

/-- The table of a child that has its input in place. -/
structure Fed (before after : Files) (first j input : Nat) (child : Files) : Prop where
  stdin : child.file 0 = if j = 0 then before.file 0 else some (.readEnd (first + j - 1))
  rest : ∀ d, d ≠ 0 → child.file d = after.file d ∨ d = input ∧ child.file d = none

/-- The descriptor a stage reads from, if it is not the first. -/
theorem Between.feeds (between : Between found parser before first j s) (ready : Ready before first)
    (piping : Piping s.files after (first + j) fd) (later : j ≠ 0) : s.input ≠ 0 ∧
      before.file s.input = none ∧ after.file s.input = some (.readEnd (first + j - 1)) := by
  have input := between.input
  rw [if_neg later] at input
  refine ⟨fun zero => ready.stdin (zero ▸ input.1), input.1, piping.used input.2⟩

theorem Between.after_used (between : Between found parser before first j s)
    (piping : Piping s.files after (first + j) fd) (used : before.file d ≠ none) :
    after.file d = before.file d := by
  obtain ⟨f, eq⟩ := Option.ne_none_iff_exists'.mp used
  rw [eq]
  exact piping.used ((between.leaks.kept d used).trans eq)

theorem Between.fed_move (between : Between found parser before first j s)
    (ready : Ready before first) (piping : Piping s.files after (first + j) fd) :
    Fed before after first j s.input
      (if s.input ≠ 0 then (after.dup2 s.input 0).close s.input else after) := by
  by_cases start : j = 0
  · have input := between.input
    rw [if_pos start] at input
    rw [if_neg (not_not.mpr input)]
    refine ⟨?_, fun d _ => .inl rfl⟩
    rw [if_pos start, between.after_used piping ready.stdin]
  · obtain ⟨real, -, reads⟩ := between.feeds ready piping start
    rw [if_pos real]
    have file := Table.file_move reads 0
    refine ⟨?_, fun d other => ?_⟩
    · rw [file, if_neg real.symm, if_pos rfl, if_neg start]
    · rw [file]
      by_cases eq : d = s.input
      · exact .inr ⟨eq, if_pos eq⟩
      · rw [if_neg eq, if_neg other]
        exact .inl rfl

/-- Where a child that is fed has the ends of pipes. -/
theorem Fed.cases {child : Files} (fed : Fed before after first j s.input child)
    (between : Between found parser before first j s) (ready : Ready before first)
    (piping : Piping s.files after (first + j) fd) {f : File} (holds : child.file d = some f) :
    d = 0 ∧ f = .readEnd (first + j - 1) ∧ j ≠ 0 ∨ d = fd.2 ∧ f = .writeEnd (first + j) ∨
      d = fd.1 ∧ f = .readEnd (first + j) ∨ s.files.file d = some f := by
  by_cases zero : d = 0
  · subst zero
    rw [fed.stdin] at holds
    split at holds
    · exact .inr (.inr (.inr ((between.leaks.kept 0 ready.stdin).trans holds)))
    · next later => exact .inl ⟨rfl, (Option.some.inj holds).symm, later⟩
  · rcases fed.rest d zero with same | ⟨-, closed⟩
    · exact .inr (piping.cases (same ▸ holds))
    · rw [closed] at holds
      cases holds

theorem Fed.past {child : Files} (fed : Fed before after first j s.input child)
    (between : Between found parser before first j s) (ready : Ready before first)
    (piping : Piping s.files after (first + j) fd)
    (holds : child.file d = some (.readEnd k) ∨ child.file d = some (.writeEnd k)) :
    k < first + (j + 1) := by
  have bound {f : File} (pipeEnd : f = .readEnd k ∨ f = .writeEnd k) (holds : child.file d = some f) :
      k < first + (j + 1) := by
    rcases fed.cases between ready piping holds with ⟨-, rfl, later⟩ | ⟨-, rfl⟩ | ⟨-, rfl⟩ | old
    · rcases pipeEnd with eq | eq <;> cases eq
      omega
    · rcases pipeEnd with eq | eq <;> cases eq
      omega
    · rcases pipeEnd with eq | eq <;> cases eq
      omega
    · have := between.leaks.past ready (pipeEnd.imp (· ▸ old) (· ▸ old))
      omega
  rcases holds with reads | writes
  · exact bound (.inl rfl) reads
  · exact bound (.inr rfl) writes

theorem Fed.others {child : Files} (fed : Fed before after first j s.input child)
    (between : Between found parser before first j s) (ready : Ready before first)
    (piping : Piping s.files after (first + j) fd) (real : d ≠ 0) (used : before.file d ≠ none) :
    child.file d = before.file d := by
  rcases fed.rest d real with same | ⟨rfl, -⟩
  · rw [same, between.after_used piping used]
  · by_cases start : j = 0
    · have input := between.input
      rw [if_pos start] at input
      exact absurd input real
    · exact absurd (between.feeds ready piping start).2.1 used

/-- Another stage writes to the new pipe, and has no second descriptor for it. -/
theorem Fed.wired_middle {child : Files} (fed : Fed before after first j s.input child)
    (between : Between found parser before first j s) (ready : Ready before first)
    (piping : Piping s.files after (first + j) fd) (more : j + 1 < n) :
    Wired before first n j ((child.dup2 fd.2 1).close fd.2) := by
  have unused := between.leaks.unused piping.writeUnused
  have apart (d : Nat) (used : before.file d ≠ none) : d ≠ fd.2 := by
    rintro rfl
    exact used unused
  have writes : after.file fd.2 = some (.writeEnd (first + j)) := by rw [piping.file, if_pos rfl]
  have kept : child.file fd.2 = some (.writeEnd (first + j)) := by
    rcases fed.rest fd.2 (apart 0 ready.stdin).symm with same | ⟨eq, -⟩
    · exact same.trans writes
    · by_cases start : j = 0
      · have input := between.input
        rw [if_pos start] at input
        exact absurd (eq.trans input).symm (apart 0 ready.stdin)
      · have reads := (between.feeds ready piping start).2.2
        rw [← eq, writes] at reads
        cases reads
  have file := Table.file_move kept 1
  constructor
  · rw [file, if_neg (apart 0 ready.stdin), if_neg Nat.zero_ne_one]
    exact fed.stdin
  · rw [file, if_neg (apart 1 ready.stdout), if_pos rfl, if_neg (by omega)]
  · intro d real used
    rw [file, if_neg (apart d used), if_neg (by omega)]
    exact fed.others between ready piping (by omega) used
  · intro d k holds
    rw [file] at holds
    split at holds
    · cases holds
    split at holds
    · next stdout =>
      cases holds
      exact .inr (.inl ⟨stdout, rfl⟩)
    · next moved _ =>
      rcases fed.cases between ready piping holds with ⟨-, eq, -⟩ | ⟨eq, -⟩ | ⟨-, eq⟩ | old
      · cases eq
      · exact absurd eq moved
      · cases eq
      · exact .inl (between.leaks.writer old)
  · intro d k holds
    rw [file] at holds
    split at holds
    · simp at holds
    split at holds
    · simp only [Option.some.injEq, reduceCtorEq, File.writeEnd.injEq, false_or] at holds
      omega
    · have := fed.past between ready piping holds
      omega

/-- A stage that goes on as a shell closes both ends of the new pipe first. -/
theorem Wired.close {i : Nat} (wired : Wired before first n i files) (ready : Ready before first)
    (unused : before.file d = none) : Wired before first n i (files.close d) := by
  have apart (e : Nat) (used : before.file e ≠ none) : e ≠ d := by
    rintro rfl
    exact used unused
  have same {e : Nat} {f : File} (holds : (files.close d).file e = some f) : files.file e = some f := by
    rw [Table.file_close] at holds
    exact (Option.ite_none_left_eq_some.mp holds).2
  constructor
  · rw [Table.file_close, if_neg (apart 0 ready.stdin)]
    exact wired.stdin
  · rw [Table.file_close, if_neg (apart 1 ready.stdout)]
    exact wired.stdout
  · intro e real used
    rw [Table.file_close, if_neg (apart e used)]
    exact wired.others e real used
  · intro e k writes
    exact wired.writers e k (same writes)
  · exact fun e k holds => wired.past e k (holds.imp same same)

/-- What a stage becomes. -/
theorem Wired.starts {i : Nat} {cur : Fin 10} (wired : Wired before first parser.pipeTime i files)
    (ready : Ready before first) (array : getComArgvPipe i = some cur)
    (readUnused : before.file fd.1 = none) (writeUnused : before.file fd.2 = none) :
    Starts found parser before first i (execOrBreak found (parser.pipes cur) files fd) := by
  unfold execOrBreak
  by_cases runs : found (parser.pipes cur) = true
  · exact ⟨cur, files, array, wired, by simp [runs]⟩
  · exact ⟨cur, _, array, (wired.close ready readUnused).close ready writeUnused, by simp [runs]⟩

end Stage

/-! ## The loop -/

section Loop

variable {found : Argv → Bool} {parser : Parser} {before : Files} {first j : Nat} {s : Loop}

theorem Between.started_snoc (between : Between found parser before first j s) {process : Process}
    (starts : Starts found parser before first j process) (i : Nat) (p : Process)
    (at_i : (s.started ++ [process])[i]? = some p) : Starts found parser before first i p := by
  rw [List.getElem?_append, between.count] at at_i
  split at at_i
  · exact between.started i p at_i
  · next beyond =>
    obtain ⟨inside, eq⟩ := List.getElem?_eq_some_iff.mp at_i
    simp only [List.length_singleton] at inside
    obtain rfl : i = j := by omega
    simp only [Nat.sub_self, List.getElem_cons_zero] at eq
    exact eq ▸ starts

theorem stage_middle {cur : Fin 10} (array : getComArgvPipe j = some cur)
    (more : j + 1 < parser.pipeTime) : stage found parser s j = some {
      files := (pipe s.files s.pipes).2.close (pipe s.files s.pipes).1.2
      pipes := s.pipes + 1
      input := (pipe s.files s.pipes).1.1
      fd := (pipe s.files s.pipes).1
      started := s.started ++ [execOrBreak found (parser.pipes cur)
        (pipeProc (pipe s.files s.pipes).2 s.input (pipe s.files s.pipes).1.2)
        (pipe s.files s.pipes).1] } := by
  rw [stage, array]
  exact if_neg (by omega)

/-- A stage that is not the last. -/
theorem Between.next (between : Between found parser before first j s) (ready : Ready before first)
    (more : j + 1 < parser.pipeTime) (few : parser.pipeTime ≤ 10) :
    ∃ s', stage found parser s j = some s' ∧ Between found parser before first (j + 1) s' := by
  have array : getComArgvPipe j = some ⟨j, by omega⟩ := getComArgvPipe_eq_some.mpr rfl
  have piping := pipe_piping s.files s.pipes
  rw [between.pipes] at piping
  have readUnused := between.leaks.unused piping.readUnused
  have writeUnused := between.leaks.unused piping.writeUnused
  have apart : (pipe s.files (first + j)).1.2 ≠ 1 := by
    intro eq
    exact ready.stdout (eq ▸ writeUnused)
  have wired := (between.fed_move ready piping).wired_middle between ready piping more
  refine ⟨_, stage_middle array more, ?_⟩
  rw [between.pipes]
  refine ⟨between.leaks.next piping, rfl, ?_, by simp [between.count], ?_⟩
  · rw [if_neg (Nat.succ_ne_zero j), piping.close_write, if_pos rfl]
    exact ⟨readUnused, rfl⟩
  · refine between.started_snoc ?_
    rw [pipeProc, if_pos apart]
    exact wired.starts ready array readUnused writeUnused

/-- What the pipe branch starts and leaves. -/
structure Executed (found : Argv → Bool) (before after : Sfish) (started : List Process) : Prop where
  parser : after.parser = before.parser
  pipes : after.pipes = before.pipes + before.parser.pipeTime
  leaks : Leaks before.files before.pipes (before.parser.pipeTime - 1) after.files
  count : started.length = before.parser.pipeTime
  started : ∀ i process, started[i]? = some process →
    Starts found before.parser before.files before.pipes i process

end Loop

/-! ## Lines -/

/-- How a line is run: by the shell itself, or with processes. -/
inductive Runs (kernel : Kernel) (self : Sfish) (line : Path) (later : Sfish)
    (started : List Process) : Prop where
  | builtin {command : Command} (found : findCommand (commandWord line) = some command)
      (same : later = self) (nothing : started = [])
  | other (outside : findCommand (commandWord line) = none)
      (runs : executeOther kernel self line = some (later, started))

end LinuxSystem.Shell
