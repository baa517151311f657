import LinuxSystem.Shell.Parse

/-!
# The segments of a pipe

The arrays that the pipe branch of `parsing_arg` fills, one for each segment.
There are ten of them.
-/

namespace LinuxSystem.Shell

open Filling

/-- Every segment has its words in the array of its own number, with a NULL
after them, and the arrays of no segment are clear. -/
structure Piped (segments : List Path) (parser : Parser) : Prop where
  count : parser.pipeTime = segments.length
  held : ∀ i (h : i < segments.length), ∃ p, getComArgvPipe i = some p ∧
    (Split.words ' ' segments[i]).length < 100 ∧
    parser.pipes p = holding (Split.words ' ' segments[i])
  rest : ∀ p : Fin 10, segments.length ≤ p → parser.pipes p = cleared

/-- The arrays a command runs with are those of its line, whatever the line
before left in them. -/
def PipesSplit (self : Parser) (line : Path) : Prop :=
  ∃ self', parsingArg self line = some (self', 105) ∧ Piped (line.splitOn '|') self'

theorem getComArgvPipe_eq_some {x : Nat} {p : Fin 10} :
    getComArgvPipe x = some p ↔ (p : Nat) = x := by
  unfold getComArgvPipe
  split
  · rw [Option.some_inj, Fin.ext_iff, eq_comm]
  · simp only [reduceCtorEq, false_iff]
    omega

/-- No more segments than arrays. -/
theorem Piped.length_le {segments : List Path} {parser : Parser} (piped : Piped segments parser) :
    segments.length ≤ 10 := by
  by_contra many
  obtain ⟨p, found, _⟩ := piped.held 10 (by omega)
  have past := getComArgvPipe_eq_some.mp found
  omega

/-- The array of the next number takes the words of one more segment. -/
theorem Piped.update {segments : List Path} {parser : Parser} (piped : Piped segments parser)
    {cur : Fin 10} (next : (cur : Nat) = segments.length) {argOut : Path} (short : argOut.length < 100) :
    Piped (segments ++ [argOut]) { parser with
      pipes := Function.update parser.pipes cur (holding (Split.words ' ' argOut))
      comArgc := (Split.words ' ' argOut).length
      pipeTime := parser.pipeTime + 1 } := by
  have longer : (segments ++ [argOut]).length = segments.length + 1 := List.length_append
  constructor
  · rw [longer, piped.count]
  · intro i inside
    rw [longer] at inside
    rcases Nat.lt_succ_iff_lt_or_eq.mp inside with before | rfl
    · obtain ⟨p, found, room, holds⟩ := piped.held i before
      have other : p ≠ cur := by
        rintro rfl
        rw [getComArgvPipe_eq_some] at found
        omega
      rw [List.getElem_append_left before]
      exact ⟨p, found, room, (Function.update_of_ne other _ _).trans holds⟩
    · rw [List.getElem_concat_length rfl]
      exact ⟨cur, getComArgvPipe_eq_some.mpr next,
        Nat.lt_of_le_of_lt (Split.length_words_le ' ' argOut) short, Function.update_self _ _ _⟩
  · intro p past
    rw [longer] at past
    have other : p ≠ cur := by
      rintro rfl
      omega
    apply (Function.update_of_ne other _ _).trans
    exact piped.rest p (by omega)

/-- The array of the next segment is still clear. -/
theorem Piped.step {segments : List Path} {parser : Parser} (piped : Piped segments parser)
    (few : segments.length < 10) {argOut : Path} (short : argOut.length < 100) :
    ∃ cur argv argc, getComArgvPipe parser.pipeTime = some cur ∧
      argLoop (fun _ => false) (parser.pipes cur) 0 (argOut.splitOn ' ') = some (argv, argc) ∧
      Piped (segments ++ [argOut]) { parser with
        pipes := Function.update parser.pipes cur argv
        comArgc := argc
        pipeTime := parser.pipeTime + 1 } := by
  have clear : parser.pipes ⟨segments.length, few⟩ = cleared := piped.rest _ (Nat.le_refl _)
  refine ⟨⟨segments.length, few⟩, _, _, ?_, ?_, piped.update rfl short⟩
  · rw [getComArgvPipe_eq_some, piped.count]
  · rw [clear]
    exact argLoop_words short

theorem pipeLoop_piped {segments done : List Path} {parser : Parser} (piped : Piped done parser)
    (few : (done ++ segments).length ≤ 10) (short : ∀ argOut ∈ segments, argOut.length < 100) :
    ∃ parser', pipeLoop parser segments = some parser' ∧ Piped (done ++ segments) parser' := by
  induction segments generalizing done parser with
  | nil => exact ⟨parser, rfl, by rwa [List.append_nil]⟩
  | cons argOut segments ih =>
    rw [List.length_append, List.length_cons] at few
    obtain ⟨cur, argv, argc, found, run, next⟩ :=
      piped.step (by omega) (short argOut List.mem_cons_self)
    obtain ⟨parser', rest, final⟩ := ih next (by simp; omega)
      (fun other mem => short other (List.mem_cons_of_mem _ mem))
    refine ⟨parser', ?_, by simpa using final⟩
    simp [pipeLoop, found, run, rest]

/-- A line of at most ten segments is split, and the eleventh has no array. -/
theorem pipesSplit_iff (self : Parser) {line : Path} (piped : '|' ∈ line)
    (short : line.length < 100) : PipesSplit self line ↔ line.count '|' ≤ 9 := by
  have segments := Split.length_splitOn '|' line
  constructor
  · rintro ⟨self', _, split⟩
    have few := split.length_le
    omega
  · intro few
    have start : Piped [] { self with
        comArgv := cleared, pipes := fun _ => cleared, comArgc := 0, pipeTime := 0 } :=
      ⟨rfl, fun _ inside => absurd inside (Nat.not_lt_zero _), fun _ _ => rfl⟩
    obtain ⟨self', run, split⟩ := pipeLoop_piped start 
      (show ([] ++ line.splitOn '|').length ≤ 10 by rw [List.nil_append]; omega)
      (fun argOut mem => Nat.lt_of_le_of_lt (Split.length_piece_le mem) short)
    refine ⟨self', ?_, split⟩
    rw [parsingArg, if_pos piped, run]
    rfl

/-- `ls | wc -l`, after a line that had left a word in every array. -/
theorem pipes_split_ls :
    PipesSplit ⟨cleared, fun _ => holding [['x']], 1, 10, none, none⟩
      ['l', 's', ' ', '|', ' ', 'w', 'c', ' ', '-', 'l'] :=
  (pipesSplit_iff _ (by decide) (by decide)).mpr (by decide)

/-- `a|a|a|a|a|a|a|a|a|a|a` right after the start: `com_argv_cur` is never set
for the last `a`. -/
theorem eleventh_segment_fails :
    ¬ ∀ (self : Parser) (line : Path), '|' ∈ line → line.length < 100 → PipesSplit self line := by
  intro all
  obtain ⟨self', run, _⟩ := all ⟨cleared, fun _ => cleared, 0, 0, none, none⟩
    ((List.replicate 10 ['a', '|']).flatten ++ ['a']) (by decide) (by decide)
  have undefined : parsingArg ⟨cleared, fun _ => cleared, 0, 0, none, none⟩
      ((List.replicate 10 ['a', '|']).flatten ++ ['a']) = none := rfl
  rw [undefined] at run
  cases run

end LinuxSystem.Shell
