import LinuxSystem.Shell.Parse

/-!
# Redirection

Where the words and the file names of a line without `|` go. The words stop at
the piece that has the operator in it, and a name that ends at the other
operator is in a block without room for a NUL.
-/

namespace LinuxSystem.Shell

open Filling

/-- The text before the first `<` or `>`. -/
def before (line : Path) : Path := line.takeWhile (fun c => !(c = '<' || c = '>'))

/-- The text after `c`, up to the other operator, without the blanks around it. -/
def fileName (c other : Char) (line : Path) : Path :=
  stripwhite ((after c line).takeWhile (· ≠ other))

/-- Which operators a line has, and in which order. -/
def direction (line : Path) : Nat :=
  if '<' ∈ line then
    if '>' ∈ line then if line.idxOf '<' < line.idxOf '>' then 103 else 104
    else 102
  else if '>' ∈ line then 101 else 0

structure Redirected (line : Path) (parser : Parser) (res : Nat) : Prop where
  words : parser.comArgv = holding (Split.words ' ' (before line))
  output : '>' ∈ line → parser.outputFile = some (fileName '>' '<' line)
  input : '<' ∈ line → parser.inputFile = some (fileName '<' '>' line)
  result : res = direction line

def RedirectSplit (self : Parser) (line : Path) : Prop :=
  ∃ parser res, parsingArg self line = some (parser, res) ∧ Redirected line parser res

/-- Nothing but a space stands right before the operator. -/
def Detached (line : Path) : Prop := before line = [] ∨ (before line).getLast? = some ' '

/-! ## The words -/

/-- The words that are copied. -/
def keptWords (line : Path) : List Path :=
  ((line.splitOn ' ').takeWhile (!·.any isOperator)).filter (· ≠ [])

theorem length_keptWords_le (line : Path) : (keptWords line).length ≤ line.length := by
  have part : (keptWords line).Sublist (Split.words ' ' line) := (List.takeWhile_sublist _).filter _
  exact Nat.le_trans part.length_le (Split.length_words_le ' ' line)

theorem argLoop_keptWords {line : Path} (short : line.length < 100) :
    argLoop (fun arg => arg.any isOperator) cleared 0 (line.splitOn ' ') =
      some (holding (keptWords line), (keptWords line).length) := by
  have room := length_keptWords_le line
  have run := argLoop_holding (fun arg => arg.any isOperator) (line.splitOn ' ') []
  exact run (by rw [List.length_nil, Nat.zero_add]; exact Nat.le_trans room (Nat.le_of_lt short))

theorem keptWords_plain {line : Path} (plain : ∀ c ∈ line, ¬ isOperator c) :
    keptWords line = Split.words ' ' line := by
  have all : (line.splitOn ' ').takeWhile (!·.any isOperator) = line.splitOn ' ' := by
    rw [List.takeWhile_eq_self_iff]
    intro piece mem
    rw [Bool.not_eq_true', List.any_eq_false]
    intro c inside
    exact plain c (Split.mem_of_mem_splitOn mem inside)
  rw [keptWords, all]
  rfl

/-- A word with the operator right after it is not copied. -/
theorem keptWords_append {front : Path} {c : Char} (clear : ∀ x ∈ front, ¬ isOperator x)
    (hit : isOperator c) (rest : Path) :
    keptWords (front ++ c :: rest) = Split.words ' ' front ↔
      front = [] ∨ front.getLast? = some ' ' := by
  have ne : c ≠ ' ' := by
    rintro rfl
    revert hit
    decide
  rcases Split.last_piece ' ' front with plain | ⟨front, last, rfl, plain⟩
  · have none : keptWords (front ++ c :: rest) = [] := by
      rw [keptWords, Split.takeWhile_marked plain ne hit]
      rfl
    have attached : front.getLast? ≠ some ' ' := fun space => plain (List.mem_of_getLast? space)
    rw [none, Split.words_plain plain]
    by_cases empty : front = [] <;> simp [empty, attached]
  · have kept : keptWords ((front ++ ' ' :: last) ++ c :: rest) = Split.words ' ' front := by
      rw [keptWords, List.append_assoc, List.cons_append,
        Split.takeWhile_unmarked (fun x mem => clear x (List.mem_append_left _ mem)) plain ne hit]
      rfl
    rw [kept, Split.words_append, Split.words_plain plain]
    by_cases empty : last = []
    · simp [empty]
    · have attached : last.getLast empty ≠ ' ' := fun space => plain (space ▸ List.getLast_mem empty)
      simp [empty, List.getLast?_append, List.getLast?_cons, List.getLast?_eq_some_getLast empty, attached]

theorem exists_operator {line : Path} (operator : '<' ∈ line ∨ '>' ∈ line) :
    ∃ c rest, line = before line ++ c :: rest ∧ isOperator c := by
  have cut : before line ++ line.dropWhile (fun c => !(c = '<' || c = '>')) = line :=
    List.takeWhile_append_dropWhile
  have stops := List.head?_dropWhile_not (fun c => !(c = '<' || c = '>')) line
  cases found : line.dropWhile (fun c => !(c = '<' || c = '>')) with
  | nil =>
    have passed := List.dropWhile_eq_nil_iff.mp found
    rcases operator with mem | mem <;> simpa using passed _ mem
  | cons c rest =>
    rw [found] at cut stops
    have hit : c = '<' ∨ c = '>' := or_iff_not_imp_left.mpr (by simpa using stops)
    exact ⟨c, rest, cut.symm, by rcases hit with rfl | rfl <;> rfl⟩

theorem before_eq_self {line : Path} (noInput : '<' ∉ line) (noOutput : '>' ∉ line) :
    before line = line := by
  rw [before, List.takeWhile_eq_self_iff]
  intro c mem
  have other : c ≠ '<' ∧ c ≠ '>' :=
    ⟨ne_of_mem_of_not_mem mem noInput, ne_of_mem_of_not_mem mem noOutput⟩
  simp [other]

theorem before_clear {line : Path} (noPipe : '|' ∉ line) : ∀ c ∈ before line, ¬ isOperator c := by
  intro c mem
  have passed := List.mem_takeWhile_imp mem
  have other : c ≠ '|' := ne_of_mem_of_not_mem ((List.takeWhile_sublist _).mem mem) noPipe
  simp_all [isOperator]

/-- The words before an operator are those copied, unless the last touches it. -/
theorem keptWords_eq_iff {line : Path} (noPipe : '|' ∉ line) (operator : '<' ∈ line ∨ '>' ∈ line) :
    keptWords line = Split.words ' ' (before line) ↔ Detached line := by
  obtain ⟨c, rest, cut, hit⟩ := exists_operator operator
  have kept := keptWords_append (before_clear noPipe) hit rest
  rwa [← cut] at kept

theorem holding_inj {words words' : List Path} (same : holding words = holding words') :
    words = words' :=
  (List.map_inj_right (fun _ _ => Option.some.inj)).mp (filled_inj (by simp) (by simp) same)

/-! ## The file names -/

theorem stripwhite_sublist (string : Path) : (stripwhite string).Sublist string :=
  (List.rdropWhile_prefix _ _).sublist.trans (List.dropWhile_suffix _).sublist

theorem after_suffix (c : Char) (line : Path) : after c line <:+ line :=
  (List.tail_suffix _).trans (List.dropWhile_suffix _)

theorem length_after {c : Char} {line : Path} (mem : c ∈ line) :
    (after c line).length + line.idxOf c + 1 = line.length := by
  induction line with
  | nil => cases mem
  | cons x line ih =>
    by_cases found : x = c
    · subst found
      simp [after]
    · have later := ih (List.mem_of_ne_of_mem (Ne.symm found) mem)
      have same : after c (x :: line) = after c line := by simp [after, found]
      rw [same, List.idxOf_cons_ne _ found, List.length_cons]
      omega

theorem lastFile_eq {cur : Path} (solid : '\x00' ∉ cur) : lastFile cur = some (stripwhite cur) := by
  have part := stripwhite_sublist cur
  have fits : (stripwhite cur).length < (calloc (cur.length + 1)).length := by
    rw [calloc, List.length_replicate]
    exact Nat.lt_succ_of_le part.length_le
  have none : ∀ c ∈ stripwhite cur, c ≠ '\x00' := by
    rintro c mem rfl
    exact solid (part.mem mem)
  rw [lastFile, strcpy, if_pos fits]
  simp only [Option.bind_eq_bind, Option.bind_some, Option.some_inj]
  rw [List.takeWhile_append_of_pos (by simpa using none)]
  simp

/-- The name and the block end together. -/
theorem midFile_eq_none {cur : Path} (solid : '\x00' ∉ cur) {midLen : Nat} (within : midLen ≤ cur.length) :
    midFile cur midLen = none := by
  have copied : strncpyBlock (calloc midLen) cur midLen = some (cur.take midLen) := by
    simp [strncpyBlock, calloc, Nat.sub_eq_zero_of_le within]
  have unended : '\x00' ∉ cur.take midLen := fun mem => solid (List.mem_of_mem_take mem)
  rw [midFile, copied]
  simp [stripwhiteBlock, unended]

/-! ## A line without a pipe -/

/-- The globals after the words. -/
def worded (self : Parser) (line : Path) : Parser :=
  { self with
    comArgv := holding (keptWords line)
    pipes := fun _ => cleared
    comArgc := (keptWords line).length
    pipeTime := 0 }

section Line

variable (self : Parser) {line : Path} (noPipe : '|' ∉ line) (short : line.length < 100)
  (ends : '\x00' ∉ line)

include noPipe short

theorem parsingArg_plain (noInput : '<' ∉ line) (noOutput : '>' ∉ line) :
    parsingArg self line = some (worded self line, 0) := by
  rw [parsingArg, if_neg noPipe]
  simp [argLoop_keptWords short, noInput, noOutput, worded]

include ends

theorem parsingArg_output (noInput : '<' ∉ line) (output : '>' ∈ line) :
    parsingArg self line =
      some ({ worded self line with outputFile := some (stripwhite (after '>' line)) }, 101) := by
  have name := lastFile_eq (fun mem => ends ((after_suffix '>' line).mem mem))
  rw [parsingArg, if_neg noPipe]
  simp [argLoop_keptWords short, noInput, output, name, worded]

theorem parsingArg_input (input : '<' ∈ line) (noOutput : '>' ∉ line) :
    parsingArg self line =
      some ({ worded self line with inputFile := some (stripwhite (after '<' line)) }, 102) := by
  have name := lastFile_eq (fun mem => ends ((after_suffix '<' line).mem mem))
  rw [parsingArg, if_neg noPipe]
  simp [argLoop_keptWords short, noOutput, input, name, worded]

/-- `stripwhite` reads past the block of the first name. -/
theorem parsingArg_both (input : '<' ∈ line) (output : '>' ∈ line) : parsingArg self line = none := by
  have inLength := length_after input
  have outLength := length_after output
  have inName : midFile (after '<' line) (line.idxOf '>' - line.idxOf '<' - 1) = none :=
    midFile_eq_none (fun mem => ends ((after_suffix '<' line).mem mem)) (by omega)
  have outName : midFile (after '>' line) (line.idxOf '<' - line.idxOf '>' - 1) = none :=
    midFile_eq_none (fun mem => ends ((after_suffix '>' line).mem mem)) (by omega)
  rw [parsingArg, if_neg noPipe]
  simp [argLoop_keptWords short, input, output, inName, outName]

end Line

theorem redirectSplit_some {self parser : Parser} {line : Path} {res : Nat}
    (run : parsingArg self line = some (parser, res)) :
    RedirectSplit self line ↔ Redirected line parser res := by
  constructor
  · rintro ⟨parser', res', again, redirected⟩
    rw [run] at again
    cases again
    exact redirected
  · exact fun redirected => ⟨parser, res, run, redirected⟩

theorem fileName_alone {c other : Char} {line : Path} (alone : other ∉ line) :
    fileName c other line = stripwhite (after c line) := by
  have all : (after c line).takeWhile (· ≠ other) = after c line := by
    rw [List.takeWhile_eq_self_iff]
    intro x mem
    simpa using ne_of_mem_of_not_mem ((after_suffix c line).mem mem) alone
  rw [fileName, all]

/-- With the names and the result as they should be, what is left is the words. -/
theorem redirected_iff {line : Path} {parser : Parser} {res : Nat}
    (copied : parser.comArgv = holding (keptWords line))
    (output : '>' ∈ line → parser.outputFile = some (fileName '>' '<' line))
    (input : '<' ∈ line → parser.inputFile = some (fileName '<' '>' line))
    (result : res = direction line) :
    Redirected line parser res ↔ keptWords line = Split.words ' ' (before line) := by
  constructor
  · intro redirected
    apply holding_inj
    rw [← copied, redirected.words]
  · intro same
    exact ⟨by rw [copied, same], output, input, result⟩

/-- A line is split as it reads when it has no operator, or has one of the two
and no word that touches it. -/
theorem redirectSplit_iff (self : Parser) {line : Path} (noPipe : '|' ∉ line)
    (short : line.length < 100) (ends : '\x00' ∉ line) :
    RedirectSplit self line ↔
      ('<' ∉ line ∧ '>' ∉ line) ∨ (¬ ('<' ∈ line ∧ '>' ∈ line) ∧ Detached line) := by
  by_cases input : '<' ∈ line <;> by_cases output : '>' ∈ line
  · have unread : ¬ RedirectSplit self line := by
      rintro ⟨parser, res, run, _⟩
      rw [parsingArg_both self noPipe short ends input output] at run
      cases run
    simp [unread, input, output]
  · have name := fileName_alone (c := '<') output
    rw [redirectSplit_some (parsingArg_input self noPipe short ends input output),
      redirected_iff rfl (fun mem => absurd mem output) (fun _ => by rw [name])
        (by simp [direction, input, output]),
      keptWords_eq_iff noPipe (.inl input)]
    simp [input, output]
  · have name := fileName_alone (c := '>') input
    rw [redirectSplit_some (parsingArg_output self noPipe short ends input output),
      redirected_iff rfl (fun _ => by rw [name]) (fun mem => absurd mem input)
        (by simp [direction, input, output]),
      keptWords_eq_iff noPipe (.inr output)]
    simp [input, output]
  · have whole := before_eq_self input output
    have all : keptWords line = Split.words ' ' (before line) := by
      rw [whole]
      exact keptWords_plain (whole ▸ before_clear noPipe)
    rw [redirectSplit_some (parsingArg_plain self noPipe short input output),
      redirected_iff rfl (fun mem => absurd mem output) (fun mem => absurd mem input)
        (by simp [direction, input, output])]
    simp [all, input, output]

/-- `ls -l >out `, with a name left over from another line. -/
theorem redirect_split_ls :
    RedirectSplit ⟨cleared, fun _ => cleared, 0, 0, none, some ['x']⟩
      ['l', 's', ' ', '-', 'l', ' ', '>', 'o', 'u', 't', ' '] :=
  (redirectSplit_iff _ (by decide) (by decide) (by decide)).mpr (.inr ⟨by decide, .inr rfl⟩)

/-- `ls>out` has no word left. -/
theorem attached_word_lost :
    ¬ ∀ (self : Parser) (line : Path), '|' ∉ line → line.length < 100 → '\x00' ∉ line →
      line.count '<' ≤ 1 → line.count '>' ≤ 1 → RedirectSplit self line := by
  intro all
  obtain ⟨parser, res, run, redirected⟩ := all ⟨cleared, fun _ => cleared, 0, 0, none, none⟩
    ['l', 's', '>', 'o', 'u', 't'] (by decide) (by decide) (by decide) (by decide) (by decide)
  have lost : (parsingArg ⟨cleared, fun _ => cleared, 0, 0, none, none⟩
      ['l', 's', '>', 'o', 'u', 't']).map (fun result => result.1.comArgv) = some cleared := rfl
  rw [run, Option.map_some, redirected.words, Option.some_inj] at lost
  revert lost
  decide

/-- `a < b > c`: the block of the first name has no NUL. -/
example : parsingArg ⟨cleared, fun _ => cleared, 0, 0, none, none⟩
    ['a', ' ', '<', ' ', 'b', ' ', '>', ' ', 'c'] = none := rfl

end LinuxSystem.Shell
