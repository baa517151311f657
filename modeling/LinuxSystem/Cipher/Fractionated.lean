import LinuxSystem.Cipher.Program

/-!
# Two fractionated runs

What one `-f` run encodes, another reads back when the two have the same letters
in `fm_key`. A decoder with any other `fm_key` misreads one of 26 short lines.
-/

namespace LinuxSystem.Cipher

open Triples
open Morse
open Polybius (Arg option)

/-! ## The two modes -/

section Modes

variable {args : List Arg} {mode : UInt16} {key : Option Arg}

theorem validargsF_key (run : validargsF args = some (mode, key)) :
    ∀ k, key = some k → keyLoop fmAlphabet k = true := by
  rintro k rfl
  unfold validargsF at run
  split at run
  · cases run
  split at run
  · dsimp only at run
    split at run
    · cases run
    · split at run
      · split at run
        · rename_i valid
          cases run
          exact valid
        · cases run
      · cases run
    · cases run
  · cases run

/-- Only `-f` sets the second bit of a mode and none of the counts. -/
theorem validargs_fractionated (run : validargs args = some (mode, key))
    (fractionated : mode = 0x4000 ∨ mode = 0x6000) : ∃ rest, validargsF rest = some (mode, key) := by
  cases args with
  | nil => cases run
  | cons flag rest =>
    rw [validargs] at run
    split at run
    · cases run
      exact absurd fractionated (by decide)
    split at run
    · have nonzero : mode ≠ 0 := by
        rcases fractionated with rfl | rfl <;> decide
      have low := (Polybius.validargsP_accepted run nonzero).1
      rcases fractionated with rfl | rfl
      · exact absurd low (by decide)
      · exact absurd low (by decide)
    split at run
    · exact ⟨rest, run⟩
    · cases run
      exact absurd fractionated (by decide)

/-- The letters that `main` leaves in `fm_key`. -/
theorem fractionated_key (run : validargs args = some (mode, key))
    (fractionated : mode = 0x4000 ∨ mode = 0x6000) :
    ∃ self : Key, fillFmKey key = some (self.fmKey ++ [0]) := by
  obtain ⟨rest, run⟩ := validargs_fractionated run fractionated
  have valid := validargsF_key run
  cases key with
  | none => exact ⟨noKey, by decide +kernel⟩
  | some k =>
    obtain ⟨within, distinct⟩ := (keyLoop_iff fmAlphabet k).mp (valid k rfl)
    exact ⟨⟨k, within, distinct⟩, fillFmKey_eq ⟨k, within, distinct⟩⟩

theorem letters_of_table (self : Key) : (self.fmKey ++ [0]).take 26 = self.fmKey :=
  List.take_left' (fmKey_length self)

theorem main_encodes {self : Key} (run : validargs args = some (0x4000, key))
    (table : fillFmKey key = some (self.fmKey ++ [0])) (input : List UInt8) :
    main args input = some ⟨if (encode self input).failed = true then exitFailure else exitSuccess,
      (encode self input).out⟩ := by
  rw [main, if_neg (args_ne_nil run), run, Option.bind_eq_bind, Option.bind_some]
  dsimp only
  rw [if_neg (by decide), if_neg (by decide), if_neg (by decide), if_pos (by decide), table,
    Option.bind_eq_bind, Option.bind_some, letters_of_table]
  rfl

theorem main_decodes {self : Key} (run : validargs args = some (0x6000, key))
    (table : fillFmKey key = some (self.fmKey ++ [0])) (input : List UInt8) :
    main args input = (decode self input).map (⟨exitSuccess, ·⟩) := by
  rw [main, if_neg (args_ne_nil run), run, Option.bind_eq_bind, Option.bind_some]
  dsimp only
  rw [if_neg (by decide), if_neg (by decide), if_neg (by decide), if_neg (by decide),
    if_pos (by decide), table, Option.bind_eq_bind, Option.bind_some, letters_of_table, decodeMorse,
    decode, Option.map_map]
  rfl

end Modes

/-! ## 26 lines -/

def lettersOf (word : List Char) : List Letter :=
  word.filterMap fun c =>
    let char := UInt8.ofNat c.toNat
    if h : 0x21 ≤ char ∧ char ≤ 0x7A ∧ morse char ≠ [] then some ⟨char, h.1, h.2.1, h.2.2⟩ else none

def lineOf (words : List (List Char)) : Line :=
  words.filterMap fun word => if h : lettersOf word ≠ [] then some ⟨lettersOf word, h⟩ else none

/-- Line `i` has the triple `i` among its marks, and no later one. -/
def probes : List (List (List Char)) := [
  [['S']], [['U']], [['5']], [['R']], [['W']], [['4']], [['E', 'E']], [['E', 'B']], [['F']],
  [['B']], [['C']], [['B', 'G']], [['G']], [['O']], [['0']], [['J', 'E']], [['J', 'B']], [['J']],
  [['A'], ['F']], [['A'], ['J']], [['S', 'E', 'A']], [['A'], ['B']], [['A'], ['G']],
  [['S', 'T', 'A']], [['D'], ['A']], [['D'], ['B']]]

def probe (i : Fin 26) : Line := lineOf (probes.getD i [])

def entry (i : Fin 26) : Symbol × Symbol × Symbol := fractionatedTable.getD i (.nul, .nul, .nul)

/-- What the decoder makes of a line. -/
def outOf (ts : List (Symbol × Symbol × Symbol)) : List UInt8 :=
  (endLine (decodeFrom 0 (flat ts) ⟨cleanBuffer, [], none⟩)).out

/-- The triple `j` in the place of `i`. -/
def instead (i j : Fin 26) (triple : Symbol × Symbol × Symbol) : Symbol × Symbol × Symbol :=
  if triple = entry i then entry j else triple

theorem entry_index : ∀ i : Fin 26, fractionatedTable.idxOf (entry i) = i ∧
    entry i ∈ fractionatedTable := by
  decide +kernel

theorem entry_of_mem {triple : Symbol × Symbol × Symbol} (mem : triple ∈ fractionatedTable) :
    ∃ i : Fin 26, i.val = fractionatedTable.idxOf triple ∧ triple = entry i := by
  have index := List.idxOf_lt_length_iff.mpr mem
  have found : fractionatedTable.getD (fractionatedTable.idxOf triple) (.nul, .nul, .nul) = triple := by
    rw [List.getD_eq_getElem _ _ index, List.getElem_idxOf]
  exact ⟨⟨_, index⟩, rfl, found.symm⟩

theorem probe_aligned : ∀ i : Fin 26, (probe i).Aligned := by
  unfold Line.Aligned
  decide +kernel

theorem probe_triples : ∀ i : Fin 26, ∀ triple ∈ triples (probe i).marks,
    triple = entry i ∨ fractionatedTable.idxOf triple < i := by
  decide +kernel

/-- No later triple in the place of `i` is read as the line. -/
theorem probe_tells : ∀ i j : Fin 26, i ≤ j →
    outOf ((triples (probe i).marks).map (instead i j)) = (probe i).bytes → i = j := by
  decide +kernel

section Keys

variable {keyE keyD : Key}

theorem letter_entry (key : Key) (i : Fin 26) :
    letter key.fmKey (entry i) = key.fmKey.getD i 0 := by
  rw [letter, (entry_index i).1]

/-- Every letter of one key is the letter of some triple in another. -/
theorem exists_letter (keyE keyD : Key) (i : Fin 26) :
    ∃ j : Fin 26, letter keyE.fmKey (entry i) = letter keyD.fmKey (entry j) := by
  obtain ⟨k, within, eq, -⟩ := letter_mem keyE (entry_index i).2
  have mem : letter keyE.fmKey (entry i) ∈ keyD.fmKey :=
    mem_fmKey.mpr (mem_fmKey.mp (eq ▸ List.getElem_mem within))
  have index := List.idxOf_lt_length_iff.mpr mem
  refine ⟨⟨_, index.trans_eq (fmKey_length keyD)⟩, ?_⟩
  rw [letter_entry keyD]
  dsimp only
  rw [List.getD_eq_getElem _ _ index, List.getElem_idxOf]

/-- What one key decodes of the triples that another has encoded as its own. -/
theorem decode_outOf (key : Key) {ts : List (Symbol × Symbol × Symbol)}
    (valid : ∀ triple ∈ ts, triple ∈ fractionatedTable) :
    decode key (ts.map (letter key.fmKey) ++ [newline]) = some (outOf ts) := by
  rw [decode, decode_triples key valid, decodeLoop, Option.map_some]
  rfl

theorem encode_line_out (key : Key) (line : Line) : (encode key (textBytes [line])).out =
    (triples line.marks).map (letter key.fmKey) ++ [newline] := by
  rw [(encode_eq key [line]).2, List.flatMap_singleton, Line.encoded]

theorem entry_inj (key : Key) {i j : Fin 26}
    (eq : letter key.fmKey (entry i) = letter key.fmKey (entry j)) : i = j := by
  have within (k : Fin 26) : k.val < key.fmKey.length := k.isLt.trans_eq (fmKey_length key).symm
  rw [letter_entry, letter_entry, List.getD_eq_getElem _ _ (within i),
    List.getD_eq_getElem _ _ (within j)] at eq
  exact Fin.ext ((fmKey_nodup key).getElem_inj_iff.mp eq)

/-- The 26 lines are in the order of their triples: the letters of the earlier
triples are known to be the same, so that only triple `i` may be read as another,
and only as a later one. -/
theorem letter_eq (reads : ∀ i : Fin 26, decode keyD (encode keyE (textBytes [probe i])).out =
      some (textBytes [probe i])) (i : Fin 26) :
    letter keyE.fmKey (entry i) = letter keyD.fmKey (entry i) := by
  induction ranks : i.val using Nat.strongRecOn generalizing i with
  | ind n ih =>
    subst ranks
    obtain ⟨j, there⟩ := exists_letter keyE keyD i
    have later : i ≤ j := by
      by_contra earlier
      have before : j.val < i.val := Nat.lt_of_not_le earlier
      have same := there.trans (ih j before j rfl).symm
      exact earlier (entry_inj keyE same).le
    have code : (triples (probe i).marks).map (letter keyE.fmKey) =
        ((triples (probe i).marks).map (instead i j)).map (letter keyD.fmKey) := by
      rw [List.map_map]
      apply List.map_congr_left
      intro triple mem
      obtain ⟨k, index, rfl⟩ := entry_of_mem ((separated_line 0 (probe i)).printable triple mem)
      rw [Function.comp_apply, instead]
      split
      · rename_i here
        rw [here, there]
      · rename_i elsewhere
        have before := (probe_triples i _ mem).resolve_left elsewhere
        exact ih k (index ▸ before) k rfl
    have valid : ∀ triple ∈ (triples (probe i).marks).map (instead i j),
        triple ∈ fractionatedTable := by
      intro triple mem
      obtain ⟨old, at_old, rfl⟩ := List.mem_map.mp mem
      rw [instead]
      split
      · exact (entry_index j).2
      · exact (separated_line 0 (probe i)).printable old at_old
    have read := reads i
    rw [encode_line_out, code, decode_outOf keyD valid, textBytes, List.flatMap_singleton] at read
    rw [probe_tells i j later (Option.some.inj read)] at there ⊢
    exact there

/-- A decoder reads back all aligned lines of an encoder exactly when their keys
fill `fm_key` alike. -/
theorem decodes_iff : (∀ text : List Line, (∀ line ∈ text, line.Aligned) →
      decode keyD (encode keyE (textBytes text)).out = some (textBytes text)) ↔
    keyE.fmKey = keyD.fmKey := by
  constructor
  · intro reads
    have same := letter_eq fun i => reads [probe i] (by simpa using probe_aligned i)
    apply List.ext_getElem ((fmKey_length keyE).trans (fmKey_length keyD).symm)
    intro k within within'
    have here := same ⟨k, within.trans_eq (fmKey_length keyE)⟩
    rw [letter_entry, letter_entry] at here
    dsimp only at here
    rwa [List.getD_eq_getElem _ _ within, List.getD_eq_getElem _ _ within'] at here
  · intro same text aligned
    have round := (round_trips_iff keyE text).mpr aligned
    rw [← round.2, decode, decode, same]

end Keys

/-! ## Two runs -/

/-- Every text of aligned lines that one run encodes, the other decodes. -/
def ReadsBackLines (argsE argsD : List Arg) : Prop :=
  ∀ text : List Line, (∀ line ∈ text, line.Aligned) →
    ∃ code, main argsE (textBytes text) = some ⟨exitSuccess, code⟩ ∧
      main argsD code = some ⟨exitSuccess, textBytes text⟩

/-- A `-f -d` run reads back what a `-f -e` run writes exactly when their keys
fill `fm_key` alike. -/
theorem fractionated_reads_back_iff {argsE argsD : List Arg} {keyE keyD : Option Arg}
    (runE : validargs argsE = some (0x4000, keyE)) (runD : validargs argsD = some (0x6000, keyD)) :
    ReadsBackLines argsE argsD ↔ fillFmKey keyE = fillFmKey keyD := by
  obtain ⟨selfE, tableE⟩ := fractionated_key runE (.inl rfl)
  obtain ⟨selfD, tableD⟩ := fractionated_key runD (.inr rfl)
  have encodes (text : List Line) : main argsE (textBytes text) =
      some ⟨exitSuccess, (encode selfE (textBytes text)).out⟩ := by
    rw [main_encodes runE tableE, (encode_eq selfE text).1]
    rfl
  rw [tableE, tableD, Option.some.injEq, List.append_left_inj, ← decodes_iff]
  refine forall₂_congr fun text _ => ?_
  rw [encodes]
  constructor
  · rintro ⟨code, written, read⟩
    have code_eq : (encode selfE (textBytes text)).out = code :=
      congrArg Exit.out (Option.some.inj written)
    rw [main_decodes runD tableD, Option.map_eq_some_iff] at read
    obtain ⟨out, decoded, eq⟩ := read
    have out_eq : out = textBytes text := congrArg Exit.out eq
    rw [code_eq, decoded, out_eq]
  · intro read
    refine ⟨_, rfl, ?_⟩
    rw [main_decodes runD tableD, read]
    rfl

/-- The key `AB` and no key fill the table alike. -/
theorem fractionated_reads_back_ab : ReadsBackLines [option 0x66, option 0x65]
    [option 0x66, option 0x64, option 0x6B, [0x41, 0x42]] :=
  (fractionated_reads_back_iff
    (show validargs [option 0x66, option 0x65] = some (0x4000, none) by decide +kernel)
    (show validargs [option 0x66, option 0x64, option 0x6B, [0x41, 0x42]] =
      some (0x6000, some [0x41, 0x42]) by decide +kernel)).mpr (by decide +kernel)

end LinuxSystem.Cipher
