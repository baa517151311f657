import LinuxSystem.Base.Keyed
import LinuxSystem.Morse.Decode
import LinuxSystem.Morse.Encode

/-!
# The round trip

`decode_encode` says what the decoder makes of every encoded text: it loses the
space before the last word of a line whose newline comes too early for it, and
nothing else.
-/

namespace LinuxSystem.Morse

open Triples

/-! ## Keys -/

theorem fmAlphabet_nodup : fmAlphabet.Nodup := by decide

theorem mem_fmKey {key : Key} {c : UInt8} : c ∈ key.fmKey ↔ c ∈ fmAlphabet :=
  Keyed.mem_mixed key.capital

theorem fmKey_nodup (key : Key) : key.fmKey.Nodup :=
  Keyed.nodup_mixed fmAlphabet_nodup key.distinct

theorem fmKey_length (key : Key) : key.fmKey.length = 26 :=
  Keyed.length_mixed fmAlphabet_nodup key.distinct key.capital

theorem capital_plain : ∀ c ∈ fmAlphabet, c ≠ EOF ∧ c ≠ newline := by
  decide +kernel

theorem letter_mem (key : Key) {triple : Symbol × Symbol × Symbol}
    (mem : triple ∈ fractionatedTable) :
    ∃ i, ∃ h : i < key.fmKey.length, key.fmKey[i] = letter key.fmKey triple ∧
      fractionatedTable[i]? = some triple := by
  have index : fractionatedTable.idxOf triple < fractionatedTable.length :=
    List.idxOf_lt_length_iff.mpr mem
  have within : fractionatedTable.idxOf triple < key.fmKey.length := (fmKey_length key).symm ▸ index
  refine ⟨_, within, ?_, ?_⟩
  · rw [letter, List.getD_eq_getElem _ _ within]
  · rw [List.getElem?_eq_getElem index, List.getElem_idxOf]

/-- The letter of a triple is found again. -/
theorem letter_found (key : Key) {triple : Symbol × Symbol × Symbol}
    (mem : triple ∈ fractionatedTable) :
    (key.fmKey.idxOf? (letter key.fmKey triple)).bind (fractionatedTable[·]?) = some triple := by
  obtain ⟨i, within, eq, entry⟩ := letter_mem key mem
  have found : key.fmKey.idxOf? (letter key.fmKey triple) = some i := by
    refine List.idxOf?_eq_some_iff.mpr ⟨within, eq, fun j before same => ?_⟩
    have := ((fmKey_nodup key).getElem_inj_iff).mp (same.trans eq.symm)
    omega
  rw [found]
  exact entry

theorem letter_plain (key : Key) {triple : Symbol × Symbol × Symbol}
    (mem : triple ∈ fractionatedTable) :
    letter key.fmKey triple ≠ EOF ∧ letter key.fmKey triple ≠ newline := by
  obtain ⟨i, within, eq, -⟩ := letter_mem key mem
  exact eq ▸ capital_plain _ (mem_fmKey.mp (List.getElem_mem within))

/-! ## The decoder on what the encoder writes -/

theorem decode_triples (key : Key) {ts : List (Symbol × Symbol × Symbol)}
    (valid : ∀ triple ∈ ts, triple ∈ fractionatedTable) (input : List UInt8) (self : Decoder) :
    decodeLoop key.fmKey (ts.map (letter key.fmKey) ++ newline :: input) self =
      decodeLoop key.fmKey input (endLine (decodeFrom 0 (flat ts) self)) := by
  induction ts generalizing self with
  | nil =>
    rw [List.map_nil, List.nil_append, decodeLoop, if_neg (by decide), if_pos rfl]
    rfl
  | cons triple ts ih =>
    obtain ⟨here, later⟩ := List.forall_mem_cons.mp valid
    obtain ⟨notEOF, notNewline⟩ := letter_plain key here
    obtain ⟨a, b, c⟩ := triple
    -- the newline comes next exactly when no triple does
    have flag : decide ((ts.map (letter key.fmKey) ++ newline :: input).head? = some newline) =
        decide (ts.length = 0) := by
      cases ts with
      | nil => simp
      | cons next ts =>
        have := (letter_plain key (List.forall_mem_cons.mp later).1).2
        simp [this]
    have length := length_flat ts
    rw [List.map_cons, List.cons_append, decodeLoop, if_neg notEOF, if_neg notNewline,
      letter_found key here]
    simp only [flag, List.foldl_cons, List.foldl_nil]
    rw [ih later, flat, decodeFrom, decodeFrom, decodeFrom]
    have last (n : Nat) (l : List Symbol) (few : n < 3) (more : l.length = (flat ts).length + n) :
        decide (l.length + 0 < 3) = decide (ts.length = 0) := by
      rw [decide_eq_decide]
      omega
    rw [last 2 (b :: c :: flat ts) (by decide) rfl, last 1 (c :: flat ts) (by decide) rfl,
      last 0 (flat ts) (by decide) rfl]

/-- The marks that the newline drops: what is left over of the triples. -/
def Line.dropped (line : Line) : Nat := line.marks.length % 3

theorem decode_line (key : Key) (line : Line) (input : List UInt8) {self : Decoder}
    (clean : self.buffer = cleanBuffer) :
    ∃ self', decodeLoop key.fmKey (line.encoded key.fmKey ++ input) self =
        decodeLoop key.fmKey input self' ∧ self'.buffer = cleanBuffer ∧
      self'.out = self.out ++ line.arrives line.dropped := by
  have printable : Printable line.marks := (separated_line 0 line).printable
  refine ⟨endLine (decodeFrom 0 (flat (triples line.marks)) self), ?_, rfl, ?_⟩
  · rw [Line.encoded, List.append_assoc, List.singleton_append]
    exact decode_triples key printable input self
  · rw [Line.dropped, ← leftover_length_eq]
    exact endLine_line line (leftover_length _) (flat_triples _).symm clean

theorem decode_text (key : Key) (text : List Line) {self : Decoder}
    (clean : self.buffer = cleanBuffer) :
    (decodeLoop key.fmKey (text.flatMap (Line.encoded key.fmKey)) self).map Decoder.out =
      some (self.out ++ text.flatMap fun line => line.arrives line.dropped) := by
  induction text generalizing self with
  | nil => simp [decodeLoop]
  | cons line text ih =>
    obtain ⟨self', read, clean', out⟩ := decode_line key line
      (text.flatMap (Line.encoded key.fmKey)) clean
    rw [List.flatMap_cons, List.flatMap_cons, read, ih clean', out, List.append_assoc]

/-- The encoder takes every text, and the decoder reads from it what arrives of
each line. -/
theorem decode_encode (key : Key) (text : List Line) :
    (encode key (textBytes text)).failed = false ∧
      decode key (encode key (textBytes text)).out =
        some (text.flatMap fun line => line.arrives line.dropped) := by
  obtain ⟨ok, out⟩ := encode_eq key text
  refine ⟨ok, ?_⟩
  rw [out, decode, decode_text key text rfl, List.nil_append]

/-! ## What arrives -/

/-- A last word that is not the only one keeps at least three of its marks when
the newline drops what is left over of the line. -/
def Line.Aligned (line : Line) : Prop :=
  ∀ word ∈ line.tail.getLast?, line.dropped + 3 ≤ word.marks.length

theorem arrives_cons (dropped : Nat) (word word' : Word) (line : Line) :
    Line.arrives dropped (word :: word' :: line) =
      word.letters.map Letter.char ++
        (if (Line.marks (word' :: line)).length < dropped + 3 then [] else [space]) ++
        Line.arrives dropped (word' :: line) := rfl

theorem arrives_length (dropped : Nat) (line : Line) :
    (line.arrives dropped).length ≤ line.bytes.length := by
  induction line with
  | nil => simp [Line.arrives]
  | cons word line ih =>
    cases line with
    | nil => rw [Line.arrives, Line.bytes_singleton]
    | cons word' line =>
      rw [arrives_cons, Line.bytes_cons]
      simp only [List.length_append, List.length_cons]
      split <;> simp only [List.length_nil, List.length_singleton] <;> omega

/-- Two words have more than the marks that decide about a space. -/
theorem short_marks {dropped : Nat} (few : dropped < 3) {word : Word} {line : Line}
    (short : (Line.marks (word :: line)).length < dropped + 3) : line = [] := by
  cases line with
  | nil => rfl
  | cons word' line =>
    have := three_le_marks word
    have := three_le_marks word'
    simp only [Line.marks_cons, List.length_append] at short
    omega

theorem arrives_eq_iff {dropped : Nat} (few : dropped < 3) (line : Line) :
    line.arrives dropped = line.bytes ↔
      ∀ word ∈ line.tail.getLast?, dropped + 3 ≤ word.marks.length := by
  induction line with
  | nil => simp [Line.arrives]
  | cons word line ih =>
    cases line with
    | nil => simp [Line.arrives, Line.bytes_singleton]
    | cons word' line =>
      rw [arrives_cons, Line.bytes_cons, List.append_assoc, List.append_cancel_left_eq]
      split
      · rename_i short
        obtain rfl := short_marks few short
        have shorter := arrives_length dropped [word']
        rw [Line.marks_cons, Line.marks, List.flatMap_nil, List.append_nil] at short
        simp only [List.nil_append, List.tail_cons, List.getLast?_singleton, Option.mem_def,
          Option.some.injEq, forall_eq']
        refine iff_of_false (fun eq => ?_) (by omega)
        rw [eq, List.length_cons] at shorter
        omega
      · rename_i long
        rw [List.singleton_append, List.cons.injEq, ih]
        simp only [true_and, List.tail_cons]
        cases line with
        | nil =>
          rw [Line.marks_cons, Line.marks, List.flatMap_nil, List.append_nil] at long
          simp only [List.getLast?_nil, List.getLast?_singleton, Option.mem_def, Option.some.injEq,
            forall_eq', reduceCtorEq, false_implies, implies_true, true_iff]
          omega
        | cons word'' line => rw [List.getLast?_cons_cons]

theorem flatMap_eq_iff {α β : Type*} {f g : α → List β} (l : List α)
    (shorter : ∀ x, (f x).length ≤ (g x).length) :
    l.flatMap f = l.flatMap g ↔ ∀ x ∈ l, f x = g x := by
  have total (l : List α) : (l.flatMap f).length ≤ (l.flatMap g).length := by
    induction l with
    | nil => rfl
    | cons x l ih =>
      have := shorter x
      simp only [List.flatMap_cons, List.length_append]
      omega
  induction l with
  | nil => simp
  | cons x l ih =>
    rw [List.flatMap_cons, List.flatMap_cons, List.forall_mem_cons]
    constructor
    · intro eq
      have lengths := congrArg List.length eq
      have := shorter x
      have := total l
      rw [List.length_append, List.length_append] at lengths
      obtain ⟨here, later⟩ := List.append_inj eq (by omega)
      exact ⟨here, ih.mp later⟩
    · rintro ⟨here, later⟩
      rw [here, ih.mpr later]

/-- The `-f -d` loop gives back what the `-f -e` loop read. -/
def RoundTrips (key : Key) (text : List Line) : Prop :=
  (encode key (textBytes text)).failed = false ∧
    decode key (encode key (textBytes text)).out = some (textBytes text)

/-- A text comes back exactly when every line of it is aligned. -/
theorem round_trips_iff (key : Key) (text : List Line) :
    RoundTrips key text ↔ ∀ line ∈ text, line.Aligned := by
  obtain ⟨ok, read⟩ := decode_encode key text
  have few (line : Line) : line.dropped < 3 := Nat.mod_lt _ (by decide)
  rw [RoundTrips, and_iff_right ok, read, Option.some.injEq, textBytes,
    flatMap_eq_iff text fun line => arrives_length line.dropped line]
  exact forall₂_congr fun line _ => arrives_eq_iff (few line) line

/-- The line `A E`. -/
def twoWords : Line :=
  [⟨[⟨65, by decide, by decide, by decide⟩], by simp⟩,
    ⟨[⟨69, by decide, by decide, by decide⟩], by simp⟩]

/-- The line comes back as `AE`. -/
theorem space_is_lost :
    decode noKey (encode noKey (textBytes [twoWords])).out = some [65, 69, newline] ∧
      ¬ RoundTrips noKey [twoWords] := by
  have read : decode noKey (encode noKey (textBytes [twoWords])).out = some [65, 69, newline] := by
    decide +kernel
  refine ⟨read, fun whole => ?_⟩
  have same := Option.some.inj (read.symm.trans whole.2)
  exact absurd (congrArg List.length same) (by decide)

end LinuxSystem.Morse
