import LinuxSystem.Morse.Text
import Mathlib.Data.List.TakeWhile

/-!
# Chunking by three

What any sequence of symbols does to the encoder: the letters of its triples up
to the first `xxx`, which no entry of the table is, and nothing after it.
-/

namespace LinuxSystem.Morse

open Triples

/-- The triple that `print_buffer` returns 1 at. -/
def separators : Symbol × Symbol × Symbol := (.x, .x, .x)

/-- The triples that are printed. -/
def printed (l : List Symbol) : List (Symbol × Symbol × Symbol) :=
  (triples l).takeWhile (· ≠ separators)

/-- The encoder after the symbols `read` from a clean buffer. -/
structure Chunked (fmKey start : List UInt8) (read : List Symbol) (e : Encoder) : Prop where
  failed : e.failed = true ↔ separators ∈ triples read
  out : e.out = start ++ (printed read).map (letter fmKey)
  pending : e.failed = false → Pending e.buffer (leftover read)
  few : e.buffer.number ≤ 3

theorem printed_of_mem {l : List Symbol} (mem : separators ∈ triples l) (l' : List Symbol) :
    printed (l ++ l') = printed l := by
  rw [printed, triples_append, List.takeWhile_append, if_neg, printed]
  intro all
  have whole := List.takeWhile_eq_self_iff.mp ((List.takeWhile_prefix _).eq_of_length all)
  simpa using whole _ mem

theorem printed_of_not_mem {l : List Symbol} (none : separators ∉ triples l) (l' : List Symbol) :
    printed (l ++ l') = printed l ++ printed (leftover l ++ l') := by
  have all : ∀ triple ∈ triples l, decide (triple ≠ separators) = true := by
    intro triple mem
    rw [decide_eq_true_eq]
    rintro rfl
    exact none mem
  rw [printed, triples_append, List.takeWhile_append_of_pos all, printed,
    List.takeWhile_eq_self_iff.mpr all, printed]

theorem put_missing (fmKey : List UInt8) (self : Encoder) {a b temp : Symbol}
    (pending : Pending self.buffer [a, b]) (ok : self.failed = false)
    (missing : (a, b, temp) ∉ fractionatedTable) :
    put fmKey self temp =
      { self with buffer := writeBuffer self.buffer temp, failed := true } := by
  have written := pending.write (by simp) temp
  obtain ⟨first, second, third⟩ := written.front
  rw [put, if_neg (by simp [ok]), printBuffer]
  simp only [written.number, List.cons_append, List.nil_append, List.length_cons, List.length_nil]
  rw [printLoop, findEntry_eq]
  simp only [first, second, third, missing, ↓reduceIte]

variable {fmKey start : List UInt8} {read : List Symbol} {self : Encoder}

theorem Chunked.pre (chunked : Chunked fmKey start read self) (pre : UInt8) :
    Chunked fmKey start read { self with pre := pre } :=
  ⟨chunked.failed, chunked.out, chunked.pending, chunked.few⟩

theorem chunked_start (start : List UInt8) (pre : UInt8) :
    Chunked fmKey start [] ⟨cleanBuffer, start, false, pre⟩ :=
  ⟨by simp [triples], by simp [printed, triples], fun _ => pending_clean, by simp [cleanBuffer]⟩

/-- After a failure nothing is read. -/
theorem Chunked.stopped (chunked : Chunked fmKey start read self) (failed : self.failed = true)
    (temp : Symbol) : Chunked fmKey start (read ++ [temp]) (put fmKey self temp) := by
  have found := chunked.failed.mp failed
  have still : put fmKey self temp = self := by rw [put, if_pos failed]
  rw [still]
  refine ⟨?_, ?_, ?_, chunked.few⟩
  · rw [triples_append]
    simp [failed, found]
  · rw [printed_of_mem found, chunked.out]
  · simp [failed]

theorem Chunked.unseen (chunked : Chunked fmKey start read self) (ok : self.failed = false) :
    separators ∉ triples read := by
  simp [← chunked.failed, ok]

/-- A first or second symbol waits. -/
theorem Chunked.wait (chunked : Chunked fmKey start read self) (ok : self.failed = false)
    (few : (leftover read).length < 2) (temp : Symbol) :
    Chunked fmKey start (read ++ [temp]) (put fmKey self temp) := by
  have none := chunked.unseen ok
  have pending := chunked.pending ok
  have short : (leftover read ++ [temp]).length < 3 := by
    rw [List.length_append, List.length_singleton]
    omega
  rw [put_short fmKey self pending few ok]
  refine ⟨?_, ?_, ?_, ?_⟩
  · rw [triples_append, triples_short short]
    simp [ok, none]
  · rw [printed_of_not_mem none, chunked.out]
    simp [printed, triples_short short]
  · intro _
    rw [leftover_append, leftover_short short]
    exact pending.write (by omega) temp
  · simp only [writeBuffer, pending.number]
    omega

/-- A third symbol is printed with the two before it, or ends the run. -/
theorem Chunked.third (chunked : Chunked fmKey start read self) (ok : self.failed = false)
    {a b temp : Symbol} (two : leftover read = [a, b]) (marks : a ≠ .nul ∧ b ≠ .nul ∧ temp ≠ .nul) :
    Chunked fmKey start (read ++ [temp]) (put fmKey self temp) := by
  have none := chunked.unseen ok
  have pending := chunked.pending ok
  rw [two] at pending
  have last : triples (read ++ [temp]) = triples read ++ [(a, b, temp)] := by
    rw [triples_append, two]
    rfl
  by_cases stop : (a, b, temp) = separators
  · have missing : (a, b, temp) ∉ fractionatedTable := by
      rw [stop]
      decide
    rw [put_missing fmKey self pending ok missing]
    refine ⟨?_, ?_, ?_, ?_⟩
    · simp [last, stop]
    · rw [printed_of_not_mem none, two]
      simp [printed, triples, stop, chunked.out]
    · simp
    · simp [writeBuffer, pending.number]
  · have valid : (a, b, temp) ∈ fractionatedTable := by
      rw [mem_fractionatedTable]
      refine ⟨marks, ?_⟩
      rintro ⟨rfl, rfl, rfl⟩
      exact stop rfl
    obtain ⟨buffer, empty, eq⟩ := put_third fmKey self pending ok valid
    rw [eq]
    refine ⟨?_, ?_, ?_, ?_⟩
    · simp [ok, last, none, Ne.symm stop]
    · rw [printed_of_not_mem none, two]
      simp [printed, triples, stop, chunked.out]
    · intro _
      rw [leftover_append, two]
      exact empty
    · simp [empty.number]

theorem Chunked.step (chunked : Chunked fmKey start read self) {temp : Symbol}
    (marks : ∀ symbol ∈ read ++ [temp], symbol ≠ .nul) :
    Chunked fmKey start (read ++ [temp]) (put fmKey self temp) := by
  cases failed : self.failed with
  | true => exact chunked.stopped failed temp
  | false =>
    have length := leftover_length read
    by_cases full : (leftover read).length = 2
    · obtain ⟨a, b, two⟩ := List.length_eq_two.mp full
      have solid (symbol : Symbol) (mem : symbol ∈ [a, b]) : symbol ≠ .nul := by
        apply marks
        rw [← two] at mem
        exact List.mem_append_left _ ((leftover_suffix read).subset mem)
      exact chunked.third failed two ⟨solid a (by simp), solid b (by simp), marks temp (by simp)⟩
    · exact chunked.wait failed (by omega) temp

theorem Chunked.run (chunked : Chunked fmKey start read self) {l : List Symbol}
    (marks : ∀ symbol ∈ read ++ l, symbol ≠ .nul) :
    Chunked fmKey start (read ++ l) (l.foldl (put fmKey) self) := by
  induction l generalizing read self with
  | nil => simpa using chunked
  | cons temp l ih =>
    rw [List.append_cons] at marks ⊢
    apply ih (chunked.step _) marks
    intro symbol mem
    exact marks symbol (List.mem_append_left _ mem)

/-- `letter` without a default, for a key of 26 letters. -/
theorem mapM_letter {fmKey : List UInt8} (length : fmKey.length = 26)
    {ts : List (Symbol × Symbol × Symbol)} (valid : ∀ triple ∈ ts, triple ∈ fractionatedTable) :
    ts.mapM (fun triple => fmKey[fractionatedTable.idxOf triple]?) =
      some (ts.map (letter fmKey)) := by
  induction ts with
  | nil => rfl
  | cons triple ts ih =>
    obtain ⟨first, rest⟩ := List.forall_mem_cons.mp valid
    have bound : fractionatedTable.idxOf triple < fmKey.length := by
      rw [length]
      exact List.idxOf_lt_length_iff.mpr first
    rw [List.mapM_cons, ih rest]
    simp [letter, bound]

theorem printed_valid {l : List Symbol} (marks : ∀ symbol ∈ l, symbol ≠ .nul) :
    ∀ triple ∈ printed l, triple ∈ fractionatedTable := by
  rintro ⟨a, b, c⟩ mem
  obtain ⟨first, second, third⟩ := mem_of_mem_triples ((List.takeWhile_prefix _).subset mem)
  have other : (a, b, c) ≠ separators := by simpa using List.mem_takeWhile_imp mem
  rw [mem_fractionatedTable]
  refine ⟨⟨marks a first, marks b second, marks c third⟩, ?_⟩
  rintro ⟨rfl, rfl, rfl⟩
  exact other rfl

/-- The ring refines plain chunking by three: the letters of the aligned triples
up to the first `xxx`, at which `print_buffer` returns 1, never more than three
symbols waiting, and after a 0 the last ones in order. -/
theorem ring_refines_chunks (fmKey : List UInt8) (length : fmKey.length = 26) (pre : UInt8)
    (l : List Symbol) (marks : ∀ symbol ∈ l, symbol ≠ .nul) :
    let self := l.foldl (put fmKey) ⟨cleanBuffer, [], false, pre⟩
    (self.failed = true ↔ (.x, .x, .x) ∈ triples l) ∧
    ((triples l).takeWhile (· ≠ (.x, .x, .x))).mapM
        (fun triple => fmKey[fractionatedTable.idxOf triple]?) = some self.out ∧
    self.buffer.number ≤ 3 ∧
    (self.failed = false →
      Pending self.buffer (l.drop (l.length - l.length % 3)) ∧
      ∀ temp, (writeBuffer self.buffer temp).number ≤ 3) := by
  intro self
  have chunked : Chunked fmKey [] l self := (chunked_start [] pre).run marks
  refine ⟨chunked.failed, ?_, chunked.few, ?_⟩
  · rw [chunked.out]
    exact mapM_letter length (printed_valid marks)
  · intro ok
    have pending := chunked.pending ok
    have few := leftover_length l
    refine ⟨leftover_eq_drop l ▸ pending, ?_⟩
    intro temp
    simp only [writeBuffer, pending.number]
    omega

/-- Two triples, then `xxx` and one symbol more, with the key of the empty word. -/
theorem ring_refines_chunks_stopped :
    let self := [Symbol.dot, .x, .x, .dash, .x, .dot, .x, .x, .x, .dot].foldl (put fmAlphabet)
      ⟨cleanBuffer, [], false, 0x3F⟩
    (self.failed = true ↔ (.x, .x, .x) ∈
      triples [Symbol.dot, .x, .x, .dash, .x, .dot, .x, .x, .x, .dot]) ∧
    ((triples [Symbol.dot, .x, .x, .dash, .x, .dot, .x, .x, .x, .dot]).takeWhile
      (· ≠ (.x, .x, .x))).mapM (fun triple => fmAlphabet[fractionatedTable.idxOf triple]?) =
        some self.out ∧
    self.buffer.number ≤ 3 ∧
    (self.failed = false →
      Pending self.buffer ([Symbol.dot, .x, .x, .dash, .x, .dot, .x, .x, .x, .dot].drop (10 - 10 % 3)) ∧
      ∀ temp, (writeBuffer self.buffer temp).number ≤ 3) :=
  ring_refines_chunks fmAlphabet (by decide) 0x3F
    [.dot, .x, .x, .dash, .x, .dot, .x, .x, .x, .dot] (by decide)

end LinuxSystem.Morse
