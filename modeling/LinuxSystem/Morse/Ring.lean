import LinuxSystem.Morse.Model

/-!
# The ring of the encoder

Read from `read_flag` on, the ring is a queue. A symbol that makes it three long
is printed with the two before it, so a run of symbols comes out as the letters
of its triples and at most two symbols stay behind.
-/

namespace LinuxSystem.Morse

open Triples

/-- The symbols written and not yet printed, oldest first. -/
structure Pending (buffer : Buffer) (queue : List Symbol) : Prop where
  number : buffer.number = queue.length
  writeFlag : buffer.writeFlag = buffer.readFlag + Fin.ofNat 8 queue.length
  cells : ∀ i, (h : i < queue.length) → buffer.cells (buffer.readFlag + Fin.ofNat 8 i) = queue[i]

theorem pending_clean : Pending cleanBuffer [] := ⟨rfl, rfl, fun _ h => absurd h (Nat.not_lt_zero _)⟩

theorem ofNat_succ (i : Nat) : Fin.ofNat 8 (i + 1) = Fin.ofNat 8 i + 1 := by
  ext
  simp only [Fin.ofNat, Fin.val_add]
  omega

theorem ring_inj {r : Fin 8} {i j : Nat} (hi : i < 8) (hj : j < 8)
    (h : r + Fin.ofNat 8 i = r + Fin.ofNat 8 j) : i = j := by
  have := congrArg Fin.val (add_left_cancel h)
  simp only [Fin.ofNat] at this
  omega

theorem Pending.write {buffer : Buffer} {queue : List Symbol} (pending : Pending buffer queue)
    (room : queue.length < 8) (temp : Symbol) :
    Pending (writeBuffer buffer temp) (queue ++ [temp]) where
  number := by simp [writeBuffer, pending.number]
  writeFlag := by
    rw [List.length_append, List.length_singleton, ofNat_succ, ← add_assoc]
    exact congrArg (· + 1) pending.writeFlag
  cells i h := by
    rw [List.length_append, List.length_singleton] at h
    simp only [writeBuffer, pending.writeFlag]
    by_cases last : i = queue.length
    · subst last
      simp
    · have older : i < queue.length := by omega
      rw [Function.update_of_ne fun eq => last (ring_inj (by omega) room eq), pending.cells i older,
        List.getElem_append_left older]

theorem Pending.pop {buffer : Buffer} {a b c : Symbol} {queue : List Symbol}
    (pending : Pending buffer (a :: b :: c :: queue)) :
    Pending { buffer with number := queue.length, readFlag := buffer.readFlag + 1 + 1 + 1 }
      queue where
  number := rfl
  writeFlag := by
    rw [pending.writeFlag]
    simp only [List.length_cons, ofNat_succ]
    abel
  cells i h := by
    have := pending.cells (i + 1 + 1 + 1) (by simp only [List.length_cons]; omega)
    simp only [ofNat_succ, List.getElem_cons_succ] at this
    have step : buffer.readFlag + 1 + 1 + 1 + Fin.ofNat 8 i =
        buffer.readFlag + (Fin.ofNat 8 i + 1 + 1 + 1) := by abel
    rw [← this, ← step]

theorem Pending.front {buffer : Buffer} {a b c : Symbol} {queue : List Symbol}
    (pending : Pending buffer (a :: b :: c :: queue)) :
    buffer.cells buffer.readFlag = a ∧ buffer.cells (buffer.readFlag + 1) = b ∧
      buffer.cells (buffer.readFlag + 1 + 1) = c := by
  have first := pending.cells 0 (by simp)
  have second := pending.cells 1 (by simp)
  have third := pending.cells 2 (by simp)
  refine ⟨by simpa using first, second, ?_⟩
  rw [add_assoc]
  exact third

/-! ## print_buffer -/

theorem tryEntry_eq (cells : Fin 8 → Symbol) (readFlag : Fin 8)
    (entry : Symbol × Symbol × Symbol) : tryEntry cells readFlag entry =
      if (cells readFlag, cells (readFlag + 1), cells (readFlag + 1 + 1)) = entry then
        (true, readFlag + 1 + 1 + 1)
      else (false, readFlag) := by
  obtain ⟨a, b, c⟩ := entry
  simp only [tryEntry, add_sub_cancel_right, Prod.mk.injEq]
  split_ifs with first second third all
  all_goals first | rfl | grind

theorem findEntry_eq (cells : Fin 8 → Symbol) (table : List (Symbol × Symbol × Symbol)) (ii : Nat)
    (readFlag : Fin 8) : findEntry cells table ii readFlag =
      let front := (cells readFlag, cells (readFlag + 1), cells (readFlag + 1 + 1))
      if front ∈ table then (some (ii + table.idxOf front), readFlag + 1 + 1 + 1)
      else (none, readFlag) := by
  dsimp only
  induction table generalizing ii with
  | nil => rfl
  | cons entry table ih =>
    rw [findEntry, tryEntry_eq]
    by_cases found : (cells readFlag, cells (readFlag + 1), cells (readFlag + 1 + 1)) = entry
    · subst found
      simp
    · rw [if_neg found]
      simp only [ih, List.mem_cons, found, false_or, List.idxOf_cons_ne _ (Ne.symm found)]
      split
      · simp only [Prod.mk.injEq, Option.some.injEq, and_true]
        omega
      · rfl

/-- The letter of a triple. -/
def letter (fmKey : List UInt8) (triple : Symbol × Symbol × Symbol) : UInt8 :=
  fmKey.getD (fractionatedTable.idxOf triple) 0

theorem put_short (fmKey : List UInt8) (self : Encoder) {queue : List Symbol}
    (pending : Pending self.buffer queue) (short : queue.length < 2) (ok : self.failed = false)
    (temp : Symbol) :
    put fmKey self temp = { self with buffer := writeBuffer self.buffer temp } := by
  rw [put, if_neg (by simp [ok]), printBuffer]
  have number : (writeBuffer self.buffer temp).number < 3 := by
    rw [(pending.write (by omega) temp).number, List.length_append, List.length_singleton]
    omega
  rw [printLoop]
  intro n eq
  simp only at eq
  omega

theorem put_third (fmKey : List UInt8) (self : Encoder) {a b temp : Symbol}
    (pending : Pending self.buffer [a, b]) (ok : self.failed = false)
    (valid : (a, b, temp) ∈ fractionatedTable) :
    ∃ buffer, Pending buffer [] ∧ put fmKey self temp =
      { self with buffer := buffer, out := self.out ++ [letter fmKey (a, b, temp)] } := by
  have written := pending.write (by simp) temp
  refine ⟨_, written.pop, ?_⟩
  rw [put, if_neg (by simp [ok]), printBuffer]
  simp only [written.number, List.cons_append, List.nil_append, List.length_cons, List.length_nil]
  rw [printLoop, findEntry_eq]
  obtain ⟨first, second, third⟩ := written.front
  simp only [first, second, third, valid, ↓reduceIte, Nat.zero_add, printLoop, letter]

/-- No triple of the symbols is missing from the table. -/
def Printable (l : List Symbol) : Prop := ∀ triple ∈ triples l, triple ∈ fractionatedTable

theorem printable_append {l l' : List Symbol} :
    Printable (l ++ l') ↔ Printable l ∧ Printable (leftover l ++ l') := by
  rw [Printable, triples_append, List.forall_mem_append]
  rfl

theorem put_run (fmKey : List UInt8) (self : Encoder) {queue : List Symbol} (l : List Symbol)
    (pending : Pending self.buffer queue) (short : queue.length < 3) (ok : self.failed = false)
    (printable : Printable (queue ++ l)) :
    ∃ buffer, Pending buffer (leftover (queue ++ l)) ∧ l.foldl (put fmKey) self =
      { self with
        buffer := buffer
        out := self.out ++ (triples (queue ++ l)).map (letter fmKey) } := by
  induction l generalizing self queue with
  | nil =>
    rw [List.append_nil, triples_short short, leftover_short short]
    exact ⟨self.buffer, pending, by simp⟩
  | cons temp l ih =>
    rw [List.foldl_cons]
    by_cases full : queue.length = 2
    · obtain ⟨a, b, rfl⟩ := List.length_eq_two.mp full
      obtain ⟨valid, printable⟩ := List.forall_mem_cons.mp printable
      obtain ⟨buffer, empty, eq⟩ := put_third fmKey self pending ok valid
      rw [eq]
      obtain ⟨buffer', pending', eq'⟩ := ih { self with
        buffer := buffer, out := self.out ++ [letter fmKey (a, b, temp)] } empty (by simp) ok printable
      exact ⟨buffer', pending', by simpa [triples] using eq'⟩
    · rw [put_short fmKey self pending (by omega) ok]
      have written := pending.write (by omega) temp
      obtain ⟨buffer', pending', eq'⟩ := ih { self with buffer := writeBuffer self.buffer temp }
        written (by simp only [List.length_append, List.length_singleton]; omega) ok
        (by simpa using printable)
      exact ⟨buffer', by simpa using pending', by simpa using eq'⟩

end LinuxSystem.Morse
