import LinuxSystem.Shell.Execute

/-!
# Sessions

The shell over many lines: the read ends that it keeps, and the processes that can
write to a pipe.
-/

namespace LinuxSystem.Shell

open Descriptors

/-- What the shell has after some lines with `n` operators `|` in all. -/
structure Leaked (before after : Sfish) (n : Nat) : Prop where
  ready : Ready after.files after.pipes
  kept : ∀ d, before.files.file d ≠ none → after.files.file d = before.files.file d
  readers : ∀ d f, before.files.file d = none → after.files.file d = some f →
    ∃ k, before.pipes ≤ k ∧ k < after.pipes ∧ f = .readEnd k
  opened : after.files.opened = before.files.opened + n
  more : before.pipes ≤ after.pipes

theorem Leaked.trans {a b c : Sfish} {n m : Nat} (first : Leaked a b n) (second : Leaked b c m) :
    Leaked a c (n + m) where
  ready := second.ready
  kept d used := by
    have same := first.kept d used
    rw [second.kept d (same ▸ used), same]
  readers d f unused holds := by
    have := first.more
    have := second.more
    cases here : b.files.file d with
    | none =>
      obtain ⟨k, low, high, eq⟩ := second.readers d f here holds
      exact ⟨k, by omega, high, eq⟩
    | some g =>
      rw [second.kept d (by simp [here]), here] at holds
      obtain rfl := Option.some.inj holds
      obtain ⟨k, low, high, eq⟩ := first.readers d _ unused here
      exact ⟨k, low, by omega, eq⟩
  opened := by
    rw [second.opened, first.opened]
    omega
  more := Nat.le_trans first.more second.more

theorem Leaked.refl {self : Sfish} (ready : Ready self.files self.pipes) : Leaked self self 0 :=
  ⟨ready, fun _ _ => rfl, fun d f unused holds => absurd holds (by simp [unused]), rfl, Nat.le_refl _⟩

theorem Executed.leaked {found : Argv → Bool} {before after : Sfish} {started : List Process}
    (executed : Executed found before after started) (ready : Ready before.files before.pipes) :
    Leaked before after (before.parser.pipeTime - 1) where
  ready := by
    apply (executed.leaks.ready ready).mono
    rw [executed.pipes]
    omega
  kept := executed.leaks.kept
  readers d f unused holds := by
    obtain ⟨k, low, high, eq⟩ := executed.leaks.new d f unused holds
    have := executed.pipes
    exact ⟨k, low, by omega, eq⟩
  opened := executed.leaks.opened
  more := by
    rw [executed.pipes]
    omega

def Process.files : Process → Files
  | .command _ files => files
  | .shell files => files
  | .exited => []

/-- Descriptor `d` of process `i`. -/
def fileAt (started : List Process) (i d : Nat) : Option File :=
  started[i]?.bind (·.files.file d)

/-- What is known of the pipes of a session, the first of which is `base`, in
processes started while the pipes from `low` to `high` were made: a process that
reads from one has the only one that writes to it right before it. -/
structure Joined (base low high : Nat) (started : List Process) : Prop where
  writers : ∀ i d k, fileAt started i d = some (.writeEnd k) → base ≤ k → low ≤ k ∧ k < high
  readers : ∀ i k, fileAt started i 0 = some (.readEnd k) → base ≤ k → low ≤ k ∧ k < high
  joined : ∀ i k, fileAt started i 0 = some (.readEnd k) → base ≤ k →
    ∃ j, i = j + 1 ∧ ∀ m d, fileAt started m d = some (.writeEnd k) ↔ m = j ∧ d = 1

theorem fileAt_append (started others : List Process) (i d : Nat) :
    fileAt (started ++ others) i d =
      if i < started.length then fileAt started i d else fileAt others (i - started.length) d := by
  unfold fileAt
  rw [List.getElem?_append]
  split <;> rfl

theorem fileAt_beyond {started : List Process} {i : Nat} (beyond : started.length ≤ i) (d : Nat) :
    fileAt started i d = none := by
  rw [fileAt, List.getElem?_eq_none beyond]
  rfl

theorem Joined.nil (base low high : Nat) : Joined base low high [] where
  writers i d k holds := by
    rw [fileAt_beyond (Nat.zero_le i)] at holds
    cases holds
  readers i k holds := by
    rw [fileAt_beyond (Nat.zero_le i)] at holds
    cases holds
  joined i k holds := by
    rw [fileAt_beyond (Nat.zero_le i)] at holds
    cases holds

theorem Joined.append {base low mid high : Nat} {started others : List Process}
    (first : Joined base low mid started) (second : Joined base mid high others)
    (below : low ≤ mid) (above : mid ≤ high) : Joined base low high (started ++ others) := by
  constructor
  · intro i d k writes old
    rw [fileAt_append] at writes
    split at writes
    · have := first.writers i d k writes old
      omega
    · have := second.writers _ d k writes old
      omega
  · intro i k reads old
    rw [fileAt_append] at reads
    split at reads
    · have := first.readers i k reads old
      omega
    · have := second.readers _ k reads old
      omega
  · intro i k reads old
    rw [fileAt_append] at reads
    split at reads
    · next inside =>
      have range := first.readers i k reads old
      obtain ⟨j, rfl, only⟩ := first.joined i k reads old
      refine ⟨j, rfl, fun m d => ?_⟩
      rw [fileAt_append]
      split
      · exact only m d
      · refine ⟨fun writes => ?_, by omega⟩
        have := second.writers _ d k writes old
        omega
    · next outside =>
      have range := second.readers _ k reads old
      obtain ⟨j, next, only⟩ := second.joined _ k reads old
      refine ⟨j + started.length, by omega, fun m d => ?_⟩
      rw [fileAt_append]
      split
      · refine ⟨fun writes => ?_, by omega⟩
        have := first.writers m d k writes old
        omega
      · rw [only]
        omega

theorem Leaked.writer {self now : Sfish} {n d k : Nat} (leaked : Leaked self now n)
    (ready : Ready self.files self.pipes) (writes : now.files.file d = some (.writeEnd k)) :
    k < self.pipes := by
  cases old : self.files.file d with
  | none =>
    obtain ⟨_, -, -, eq⟩ := leaked.readers d _ old writes
    cases eq
  | some f =>
    rw [leaked.kept d (by simp [old])] at writes
    exact ready.past d k (.inr writes)

theorem Leaked.stdin {self now : Sfish} {n k : Nat} (leaked : Leaked self now n)
    (ready : Ready self.files self.pipes) (reads : now.files.file 0 = some (.readEnd k)) :
    k < self.pipes := by
  rw [leaked.kept 0 ready.stdin] at reads
  exact ready.past 0 k (.inl reads)

/-- The processes of one pipe. -/
theorem Executed.joined {found : Argv → Bool} {self before after : Sfish} {n : Nat}
    {started : List Process} (executed : Executed found before after started)
    (leaked : Leaked self before n) (ready : Ready self.files self.pipes) :
    Joined self.pipes before.pipes after.pipes started := by
  have total := executed.pipes
  have wired (i d : Nat) (f : File) (holds : fileAt started i d = some f) :
      i < before.parser.pipeTime ∧ ∃ files, files.file d = some f ∧
        Wired before.files before.pipes before.parser.pipeTime i files := by
    obtain ⟨process, here, holds⟩ := Option.bind_eq_some_iff.mp holds
    have inside := (List.getElem?_eq_some_iff.mp here).1
    obtain ⟨cur, files, -, wired, rfl⟩ := executed.started i process here
    refine ⟨executed.count ▸ inside, files, ?_, wired⟩
    split at holds <;> exact holds
  have at_stage (i : Nat) (inside : i < before.parser.pipeTime) : ∃ files,
      (∀ d, fileAt started i d = files.file d) ∧
        Wired before.files before.pipes before.parser.pipeTime i files := by
    have here : i < started.length := executed.count ▸ inside
    obtain ⟨cur, files, -, wired, eq⟩ := executed.started i _ (List.getElem?_eq_getElem here)
    refine ⟨files, fun d => ?_, wired⟩
    rw [fileAt, List.getElem?_eq_getElem here, eq]
    split <;> rfl
  constructor
  · intro i d k writes old
    obtain ⟨inside, files, holds, wired⟩ := wired i d _ writes
    rcases wired.writers d k holds with older | ⟨-, same⟩ | last
    · have := leaked.writer ready older
      omega
    · omega
    · omega
  · intro i k reads old
    obtain ⟨inside, files, holds, wired⟩ := wired i 0 _ reads
    rw [wired.stdin] at holds
    split at holds
    · have := leaked.stdin ready holds
      omega
    · cases holds
      omega
  · intro i k reads old
    obtain ⟨inside, files, holds, wired'⟩ := wired i 0 _ reads
    rw [wired'.stdin] at holds
    split at holds
    · have := leaked.stdin ready holds
      omega
    · next later =>
      cases holds
      refine ⟨i - 1, by omega, fun m d => ⟨fun writes => ?_, ?_⟩⟩
      · obtain ⟨inside', files', holds, wired⟩ := wired m d _ writes
        rcases wired.writers d _ holds with older | ⟨stdout, same⟩ | last
        · have := leaked.writer ready older
          omega
        · exact ⟨by omega, stdout⟩
        · omega
      · rintro ⟨rfl, rfl⟩
        obtain ⟨files', holds, wired⟩ := at_stage (i - 1) (by omega)
        rw [holds, wired.stdout, if_neg (by omega)]
        congr 2
        omega

end LinuxSystem.Shell
