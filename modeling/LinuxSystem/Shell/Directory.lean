import LinuxSystem.Base.Machine
import LinuxSystem.Shell.Model

/-!
# Where `cd -` goes

`cd -` goes to the directory left by the last change of directory as long as
no call fails and no `cd -` succeeds, or the two directories are the same then.
The branch for `-` does not save the directory it leaves, and the others save
the working directory before they know whether it is left.
-/

namespace LinuxSystem.Shell

variable {home : Path} {s t : State} {call : Call} {left dir : Path} {reply : Nat}

/-- Now and after each of the calls, `pwd` names the directory left by the most
recent change of directory, which is `left` at first. -/
def GoesBack (home : Path) : State → Path → List Call → Prop
  | s, left, [] => s.pwd = left
  | s, left, call :: calls =>
    s.pwd = left ∧ ∃ reply t, comCd home s call = some (reply, t) ∧
      GoesBack home t (if reply = 0 then s.cwd else left) calls

/-- What is copied to `path` for a call that is not `cd -`. -/
def target (home arg : Path) : Path := if arg = [] then home else arg

/-- A call that leaves `pwd` right if it was. The strings fit, a change other
than by `cd -` leaves a directory whose name fits, and in a failure of that
kind and in a successful `cd -` the working directory is the saved one. -/
def Returns (home : Path) (s : State) (call : Call) : Prop :=
  let arg := stripwhite call.arg
  arg.length < pwdSize ∧
  if arg = ['-'] then call.chdir s.cwd (strncpy arg s.pwd) = none ∨ s.cwd = s.pwd
  else (target home arg).length < pwdSize ∧
    if call.chdir s.cwd (target home arg) = none then getcwd s.cwd = s.pwd
    else s.cwd.length < pwdSize

theorem getcwd_fits (fits : dir.length < pwdSize) : getcwd dir = dir := if_pos fits

theorem getcwd_eq_iff : getcwd dir = dir ↔ dir.length < pwdSize := by
  constructor
  · intro same
    by_contra long
    rw [getcwd, if_neg long] at same
    subst same
    exact long (by decide)
  · exact getcwd_fits

/-- What a call that reaches its `chdir` does to the saved directory. -/
theorem changeTo_saves_iff {saving : State} (here : saving.cwd = s.cwd) (path : Path) :
    (∃ reply t, some (changeTo call saving path) = some (reply, t) ∧
      t.pwd = if reply = 0 then s.cwd else left) ↔
    if call.chdir s.cwd path = none then saving.pwd = left else saving.pwd = s.cwd := by
  unfold changeTo
  rw [here]
  cases call.chdir s.cwd path <;> simp

/-- One call keeps `pwd` right exactly where `Returns` says so. -/
theorem comCd_saves_iff (saved : s.pwd = left) :
    (∃ reply t, comCd home s call = some (reply, t) ∧
      t.pwd = if reply = 0 then s.cwd else left) ↔ Returns home s call := by
  subst saved
  unfold comCd Returns
  generalize stripwhite call.arg = arg
  by_cases long : pwdSize ≤ arg.length
  · simp [long, Nat.not_lt.2 long]
  have fits := Nat.lt_of_not_le long
  by_cases back : arg = ['-']
  · -- `pwd` stays as it is
    subst back
    simp only [if_neg long, if_neg (List.cons_ne_nil _ _), if_true, fits, true_and]
    rw [changeTo_saves_iff rfl]
    split <;> simp_all [eq_comm]
  -- `pwd` becomes the name of the working directory
  simp only [if_neg long, if_neg back, fits, true_and, ← @getcwd_eq_iff s.cwd]
  by_cases bare : arg = []
  · subst bare
    by_cases far : pwdSize ≤ home.length
    · simp [far, target, Nat.not_lt.2 far]
    · simp only [if_neg far, if_true, target, Nat.lt_of_not_le far, true_and]
      rw [changeTo_saves_iff (show (updatePwd s).cwd = s.cwd from rfl)]
      simp [strncpy, updatePwd]
  · simp only [if_neg bare, target, fits, true_and]
    rw [changeTo_saves_iff (show (updatePwd s).cwd = s.cwd from rfl)]
    rfl

theorem goesBack_here {calls : List Call} (right : GoesBack home s left calls) : s.pwd = left := by
  cases calls with
  | nil => exact right
  | cons => exact right.1

theorem goesBack_iff (saved : s.pwd = left) (calls : List Call) :
    GoesBack home s left calls ↔ Machine.Through (comCd home) (Returns home) s calls := by
  induction calls generalizing s left with
  | nil => exact iff_of_true saved trivial
  | cons call calls ih =>
    constructor
    · rintro ⟨_, reply, t, act, rest⟩
      have next := goesBack_here rest
      refine ⟨(comCd_saves_iff saved).1 ⟨reply, t, act, next⟩, ?_⟩
      intro reply' t' act'
      cases act.symm.trans act'
      exact (ih next).1 rest
    · rintro ⟨here, onwards⟩
      obtain ⟨reply, t, act, next⟩ := (comCd_saves_iff saved).2 here
      exact ⟨saved, reply, t, act, (ih next).2 (onwards reply t act)⟩

/-- From any directory and for any calls, `cd -` would at all times go to the
directory left last exactly when every call is one of those that return. -/
theorem cd_goes_back_iff (home dir : Path) (calls : List Call) :
    GoesBack home (startIn dir) dir calls ↔
      dir.length < pwdSize ∧ Machine.Through (comCd home) (Returns home) (startIn dir) calls := by
  constructor
  · intro right
    have saved := goesBack_here right
    exact ⟨getcwd_eq_iff.1 saved, (goesBack_iff saved calls).1 right⟩
  · rintro ⟨fits, through⟩
    exact (goesBack_iff (getcwd_fits fits) calls).2 through

/-- After `cd /b` from `/a` and `cd -`, the shell is in `/a` and `cd -` still goes
there. -/
theorem second_cd_back_stays :
    let go (arg : Path) : Call := ⟨arg, fun _ path => some path⟩
    ¬ GoesBack [] (startIn ['/', 'a']) ['/', 'a'] [go ['/', 'b'], go ['-']] := by
  rintro go ⟨_, _, _, there, _, _, _, back, right⟩
  cases there
  cases back
  have same : ['/', 'a'] = ['/', 'b'] := right
  exact absurd same (by decide)

end LinuxSystem.Shell
