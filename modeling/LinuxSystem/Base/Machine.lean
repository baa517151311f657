import LinuxSystem.Base.Transition
import Mathlib.Data.List.Forall2
import Mathlib.Data.Option.Basic

/-!
# Machines that answer calls

A machine is in a state, takes a call, and either never returns or gives a
reply and the state after it. Where related states agree on every call that is
allowed, whole sequences of allowed calls get the same replies.
-/

namespace Machine

variable {State State' Call Reply : Type*}

/-- The reply to each call and the state after it; `none` when one never returns. -/
def trace (act : State → Call → Option (Reply × State)) :
    State → List Call → Option (List (Reply × State))
  | _, [] => some []
  | s, call :: calls =>
    match act s call with
    | none => none
    | some (reply, t) => (trace act t calls).map ((reply, t) :: ·)

def replies (act : State → Call → Option (Reply × State)) (s : State) (calls : List Call) :
    Option (List Reply) :=
  (trace act s calls).map (List.map Prod.fst)

/-- Every call is allowed in the state it meets. -/
def Through (act : State → Call → Option (Reply × State)) (ok : State → Call → Prop) :
    State → List Call → Prop
  | _, [] => True
  | s, call :: calls =>
    ok s call ∧ ∀ reply t, act s call = some (reply, t) → Through act ok t calls

def Alongside (rel : State → State' → Prop) (left : Reply × State) (right : Reply × State') :
    Prop :=
  left.1 = right.1 ∧ rel left.2 right.2

/-- Both return, with one reply and in related states, or neither does. -/
abbrev Agree (rel : State → State' → Prop) :
    Option (Reply × State) → Option (Reply × State') → Prop :=
  Option.Rel (Alongside rel)

variable {act : State → Call → Option (Reply × State)}
  {act' : State' → Call → Option (Reply × State')} {rel : State → State' → Prop}
  {ok : State → Call → Prop}

theorem rel_map {α β γ δ : Type*} {rel : α → β → Prop} {rel' : γ → δ → Prop} {f : α → γ}
    {g : β → δ} {a : Option α} {b : Option β} (h : Option.Rel rel a b)
    (keep : ∀ x y, rel x y → rel' (f x) (g y)) : Option.Rel rel' (a.map f) (b.map g) := by
  cases h with
  | none => exact .none
  | some h => exact .some (keep _ _ h)

theorem trace_agree
    (agree : ∀ s t call, rel s t → ok s call → Agree rel (act s call) (act' t call))
    {s : State} {t : State'} (related : rel s t) {calls : List Call}
    (allowed : Through act ok s calls) :
    Option.Rel (List.Forall₂ (Alongside rel)) (trace act s calls) (trace act' t calls) := by
  induction calls generalizing s t with
  | nil => exact .some .nil
  | cons call calls ih =>
    obtain ⟨here, onwards⟩ := allowed
    have same := agree s t call related here
    unfold trace
    revert same
    cases left : act s call with
    | none =>
      cases act' t call with
      | none => exact fun _ => .none
      | some _ => nofun
    | some first =>
      cases act' t call with
      | none => nofun
      | some second =>
        rintro ⟨same⟩
        exact rel_map (ih same.2 (onwards _ _ left)) fun _ _ rest => .cons same rest

/-- Two traces keep every relation their states' relation implies. -/
theorem trace_imp {rel' : State → State' → Prop} {first : Option (List (Reply × State))}
    {second : Option (List (Reply × State'))} (imp : ∀ s t, rel s t → rel' s t)
    (traced : Option.Rel (List.Forall₂ (Alongside rel)) first second) :
    Option.Rel (List.Forall₂ (Alongside rel')) first second := by
  cases traced with
  | none => exact .none
  | some steps => exact .some (steps.imp fun _ _ step => ⟨step.1, imp _ _ step.2⟩)

/-- Alike step by step, two traces give the same replies. -/
theorem replies_of_traced {s : State} {t : State'} {calls : List Call}
    (traced : Option.Rel (List.Forall₂ (Alongside rel)) (trace act s calls) (trace act' t calls)) :
    replies act s calls = replies act' t calls := by
  have same : Option.Rel (· = ·) (replies act s calls) (replies act' t calls) :=
    rel_map traced fun _ _ alongside => by
      induction alongside with
      | nil => rfl
      | cons same _ ih => rw [List.map_cons, List.map_cons, same.1, ih]
  revert same
  generalize replies act s calls = first, replies act' t calls = second
  rintro ⟨⟩ <;> simp_all

theorem replies_eq
    (agree : ∀ s t call, rel s t → Agree rel (act s call) (act' t call))
    {s : State} {t : State'} (related : rel s t) (calls : List Call) :
    replies act s calls = replies act' t calls := by
  have through (s : State) (calls : List Call) : Through act (fun _ _ => True) s calls := by
    induction calls generalizing s with
    | nil => trivial
    | cons call calls ih => exact ⟨trivial, fun _ t _ => ih t⟩
  exact replies_of_traced
    (trace_agree (fun s t call h _ => agree s t call h) related (through s calls))

end Machine
