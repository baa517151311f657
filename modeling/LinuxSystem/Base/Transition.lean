import Mathlib.Logic.Relation

/-!
# Runs of a labelled transition system

A run takes any number of steps. Each step carries a label, and `ok` may
restrict which labels are taken in which states.
-/

namespace Transition

variable {State Label : Type*} {step : State → Label → State → Prop}
  {ok ok' : State → Label → Prop} {s t u : State}

/-- `t` is reached from `s` by steps that all satisfy `ok`. -/
def Run (step : State → Label → State → Prop) (ok : State → Label → Prop) : State → State → Prop :=
  Relation.ReflTransGen fun s t => ∃ label, ok s label ∧ step s label t

/-- Every step is allowed. -/
abbrev Reachable (step : State → Label → State → Prop) : State → State → Prop :=
  Run step fun _ _ => True

theorem Run.refl (s : State) : Run step ok s s := Relation.ReflTransGen.refl

theorem Run.next {label : Label} (run : Run step ok s t) (h : step t label u)
    (allowed : ok t label) : Run step ok s u :=
  Relation.ReflTransGen.tail run ⟨label, allowed, h⟩

theorem Reachable.next {label : Label} (run : Reachable step s t) (h : step t label u) :
    Reachable step s u :=
  Run.next run h trivial

/-- What every allowed step preserves holds in every state of a run. -/
theorem Run.invariant (run : Run step ok s t) (Inv : State → Prop) (start : Inv s)
    (keep : ∀ {t u label}, Inv t → ok t label → step t label u → Inv u) : Inv t := by
  induction run with
  | refl => exact start
  | tail _ h ih =>
    obtain ⟨label, allowed, h⟩ := h
    exact keep ih allowed h

end Transition
