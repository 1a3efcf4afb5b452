import PegMachine.Machine.Run

/-!
# Reachable states

* `Setting.Reaches`: the states that a run comes by. Each pending frame remembers the address of the
  instruction that pushed it; the one at the bottom was there before.
* `Setting.Ends`: the outcome of a run.
* `Setting.ends_iff`: **a run ends with an outcome if and only if it comes by a state that halts
  with it.**
* `Setting.Ends.unique`: a run ends with one outcome at most.
-/

namespace PegMachine

/-- Who pushed the frames that are pending after a step. Frames that stay keep their owners, and a
frame that is new belongs to the instruction of the step. -/
def ownersAfter (s s' : State) (owners : List (Option Nat)) : List (Option Nat) :=
  if s.stack.size < s'.stack.size then some s.address :: owners
  else owners.drop (s.stack.size - s'.stack.size)

namespace Setting

/-- The states that the run from a position comes by, with the owners of the pending frames. -/
inductive Reaches (m : Setting) (pos : Nat) : State → List (Option Nat) → Prop where
  | start : Reaches m pos (m.initial pos) [none]
  | step {s s' : State} {owners : List (Option Nat)} {event : Option Event}
      (h : Reaches m pos s owners) (hstep : m.step s = .next s' event) :
      Reaches m pos s' (ownersAfter s s' owners)

/-- The run from a position ends with an outcome. -/
def Ends (m : Setting) (pos : Nat) (outcome : Outcome) : Prop :=
  outcome ≠ .unfinished ∧ ∃ fuel log, m.run fuel (m.initial pos) #[] = (outcome, log)

variable {m : Setting} {pos : Nat} {s : State} {owners : List (Option Nat)} {outcome : Outcome}

/-- With enough steps to make, a run comes by each reachable state. -/
theorem Reaches.run_eq (h : m.Reaches pos s owners) :
    ∃ steps log, ∀ fuel, m.run (steps + fuel) (m.initial pos) #[] = m.run fuel s log := by
  induction h with
  | start => exact ⟨0, #[], fun fuel => by rw [Nat.zero_add]⟩
  | @step s s' owners event _ hstep ih =>
    obtain ⟨steps, log, hrun⟩ := ih
    refine ⟨steps + 1, note log event, fun fuel => ?_⟩
    rw [Nat.add_assoc, Nat.add_comm 1, hrun, run, hstep]

theorem Reaches.halts {fuel : Nat} {log log' : Array Event} (h : m.Reaches pos s owners)
    (hrun : m.run fuel s log = (outcome, log')) (hne : outcome ≠ .unfinished) :
    ∃ s' owners' event, m.Reaches pos s' owners' ∧ m.step s' = .halt outcome event := by
  induction fuel generalizing s owners log with
  | zero =>
    cases hrun
    exact absurd rfl hne
  | succ fuel ih =>
    rw [run] at hrun
    cases hstep : m.step s with
    | next s' event =>
      rw [hstep] at hrun
      exact ih (h.step hstep) hrun
    | halt outcome' event =>
      rw [hstep] at hrun
      cases hrun
      exact ⟨s, owners, event, h, hstep⟩

theorem Reaches.ends {event : Option Event} (h : m.Reaches pos s owners)
    (hstep : m.step s = .halt outcome event) (hne : outcome ≠ .unfinished) :
    m.Ends pos outcome := by
  obtain ⟨steps, log, hrun⟩ := h.run_eq
  refine ⟨hne, steps + 1, note log event, ?_⟩
  rw [hrun, run, hstep]

/-- **A run ends with an outcome if and only if it comes by a state that halts with it.** -/
theorem ends_iff : m.Ends pos outcome ↔ outcome ≠ .unfinished ∧
    ∃ s owners event, m.Reaches pos s owners ∧ m.step s = .halt outcome event := by
  constructor
  · rintro ⟨hne, fuel, log, hrun⟩
    exact ⟨hne, Reaches.start.halts hrun hne⟩
  · rintro ⟨hne, s, owners, event, h, hstep⟩
    exact h.ends hstep hne

theorem run_add {fuel : Nat} {log log' : Array Event} (h : m.run fuel s log = (outcome, log'))
    (hne : outcome ≠ .unfinished) (more : Nat) : m.run (fuel + more) s log = (outcome, log') := by
  induction fuel generalizing s log with
  | zero =>
    cases h
    exact absurd rfl hne
  | succ fuel ih =>
    rw [Nat.add_right_comm, run]
    rw [run] at h
    cases hstep : m.step s with
    | next s' event =>
      rw [hstep] at h
      exact ih h
    | halt outcome' event =>
      rw [hstep] at h
      exact h

/-- A run ends with one outcome at most. -/
theorem Ends.unique {outcome' : Outcome} (h : m.Ends pos outcome) (h' : m.Ends pos outcome') :
    outcome = outcome' := by
  obtain ⟨hne, fuel, log, hrun⟩ := h
  obtain ⟨hne', fuel', log', hrun'⟩ := h'
  have hrunMore := run_add hrun hne fuel'
  rw [Nat.add_comm, run_add hrun' hne' fuel] at hrunMore
  exact (Prod.mk.inj hrunMore).1.symm

theorem Ends.iff_eq {outcome' : Outcome} (h : m.Ends pos outcome) :
    m.Ends pos outcome' ↔ outcome' = outcome := by
  refine ⟨fun h' => h'.unique h, ?_⟩
  rintro rfl
  exact h

end Setting

end PegMachine
