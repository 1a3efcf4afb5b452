import PegMachine.Proofs.Machine.StackChanges
import PegMachine.Proofs.Nesting.Layers

/-!
# Pending calls

* `Setting.CalledAt`: the state that made a call which has not returned.
* `StackChange.pending_of_ret`: where a pending call was before a step.
* `Setting.Reaches.exists_calledAt`: **every pending call was made by a call instruction, and has been
  pending since then.**
-/

namespace PegMachine

variable {m : Setting} {start address : Nat} {below above : List Frame} {s s' s₀ : State}
  {owners : List (Option Nat)} {event : Option Event} {instr : Instr}

/-- State `s₀` made a call that returns to an address. Since then its frame has stayed on the stack,
and so have the frames below it. -/
structure Setting.CalledAt (m : Setting) (start address : Nat) (below : List Frame) (s₀ s : State) :
    Prop where
  reached : ∃ owners, m.Reaches start s₀ owners
  calls : ∃ off, m.program.code[s₀.address]? = some (.call off)
  address_eq : address = s₀.address + 1
  since : ∃ s₁ event, m.step s₀ = .next s₁ event ∧ s₁.stack.frames = .ret address :: below ∧
    m.Since (.ret address :: below) [] s₁ s

theorem Setting.CalledAt.advance (h : m.CalledAt start address below s₀ s)
    (hstep : m.step s = .next s' event) (hframes : .ret address :: below <:+ s'.stack.frames) :
    m.CalledAt start address below s₀ s' := by
  obtain ⟨s₁, event₁, hcall, hpending, hsince⟩ := h.since
  exact ⟨h.reached, h.calls, h.address_eq, s₁, event₁, hcall, hpending,
    hsince.step hstep hframes List.nil_prefix⟩

/-- A call that is pending after a step was pending before it, unless the step pushed it. -/
theorem StackChange.pending_of_ret (h : StackChange instr s s')
    (hframes : .ret address :: below <:+ s'.stack.frames) :
    .ret address :: below <:+ s.stack.frames ∨
      instr.pushes = true ∧ s'.stack.frames = .ret address :: s.stack.frames ∧
        below = s.stack.frames := by
  cases h with
  | keeps h => exact .inl (h ▸ hframes)
  | pushes frame hinstr h =>
    rw [h, List.suffix_cons_iff] at hframes
    rcases hframes with heq | hframes
    · cases heq
      exact .inr ⟨hinstr, h, rfl⟩
    · exact .inl hframes
  | returns _ h | commits _ _ _ h =>
    rw [h]
    exact .inl (hframes.trans (List.suffix_cons _ _))
  | renews _ _ below' h h' =>
    rw [h', List.suffix_cons_iff] at hframes
    rw [h]
    rcases hframes with heq | hframes
    · cases heq
    · exact .inl (hframes.trans (List.suffix_cons _ _))
  | goesBack _ above h =>
    rw [h]
    exact .inl (hframes.trans ((List.suffix_cons _ _).trans (List.suffix_append _ _)))

namespace Setting

theorem calledAt_of_step (hs : m.Reaches start s owners)
    (hinstr : m.program.code[s.address]? = some instr) (hpushes : instr.pushes = true)
    (hstep : m.step s = .next s' event) (hframes : s'.stack.frames = .ret address :: s.stack.frames) :
    m.CalledAt start address s.stack.frames s s' := by
  have hexec := hstep
  rw [step_of_getElem? hinstr] at hexec
  cases instr with
  | choice off back =>
    rw [next_of_pushFrame hexec] at hframes
    cases hframes
  | call off =>
    rw [next_of_pushFrame hexec] at hframes
    cases hframes
    rw [next_of_pushFrame hexec] at hstep ⊢
    exact ⟨⟨owners, hs⟩, ⟨off, hinstr⟩, rfl, _, event, hstep, rfl,
      .refl List.suffix_rfl List.nil_prefix⟩
  | _ => cases hpushes

/-- **Every pending call was made by a call instruction**, and has been pending since then. -/
theorem Reaches.exists_calledAt (hs : m.Reaches start s owners)
    (hframes : .ret address :: below <:+ s.stack.frames) :
    ∃ s₀, m.CalledAt start address below s₀ s := by
  induction hs with
  | start =>
    simp [initial, Stack.push, Stack.empty, List.suffix_cons_iff] at hframes
  | @step s s' owners event hs hstep ih =>
    cases hinstr : m.program.code[s.address]? with
    | none =>
      rw [Setting.step, hinstr] at hstep
      cases hstep
    | some instr =>
      have hexec := hstep
      rw [step_of_getElem? hinstr] at hexec
      rcases (stackChange_of_execute hexec).pending_of_ret hframes with
        hbefore | ⟨hpushes, hpushed, rfl⟩
      · obtain ⟨s₀, hcalled⟩ := ih hbefore
        exact ⟨s₀, hcalled.advance hstep hframes⟩
      · exact ⟨s, calledAt_of_step hs hinstr hpushes hstep hpushed⟩

end Setting

end PegMachine
