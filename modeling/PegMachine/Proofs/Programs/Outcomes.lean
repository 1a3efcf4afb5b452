import PegMachine.Proofs.Programs.Limits

/-!
# Outcomes of answers

* `Setting.outcomeOf`: the outcome that an answer of the code leads to, as long as the stack does
  not get full.
* `Limits.Allow`: the limits allow for so many frames.
* `Setting.ends_of_allow`, `Setting.ends_of_not_allow`: **the answer of the code and the number of
  frames that its run has pending at a time decide the outcome.**
* `Setting.exists_ends_of_outcome`: runs of two programs that end with the same outcome.
-/

namespace PegMachine

/-- The limits allow for so many frames above the choice at the bottom of the stack. -/
def Limits.Allow (limits : Limits) (n : Nat) : Prop :=
  ∀ limit, limits.maxStack = some limit → n = 0 ∨ n < limit

namespace Setting

/-- The outcome that an answer of the code leads to, as long as the stack does not get full. -/
def outcomeOf (m : Setting) : Answer → Outcome
  | .matched pos captures =>
    match (m.resolver captures).resolve with
    | .ok values => .matched ⟨pos, values⟩
    | .error fault => .faulted fault
  | .failed => .unmatched
  | .crashed fault => .faulted fault

variable {m : Setting} {p : Pattern} {block code : Block} {start n : Nat} {r : Answer} {s : State}
  {owners : List (Option Nat)} {c : Config}

theorem outcomeOf_ne_unfinished (m : Setting) (r : Answer) : m.outcomeOf r ≠ .unfinished := by
  cases r with
  | matched pos captures =>
    rw [outcomeOf]
    split <;> nofun
  | failed | crashed => nofun

theorem Concludes.halts_outcomeOf (h : Concludes m start r s) (hp : p.Compiled m.program block code)
    (hfull : ∀ depth, ¬ m.Overflows depth (m.step s)) :
    ∃ event, m.step s = .halt (m.outcomeOf r) event := by
  cases h with
  | full hover => exact absurd hover (hfull _)
  | matched hinstr => exact ⟨_, step_done hinstr⟩
  | failed => exact ⟨_, step_gaveUp hp⟩
  | crashed hcrash => exact ⟨_, hcrash⟩

/-- **Within its limits, a run ends with the outcome of its answer.** -/
theorem ends_of_allow (hp : p.Compiled m.program block code)
    (hrun : Run m (fun _ _ _ => none) block code ⟨start, #[], n⟩ ⟨0, start, [], #[]⟩ r)
    (hallow : m.limits.Allow n) : m.Ends start (m.outcomeOf r) := by
  obtain ⟨s, owners, hs, hconcludes, hroom⟩ := exists_concludes_within hp hrun .start
  have hfull : ∀ depth, ¬ m.Overflows depth (m.step s) := by
    intro depth hover
    obtain ⟨limit, hlimit, hpos, hle, -⟩ := hroom depth hover
    have := hallow limit hlimit
    omega
  obtain ⟨event, hstep⟩ := hconcludes.halts_outcomeOf hp hfull
  exact hs.ends hstep (m.outcomeOf_ne_unfinished r)

/-- A run that has more frames pending at some time than a limit allows ends with a stack that is
full. -/
theorem ends_of_rises {limit : Nat} (hp : p.Compiled m.program block code)
    (hlimit : m.limits.maxStack = some limit) (hrises : Rises m (fun _ _ _ => none) code c n)
    (hpos : 0 < n) (hover : limit ≤ n) (hs : m.Reaches start (m.stateOf start c) owners)
    (hlow : c.frames.length = 0 ∨ c.frames.length < limit) :
    m.Ends start (.faulted .stackOverflow) := by
  induction hrises generalizing owners with
  | here => omega
  | @next c c' instr n hinstr hstep _ ih =>
    rcases follows_step start hp hinstr hstep with ⟨event, hnext⟩ | hfull
    · have hsize := size_le_of_step hlimit hnext
      rw [size_stateOf, size_stateOf] at hsize
      exact ih hpos hover (hs.step hnext) (by omega)
    · exact hs.ends_of_overflows hfull

/-- **Beyond its limits, a run ends with a stack that is full.** -/
theorem ends_of_not_allow (hp : p.Compiled m.program block code)
    (hrises : Rises m (fun _ _ _ => none) code ⟨0, start, [], #[]⟩ n)
    (hnot : ¬ m.limits.Allow n) : m.Ends start (.faulted .stackOverflow) := by
  simp only [Limits.Allow, not_forall, not_or, Nat.not_lt] at hnot
  obtain ⟨limit, hlimit, hpos, hover⟩ := hnot
  exact ends_of_rises hp hlimit hrises (Nat.pos_of_ne_zero hpos) hover .start (.inl rfl)

/-- **Runs with as many frames pending, whose answers lead to the same outcome, end with the same
outcome**, whatever the limits are. -/
theorem exists_ends_of_outcome {m' : Setting} {p' : Pattern} {block' code' : Block} {r' : Answer}
    (hp : p.Compiled m.program block code) (hp' : p'.Compiled m'.program block' code')
    (hlimits : m'.limits = m.limits) (hrun : Block.Runs m (fun _ _ _ => none) n block start #[] r)
    (hrun' : Block.Runs m' (fun _ _ _ => none) n block' start #[] r')
    (hrises : Rises m (fun _ _ _ => none) block ⟨0, start, [], #[]⟩ n)
    (hrises' : Rises m' (fun _ _ _ => none) block' ⟨0, start, [], #[]⟩ n)
    (houtcome : m'.outcomeOf r' = m.outcomeOf r) :
    ∃ outcome, m.Ends start outcome ∧ m'.Ends start outcome := by
  by_cases hallow : m.limits.Allow n
  · refine ⟨m.outcomeOf r, ends_of_allow hp (hp.run_of_block hrun) hallow, ?_⟩
    rw [← houtcome]
    exact ends_of_allow hp' (hp'.run_of_block hrun') (hlimits ▸ hallow)
  · exact ⟨_, ends_of_not_allow hp (hp.rises_of_block hrun hrises) hallow,
      ends_of_not_allow hp' (hp'.rises_of_block hrun' hrises') (hlimits ▸ hallow)⟩

end Setting

end PegMachine
