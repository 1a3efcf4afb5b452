import Mathlib.Data.Nat.Find
import PegMachine.Proofs.Machine.StackChanges
import PegMachine.Proofs.Programs.Ends

/-!
# Limits of the stack

* `Setting.limitedTo`: a setting with another limit.
* `Setting.Height`: the greatest number of frames that a run has pending at a time.
* `Setting.step_limitedTo`: a limit makes a difference to a step only where a frame is pushed onto a
  stack that is full.
* `Setting.ends_limitedTo_of_compile`: **a limit decides only between the outcome that there is
  without it and a stack that is full**, and the height of the run decides which of them.
-/

namespace PegMachine

namespace Setting

/-- The setting with another limit on the stack, or without one. -/
def limitedTo (m : Setting) (maxStack : Option Nat) : Setting := { m with limits := ⟨maxStack⟩ }

/-- The greatest number of frames that are pending in a state of a run, the choice at the bottom of
the stack among them. -/
structure Height (m : Setting) (start height : Nat) : Prop where
  reached : ∃ s owners, m.Reaches start s owners ∧ s.stack.size = height
  size_le : ∀ s owners, m.Reaches start s owners → s.stack.size ≤ height

variable {m : Setting} {p : Pattern} {start limit height : Nat} {s : State}
  {owners : List (Option Nat)} {outcome : Outcome}

/-! ## Steps under a limit -/

theorem execute_limitedTo {instr : Instr} (hinstr : instr.pushes = false) :
    (m.limitedTo (some limit)).execute s instr = (m.limitedTo none).execute s instr := by
  cases instr with
  | choice | call => cases hinstr
  | span bytes =>
    have hstop : (m.limitedTo (some limit)).spanStop bytes s.pos =
        (m.limitedTo none).spanStop bytes s.pos :=
      spanStop_congr (show (m.limitedTo (some limit)).subject = (m.limitedTo none).subject from rfl)
        bytes s.pos
    simp only [execute, hstop]
  | _ => rfl

/-- How a step under a limit compares to the step without one: it is the same step, and the stack
does not get higher than it is or than the limit, or the stack is full and the step pushes a
frame. -/
inductive Limited (m : Setting) (limit : Nat) (s : State) : Prop where
  | same (h : (m.limitedTo (some limit)).step s = (m.limitedTo none).step s)
      (hsize : ∀ s' event, (m.limitedTo none).step s = .next s' event →
        s'.stack.size ≤ max s.stack.size limit)
  | full (s' : State) (event : Option Event) (hfull : limit ≤ s.stack.size)
      (h : (m.limitedTo (some limit)).step s =
        .halt (.faulted .stackOverflow) (some (.stackFull limit)))
      (hnext : (m.limitedTo none).step s = .next s' event)
      (hsize : s'.stack.size = s.stack.size + 1)

theorem limited_of_pushFrame {frame : Frame} {off : Int}
    (h : ∀ maxStack, (m.limitedTo maxStack).step s = (m.limitedTo maxStack).pushFrame s frame off) :
    m.Limited limit s := by
  have hnext : (m.limitedTo none).step s =
      .next { s with address := s.target off, stack := s.stack.push frame } none := h none
  by_cases hfull : limit ≤ s.stack.size
  · refine .full _ _ hfull ?_ hnext rfl
    rw [h]
    simp only [pushFrame, limitedTo, if_pos hfull]
  · refine .same ?_ fun s' event hstep => ?_
    · rw [hnext, h]
      simp only [pushFrame, limitedTo, if_neg hfull]
    · rw [hnext] at hstep
      cases hstep
      exact Nat.le_trans (show s.stack.size + 1 ≤ limit by omega) (Nat.le_max_right ..)

/-- **A limit makes a difference to a step only where a frame is pushed onto a stack that is
full.** -/
theorem step_limitedTo (m : Setting) (limit : Nat) (s : State) : m.Limited limit s := by
  cases hinstr : m.program.code[s.address]? with
  | none =>
    have hstep : ∀ maxStack,
        (m.limitedTo maxStack).step s = .crash (.invalidStack s.address) := fun maxStack => by
      simp only [step, limitedTo, hinstr]
    refine .same ((hstep _).trans (hstep _).symm) fun s' event hnext => ?_
    rw [hstep] at hnext
    cases hnext
  | some instr =>
    have hstep : ∀ maxStack,
        (m.limitedTo maxStack).step s = (m.limitedTo maxStack).execute s instr :=
      fun maxStack => step_of_getElem? hinstr
    cases hpushes : instr.pushes with
    | false =>
      refine .same ?_ fun s' event hnext => ?_
      · rw [hstep, hstep, execute_limitedTo hpushes]
      · rw [hstep] at hnext
        exact Nat.le_trans ((stackChange_of_execute hnext).size_le.2 hpushes) (Nat.le_max_left ..)
    | true =>
      cases instr with
      | choice => exact limited_of_pushFrame hstep
      | call => exact limited_of_pushFrame hstep
      | _ => cases hpushes

theorem size_le_of_step {s' : State} {event : Option Event}
    (hlimit : m.limits.maxStack = some limit) (hstep : m.step s = .next s' event) :
    s'.stack.size ≤ max s.stack.size limit := by
  have hm : m.limitedTo (some limit) = m := by
    rw [← hlimit]
    rfl
  cases step_limitedTo m limit s with
  | same hsame hsize =>
    rw [hm, hstep] at hsame
    exact hsize s' event hsame.symm
  | full _ _ _ hhalt =>
    rw [hm, hstep] at hhalt
    cases hhalt

/-! ## Runs under a limit -/

theorem one_le_size_of_next (hp : p.compile = .ok m.program) (hstart : start ≤ m.subject.size)
    (hreach : m.Reaches start s owners) {s' : State} {event : Option Event}
    (hstep : m.step s = .next s' event) : 1 ≤ s.stack.size := by
  obtain ⟨block, code, hcompiled⟩ := p.compiled_exists hp
  obtain ⟨r, hrun, -⟩ := hcompiled.runs hstart
  cases hreach.tracked hcompiled hrun with
  | running =>
    rw [size_stateOf]
    exact Nat.le_add_left ..
  | gaveUp =>
    rw [step_gaveUp hcompiled] at hstep
    cases hstep

/-- A state of the run without a limit is one of the run with a limit, or that run ends with a stack
that is full because the other one goes higher. -/
theorem Reaches.limitedTo (limit : Nat) (hp : p.compile = .ok m.program)
    (hstart : start ≤ m.subject.size)
    (hreach : (m.limitedTo none).Reaches start s owners) :
    ((m.limitedTo (some limit)).Reaches start s owners ∧ s.stack.size ≤ max 1 limit) ∨
    (m.limitedTo (some limit)).Ends start (.faulted .stackOverflow) ∧
      ∃ s' owners', (m.limitedTo none).Reaches start s' owners' ∧ 2 ≤ s'.stack.size ∧
        limit < s'.stack.size := by
  induction hreach with
  | start => exact .inl ⟨.start, Nat.le_max_left ..⟩
  | @step s s' owners event hreach hstep ih =>
    rcases ih with ⟨hlimited, hsize⟩ | hfull
    · cases step_limitedTo m limit s with
      | same hsame hbound =>
        have := hbound s' event hstep
        exact .inl ⟨hlimited.step (hsame.trans hstep), by omega⟩
      | full s₁ event₁ hfull hhalt hnext hhigh =>
        -- the run without a limit goes on above it
        rw [hstep] at hnext
        cases hnext
        have hpending := one_le_size_of_next (m := m.limitedTo none) hp hstart hreach hstep
        exact .inr ⟨hlimited.ends hhalt nofun, s', _, hreach.step hstep, by omega, by omega⟩
    · exact .inr hfull

/-! ## Heights -/

/-- A state that a run comes by after some steps has at most one frame pending for each of them. -/
theorem Reaches.size_le_steps (hreach : m.Reaches start s owners) :
    ∃ steps log, (∀ fuel, m.run (steps + fuel) (m.initial start) #[] = m.run fuel s log) ∧
      s.stack.size ≤ steps + 1 := by
  induction hreach with
  | start => exact ⟨0, #[], fun fuel => by rw [Nat.zero_add], Nat.le_refl _⟩
  | @step s s' owners event _ hstep ih =>
    obtain ⟨steps, log, hrun, hsize⟩ := ih
    have hhigher : s'.stack.size ≤ s.stack.size + 1 := by
      have hexec := hstep
      rw [Setting.step] at hexec
      split at hexec
      · exact (stackChange_of_execute hexec).size_le.1
      · cases hexec
    refine ⟨steps + 1, note log event, fun fuel => ?_, by omega⟩
    rw [Nat.add_assoc, Nat.add_comm 1, hrun, run, hstep]

theorem Ends.exists_height (h : m.Ends start outcome) : ∃ height, m.Height start height := by
  obtain ⟨hne, fuel, log, hrun⟩ := h
  have hbound : ∃ height, ∀ s owners, m.Reaches start s owners → s.stack.size ≤ height := by
    refine ⟨fuel + 1, fun s owners hreach => ?_⟩
    obtain ⟨steps, log', hsteps, hsize⟩ := hreach.size_le_steps
    have hle : steps ≤ fuel := by
      by_contra hlt
      have hmore := run_add hrun hne (steps - fuel)
      rw [Nat.add_sub_cancel' (by omega), ← Nat.add_zero steps, hsteps] at hmore
      exact hne (Prod.mk.inj hmore).1.symm
    omega
  classical
  refine ⟨Nat.find hbound, ?_, Nat.find_spec hbound⟩
  by_contra hnone
  have hinitial : (m.initial start).stack.size ≤ Nat.find hbound :=
    Nat.find_spec hbound _ _ .start
  have hone : (m.initial start).stack.size = 1 := rfl
  refine Nat.find_min hbound (Nat.sub_lt (by omega) Nat.one_pos) fun s owners hreach => ?_
  have hle := Nat.find_spec hbound s owners hreach
  have hne' : s.stack.size ≠ Nat.find hbound := fun heq => hnone ⟨s, owners, hreach, heq⟩
  omega

theorem Height.ends_limited (hp : p.compile = .ok m.program) (hstart : start ≤ m.subject.size)
    (hheight : (m.limitedTo none).Height start height)
    (hends : (m.limitedTo none).Ends start outcome) (limit : Nat) :
    (m.limitedTo (some limit)).Ends start
      (if 2 ≤ height ∧ limit < height then .faulted .stackOverflow else outcome) := by
  by_cases hover : 2 ≤ height ∧ limit < height
  · rw [if_pos hover]
    obtain ⟨s, owners, hreach, hsize⟩ := hheight.reached
    rcases hreach.limitedTo limit hp hstart with ⟨-, hlow⟩ | ⟨hfull, -⟩
    · omega
    · exact hfull
  · rw [if_neg hover]
    obtain ⟨hne, s, owners, event, hreach, hhalt⟩ := ends_iff.1 hends
    rcases hreach.limitedTo limit hp hstart with ⟨hlimited, -⟩ |
      ⟨-, s', owners', hreach', htwo, hhigh⟩
    · cases step_limitedTo m limit s with
      | same hsame => exact hlimited.ends (hsame.trans hhalt) hne
      | full s₁ event₁ _ _ hnext =>
        rw [hhalt] at hnext
        cases hnext
    · have := hheight.size_le s' owners' hreach'
      omega

theorem not_ends_overflow_of_size_le {bound : Nat} (hp : p.compile = .ok m.program)
    (hstart : start ≤ m.subject.size)
    (hsize : ∀ s owners, (m.limitedTo none).Reaches start s owners → s.stack.size ≤ bound)
    (hlimit : ∀ limit, m.limits.maxStack = some limit → bound ≤ limit) :
    ¬ m.Ends start (.faulted .stackOverflow) := by
  cases hmax : m.limits.maxStack with
  | none => exact not_ends_overflow hp hstart hmax
  | some limit =>
    intro hends
    have hle := hlimit limit hmax
    obtain ⟨outcome, hfree⟩ := exists_ends (m := m.limitedTo none) hp hstart
    obtain ⟨height, hheight⟩ := hfree.exists_height
    have hlow : height ≤ bound := by
      obtain ⟨s, owners, hreach, rfl⟩ := hheight.reached
      exact hsize s owners hreach
    have hlimited := hheight.ends_limited hp hstart hfree limit
    rw [if_neg (by omega), show m.limitedTo (some limit) = m by rw [← hmax]; rfl] at hlimited
    obtain rfl := hends.unique hlimited
    exact not_ends_overflow (m := m.limitedTo none) hp hstart rfl hfree

/-- **A limit decides only between the outcome that there is without it and a stack that is full.**
The latter is the outcome where the run without a limit pushes a frame and has more frames pending
at a time than the limit allows. So a higher limit leaves every other outcome as it is, and so does
to have no limit. -/
theorem ends_limitedTo_of_compile (hp : p.compile = .ok m.program) (start : Nat) :
    ∃ height outcome,
      (m.limitedTo none).Height (min start m.subject.size) height ∧
      (m.limitedTo none).Ends (min start m.subject.size) outcome ∧
      outcome ≠ .faulted .stackOverflow ∧
      (∀ limit, (m.limitedTo (some limit)).Ends (min start m.subject.size)
        (if 2 ≤ height ∧ limit < height then .faulted .stackOverflow else outcome)) ∧
      ∀ limit other, (m.limitedTo (some limit)).Ends (min start m.subject.size) other →
        other ≠ .faulted .stackOverflow →
        (m.limitedTo none).Ends (min start m.subject.size) other ∧
        ∀ higher, limit ≤ higher →
          (m.limitedTo (some higher)).Ends (min start m.subject.size) other := by
  have hstart : min start m.subject.size ≤ m.subject.size := Nat.min_le_right _ _
  obtain ⟨outcome, hends⟩ := exists_ends (m := m.limitedTo none) hp hstart
  obtain ⟨height, hheight⟩ := hends.exists_height
  have hlimited := hheight.ends_limited hp hstart hends
  refine ⟨height, outcome, hheight, hends, ?_, hlimited, fun limit other hother hnot => ?_⟩
  · rintro rfl
    exact not_ends_overflow (m := m.limitedTo none) hp hstart rfl hends
  obtain rfl := Ends.unique hother (hlimited limit)
  by_cases hover : 2 ≤ height ∧ limit < height
  · exact absurd (if_pos hover) hnot
  · rw [if_neg hover]
    refine ⟨hends, fun higher hle => ?_⟩
    have := hlimited higher
    rwa [if_neg (by omega)] at this

end Setting

theorem rewinding_ends_limitedTo :
    let m : Setting := ⟨rewindingProgram, {}, #[97, 97], []⟩
    ∃ height outcome,
      (m.limitedTo none).Height 0 height ∧
      (m.limitedTo none).Ends 0 outcome ∧
      outcome ≠ .faulted .stackOverflow ∧
      (∀ limit, (m.limitedTo (some limit)).Ends 0
        (if 2 ≤ height ∧ limit < height then .faulted .stackOverflow else outcome)) ∧
      ∀ limit other, (m.limitedTo (some limit)).Ends 0 other →
        other ≠ .faulted .stackOverflow →
        (m.limitedTo none).Ends 0 other ∧
        ∀ higher, limit ≤ higher → (m.limitedTo (some higher)).Ends 0 other :=
  Setting.ends_limitedTo_of_compile (m := ⟨rewindingProgram, {}, #[97, 97], []⟩)
    compile_rewinding 0

end PegMachine
