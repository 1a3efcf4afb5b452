import PegMachine.Proofs.Captures.Faults
import PegMachine.Proofs.Programs.Tracked

/-!
# Ends of runs

* `Run.harmless`: a run of code crashes only where captures cannot be resolved.
* `Setting.LeadsTo`: the outcomes that an answer may lead to. `Setting.Ends.leadsTo`: a run of a
  compiled pattern ends with such an outcome.
* `Setting.terminates_of_compile`: **every run of a compiled pattern halts.**
-/

namespace PegMachine

variable {m : Setting}

/-! ## Crashes -/

namespace Setting

theorem matcherMove_ne_crash {pos : Nat} {captures : Array Entry} {f : Matcher} {fault : Fault} :
    m.matcherMove pos captures f ≠ .crash fault := by
  intro h
  unfold matcherMove at h
  split at h
  · cases h
  · split at h <;> cases h

theorem matchTimeMove_harmless {pos opened begun : Nat} {captures : Array Entry}
    {f : MatchTimeFunction} {fault : Fault}
    (h : m.matchTimeMove pos captures f opened begun = .crash fault) :
    fault.ofMachine = false := by
  unfold matchTimeMove at h
  split at h
  · next fault' hnested =>
    cases h
    exact Resolver.harmless_nested _ _ _ hnested
  · split at h
    · cases h
    · split at h <;> cases h

theorem closeMatchTimeMove_harmless {pos : Nat} {captures : Array Entry} {fault : Fault}
    (h : m.closeMatchTimeMove pos captures = .crash fault) : fault.ofMachine = false := by
  unfold closeMatchTimeMove at h
  split at h
  · cases h
    rfl
  · split at h
    · split at h
      · exact matchTimeMove_harmless h
      · cases h
        rfl
    · cases h
      rfl

/-- Only the end of a match-time capture crashes. -/
theorem eq_closeMatchTime_of_crash {pos : Nat} {captures : Array Entry} {instr : Instr}
    {fault : Fault} (h : m.move (fun _ _ _ => none) pos captures instr = .crash fault) :
    instr = .closeMatchTime := by
  cases instr with
  | closeMatchTime => rfl
  | any _ off | char _ off | set _ off =>
    rw [move] at h
    split at h
    · cases h
    · unfold Move.refuse at h
      split at h <;> cases h
  | matcher index =>
    rw [move] at h
    split at h
    · exact absurd h matcherMove_ne_crash
    · cases h
  | _ => cases h

theorem move_harmless {pos : Nat} {captures : Array Entry} {instr : Instr} {fault : Fault}
    (h : m.move (fun _ _ _ => none) pos captures instr = .crash fault) :
    fault.ofMachine = false := by
  obtain rfl := eq_closeMatchTime_of_crash h
  exact closeMatchTimeMove_harmless h

end Setting

theorem Run.harmless {outline code : Block} {o : Origin} {c : Config} {fault : Fault}
    (h : Run m (fun _ _ _ => none) outline code o c (.crashed fault)) :
    fault.ofMachine = false := by
  generalize hr : Answer.crashed fault = r at h
  induction h with
  | exit | failed => cases hr
  | next _ _ _ _ _ ih => exact ih hr
  | crashed _ _ _ hstep =>
    cases hr
    exact Setting.move_harmless (Config.perform_eq_crashed hstep)

namespace Setting

variable {p : Pattern} {block code : Block} {start : Nat} {r : Answer} {s : State}
  {outcome : Outcome}

theorem ComesTo.harmless {c : Config} {fault : Fault}
    (h : m.ComesTo block code start c (.crashed fault)) : fault.ofMachine = false := by
  obtain ⟨room, hrun⟩ := h
  exact hrun.harmless

/-! ## Outcomes -/

/-- The outcomes that an answer may lead to. -/
inductive LeadsTo (m : Setting) : Answer → Outcome → Prop where
  | full {r : Answer} (hlimit : m.limits.maxStack ≠ none) :
      LeadsTo m r (.faulted .stackOverflow)
  | matched {pos : Nat} {captures : Array Entry} (result : Match) :
      LeadsTo m (.matched pos captures) (.matched result)
  | unmatched : LeadsTo m .failed .unmatched
  | faulted {r : Answer} {fault : Fault} (hfault : fault.ofMachine = false) :
      LeadsTo m r (.faulted fault)

theorem Concludes.halts (h : Concludes m start r s) (hp : p.Compiled m.program block code)
    (hr : ∀ fault, r = .crashed fault → fault.ofMachine = false) :
    ∃ outcome event, m.step s = .halt outcome event ∧ m.LeadsTo r outcome := by
  cases h with
  | full h =>
    obtain ⟨limit, hlimit, -, -, hstep⟩ := h
    exact ⟨_, _, hstep, .full (by simp [hlimit])⟩
  | matched hinstr =>
    rw [step_done hinstr, finish]
    cases hresolve : (m.resolver s.captures).resolve with
    | ok values => exact ⟨_, _, rfl, .matched _⟩
    | error fault => exact ⟨_, _, rfl, .faulted (Resolver.harmless_resolve _ _ hresolve)⟩
  | failed => exact ⟨_, _, step_gaveUp hp, .unmatched⟩
  | crashed h => exact ⟨_, _, h, .faulted (hr _ rfl)⟩

theorem Ends.leadsTo (h : m.Ends start outcome) (hp : p.Compiled m.program block code)
    (hrun : m.ComesTo block code start ⟨0, start, [], #[]⟩ r) :
    m.LeadsTo r outcome := by
  obtain ⟨-, s, owners, event, hs, hstep⟩ := ends_iff.1 h
  have hconcludes := (hs.tracked hp hrun).concludes hp hstep
  obtain ⟨outcome', event', hstep', hleads⟩ := hconcludes.halts hp fun fault he =>
    (he ▸ hrun).harmless
  rw [hstep] at hstep'
  cases hstep'
  exact hleads

/-- A run without a limit on its stack does not end with a stack that is full. -/
theorem not_ends_overflow (hp : p.compile = .ok m.program) (hstart : start ≤ m.subject.size)
    (hlimit : m.limits.maxStack = none) : ¬ m.Ends start (.faulted .stackOverflow) := by
  intro h
  obtain ⟨block, code, hcompiled⟩ := p.compiled_exists hp
  obtain ⟨r, hrun, -⟩ := hcompiled.runs hstart
  cases h.leadsTo hcompiled hrun with
  | full hne => exact hne hlimit
  | faulted hfault => cases hfault

/-! ## Termination -/

theorem exists_ends (hp : p.compile = .ok m.program) (hstart : start ≤ m.subject.size) :
    ∃ outcome, m.Ends start outcome := by
  obtain ⟨block, code, hcompiled⟩ := p.compiled_exists hp
  obtain ⟨r, hrun, -⟩ := hcompiled.runs hstart
  obtain ⟨s, owners, hs, hconcludes⟩ := exists_concludes hcompiled hrun .start
  obtain ⟨outcome, event, hstep, hleads⟩ := hconcludes.halts hcompiled fun fault he =>
    (he ▸ hrun).harmless
  refine ⟨outcome, hs.ends hstep ?_⟩
  rintro rfl
  cases hleads

/-- **Every run of a compiled pattern halts.** From some number of steps on, its outcome stays the
same, and without a limit on the stack it is not that the stack is full. -/
theorem terminates_of_compile (hp : p.compile = .ok m.program) (start : Nat) :
    ∃ steps outcome log, outcome ≠ .unfinished ∧
      (m.limits.maxStack = none → outcome ≠ .faulted .stackOverflow) ∧
      ∀ more, m.run (steps + more) (m.initial (min start m.subject.size)) #[] = (outcome, log) := by
  have hstart : min start m.subject.size ≤ m.subject.size := Nat.min_le_right _ _
  obtain ⟨outcome, hends⟩ := exists_ends hp hstart
  obtain ⟨hne, steps, log, hrun⟩ := hends
  refine ⟨steps, outcome, log, hne, fun hlimit he => ?_, fun more => run_add hrun hne more⟩
  exact not_ends_overflow hp hstart hlimit (he ▸ ⟨hne, steps, log, hrun⟩)

end Setting

/-- Goes back by one byte. -/
def stepBack : MatchTimeFunction := fun _ pos _ => some (pos - 1, [])

/-- A recursive rule with a capture that sends the match back to its start. -/
def rewinding : Pattern :=
  .grammar (.index 0) [(.index 0,
    .choice
      (.seq (.capture (.matchTime stepBack) (.literal #[97]))
        (.seq (.literal #[97]) (.rule (.index 0))))
      .succeed)]

/-- The program of the recursive rule. -/
def rewindingProgram : Program where
  code := #[.call 2, .jump 9, .choice 7 0, .char 97 0, .openCapture .matchTime 1 1,
    .closeMatchTime, .char 97 0, .call (-5), .commit 1, .ret, .done, .giveUp]
  constants := #[.matchTime stepBack]

theorem compile_rewinding : rewinding.compile = .ok rewindingProgram := rfl

theorem rewinding_terminates :
    ∃ steps outcome log, outcome ≠ .unfinished ∧ outcome ≠ .faulted .stackOverflow ∧
      ∀ more, (⟨rewindingProgram, ⟨none⟩, #[97, 97], []⟩ : Setting).run (steps + more)
        ((⟨rewindingProgram, ⟨none⟩, #[97, 97], []⟩ : Setting).initial 0) #[] = (outcome, log) := by
  obtain ⟨steps, outcome, log, hne, hfull, hrun⟩ :=
    Setting.terminates_of_compile (m := ⟨rewindingProgram, ⟨none⟩, #[97, 97], []⟩)
      compile_rewinding 0
  exact ⟨steps, outcome, log, hne, hfull rfl, hrun⟩

end PegMachine
