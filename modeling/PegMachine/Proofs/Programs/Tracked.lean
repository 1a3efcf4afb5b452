import PegMachine.Proofs.Machine.Tracking
import PegMachine.Proofs.Programs.Compiled

/-!
# Runs of compiled programs

* `Setting.Tracked`: a state of the machine stands for a configuration whose run comes to an answer,
  or the machine has given up on an answer that is a failure.
* `Setting.Tracked.step`: what one step leads to is tracked again; `Setting.Reaches.tracked`: **every
  state that a run comes by is tracked.**
* `Setting.Concludes`: how a run ends that comes to an answer. `Setting.exists_concludes_within`:
  **every run does**, and how much room it takes.
-/

namespace PegMachine

namespace Setting

/-- A state stands for a configuration whose run comes to an answer, or the machine has given up. -/
inductive Tracked (m : Setting) (start : Nat) (block code : Block) (r : Answer) :
    State → List (Option Nat) → Prop where
  | running {c : Config} (hrun : m.ComesTo block code start c r) :
      Tracked m start block code r (m.stateOf start c) (ownersOf c.frames)
  | gaveUp (hr : r = .failed) : Tracked m start block code r (m.gaveUp start) []

/-- The last state of a run that comes to an answer. -/
inductive Concludes (m : Setting) (start : Nat) : Answer → State → Prop where
  | full {r : Answer} {s : State} {depth : Nat} (h : m.Overflows depth (m.step s)) :
    Concludes m start r s
  | matched {s : State} (hinstr : m.program.code[s.address]? = some .done) :
      Concludes m start (.matched s.pos s.captures) s
  | failed : Concludes m start .failed (m.gaveUp start)
  | crashed {s : State} {fault : Fault} (h : m.step s = .crash fault) :
      Concludes m start (.crashed fault) s

variable {m : Setting} {p : Pattern} {block code : Block} {start : Nat} {r : Answer} {s : State}
  {owners : List (Option Nat)}

/-! ## Steps -/

theorem step_of_getElem? {instr : Instr} (h : m.program.code[s.address]? = some instr) :
    m.step s = m.execute s instr := by
  rw [step, h]

theorem step_done (h : m.program.code[s.address]? = some .done) : m.step s = m.finish s :=
  step_of_getElem? h

theorem step_gaveUp (h : p.Compiled m.program block code) :
    m.step (m.gaveUp start) = .halt .unmatched (some .matchFailed) := by
  have hinstr : m.program.code[(m.gaveUp start).address]? = some .giveUp := h.getElem?_giveUp
  rw [step_of_getElem? hinstr]
  rfl

theorem Reaches.ends_of_overflows {depth : Nat} (h : m.Reaches start s owners)
    (hover : m.Overflows depth (m.step s)) : m.Ends start (.faulted .stackOverflow) := by
  obtain ⟨limit, -, -, -, hstep⟩ := hover
  exact h.ends hstep nofun

theorem getElem?_stateOf (start : Nat) (h : p.Compiled m.program block code) {c : Config}
    (haddr : c.address = code.length) :
    m.program.code[(m.stateOf start c).address]? = some .done := by
  show m.program.code[c.address]? = _
  rw [haddr]
  exact h.getElem?_done

theorem follows_step (start : Nat) (h : p.Compiled m.program block code) {c : Config}
    {instr : Instr} {progress : Progress} (hinstr : code[c.address]? = some instr)
    (hmove : c.perform (m.move (fun _ _ _ => none) c.pos c.captures instr) = progress) :
    m.Follows start progress (m.step (m.stateOf start c)) := by
  rw [step_of_getElem? (s := m.stateOf start c) (h.getElem?_of_code hinstr), ← hmove]
  exact follows_execute instr

/-- The machine makes the step of the run that a state stands for, or gives up with it. -/
theorem step_of_run (h : p.Compiled m.program block code) {c : Config} {s' : State}
    {event : Option Event} (hrun : m.ComesTo block code start c r)
    (hstep : m.step (m.stateOf start c) = .next s' event) :
    (∃ c' instr, code[c.address]? = some instr ∧
      c.perform (m.move (fun _ _ _ => none) c.pos c.captures instr) = .next c' ∧
      s' = m.stateOf start c' ∧ m.ComesTo block code start c' r) ∨
      r = .failed ∧ s' = m.gaveUp start := by
  obtain ⟨room, hrun⟩ := hrun
  cases hrun with
  | exit haddr =>
    rw [step_done (getElem?_stateOf start h haddr), finish] at hstep
    cases hstep
  | next hinstr _ _ hmove hrun' =>
    rcases follows_step start h hinstr hmove with ⟨event', hnext⟩ | ⟨limit, -, -, -, hfull⟩
    · rw [hstep] at hnext
      cases hnext
      exact .inl ⟨_, _, hinstr, hmove, rfl, room, hrun'⟩
    · rw [hstep] at hfull
      cases hfull
  | failed hinstr _ _ hmove =>
    obtain ⟨event', hnext⟩ := follows_step start h hinstr hmove
    rw [hstep] at hnext
    cases hnext
    exact .inr ⟨rfl, rfl⟩
  | crashed hinstr _ _ hmove =>
    have hcrash : m.step (m.stateOf start c) = .crash _ := follows_step start h hinstr hmove
    rw [hstep] at hcrash
    cases hcrash

/-- **What one step leads to is tracked again.** -/
theorem Tracked.step (ht : Tracked m start block code r s owners)
    (h : p.Compiled m.program block code) {s' : State} {event : Option Event}
    (hstep : m.step s = .next s' event) :
    Tracked m start block code r s' (ownersAfter s s' owners) := by
  cases ht with
  | running hrun =>
    rcases step_of_run h hrun hstep with ⟨c', instr, -, hmove, rfl, hrun'⟩ | ⟨hr, rfl⟩
    · rw [ownersAfter_perform hmove]
      exact .running hrun'
    · rw [ownersAfter_gaveUp]
      exact .gaveUp hr
  | gaveUp =>
    rw [step_gaveUp h] at hstep
    cases hstep

/-- **Every state that a run comes by is tracked.** -/
theorem Reaches.tracked (hs : m.Reaches start s owners) (h : p.Compiled m.program block code)
    (hrun : m.ComesTo block code start ⟨0, start, [], #[]⟩ r) :
    Tracked m start block code r s owners := by
  induction hs with
  | start => exact .running hrun
  | step _ hstep ih => exact ih.step h hstep

/-- What holds of the configuration of a run at the start, and after each step, holds of each state
that the run comes by. -/
theorem Reaches.exists_config {K : Config → Prop} (hs : m.Reaches start s owners)
    (h : p.Compiled m.program block code) (hrun : m.ComesTo block code start ⟨0, start, [], #[]⟩ r)
    (hstart : K ⟨0, start, [], #[]⟩)
    (hK : ∀ {c c' instr}, code[c.address]? = some instr →
      c.perform (m.move (fun _ _ _ => none) c.pos c.captures instr) = .next c' → K c → K c') :
    s = m.gaveUp start ∨
      ∃ c, s = m.stateOf start c ∧ m.ComesTo block code start c r ∧ K c := by
  induction hs with
  | start => exact .inr ⟨_, rfl, hrun, hstart⟩
  | step _ hstep ih =>
    rcases ih with rfl | ⟨c, rfl, hrun, hc⟩
    · rw [step_gaveUp h] at hstep
      cases hstep
    · rcases step_of_run h hrun hstep with ⟨c', instr, hinstr, hmove, rfl, hrun'⟩ | ⟨-, rfl⟩
      · exact .inr ⟨c', rfl, hrun', hK hinstr hmove hc⟩
      · exact .inl rfl

/-! ## Ends -/

theorem Tracked.concludes (ht : Tracked m start block code r s owners)
    (h : p.Compiled m.program block code) {outcome : Outcome} {event : Option Event}
    (hstep : m.step s = .halt outcome event) : Concludes m start r s := by
  cases ht with
  | @running c hrun =>
    obtain ⟨room, hrun⟩ := hrun
    cases hrun with
    | exit haddr => exact .matched (s := m.stateOf start c) (getElem?_stateOf start h haddr)
    | next hinstr _ _ hmove =>
      rcases follows_step start h hinstr hmove with ⟨event', hnext⟩ | hfull
      · rw [hstep] at hnext
        cases hnext
      · exact .full hfull
    | failed hinstr _ _ hmove =>
      obtain ⟨event', hnext⟩ := follows_step start h hinstr hmove
      rw [hstep] at hnext
      cases hnext
    | crashed hinstr _ _ hmove => exact .crashed (follows_step start h hinstr hmove)
  | gaveUp hr =>
    subst hr
    exact .failed

theorem Tracked.eq_matched (ht : Tracked m start block code r s owners)
    (h : p.Compiled m.program block code) (hdone : m.program.code[s.address]? = some .done) :
    r = .matched s.pos s.captures := by
  cases ht with
  | @running c hrun =>
    obtain ⟨room, hrun⟩ := hrun
    cases hrun with
    | exit => rfl
    | next hinstr _ _ hmove | failed hinstr _ _ hmove | crashed hinstr _ _ hmove =>
      have hdone' : m.program.code[c.address]? = some .done := hdone
      rw [h.getElem?_of_code hinstr] at hdone'
      cases hdone'
      cases hmove
  | gaveUp =>
    have hdone' : m.program.code[m.program.size - 1]? = some .done := hdone
    rw [h.getElem?_giveUp] at hdone'
    cases hdone'

/-- **Every run comes to an end**, and it runs out of stack only where the room that its answer takes
is too much. -/
theorem exists_concludes_within {room : Nat} (h : p.Compiled m.program block code) {c : Config}
    (hrun : Run m (fun _ _ _ => none) block code ⟨start, #[], room⟩ c r)
    (hs : m.Reaches start (m.stateOf start c) owners) :
    ∃ s owners, m.Reaches start s owners ∧ Concludes m start r s ∧
      ∀ depth, m.Overflows depth (m.step s) → m.Overflows room (m.step s) := by
  induction hrun generalizing owners with
  | @exit c haddr =>
    have hdone := getElem?_stateOf start h haddr
    refine ⟨_, _, hs, .matched (s := m.stateOf start c) hdone, fun depth hfull => ?_⟩
    obtain ⟨limit, -, -, -, hfull⟩ := hfull
    simp [step_done hdone, finish] at hfull
  | next hinstr _ _ hmove hrun ih =>
    rcases follows_step start h hinstr hmove with ⟨event, hnext⟩ | hfull
    · exact ih (hs.step hnext)
    · refine ⟨_, _, hs, .full hfull, fun _ _ => ?_⟩
      obtain ⟨limit, hlimit, hpos, hle, hstep⟩ := hfull
      have hroom := hrun.sound.room
      exact ⟨limit, hlimit, Nat.lt_of_lt_of_le hpos hroom, Nat.le_trans hle hroom, hstep⟩
  | failed hinstr _ _ hmove =>
    obtain ⟨event, hnext⟩ := follows_step start h hinstr hmove
    refine ⟨_, _, hs.step hnext, .failed, fun depth hfull => ?_⟩
    obtain ⟨limit, -, -, -, hfull⟩ := hfull
    rw [step_gaveUp h] at hfull
    cases hfull
  | crashed hinstr _ _ hmove =>
    have hcrash : m.step (m.stateOf start _) = .crash _ := follows_step start h hinstr hmove
    refine ⟨_, _, hs, .crashed hcrash, fun depth hfull => ?_⟩
    obtain ⟨limit, -, -, -, hfull⟩ := hfull
    rw [hcrash] at hfull
    cases hfull

theorem exists_concludes (h : p.Compiled m.program block code) {c : Config}
    (hrun : m.ComesTo block code start c r) (hs : m.Reaches start (m.stateOf start c) owners) :
    ∃ s owners, m.Reaches start s owners ∧ Concludes m start r s := by
  obtain ⟨room, hrun⟩ := hrun
  obtain ⟨s, owners, hs, hconcludes, -⟩ := exists_concludes_within h hrun hs
  exact ⟨s, owners, hs, hconcludes⟩

end Setting

end PegMachine
