import PegMachine.Machine.Step

/-!
# How steps change the stack

* `Instr.pushes`: the instructions that need room on the stack.
* `StackChange`: the ways in which a step may change the pending frames, and what it does to the
  captures when it takes a choice.
* `Setting.stackChange_of_execute`: **every step changes the stack in one of these ways.**
-/

namespace PegMachine

/-- Whether an instruction pushes a frame. -/
def Instr.pushes : Instr → Bool
  | .choice .. | .call _ => true
  | _ => false

/-- How an instruction changes the pending frames on the way from one state to another. -/
inductive StackChange (instr : Instr) (s s' : State) : Prop where
  | keeps (h : s'.stack.frames = s.stack.frames)
  | pushes (frame : Frame) (hinstr : instr.pushes = true)
      (h : s'.stack.frames = frame :: s.stack.frames)
  | returns (address : Nat) (h : s.stack.frames = .ret address :: s'.stack.frames)
  | commits (point : ChoicePoint) (off : Int) (hinstr : instr = .commit off)
      (h : s.stack.frames = .choice point :: s'.stack.frames)
  | renews (point point' : ChoicePoint) (below : List Frame)
      (h : s.stack.frames = .choice point :: below) (h' : s'.stack.frames = .choice point' :: below)
  /-- The choice is taken, and the captures recorded since it was made are given up. -/
  | goesBack (point : ChoicePoint) (above : List Frame)
      (h : s.stack.frames = above ++ .choice point :: s'.stack.frames)
      (hcaptures : s'.captures = s.captures.shrink point.captures)

section

variable {m : Setting} {s s' : State} {instr : Instr} {event event' : Option Event}

theorem StackChange.size_le (h : StackChange instr s s') :
    s'.stack.size ≤ s.stack.size + 1 ∧
      (instr.pushes = false → s'.stack.size ≤ s.stack.size) := by
  rw [s.stack.size_eq, s'.stack.size_eq]
  cases h with
  | keeps h => rw [h]; exact ⟨Nat.le_succ _, fun _ => Nat.le_refl _⟩
  | pushes frame hinstr h =>
    rw [h, List.length_cons]
    exact ⟨Nat.le_refl _, fun hno => by rw [hinstr] at hno; cases hno⟩
  | returns address h =>
    rw [h, List.length_cons]
    exact ⟨by omega, fun _ => Nat.le_succ _⟩
  | commits point off hinstr h =>
    rw [h, List.length_cons]
    exact ⟨by omega, fun _ => Nat.le_succ _⟩
  | renews point point' below h h' =>
    rw [h, h', List.length_cons, List.length_cons]
    exact ⟨by omega, fun _ => Nat.le_refl _⟩
  | goesBack point above h =>
    rw [h, List.length_append, List.length_cons]
    exact ⟨by omega, fun _ => by omega⟩

/-! ## Steps back -/

theorem Stack.unwindFrames?_eq_some {frames : List Frame} {size : Nat}
    {hsize : size = frames.length} {point : ChoicePoint} {below : Stack}
    (h : unwindFrames? frames size hsize = some (point, below)) :
    ∃ above, frames = above ++ .choice point :: below.frames := by
  induction frames generalizing size with
  | nil => cases h
  | cons frame frames ih =>
    cases frame with
    | ret address =>
      obtain ⟨above, rfl⟩ := ih h
      exact ⟨.ret address :: above, rfl⟩
    | choice point' =>
      cases h
      exact ⟨[], rfl⟩

theorem stackChange_of_backtrack {stack : Stack} (above : List Frame)
    (hstack : s.stack.frames = above ++ stack.frames)
    (h : { s with stack := stack }.backtrack event' = .next s' event) : StackChange instr s s' := by
  rw [State.backtrack] at h
  split at h
  · next point below hlatest =>
    cases h
    obtain ⟨passed, hpassed⟩ := Stack.unwindFrames?_eq_some hlatest
    refine .goesBack point (above ++ passed) ?_ rfl
    rw [hstack, show stack.frames = _ from hpassed, List.append_assoc]
  · cases h

theorem stackChange_of_refuse {off : Int} (h : s.refuse off = .next s' event) :
    StackChange instr s s' := by
  rw [State.refuse] at h
  split at h
  · exact stackChange_of_backtrack [] rfl h
  · cases h
    exact .keeps rfl

theorem stackChange_of_test {c : Prop} [Decidable c] {pos : Nat} {off : Int}
    (h : (if c then .next (s.proceedAt pos) none else s.refuse off) = Step.next s' event) :
    StackChange instr s s' := by
  split at h
  · cases h
    exact .keeps rfl
  · exact stackChange_of_refuse h

/-! ## Instructions -/

theorem Setting.next_of_pushFrame {frame : Frame} {off : Int}
    (h : m.pushFrame s frame off = .next s' event) :
    s' = { s with address := s.target off, stack := s.stack.push frame } := by
  unfold Setting.pushFrame at h
  dsimp only at h
  split at h
  · cases h
  · cases h
    rfl

theorem stackChange_of_pushFrame {frame : Frame} {off : Int} (hinstr : instr.pushes = true)
    (h : m.pushFrame s frame off = .next s' event) : StackChange instr s s' := by
  rw [Setting.next_of_pushFrame h]
  exact .pushes frame hinstr rfl

theorem State.popChoice_eq_next {use : ChoicePoint → State → Step}
    (h : s.popChoice use = .next s' event) :
    ∃ point stack, s.stack.frames = .choice point :: stack.frames ∧
      use point { s with stack := stack } = .next s' event := by
  rw [State.popChoice] at h
  split at h
  · next point stack hpop =>
    rw [Stack.pop?_eq_some_iff] at hpop
    exact ⟨point, stack, by rw [hpop, Stack.frames_push], h⟩
  · cases h

/-- The function of a matcher moves forward within the subject, or the step goes back. -/
theorem Setting.next_of_runMatcher {f : Matcher} (h : m.runMatcher s f = .next s' event) :
    (∃ next, s.pos ≤ next ∧ next ≤ m.subject.size ∧ s' = s.proceedAt next) ∨
      ∃ event', s.backtrack event' = .next s' event := by
  rw [Setting.runMatcher] at h
  split at h
  · exact .inr ⟨_, h⟩
  · next next _ =>
    split at h
    · next hbounds =>
      cases h
      exact .inl ⟨next, hbounds.1, hbounds.2, rfl⟩
    · exact .inr ⟨_, h⟩

theorem stackChange_of_closeMatchTime (h : m.closeMatchTime s = .next s' event) :
    StackChange instr s s' := by
  unfold Setting.closeMatchTime at h
  split at h
  · cases h
  · split at h
    · split at h
      · dsimp only at h
        split at h
        · cases h
        · rw [Array.pop_push] at h
          split at h
          · exact stackChange_of_backtrack [] rfl h
          · split at h
            · cases h
              exact .keeps rfl
            · exact stackChange_of_backtrack [] rfl h
      · cases h
    · cases h

/-- **Every step changes the stack in one of these ways.** -/
theorem Setting.stackChange_of_execute (h : m.execute s instr = .next s' event) :
    StackChange instr s s' := by
  cases instr with
  | any | char | set => exact stackChange_of_test h
  | span | jump | fullCapture | emptyCapture | emptyCaptureConst | openCapture =>
    cases h
    exact .keeps rfl
  | closeCapture =>
    cases h
    refine .keeps ?_
    unfold Setting.closeCapture
    split <;> rfl
  | ret =>
    rw [Setting.execute] at h
    split at h
    · next address stack hpop =>
      cases h
      rw [Stack.pop?_eq_some_iff] at hpop
      exact .returns address (by rw [hpop, Stack.frames_push])
    · cases h
  | done | giveUp | openCall => cases h
  | choice | call => exact stackChange_of_pushFrame rfl h
  | commit off =>
    rw [Setting.execute] at h
    obtain ⟨point, stack, hstack, hnext⟩ := State.popChoice_eq_next h
    cases hnext
    exact .commits point off rfl hstack
  | partialCommit off =>
    rw [Setting.execute] at h
    obtain ⟨point, stack, hstack, hnext⟩ := State.popChoice_eq_next h
    cases hnext
    exact .renews point _ stack.frames hstack rfl
  | backCommit off =>
    rw [Setting.execute] at h
    obtain ⟨point, stack, hstack, hnext⟩ := State.popChoice_eq_next h
    cases hnext
    exact .goesBack point [] hstack rfl
  | failTwice =>
    refine stackChange_of_backtrack (s.stack.frames.take 1) ?_ h
    rw [Stack.frames_drop, ← List.drop_one, List.take_append_drop]
  | fail => exact stackChange_of_backtrack [] rfl h
  | matcher index =>
    rw [Setting.execute] at h
    split at h
    · obtain ⟨next, -, -, rfl⟩ | ⟨event', hback⟩ := Setting.next_of_runMatcher h
      · exact .keeps rfl
      · exact stackChange_of_backtrack [] rfl hback
    · cases h
  | closeMatchTime => exact stackChange_of_closeMatchTime h

end

end PegMachine
