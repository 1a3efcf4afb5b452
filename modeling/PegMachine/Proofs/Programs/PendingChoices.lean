import PegMachine.Proofs.Machine.StackChanges
import PegMachine.Proofs.Nesting.Steps
import PegMachine.Proofs.Programs.Ends

/-!
# Pending choices and recorded captures

* `Setting.Stands.chosenAt`: every pending choice has been there since it was made or moved.
* `StackChange.of_taken`: a step that takes a choice off the stack commits to it or goes back to it.
* `Setting.chosenAt_of_compile`: **the captures up to the number that a pending choice notes are the
  ones that were recorded when it was made, and going back to the choice leaves just these.**
-/

namespace PegMachine

/-- A step that takes a choice off the stack, and whatever is above it, commits to the choice or
gives up the captures recorded since it was made. -/
theorem StackChange.of_taken {instr : Instr} {s s' : State} {above : List Frame}
    {point : ChoicePoint} (h : StackChange instr s s')
    (hframes : s.stack.frames = above ++ .choice point :: s'.stack.frames) :
    (∃ off, instr = .commit off) ∨ s'.captures = s.captures.shrink point.captures := by
  have hlength := congrArg List.length hframes
  rw [List.length_append, List.length_cons] at hlength
  cases h with
  | keeps h =>
    rw [h] at hlength
    omega
  | pushes frame _ h =>
    rw [h, List.length_cons] at hlength
    omega
  | returns address h =>
    cases above with
    | nil =>
      rw [h] at hframes
      cases hframes
    | cons frame above =>
      rw [h, List.length_cons, List.length_cons] at hlength
      omega
  | commits _ off hinstr => exact .inl ⟨off, hinstr⟩
  | renews _ _ below h h' =>
    rw [h, h', List.length_cons, List.length_cons] at hlength
    omega
  | goesBack point' above' h hcaptures =>
    rw [h] at hframes
    obtain ⟨-, heq⟩ := List.append_inj' hframes rfl
    cases heq
    exact .inr hcaptures

namespace Setting

variable {m : Setting} {p : Pattern} {place : Nat → Place} {start hi : Nat} {nest : Nest}
  {above frames below : List Frame} {entries : List Entry} {point : ChoicePoint} {s : State}
  {owners : List (Option Nat)}

/-- Every pending choice has been there since it was made or moved, and the entries that were
recorded by then are still recorded. -/
theorem Stands.chosenAt (h : m.Stands place start s nest frames entries hi)
    (hframes : frames = above ++ .choice point :: below) :
    ∃ s₂, m.ChosenAt start point below s₂ s := by
  induction h generalizing above with
  | hole _ hchosen =>
    cases above with
    | nil =>
      cases hframes
      exact ⟨_, hchosen⟩
    | cons frame above => simp at hframes
  | rule _ _ _ ih =>
    cases above with
    | nil => cases hframes
    | cons frame above => exact ih (List.cons.inj hframes).2
  | opened _ _ _ _ _ _ _ ih => exact ih hframes
  | chosen _ _ _ _ _ hchosen _ ih =>
    cases above with
    | nil =>
      cases hframes
      exact ⟨_, hchosen⟩
    | cons frame above => exact ih (List.cons.inj hframes).2

/-- **The captures up to the number that a pending choice notes are the ones that were recorded when
it was made.** In any state that a run of a compiled pattern comes by, and for any choice that is
pending there, let `s₂` be the state right after the choice was pushed, or last moved on. Its
captures are as many as the choice notes, and they are still the first ones. A step that takes the
choice off the stack leaves just these, unless it commits to the choice. -/
theorem chosenAt_of_compile (hp : p.compile = .ok m.program) (start : Nat)
    (hreach : m.Reaches (min start m.subject.size) s owners)
    (hframes : s.stack.frames = above ++ .choice point :: below) :
    ∃ s₂, m.ChosenAt (min start m.subject.size) point below s₂ s ∧
      point.captures ≤ s.captures.size ∧
      s.captures.extract 0 point.captures = s₂.captures ∧
      ∀ s' event, m.step s = .next s' event → s'.stack.frames = below →
        s'.captures = s₂.captures ∨
          ∃ off, m.program.code[s.address]? = some (.commit off) := by
  obtain ⟨block, code, hcompiled⟩ := p.compiled_exists hp
  obtain ⟨place, hplaced⟩ := hcompiled.placed
  obtain ⟨s₂, hchosen⟩ : ∃ s₂, m.ChosenAt (min start m.subject.size) point below s₂ s := by
    cases inPlace_of_reaches hcompiled hplaced (Nat.min_le_right _ _) hreach with
    | within h _ hpending => exact h.chosenAt (hpending.symm.trans hframes)
    | gaveUp =>
      have hnone : ([] : List Frame) = above ++ .choice point :: below := hframes
      simp at hnone
  have hsize : point.captures ≤ s.captures.size := by
    rw [← hchosen.captures]
    exact hchosen.since.recorded.length_le
  have hshrink := hchosen.shrink
  refine ⟨s₂, hchosen, hsize, ?_, fun s' event hstep hbelow => ?_⟩
  · rwa [Array.shrink_eq_take, Array.take_eq_extract] at hshrink
  · cases hinstr : m.program.code[s.address]? with
    | none =>
      rw [step, hinstr] at hstep
      cases hstep
    | some instr =>
      rw [step_of_getElem? hinstr] at hstep
      rcases (stackChange_of_execute hstep).of_taken (hbelow ▸ hframes) with ⟨off, rfl⟩ | hcaptures
      · exact .inr ⟨off, rfl⟩
      · exact .inl (hcaptures.trans hshrink)

end Setting

theorem rewinding_chosenAt :
    let m : Setting := ⟨rewindingProgram, {}, #[97, 97], []⟩
    let s : State := ⟨5, 1,
      ((Stack.empty.push (.choice ⟨11, 0, 0⟩)).push (.ret 1)).push (.choice ⟨9, 0, 0⟩),
      #[.opened .matchTime 1 0]⟩
    ∃ s₂, m.ChosenAt 0 ⟨9, 0, 0⟩ [.ret 1, .choice ⟨11, 0, 0⟩] s₂ s ∧
      0 ≤ s.captures.size ∧
      s.captures.extract 0 0 = s₂.captures ∧
      ∀ s' event, m.step s = .next s' event →
        s'.stack.frames = [.ret 1, .choice ⟨11, 0, 0⟩] →
        s'.captures = s₂.captures ∨ ∃ off, m.program.code[s.address]? = some (.commit off) := by
  intro m s
  have hs : ∃ owners, m.Reaches (min 0 m.subject.size) s owners :=
    ⟨_, .step (.step (.step (.step .start rfl) rfl) rfl) rfl⟩
  obtain ⟨owners, hs⟩ := hs
  have hframes : s.stack.frames = [] ++ .choice ⟨9, 0, 0⟩ :: [.ret 1, .choice ⟨11, 0, 0⟩] := rfl
  exact Setting.chosenAt_of_compile compile_rewinding 0 hs hframes

end PegMachine
