import PegMachine.Proofs.Captures.Segments
import PegMachine.Proofs.Nesting.Compiled
import PegMachine.Proofs.Programs.Tracked

/-!
# Layers of a state

What is pending and what has been recorded, in line with the nest of an address.

* `Setting.Since`: the steps since a state, along which frames stay pending and entries recorded.
* `Setting.Opening`, `Setting.ChosenAt`: the state that recorded the start of a capture, and the one
  right after a choice was made.
* `Setting.Stands`: the frames and the entries of a state, one layer for each part of a nest.
* `Setting.Stands.advance`: **layers whose frames and entries stay are still there after a step.**
* `Setting.Stands.latest`: **the latest choice finds the captures that were recorded when it was
  made.**
-/

namespace PegMachine

/-- Whether an instruction makes a choice or moves one. -/
def Instr.chooses : Instr → Bool
  | .choice .. | .partialCommit _ => true
  | _ => false

namespace Setting

/-! ## Histories -/

/-- Steps from one state to another, along which frames stay pending and entries recorded. -/
inductive Since (m : Setting) (frames : List Frame) (entries : List Entry) (s : State) :
    State → Prop where
  | refl (hframes : frames <:+ s.stack.frames) (hentries : entries <+: s.captures.toList) :
      Since m frames entries s s
  | step {s' s'' : State} {event : Option Event} (h : Since m frames entries s s')
      (hstep : m.step s' = .next s'' event) (hframes : frames <:+ s''.stack.frames)
      (hentries : entries <+: s''.captures.toList) : Since m frames entries s s''

/-- State `s₀` recorded the start of a capture. Since then the frames that were pending have stayed,
and so have the entries up to that start. -/
structure Opening (m : Setting) (start : Nat) (kind : CaptureKind) (index begun : Nat)
    (s₀ s : State) : Prop where
  reached : ∃ owners, m.Reaches start s₀ owners
  opens : ∃ back, m.program.code[s₀.address]? = some (.openCapture kind back index) ∧
    begun + back = s₀.pos
  since : ∃ s₁ event, m.step s₀ = .next s₁ event ∧
    m.Since s₀.stack.frames (s₀.captures.toList ++ [.opened kind index begun]) s₁ s

/-- State `s₂` is right after a choice was made, or moved. Since then the choice has stayed, and so
have the frames below it and the entries that were recorded. -/
structure ChosenAt (m : Setting) (start : Nat) (point : ChoicePoint) (below : List Frame)
    (s₂ s : State) : Prop where
  made : s₂ = m.initial start ∨ ∃ s₁ owners instr event, m.Reaches start s₁ owners ∧
    m.program.code[s₁.address]? = some instr ∧ instr.chooses = true ∧ m.step s₁ = .next s₂ event
  frames : s₂.stack.frames = .choice point :: below
  captures : s₂.captures.size = point.captures
  since : m.Since (.choice point :: below) s₂.captures.toList s₂ s

section

variable {m : Setting} {start index begun : Nat} {kind : CaptureKind} {frames below : List Frame}
  {entries : List Entry} {point : ChoicePoint} {s s₀ s₂ s' : State} {event : Option Event}

theorem Since.recorded (h : m.Since frames entries s₀ s) : entries <+: s.captures.toList := by
  cases h with
  | refl _ hentries => exact hentries
  | step _ _ _ hentries => exact hentries

theorem Opening.advance (h : m.Opening start kind index begun s₀ s)
    (hstep : m.step s = .next s' event) (hframes : s₀.stack.frames <:+ s'.stack.frames)
    (hentries : s₀.captures.toList ++ [.opened kind index begun] <+: s'.captures.toList) :
    m.Opening start kind index begun s₀ s' := by
  obtain ⟨s₁, event₁, hopen, hsince⟩ := h.since
  exact ⟨h.reached, h.opens, s₁, event₁, hopen, hsince.step hstep hframes hentries⟩

theorem ChosenAt.advance (h : m.ChosenAt start point below s₂ s)
    (hstep : m.step s = .next s' event) (hframes : .choice point :: below <:+ s'.stack.frames)
    (hentries : s₂.captures.toList <+: s'.captures.toList) :
    m.ChosenAt start point below s₂ s' :=
  ⟨h.made, h.frames, h.captures, h.since.step hstep hframes hentries⟩

theorem ChosenAt.initial (m : Setting) (start : Nat) :
    m.ChosenAt start (m.lastResort start) [] (m.initial start) (m.initial start) :=
  ⟨.inl rfl, rfl, rfl, .refl (List.suffix_refl _) (List.prefix_refl _)⟩

/-- Going back to a choice brings back the captures that were recorded when it was made. -/
theorem ChosenAt.shrink (h : m.ChosenAt start point below s₂ s) :
    s.captures.shrink point.captures = s₂.captures := by
  obtain ⟨more, hmore⟩ := h.since.recorded
  apply Array.toList_inj.1
  rw [← h.captures, Array.shrink_eq_take, Array.take_eq_extract, Array.toList_extract, ← hmore]
  simp

end

/-! ## Layers -/

/-- The frames that are pending and the entries that have been recorded, in line with a nest. The
entries of the innermost layer reach up to a position. -/
inductive Stands (m : Setting) (place : Nat → Place) (start : Nat) (s : State) :
    Nest → List Frame → List Entry → Nat → Prop where
  | hole {hi : Nat} {captures : List Capture} {entries : List Entry}
      (hspells : Spells m.program start captures hi entries)
      (hchosen : m.ChosenAt start (m.lastResort start) [] (m.initial start) s) :
      Stands m place start s .hole [.choice (m.lastResort start)] entries hi
  | rule {lo hi address : Nat} {frames : List Frame} {captures : List Capture}
      {entries nested : List Entry}
      (h : Stands m place start s (place address).nest frames entries lo)
      (hlag : (place address).lag = 0) (hspells : Spells m.program lo captures hi nested) :
      Stands m place start s .rule (.ret address :: frames) (entries ++ nested) hi
  | opened {lo hi ordinal index begun : Nat} {kind : CaptureKind} {nest : Nest}
      {frames : List Frame} {captures : List Capture} {entries nested : List Entry} {s₀ : State}
      (h : Stands m place start s nest frames entries lo) (hlo : lo ≤ begun)
      (hspells : Spells m.program begun captures hi nested)
      (hopening : m.Opening start kind index begun s₀ s) (hframes : s₀.stack.frames = frames)
      (hentries : s₀.captures.toList = entries) (hstarts : (place s₀.address).starts = ordinal) :
      Stands m place start s (.opened ordinal kind index nest) frames
        (entries ++ .opened kind index begun :: nested) hi
  | chosen {lo hi : Nat} {point : ChoicePoint} {frames : List Frame} {captures : List Capture}
      {entries nested : List Entry} {s₂ : State}
      (h : Stands m place start s (place point.address).nest frames entries lo)
      (hlag : (place point.address).lag = 0) (hlo : lo ≤ point.pos)
      (hpos : point.pos ≤ m.subject.size) (hspells : Spells m.program lo captures hi nested)
      (hchosen : m.ChosenAt start point frames s₂ s) (hentries : s₂.captures.toList = entries) :
      Stands m place start s (.chosen (place point.address).nest) (.choice point :: frames)
        (entries ++ nested) hi

namespace Stands

variable {m : Setting} {place : Nat → Place} {start lo hi : Nat} {nest : Nest}
  {frames : List Frame} {captures : List Capture} {entries nested : List Entry} {s s' : State}
  {event : Option Event}

/-- Captures that are recorded on top belong to the innermost layer. -/
theorem extend (h : m.Stands place start s nest frames entries lo)
    (hspells : Spells m.program lo captures hi nested) :
    m.Stands place start s nest frames (entries ++ nested) hi := by
  cases h with
  | hole hbefore hchosen => exact .hole (hbefore.append hspells) hchosen
  | rule h hlag hbefore =>
    rw [List.append_assoc]
    exact .rule h hlag (hbefore.append hspells)
  | opened h hlo hbefore hopening hframes hentries hstarts =>
    rw [List.append_assoc, List.cons_append]
    exact .opened h hlo (hbefore.append hspells) hopening hframes hentries hstarts
  | chosen h hlag hlo hpos hbefore hchosen hentries =>
    rw [List.append_assoc]
    exact .chosen h hlag hlo hpos (hbefore.append hspells) hchosen hentries

/-- **Layers whose frames and entries stay are still there after a step.** -/
theorem advance (h : m.Stands place start s nest frames entries hi)
    (hstep : m.step s = .next s' event) (hframes : frames <:+ s'.stack.frames)
    (hentries : entries <+: s'.captures.toList) :
    m.Stands place start s' nest frames entries hi := by
  induction h with
  | hole hspells hchosen => exact .hole hspells (hchosen.advance hstep hframes List.nil_prefix)
  | @rule _ _ _ _ _ _ nested _ hlag hspells ih =>
    exact .rule (ih ((List.suffix_cons ..).trans hframes) ((List.prefix_append ..).trans hentries))
      hlag hspells
  | @opened _ _ _ index begun kind _ _ _ entries nested s₀ _ hlo hspells hopening hpending hrecorded
      hstarts ih =>
    refine .opened (ih hframes ((List.prefix_append ..).trans hentries)) hlo hspells
      (hopening.advance hstep (hpending ▸ hframes) ?_) hpending hrecorded hstarts
    rw [hrecorded]
    refine List.IsPrefix.trans ?_ hentries
    exact (List.prefix_append_right_inj entries).2 (List.prefix_append [_] nested)
  | chosen _ hlag hlo hpos hspells hchosen hrecorded ih =>
    have hbelow := (List.prefix_append ..).trans hentries
    exact .chosen (ih ((List.suffix_cons ..).trans hframes) hbelow) hlag hlo hpos hspells
      (hchosen.advance hstep hframes (hrecorded ▸ hbelow)) hrecorded

/-- **The latest choice finds the captures that were recorded when it was made.** It is the one at
the bottom of the stack, or what is open at its address is what is left of the layers. -/
theorem latest (h : m.Stands place start s nest frames entries hi) {stack : Stack}
    (hstack : stack.frames = frames) :
    ∃ point below s₂, stack.unwind? = some (point, below) ∧
      m.ChosenAt start point below.frames s₂ s ∧ s₂.captures.toList <+: entries ∧
      (point = m.lastResort start ∧ below = .empty ∨
        ∃ lo, m.Stands place start s (place point.address).nest below.frames s₂.captures.toList lo ∧
          (place point.address).lag = 0 ∧ lo ≤ point.pos ∧ point.pos ≤ m.subject.size) := by
  induction h generalizing stack with
  | hole hspells hchosen =>
    obtain rfl : stack = Stack.empty.push (.choice (m.lastResort start)) := Stack.ext hstack
    exact ⟨_, _, _, Stack.unwind?_push_choice _ _, hchosen, List.nil_prefix, .inl ⟨rfl, rfl⟩⟩
  | @rule _ _ address frames _ _ _ _ _ _ ih =>
    obtain rfl : stack = (Stack.ofFrames frames).push (.ret address) := Stack.ext hstack
    obtain ⟨point, below, s₂, hlatest, hchosen, hprefix, hrest⟩ := @ih (.ofFrames frames) rfl
    exact ⟨point, below, s₂, by rw [Stack.unwind?_push_ret, hlatest], hchosen,
      hprefix.trans (List.prefix_append ..), hrest⟩
  | opened _ _ _ _ _ _ _ ih =>
    obtain ⟨point, below, s₂, hlatest, hchosen, hprefix, hrest⟩ := ih hstack
    exact ⟨point, below, s₂, hlatest, hchosen, hprefix.trans (List.prefix_append ..), hrest⟩
  | @chosen lo _ point frames _ _ _ s₂ h hlag hlo hpos hspells hchosen hentries =>
    obtain rfl : stack = (Stack.ofFrames frames).push (.choice point) := Stack.ext hstack
    refine ⟨point, _, s₂, Stack.unwind?_push_choice _ _, hchosen, ?_, .inr ⟨lo, ?_, hlag, hlo, hpos⟩⟩
    · rw [hentries]
      exact List.prefix_append ..
    · rw [hentries]
      exact h

theorem visible (h : m.Stands place start s nest frames entries hi) {r : Resolver}
    (hprogram : r.program = m.program) (hhi : hi ≤ r.subject.size)
    (hentries : entries <+: r.entries.toList) : ∃ bindings, Visible r entries.length bindings := by
  induction h with
  | hole hspells =>
    have hcovers := hspells.covers_leading [] hentries
    rw [← hprogram] at hcovers
    exact hcovers.visible hhi .start
  | rule _ _ hspells ih | chosen _ _ _ _ hspells _ _ ih =>
    have hle := hspells.le_span
    obtain ⟨bindings, hv⟩ := ih (by omega) ((List.prefix_append ..).trans hentries)
    have hcovers := hspells.covers_leading _ hentries
    rw [← hprogram] at hcovers
    exact hcovers.visible hhi hv
  | @opened _ _ _ index begun kind _ _ _ entries nested _ _ hlo hspells _ _ _ _ ih =>
    have hle := hspells.le_span
    obtain ⟨bindings, hv⟩ := ih (by omega) ((List.prefix_append ..).trans hentries)
    rw [List.append_cons] at hentries ⊢
    have hcovers := hspells.covers_leading _ hentries
    rw [← hprogram, List.length_append, List.length_singleton] at hcovers
    exact hcovers.visible hhi (hv.opened (getElem?_leading
      ((List.prefix_append ..).trans hentries)))

end Stands

end Setting

end PegMachine
