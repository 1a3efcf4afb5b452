import PegMachine.Proofs.Blocks.Sequences
import PegMachine.Proofs.Captures.Brackets

/-!
# Captures around blocks

* `EncloseForm`: the forms that the code of a capture takes.
* `Block.runs_fullCapture`, `Block.runs_closeCapture`: the entries of a capture around a block.
* `Block.runs_closeMatchTime`: **a match-time capture comes to an end, not before the position and
  not behind the captures at its start**, whatever its function does.
-/

namespace PegMachine

namespace Block

/-- The forms of the code of a capture around a block. -/
inductive EncloseForm (kind : CaptureKind) (index : Nat) (body : Block) : Block → Prop where
  | matchTime (h : kind = .matchTime) :
      EncloseForm kind index body (.openCapture kind 0 index :: (body ++ [.closeMatchTime]))
  | fixed (h : kind ≠ .matchTime) (hchecks : body.all Instr.isCheck = true) :
      EncloseForm kind index body
        (body ++ [.fullCapture kind (width body) index])
  | opened (h : kind ≠ .matchTime) :
      EncloseForm kind index body (.openCapture kind 0 index :: (body ++ [.closeCapture]))

theorem enclose_form {kind : CaptureKind} {index : Nat} {body code : Block}
    (hcode : enclose kind index body = code) : EncloseForm kind index body code := by
  rw [← hcode, enclose]
  split
  · next h => exact .matchTime h
  · next h =>
    split
    · next length hlength =>
      rw [fixedLength?] at hlength
      split at hlength
      · next hchecks =>
        rw [Bool.and_eq_true] at hchecks
        cases hlength
        exact .fixed h hchecks.1
      · cases hlength
    · exact .opened h

theorem contained_enclose {body : Block} (kind : CaptureKind) (index : Nat)
    (hcont : Contained body) : Contained (enclose kind index body) := by
  have single : ∀ instr : Instr, instr.offset? = none → Contained [instr] := by
    intro instr hinstr
    exact contained_of_offset?_eq_none (by simp [hinstr])
  have around : ∀ first last : Instr, first.offset? = none → last.offset? = none →
      Contained (first :: (body ++ [last])) := by
    intro first last hfirst hlast
    exact contained_append (single first hfirst) (contained_append hcont (single last hlast))
  generalize hcode : enclose kind index body = code
  cases enclose_form hcode with
  | matchTime | opened => exact around _ _ rfl rfl
  | fixed => exact contained_append hcont (single _ rfl)

section

variable {m : Setting} {answers : Answers} {room pos : Nat} {captures : Array Entry} {body : Block}
  {kind : CaptureKind} {index : Nat} {ra : Answer}

/-! ## Captures of a known length -/

theorem runs_fullCapture {stop : Nat} {captures' : Array Entry}
    (h : Runs m answers room body pos captures (.matched stop captures'))
    (hchecks : body.all Instr.isCheck = true) :
    captures' = captures ∧
      Runs m answers room (body ++ [.fullCapture kind (width body) index]) pos captures
        (.matched stop (captures.push (.full kind index pos (stop - pos)))) := by
  have hpos := h.pos_le
  have hanswer := Run.unique h (runs_checks hchecks hpos)
  cases hafter : m.afterChecks pos body with
  | none =>
    rw [hafter] at hanswer
    cases hanswer
  | some stop' =>
    rw [hafter] at hanswer
    cases hanswer
    have hstop := afterChecks_eq_some hafter
    obtain ⟨hge, hle, -⟩ := Run.matched_sound h
    refine ⟨rfl, h.within ⟨[], _, by simp; rfl, rfl⟩ (contained_of_checks hchecks) (Nat.le_refl _)
      (.refl _) (levelsBelow_nil _) (Nat.le_refl _) ?_⟩
    refine .step_advance (i := .fullCapture kind (width body) index) (by simp)
      ⟨hge, hle, .refl _, levelsBelow_nil _, Nat.zero_le _⟩ (by simp [Instr.Ready, hstop]) rfl ?_
    rw [show stop - width body = pos by omega,
      show width body = stop - pos by omega]
    exact .exit (by simp) rfl ⟨hge, hle, .push _ _, levelsBelow_nil _, Nat.zero_le _⟩

/-! ## Opened captures -/

theorem runs_opened {last : Instr} {R : Answer}
    (h : Runs m answers room body pos (captures.push (.opened kind index pos)) ra)
    (hcont : Contained body) (hfailed : ra = .failed → R = .failed)
    (hcrashed : ∀ fault, ra = .crashed fault → R = .crashed fault)
    (hmatched : ∀ stop captures', ra = .matched stop captures' →
      Run m answers (.openCapture kind 0 index :: (body ++ [last]))
        (.openCapture kind 0 index :: (body ++ [last])) ⟨pos, captures, room⟩
        ⟨1 + body.length, stop, [], captures'⟩ R) :
    Runs m answers room (.openCapture kind 0 index :: (body ++ [last])) pos captures R := by
  refine .step_advance (i := .openCapture kind 0 index) rfl (runs_start _ h.pos_le)
    (Nat.le_refl _) rfl ?_
  refine h.within ⟨[.openCapture kind 0 index], [last], by simp, rfl⟩ hcont (Nat.le_refl _)
    (.push _ _) (levelsBelow_nil _) (Nat.le_refl _) ?_
  cases ra with
  | matched stop captures' => exact hmatched stop captures' rfl
  | failed => exact hfailed rfl
  | crashed fault => exact hcrashed fault rfl

theorem runs_closeCapture {stop : Nat} {captures' : Array Entry} {entries : List Entry}
    (h : Runs m answers room body pos (captures.push (.opened kind index pos))
      (.matched stop captures'))
    (hrecords : Records (captures.push (.opened kind index pos)) entries captures')
    (hbalanced : Balanced entries) (hcont : Contained body) :
    Runs m answers room (.openCapture kind 0 index :: (body ++ [.closeCapture])) pos captures
      (.matched stop (closeEntries captures' stop)) := by
  refine runs_opened h hcont nofun nofun fun stop' captures'' he => ?_
  cases he
  obtain ⟨hge, hle, hext⟩ := Run.matched_sound h
  have hsound : Sound m ⟨pos, captures, room⟩ ⟨1 + body.length, stop, [], captures'⟩ :=
    ⟨hge, hle, (Extends.push _ _).trans hext, levelsBelow_nil _, Nat.zero_le _⟩
  refine .step_advance (i := .closeCapture) (by simp [Nat.add_comm 1]) hsound trivial rfl ?_
  exact .exit (by simp; omega) rfl
    ⟨hge, hle, (closeEntries_of_records hrecords hbalanced).extends, levelsBelow_nil _, Nat.zero_le _⟩

/-! ## Match-time captures -/

theorem closeMatchTimeMove_cases (m : Setting) (stop : Nat) {captures' : Array Entry}
    {entries : List Entry}
    (hrecords : Records (captures.push (.opened kind index pos)) entries captures')
    (hbalanced : Balanced entries) :
    (m.closeMatchTimeMove stop captures' = .fail) ∨
    (∃ fault, m.closeMatchTimeMove stop captures' = .crash fault) ∨
    ∃ next recorded captures'', pos ≤ next ∧ next ≤ m.subject.size ∧ Balanced recorded ∧
      Records captures recorded captures'' ∧
      m.closeMatchTimeMove stop captures' = .advance next captures'' := by
  have hkept : captures'.shrink captures.size = captures :=
    ((Extends.push _ _).trans hrecords.extends).shrink_self
  rw [Setting.closeMatchTimeMove, innermostOpen?_of_records hrecords hbalanced]
  simp only [hrecords.getElem?_at]
  split
  · next f _ =>
    rw [Setting.matchTimeMove]
    split
    · exact .inr (.inl ⟨_, rfl⟩)
    · next values _ =>
      split
      · exact .inl rfl
      · next next values' _ =>
        split
        · next hnext =>
          refine .inr (.inr ⟨next, if values'.isEmpty then [] else [.dynamic pos next values'],
            _, hnext.1, hnext.2, ?_, ?_, rfl⟩)
          · split
            · exact .nil
            · exact Balanced.nil.dynamic
          · rw [hkept]
            split
            · exact records_nil _
            · exact records_push _ _
        · exact .inl rfl
  · exact .inr (.inl ⟨_, rfl⟩)

/-- **A match-time capture around a block comes to an end**, and all it leaves behind is
well-bracketed. -/
theorem runs_closeMatchTime {stop : Nat} {captures' : Array Entry} {entries : List Entry}
    (h : Runs m answers room body pos (captures.push (.opened kind index pos))
      (.matched stop captures'))
    (hrecords : Records (captures.push (.opened kind index pos)) entries captures')
    (hbalanced : Balanced entries) (hcont : Contained body) :
    ∃ r, Runs m answers room (.openCapture kind 0 index :: (body ++ [.closeMatchTime])) pos captures r ∧
      ∀ next captures'', r = .matched next captures'' →
        ∃ recorded, Records captures recorded captures'' ∧ Balanced recorded := by
  obtain ⟨hge, hle, hext⟩ := Run.matched_sound h
  have hinstr : (.openCapture kind 0 index :: (body ++ [.closeMatchTime]) : Block)[1 + body.length]? =
      some .closeMatchTime := by simp [Nat.add_comm 1]
  have hsound : Sound m ⟨pos, captures, room⟩ ⟨1 + body.length, stop, [], captures'⟩ :=
    ⟨hge, hle, (Extends.push _ _).trans hext, levelsBelow_nil _, Nat.zero_le _⟩
  rcases closeMatchTimeMove_cases m stop hrecords hbalanced with
    hmove | ⟨fault, hmove⟩ | ⟨next, recorded, captures'', hnext, hsize, hrecorded, hleft, hmove⟩
  · refine ⟨.failed, runs_opened h hcont nofun nofun fun stop' c he => ?_, nofun⟩
    cases he
    exact .step_fail hinstr hsound trivial hmove .nil
  · refine ⟨.crashed fault, runs_opened h hcont nofun nofun fun stop' c he => ?_, nofun⟩
    cases he
    exact .crashed hinstr hsound trivial (by rw [Setting.move, hmove]; rfl)
  · refine ⟨.matched next captures'', runs_opened h hcont nofun nofun fun stop' c he => ?_,
      fun next' c he => ?_⟩
    · cases he
      exact .step_advance hinstr hsound trivial hmove
        (.exit (by simp; omega) rfl ⟨hnext, hsize, hleft.extends, levelsBelow_nil _, Nat.zero_le _⟩)
    · cases he
      exact ⟨recorded, hleft, hrecorded⟩

end

end Block

end PegMachine
