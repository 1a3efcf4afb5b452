import PegMachine.Proofs.Passes.MovedOpens

/-!
# Runs of the code with the starts of captures moved

* `OnItsWay`: a configuration of the moved code while the start of a capture is on its way. Its
  entry is missing from the captures, and no choice is pushed in that time.
* `HoldsMoved`: something holds of the run of the moved code, also where the start of a capture is
  on its way to it.
* `Aim.TakenBack.moved`: **what is taken back along the moved code is taken back along the code.**
* `Run.moved`: **the moved code has the runs of the code.** `Rises.moved`: it has as many frames
  pending at a time.
-/

namespace PegMachine

open Block

/-- The start of a capture is on its way: what the captures are without it. -/
structure OnItsWay (o : Origin) (c : Config) (p : PendingOpen) (captures : Array Entry) :
    Prop where
  captures_eq : c.captures = captures.push (.opened p.kind p.index (c.pos - p.back))
  back_le : o.pos + p.back ≤ c.pos
  keeps : Extends o.captures captures
  levels : LevelsBelow c.frames captures.size

/-- All configurations at checks and at starts of captures are good. -/
def GoodAtMoved (code : Block) (good : Config → Prop) : Prop :=
  ∀ {c : Config} {instr : Instr}, code[c.address]? = some instr →
    (instr.isCheck = true ∨ ∃ kind back index, instr = .openCapture kind back index) → good c

section

variable {m : Setting} {answers : Answers} {outline code code' : Block} {o : Origin}
  {c c' : Config} {targets : Array Bool} {n : Nat} {instr : Instr} {p p' : PendingOpen}
  {captures : Array Entry} {r : Answer} {aim : Aim} {good good' : Config → Prop}

theorem OnItsWay.sound (h : OnItsWay o c p captures) (hs : Sound m o c) (address : Nat) :
    Sound m o ⟨address, c.pos, c.frames, captures⟩ :=
  ⟨hs.pos_ge, hs.pos_le, h.keeps, h.levels, hs.room⟩

/-- Going back to a choice, the missing entry makes no difference. -/
theorem OnItsWay.backtrackTo (h : OnItsWay o c p captures) (address : Nat) :
    (⟨address, c.pos, c.frames, captures⟩ : Config).backtrackTo c.frames =
      c.backtrackTo c.frames := by
  rw [Config.backtrackTo, Config.backtrackTo]
  cases hl : latestChoice? c.frames with
  | none => rfl
  | some found =>
    obtain ⟨point, rest⟩ := found
    obtain ⟨owner, hmem⟩ := (latestChoice?_mem hl).1
    have hx : Extends captures c.captures := by
      rw [h.captures_eq]
      exact .push _ _
    dsimp only
    rw [hx.shrink (h.levels point owner hmem)]

theorem OnItsWay.write (h : OnItsWay o c p captures) (hs : Sound m o c) (hn : c.address = n + 1)
    (hinstr : code'[n]? = some (.openCapture p.kind p.back p.index))
    (hback : aim.TakenBack m answers outline code' o good) (hgood : GoodAtMoved code' good)
    (hc : aim.holds c) : aim.holds ⟨n, c.pos, c.frames, captures⟩ := by
  refine hback.step (hgood (c := ⟨n, c.pos, c.frames, captures⟩) hinstr (.inr ⟨_, _, _, rfl⟩)) hinstr
    (h.sound hs n) h.back_le ?_
  rw [Setting.move, Config.perform, ← hn, ← h.captures_eq]
  exact hc

theorem OnItsWay.start (hs : Sound m o c) (hstart : instr.start? = some p)
    (hstep : c.perform (m.move answers c.pos c.captures instr) = .next c') :
    c'.address = c.address + 1 ∧ c'.pos = c.pos ∧ c'.frames = c.frames ∧
      OnItsWay o c' p c.captures := by
  obtain ⟨rfl, hback⟩ := Instr.start?_eq_some hstart
  cases hstep
  refine ⟨rfl, rfl, rfl, ?_, ?_, hs.keeps, hs.levels⟩
  · rw [hback]
  · rw [hback]
    exact hs.pos_ge

theorem OnItsWay.pass (h : OnItsWay o c p captures) (hcheck : instr.isCheck = true)
    (hholds : m.holds c.pos instr = true)
    (hstep : c.perform (m.move answers c.pos c.captures instr) = .next c') :
    OnItsWay o c' { p with back := p.back + instr.step } captures ∧
      c' = ⟨c.address + 1, c.pos + instr.step, c.frames, c.captures⟩ := by
  rw [Setting.move_check hcheck, if_pos hholds] at hstep
  cases hstep
  have hback := h.back_le
  refine ⟨⟨?_, ?_, h.keeps, h.levels⟩, rfl⟩
  · have hpos : c.pos + instr.step - (p.back + instr.step) = c.pos - p.back := by omega
    show c.captures = _
    rw [h.captures_eq]
    dsimp only
    rw [hpos]
  · show o.pos + (p.back + instr.step) ≤ c.pos + instr.step
    omega

/-- Something holds of the run of the moved code from a configuration, also where the start of a
capture is on its way to it. -/
structure HoldsMoved (Q : Config → Prop) (code code' : Block) (o : Origin) (c : Config) : Prop where
  settled : Aligned code code' (jumpTargets code) c.address none → Q c
  pending : ∀ n p captures, c.address = n + 1 →
    Aligned code code' (jumpTargets code) (n + 1) (some p) → OnItsWay o c p captures →
    Q ⟨n, c.pos, c.frames, captures⟩

theorem HoldsMoved.of_passed (hback : aim.TakenBack m answers outline code' o good)
    (hgood : GoodAtMoved code' good) (hs : Sound m o c) (hinstr : code[c.address]? = some instr)
    (hsettled : Aligned code code' (jumpTargets code) c.address none → aim.holds c)
    (hpassed : ∀ n p captures, c.address = n + 1 → instr.isCheck = true →
      code'[n]? = some instr →
      Aligned code code' (jumpTargets code) (n + 2) (some { p with back := p.back + instr.step }) →
      OnItsWay o c p captures → aim.holds ⟨n, c.pos, c.frames, captures⟩) :
    HoldsMoved aim.holds code code' o c := by
  refine ⟨hsettled, fun n p captures hn hpending hway => ?_⟩
  rw [hn] at hinstr
  cases hpass : PendingOpen.pass? (jumpTargets code) (n + 1) instr (some p) with
  | none =>
    obtain ⟨hwritten, hnone⟩ := hpending.write (PendingOpen.stops hinstr hpass)
    exact hway.write hs hn hwritten hback hgood (hsettled (hn ▸ hnone))
  | some p' =>
    obtain ⟨hinstr', hnext⟩ := hpending.pass hinstr hpass
    obtain ⟨hcheck, rfl⟩ := PendingOpen.pass?_eq_some hpass
    exact hpassed n p captures hn hcheck hinstr' hnext hway

/-- No start of a capture is on its way where an instruction jumps to. -/
theorem aligned_of_move (hcont : Contained code)
    (haligned : Aligned code code' (jumpTargets code) 0 none)
    (hinstr : code[c.address]? = some instr) {off : Int}
    (hoff : (m.move answers c.pos c.captures instr).offset? = some off) :
    Aligned code code' (jumpTargets code) (c.target off) none := by
  have hoff' := Setting.offset?_move hoff
  obtain ⟨hlo, hhi⟩ := hcont _ _ _ hinstr hoff'
  have htarget : (c.address : Int) + off = c.target off := by
    rw [Config.target]
    omega
  have hle : c.target off ≤ code.length := by omega
  exact aligned_target haligned hle (getD_jumpTargets hinstr hoff' htarget hle)

/-- An aim of the code: what it is an aim of holds of the moved code. -/
def Aim.moved (aim : Aim) (code code' : Block) (o : Origin) : Aim where
  holds c := FramesLead (Aligned code code' (jumpTargets code) · none) c.frames →
    HoldsMoved aim.holds code code' o c
  failed := aim.failed
  crashed := aim.crashed

theorem Aim.After.of_moved {progress : Progress} (h : (aim.moved code code' o).After progress)
    (hleads : ∀ c', progress = .next c' → Aligned code code' (jumpTargets code) c'.address none ∧
      FramesLead (Aligned code code' (jumpTargets code) · none) c'.frames) :
    aim.After progress := by
  cases progress with
  | next c' =>
    obtain ⟨haddr, hframes⟩ := hleads c' rfl
    exact (h hframes).settled haddr
  | failed | crashed | stuck => exact h

/-- **What is taken back along the moved code is taken back along the code.** -/
theorem Aim.TakenBack.moved (hback : aim.TakenBack m answers outline code' o good')
    (hcont : Contained code) (haligned : Aligned code code' (jumpTargets code) 0 none)
    (hmoved : GoodAtMoved code' good')
    (hgood : ∀ c, good c → Aligned code code' (jumpTargets code) c.address none →
      FramesLead (Aligned code code' (jumpTargets code) · none) c.frames → good' c) :
    (aim.moved code code' o).TakenBack m answers outline code o good := by
  refine ⟨fun {c instr} hc hinstr hs hr h hframes => ?_⟩
  refine .of_passed hback hmoved hs hinstr (fun hnone => ?_)
    fun n p captures hn hcheck hinstr' hnext hway => ?_
  · cases hstart : instr.start? with
    | some p =>
      obtain ⟨rfl, -⟩ := Instr.start?_eq_some hstart
      have hstep : c.perform (m.move answers c.pos c.captures (.openCapture p.kind 0 p.index)) =
          .next _ := rfl
      obtain ⟨haddr, -, -, hway⟩ := OnItsWay.start hs hstart hstep
      exact (h hframes).pending c.address p c.captures haddr (hnone.start hinstr hstart) hway
    | none =>
      obtain ⟨hinstr', hnext⟩ := hnone.keep hinstr hstart
      exact hback.step (hgood c hc hnone hframes) hinstr' hs hr
        (h.of_moved fun c' hstep => Config.perform_leads hnext
          (fun _ => aligned_of_move hcont haligned hinstr) hframes hstep)
  · refine hback.step (hmoved (c := ⟨n, c.pos, c.frames, captures⟩) hinstr' (.inl hcheck)) hinstr'
      (hway.sound hs n) (Instr.ready_of_isCheck hcheck 0).1 ?_
    by_cases hholds : m.holds c.pos instr = true
    · have hstep : c.perform (m.move answers c.pos c.captures instr) =
          .next ⟨c.address + 1, c.pos + instr.step, c.frames, c.captures⟩ := by
        rw [Setting.move_check hcheck, if_pos hholds]
        rfl
      obtain ⟨hway', -⟩ := hway.pass hcheck hholds hstep
      rw [hstep] at h
      rw [Setting.move_check hcheck, if_pos hholds]
      exact (h hframes).pending (n + 1) _ captures (congrArg (· + 1) hn) hnext hway'
    · rw [Setting.move_check hcheck, if_neg hholds] at h ⊢
      have hafter : aim.After (c.backtrackTo c.frames) :=
        h.of_moved fun c' => Config.backtrackTo_leads hframes
      rwa [← hway.backtrackTo n] at hafter

/-! ## Runs -/

/-- The moved code has the run from a configuration. -/
abbrev RunsMoved (m : Setting) (answers : Answers) (outline code code' : Block) (o : Origin)
    (c : Config) (r : Answer) : Prop :=
  HoldsMoved (fun c => Run m answers outline code' o c r) code code' o c

theorem HoldsMoved.exit (hback : aim.TakenBack m answers outline code' o good)
    (hgood : GoodAtMoved code' good) (haddr : c.address = code.length) (hs : Sound m o c)
    (hc : aim.holds c) : HoldsMoved aim.holds code code' o c := by
  refine ⟨fun _ => hc, fun n p captures hn hpending hway => ?_⟩
  have hend : code[n + 1]? = none := by simp [← hn, haddr]
  obtain ⟨hinstr, -⟩ := hpending.write fun instr hinstr => by
    rw [hend] at hinstr
    cases hinstr
  exact hway.write hs hn hinstr hback hgood hc

/-- **The moved code has the runs of the code.** -/
theorem Run.moved (h : Run m answers outline code o c r) (hcont : Contained code)
    (haligned : Aligned code code' (jumpTargets code) 0 none)
    (hframes : FramesLead (Aligned code code' (jumpTargets code) · none) c.frames) :
    RunsMoved m answers outline code code' o c r := by
  have hends : (Aim.ends m answers outline code' o r).TakenBack m answers outline code' o
      fun _ => True := Aim.takenBack_ends
  have hback : ((Aim.ends m answers outline code' o r).moved code code' o).TakenBack m answers outline
      code o fun _ => True := hends.moved hcont haligned (fun _ _ => trivial) fun _ _ _ _ => trivial
  refine h.takesBack hback (fun _ => trivial) (fun haddr hnil hs he _ => ?_) id id hframes
  refine HoldsMoved.exit hends (fun _ _ => trivial) haddr hs ?_
  rw [he]
  exact .exit (haddr.trans (length_movedFrom haligned).symm) hnil hs

theorem Rises.moved (h : Rises m answers code c n) (hrun : Run m answers outline code o c r)
    (hcont : Contained code) (haligned : Aligned code code' (jumpTargets code) 0 none)
    (hframes : FramesLead (Aligned code code' (jumpTargets code) · none) c.frames) :
    HoldsMoved (Rises m answers code' · n) code code' o c := by
  induction h with
  | here c =>
    exact ⟨fun _ => .here c, fun n _ captures _ _ _ => .here ⟨n, c.pos, c.frames, captures⟩⟩
  | @next c c' instr n hinstr hstep _ ih =>
    have hrises : (Aim.rises m answers code' n).TakenBack m answers outline code' o fun _ => True :=
      Aim.takenBack_rises
    have hback : ((Aim.rises m answers code' n).moved code code' o).TakenBack m answers outline code o
        fun _ => True := hrises.moved hcont haligned (fun _ _ => trivial) fun _ _ _ _ => trivial
    refine hback.step trivial hinstr hrun.sound (hrun.ready hinstr) ?_ hframes
    rw [hstep]
    exact ih (hrun.tail hinstr hstep)

theorem Block.Runs.moved {room pos : Nat} {captures : Array Entry}
    (h : Runs m answers room code pos captures r) (hcont : Contained code) :
    Run m answers code (moveOpens code) ⟨pos, captures, room⟩ ⟨0, pos, [], captures⟩ r :=
  (Run.moved h hcont (aligned_moveOpens code) nofun).settled (aligned_moveOpens code)

end

end PegMachine
