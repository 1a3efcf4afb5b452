import PegMachine.Proofs.Blocks.Carried
import PegMachine.Proofs.Machine.Likeness
import PegMachine.Proofs.Passes.ThreadedJumps

/-!
# Runs of the code with its jumps threaded

* `threading`: configurations that differ only in how far they are along chains of jumps.
* `Setting.move_threads`: moves that do.
* `Aim.TakenBack.threaded`: **what is taken back along the threaded code is taken back along the
  code.**
* `Run.threaded`: **the threaded code has the runs of the code.** A test whose chain leads back to
  it becomes a check, but a run that comes there does not end. `Rises.threaded`: it has as many
  frames pending at a time.
-/

namespace PegMachine

open Block

/-- Configurations that differ only in how far along chains of jumps their addresses are. -/
def threading (code : Block) : Likeness where
  address := Leads code
  owner := Eq
  captures := Eq
  lift := 0
  size_eq := fun h => congrArg Array.size h.symm
  shrink := fun n h => congrArg (·.shrink n) h

section

variable {m : Setting} {answers : Answers} {outline code code' : Block} {o : Origin}
  {c c' : Config} {instr instr' : Instr} {fs fs' : List Pending} {r : Answer} {n : Nat} {aim : Aim}
  {good good' : Config → Prop}

/-! ## Instructions -/

theorem Likeness.onMoves_of_offset? {mv : Move} (h : mv.offset? = none) :
    (threading code).OnMoves n n mv mv := by
  have hnext : Leads code (n + 1) (n + 1) := .refl _
  cases mv with
  | advance => exact .advance hnext rfl
  | ret => exact .ret
  | fail => exact .fail
  | failTwice => exact .failTwice
  | crash fault => exact .crash fault
  | halt => exact .halt
  | jump | call | choose | commit | renew | rewind => cases h

theorem Likeness.onMoves_test {pos : Nat} {captures : Array Entry} {off off' : Int} (holds : Bool)
    (hoff : off ≠ 0) (hleads : Leads code (n + off).toNat (n + off').toNat) :
    (threading code).OnMoves n n
        (if holds then .advance pos captures else .refuse off)
        (if holds then .advance pos captures else .refuse off') ∨
      ∃ d : Int, (if holds then .advance pos captures else Move.refuse off) = .jump d ∧
        Leads code (n + d).toNat n := by
  cases holds with
  | true => exact .inl (onMoves_of_offset? rfl)
  | false =>
    rw [Move.refuse, if_neg hoff, Move.refuse]
    by_cases h : off' = 0
    · subst h
      rw [Int.add_zero, Int.toNat_natCast] at hleads
      exact .inr ⟨off, rfl, hleads⟩
    · rw [if_neg h]
      exact .inl (.jump hleads)

/-- The move of an instruction whose jump goes further along a chain. The exception is a test that
has become a check. -/
theorem Setting.move_threads (m : Setting) (answers : Answers) {pos : Nat}
    {captures : Array Entry} (h : ThreadedAs code n instr instr') :
    (threading code).OnMoves n n (m.move answers pos captures instr)
        (m.move answers pos captures instr') ∨
      ∃ d : Int, m.move answers pos captures instr = .jump d ∧ Leads code (n + d).toNat n := by
  cases h with
  | same hnone =>
    refine .inl (Likeness.onMoves_of_offset? ?_)
    cases hmove : (m.move answers pos captures instr).offset? with
    | none => rfl
    | some off => simp [Setting.offset?_move hmove] at hnone
  | jump hoff hn hn' hleads =>
    next off off' _ _ =>
    have hnext : Leads code (n + 1) (n + 1) := .refl _
    have htargets : Leads code (n + off).toNat (n + off').toNat := by
      rw [hn, hn']
      exact hleads
    cases instr with
    | any _ d | char _ d | set _ d =>
      rw [Instr.offset?] at hoff
      split at hoff
      · cases hoff
      · next hd =>
        cases hoff
        rw [Instr.withOffset, if_neg hd]
        exact Likeness.onMoves_test _ hd htargets
    | choice => cases hoff; exact .inl (.choose hnext htargets)
    | jump => cases hoff; exact .inl (.jump htargets)
    | call => cases hoff; exact .inl (.call hnext htargets)
    | commit => cases hoff; exact .inl (.commit htargets)
    | partialCommit => cases hoff; exact .inl (.renew htargets)
    | backCommit => cases hoff; exact .inl (.rewind htargets)
    | _ => cases hoff

theorem Likeness.OnConfigs.captures_eq (h : (threading code).OnConfigs c c') :
    c'.captures = c.captures :=
  Eq.symm h.captures

theorem Instr.ready_withOffset (h : instr.Ready m answers outline o c) (d : Int) :
    (instr.withOffset d).Ready m answers outline o c := by
  cases instr <;> exact h

theorem Instr.ready_leads (h : instr.Ready m answers outline o c) (hc : (threading code).OnConfigs c c')
    (haddr : c'.address = c.address) (hinstr : ThreadedAs code c.address instr instr') :
    instr'.Ready m answers outline o c' := by
  have hready : instr.Ready m answers outline o c' := by
    have hcaptures := hc.captures_eq
    obtain ⟨address, pos, frames, captures⟩ := c
    obtain ⟨address', pos', frames', captures'⟩ := c'
    obtain ⟨-, hpos, -, hframes⟩ := hc
    dsimp only at haddr hpos hcaptures hframes
    subst haddr hpos hcaptures
    cases instr with
    | ret =>
      obtain ⟨n, owner, rest, rfl⟩ := h
      cases hframes with
      | cons hp hrest =>
        cases hp
        exact ⟨_, _, _, rfl⟩
    | commit | partialCommit | backCommit | failTwice =>
      obtain ⟨point, owner, rest, rfl, hown⟩ := h
      cases hframes with
      | cons hp hrest =>
        cases hp with
        | choice _ howner => exact ⟨_, _, _, rfl, (show owner = _ from howner) ▸ hown⟩
    | openCall rule =>
      intro r k hanswer
      have := h r k hanswer
      dsimp only at this ⊢
      rwa [← hframes.length_eq]
    | _ => exact h
  cases hinstr with
  | same => exact hready
  | jump => exact Instr.ready_withOffset hready _

/-! ## Runs -/

theorem levelsBelow_leads {level : Nat} (hl : LevelsBelow fs level)
    (h : List.Forall₂ (threading code).OnFrames fs fs') : LevelsBelow fs' level := by
  induction h with
  | nil => exact hl
  | cons hp hrest ih =>
    cases hp with
    | ret =>
      rw [levelsBelow_cons_ret] at hl ⊢
      exact ih hl
    | choice =>
      rw [levelsBelow_cons_choice] at hl ⊢
      exact ⟨hl.1, ih hl.2⟩

theorem Sound.leads (hs : Sound m o c) (h : (threading code).OnConfigs c c') : Sound m o c' where
  pos_ge := h.pos ▸ hs.pos_ge
  pos_le := h.pos ▸ hs.pos_le
  keeps := h.captures_eq ▸ hs.keeps
  levels := h.captures_eq ▸ levelsBelow_leads hs.levels h.frames
  room := h.frames.length_eq ▸ hs.room

namespace Likeness.OnConfigs

theorem step (h : (threading code).OnConfigs c c') (haddr : c'.address = c.address)
    (hinstr : code[c.address]? = some instr) (hcode : AllThreaded code code'.toArray)
    (hr : instr.Ready m answers outline o c) :
    ∃ instr', code'[c'.address]? = some instr' ∧ instr'.Ready m answers outline o c' ∧
      (Progress.Both (threading code).OnConfigs (c.perform (m.move answers c.pos c.captures instr))
          (c'.perform (m.move answers c'.pos c'.captures instr')) ∨
        ∃ d : Int, m.move answers c.pos c.captures instr = .jump d ∧
          Leads code (c.target d) c'.address) := by
  obtain ⟨instr', hinstr', hthreaded⟩ := hcode.2 _ _ hinstr
  rw [List.getElem?_toArray] at hinstr'
  refine ⟨instr', haddr ▸ hinstr', Instr.ready_leads hr h haddr hthreaded, ?_⟩
  rcases Setting.move_threads m answers hthreaded with hmove | ⟨d, hmove, hback⟩
  · left
    rw [h.pos, h.captures_eq]
    exact OnMoves.perform (haddr.symm ▸ hmove) h haddr.symm
  · exact .inr ⟨d, hmove, haddr ▸ hback⟩

end Likeness.OnConfigs

/-- An aim of the code: what it is an aim of holds however far the addresses are along chains. -/
def Aim.threaded (aim : Aim) (code : Block) : Aim where
  holds c := ∀ c', (threading code).OnConfigs c c' → aim.holds c'
  failed := aim.failed
  crashed := aim.crashed

theorem Aim.After.of_threaded {progress progress' : Progress}
    (h : (aim.threaded code).After progress)
    (hboth : Progress.Both (threading code).OnConfigs progress progress') : aim.After progress' := by
  cases hboth with
  | next hc => exact h _ hc
  | failed | crashed | stuck => exact h

/-- **What is taken back along the threaded code is taken back along the code.** While the code is on
its way along a chain, the threaded code is there already. A test that has become a check would have
led the code back to itself. -/
theorem Aim.TakenBack.threaded (hback : aim.TakenBack m answers outline code' o good')
    (hcode : AllThreaded code code'.toArray)
    (hgood : ∀ c c', good c → (threading code).OnConfigs c c' → c'.address = c.address → good' c') :
    (aim.threaded code).TakenBack m answers outline code o good := by
  refine ⟨fun {c instr} hc hinstr hs hr h c' hboth => ?_⟩
  by_cases haddr : c'.address = c.address
  · obtain ⟨instr', hinstr', hr', hprogress | ⟨d, hmove, hleads⟩⟩ :=
      hboth.step haddr hinstr hcode hr
    · exact hback.step (hgood c c' hc hboth haddr) hinstr' (hs.leads hboth) hr'
        (h.of_threaded hprogress)
    · rw [hmove] at h
      exact h c' ⟨hleads, hboth.pos, hboth.captures, hboth.frames⟩
  · -- The code is still on its way along the chain.
    obtain ⟨address, pos, frames, captures⟩ := c
    obtain ⟨hleads, hpos, hcaptures, hframes⟩ := hboth
    cases hleads with
    | refl => exact absurd rfl haddr
    | jump hjump hmid hrest =>
      rw [hinstr] at hjump
      cases hjump
      refine h c' ⟨?_, hpos, hcaptures, hframes⟩
      rw [Config.target, hmid]
      exact hrest

/-- **The threaded code has the runs of the code.** -/
theorem Run.threaded (h : Run m answers outline code o c r)
    (hcode : AllThreaded code code'.toArray) (hc : (threading code).OnConfigs c c') :
    Run m answers outline code' o c' r := by
  have hends : (Aim.ends m answers outline code' o r).TakenBack m answers outline code' o
      fun _ => True := Aim.takenBack_ends
  have hback : ((Aim.ends m answers outline code' o r).threaded code).TakenBack m answers outline code
      o fun _ => True := hends.threaded hcode fun _ _ _ _ _ => trivial
  refine h.takesBack hback (fun _ => trivial) (fun {c} haddr hnil hs he c' hboth => ?_) id id c' hc
  have hleads : Leads code c.address c'.address := hboth.address
  have haddr' : c'.address = c.address := hleads.eq_of_length_le (Nat.le_of_eq haddr.symm)
  have hnil' : c'.frames = [] := by
    have hframes := hboth.frames
    rw [hnil, List.forall₂_nil_left_iff] at hframes
    exact hframes
  rw [he, ← hboth.pos, ← hboth.captures_eq]
  exact .exit (by rw [haddr', haddr]; exact hcode.1.symm) hnil' (hs.leads hboth)

theorem Rises.threaded (h : Rises m answers code c n) (hrun : Run m answers outline code o c r)
    (hcode : AllThreaded code code'.toArray) (hc : (threading code).OnConfigs c c') :
    Rises m answers code' c' n := by
  induction h generalizing c' with
  | here c =>
    rw [hc.frames.length_eq]
    exact .here c'
  | @next c d instr n hinstr hstep _ ih =>
    have hrises : (Aim.rises m answers code' n).TakenBack m answers outline code' o fun _ => True :=
      Aim.takenBack_rises
    have hback : ((Aim.rises m answers code' n).threaded code).TakenBack m answers outline code o
        fun _ => True := hrises.threaded hcode fun _ _ _ _ _ => trivial
    refine hback.step trivial hinstr hrun.sound (hrun.ready hinstr) ?_ c' hc
    rw [hstep]
    exact fun d' hd => ih (hrun.tail hinstr hstep) hd

end

end PegMachine
