import PegMachine.Proofs.Blocks.Renamed
import PegMachine.Proofs.Captures.Alike
import PegMachine.Proofs.Machine.Lockstep

/-!
# Runs in step

* `alike`: configurations at addresses that face each other, with captures that refer to the same
  constants.
* `Likeness.onMoves_rename`: instructions that refer to the same constants make moves that are
  alike.
* `InStep`: code that makes such moves at addresses that face each other.
* `InStep.answer`, `InStep.rises`: **runs of such code come to the same answer, and have as many
  frames pending.**
-/

namespace PegMachine

/-- Configurations at addresses that face each other, with captures that refer to the same
constants. -/
def alike (program program' : Program) (faces : Nat → Nat → Prop) : Likeness where
  address := faces
  owner := fun _ _ => True
  captures := EntriesAlike program program'
  lift := 0
  size_eq := EntriesAlike.size_eq
  shrink := fun n h => h.shrink n

variable {m m' : Setting} {faces : Nat → Nat → Prop} {n n' pos : Nat}
  {captures captures' : Array Entry} {instr : Instr}

theorem closeEntries_alike (h : EntriesAlike m.program m'.program captures captures') (pos : Nat) :
    EntriesAlike m.program m'.program (closeEntries captures pos) (closeEntries captures' pos) := by
  have hback := h.back?
  rw [closeEntries, closeEntries]
  generalize captures.back? = last at hback
  generalize captures'.back? = last' at hback
  cases hback with
  | none => exact h.push (.closed pos)
  | some hlast =>
    cases hlast with
    | opened start _ hrefers => exact h.pop.push (.full start _ hrefers)
    | full | closed | dynamic => exact h.push (.closed pos)

namespace Likeness

variable (hinput : m.SameInput m') (hcaptures : EntriesAlike m.program m'.program captures captures')
  (hnext : faces (n + 1) (n' + 1))

include hinput hcaptures hnext

theorem onMoves_closeMatchTime : (alike m.program m'.program faces).OnMoves n n'
    (m.closeMatchTimeMove pos captures) (m'.closeMatchTimeMove pos captures') := by
  rw [Setting.closeMatchTimeMove, Setting.closeMatchTimeMove, hcaptures.innermostOpen?_eq]
  cases Entry.innermostOpen? captures with
  | none => exact .crash _
  | some opened =>
    have hopened := hcaptures.getElem? opened
    dsimp only
    generalize captures[opened]? = entry at hopened
    generalize captures'[opened]? = entry' at hopened
    cases hopened with
    | none => exact .crash _
    | some hentry =>
      cases hentry with
      | full | closed | dynamic => exact .crash _
      | opened start hkind hrefers =>
        dsimp only
        rw [hrefers.constant?_eq hkind]
        split
        · next f _ =>
          exact onMoves_matchTime hinput hcaptures hnext
            (fun h => EntriesAlike.push h (.dynamic ..)) f (Resolver.Alike.nested_eq
              ⟨hinput.subject, hinput.arguments, hcaptures.push (.closed pos)⟩ opened)
        · exact .crash _

/-- **Instructions that refer to the same constants make moves that are alike.** -/
theorem onMoves_rename {σ ρ : Nat → Nat} (hcall : ∀ rule, instr ≠ .openCall rule)
    (hopen : ∀ back index, instr ≠ .openCapture .argument back index)
    (hjump : ∀ off, instr.offset? = some off → faces (n + off).toNat (n' + off).toNat)
    (hconstant : m'.program.constant? (σ instr.constantIndex) =
      m.program.constant? instr.constantIndex)
    (hzero : σ instr.constantIndex = 0 ↔ instr.constantIndex = 0) :
    (alike m.program m'.program faces).OnMoves n n'
      (m.move (fun _ _ _ => none) pos captures instr)
      (m'.move (fun _ _ _ => none) pos captures' (instr.rename σ ρ)) := by
  have refers : ∀ {kind : CaptureKind} {index : Nat},
      instr.constantIndex = (if kind = .argument then 0 else index) →
      Refers m.program m'.program kind index (kind.renumber σ index) := by
    intro kind index hindex
    by_cases hkind : kind = .argument
    · subst hkind
      exact .argument index
    · rw [if_neg hkind] at hindex
      subst hindex
      rw [CaptureKind.renumber_of_ne hkind]
      exact .constant hkind hconstant hzero
  cases instr with
  | any | char | set | span | ret | done | giveUp | choice | jump | call | commit | partialCommit
  | backCommit | failTwice | fail => exact onMoves_silent hinput hcaptures hnext rfl hjump
  | openCall rule => exact absurd rfl (hcall rule)
  | matcher index =>
    have hconstant' : m'.program.constant? (σ index) = m.program.constant? index := hconstant
    rw [Instr.rename, Setting.move, Setting.move, hconstant']
    split
    · exact onMoves_matcher hinput hcaptures hnext _
    · exact .halt
  | fullCapture kind length index =>
    exact .advance hnext (hcaptures.push (.full _ _ (refers rfl)))
  | emptyCapture kind index | emptyCaptureConst kind index =>
    exact .advance hnext (hcaptures.push (.full _ _ (refers rfl)))
  | openCapture kind back index =>
    have hkind : kind ≠ .argument := fun he => hopen back index (he ▸ rfl)
    exact .advance hnext (hcaptures.push (.opened _ hkind (refers rfl)))
  | closeCapture => exact .advance hnext (closeEntries_alike hcaptures pos)
  | closeMatchTime => exact onMoves_closeMatchTime hinput hcaptures hnext

end Likeness

/-! ## Runs -/

/-- Code that makes moves that are alike at addresses that face each other. -/
structure InStep (m m' : Setting) (faces : Nat → Nat → Prop) (code code' : Block) : Prop where
  ends : ∀ {n n' : Nat}, faces n n' → n = code.length → n' = code'.length
  moves : ∀ {n n' : Nat} {instr : Instr}, faces n n' → code[n]? = some instr →
    ∃ instr', code'[n']? = some instr' ∧ ∀ pos captures captures',
      EntriesAlike m.program m'.program captures captures' →
      (alike m.program m'.program faces).OnMoves n n'
        (m.move (fun _ _ _ => none) pos captures instr)
        (m'.move (fun _ _ _ => none) pos captures' instr')

/-- Answers with captures that refer to the same constants. -/
inductive Answer.Alike (program program' : Program) : Answer → Answer → Prop where
  | matched {pos : Nat} {captures captures' : Array Entry}
      (h : EntriesAlike program program' captures captures') :
      Alike program program' (.matched pos captures) (.matched pos captures')
  | failed : Alike program program' .failed .failed
  | crashed (fault : Fault) : Alike program program' (.crashed fault) (.crashed fault)

namespace InStep

variable {code code' outline outline' : Block} {o o' : Origin} {c c' : Config} {r r' : Answer}

theorem step (h : InStep m m' faces code code')
    (hc : (alike m.program m'.program faces).OnConfigs c c')
    (hinstr : code[c.address]? = some instr) :
    ∃ instr', code'[c'.address]? = some instr' ∧
      Progress.Both (alike m.program m'.program faces).OnConfigs
        (c.perform (m.move (fun _ _ _ => none) c.pos c.captures instr))
        (c'.perform (m'.move (fun _ _ _ => none) c'.pos c'.captures instr')) := by
  obtain ⟨instr', hinstr', hmoves⟩ := h.moves hc.address hinstr
  refine ⟨instr', hinstr', ?_⟩
  rw [hc.pos]
  exact (hmoves c.pos c.captures c'.captures hc.captures).perform hc trivial

theorem lockstep (h : InStep m m' faces code code') :
    Lockstep m m' code code' (alike m.program m'.program faces).OnConfigs where
  ends hc := h.ends hc.address
  frames hc := hc.frames.length_eq.symm
  step := h.step

/-- **Runs in step come to the same answer.** -/
theorem answer (h : InStep m m' faces code code')
    (hrun : Run m (fun _ _ _ => none) outline code o c r)
    (hrun' : Run m' (fun _ _ _ => none) outline' code' o' c' r')
    (hc : (alike m.program m'.program faces).OnConfigs c c') :
    r.Alike m.program m'.program r' := by
  cases h.lockstep.answer hrun hrun' hc with
  | matched hend =>
    rw [hend.1.pos]
    exact .matched hend.1.captures
  | failed => exact .failed
  | crashed fault => exact .crashed fault

/-- **Runs in step have as many frames pending.** -/
theorem rises {height : Nat} (h : InStep m m' faces code code')
    (hrises : Rises m (fun _ _ _ => none) code c height)
    (hc : (alike m.program m'.program faces).OnConfigs c c') :
    Rises m' (fun _ _ _ => none) code' c' height :=
  h.lockstep.rises hrises hc

end InStep

end PegMachine
