import PegMachine.Proofs.Machine.Likeness
import PegMachine.Proofs.Machine.Trace

/-!
# Runs in lockstep

* `Lockstep`: codes that make the same progress from configurations that are related.
* `Lockstep.answer`: **their runs come to the same answer**, with captures that are related.
* `Lockstep.rises`, `Lockstep.fits`: **they have as many frames pending**, and need as much room.
-/

namespace PegMachine

/-- From configurations that are related, both codes come to such configurations by each step, and
to their ends at the same time. -/
structure Lockstep (m m' : Setting) (code code' : Block) (related : Config → Config → Prop) :
    Prop where
  ends : ∀ {c c' : Config}, related c c' → c.address = code.length → c'.address = code'.length
  frames : ∀ {c c' : Config}, related c c' → c'.frames.length = c.frames.length
  step : ∀ {c c' : Config} {instr : Instr}, related c c' → code[c.address]? = some instr →
    ∃ instr', code'[c'.address]? = some instr' ∧ Progress.Both related
      (c.perform (m.move (fun _ _ _ => none) c.pos c.captures instr))
      (c'.perform (m'.move (fun _ _ _ => none) c'.pos c'.captures instr'))

/-- Both answers are failures, the same crash, or the ends of configurations that are related. -/
inductive Answer.Both (related : Config → Config → Prop) : Answer → Answer → Prop where
  | matched {c c' : Config} (h : related c c') :
      Both related (.matched c.pos c.captures) (.matched c'.pos c'.captures)
  | failed : Both related .failed .failed
  | crashed (fault : Fault) : Both related (.crashed fault) (.crashed fault)

namespace Lockstep

variable {m m' : Setting} {code code' outline outline' : Block} {o o' : Origin} {c c' : Config}
  {r r' : Answer} {n : Nat} {related : Config → Config → Prop}

/-- **Runs in lockstep come to the same answer.** -/
theorem answer (h : Lockstep m m' code code' related)
    (hrun : Run m (fun _ _ _ => none) outline code o c r)
    (hrun' : Run m' (fun _ _ _ => none) outline' code' o' c' r') (hc : related c c') :
    r.Both (fun c c' => related c c' ∧ c.address = code.length) r' := by
  induction hrun generalizing c' with
  | exit haddr =>
    rw [hrun'.eq_matched (h.ends hc haddr)]
    exact .matched ⟨hc, haddr⟩
  | next hinstr _ _ hstep _ ih =>
    obtain ⟨instr', hinstr', hboth⟩ := h.step hc hinstr
    rw [hstep] at hboth
    obtain ⟨d, hnext, hd⟩ := hboth.eq_next
    exact ih (hrun'.tail hinstr' hnext) hd
  | failed hinstr _ _ hstep =>
    obtain ⟨instr', hinstr', hboth⟩ := h.step hc hinstr
    rw [hstep] at hboth
    rw [hrun'.eq_failed hinstr' hboth.eq_failed]
    exact .failed
  | crashed hinstr _ _ hstep =>
    obtain ⟨instr', hinstr', hboth⟩ := h.step hc hinstr
    rw [hstep] at hboth
    rw [hrun'.eq_crashed hinstr' hboth.eq_crashed]
    exact .crashed _

theorem rises (h : Lockstep m m' code code' related)
    (hrises : Rises m (fun _ _ _ => none) code c n) (hc : related c c') :
    Rises m' (fun _ _ _ => none) code' c' n := by
  induction hrises generalizing c' with
  | here c =>
    rw [← h.frames hc]
    exact .here c'
  | next hinstr hstep _ ih =>
    obtain ⟨instr', hinstr', hboth⟩ := h.step hc hinstr
    rw [hstep] at hboth
    obtain ⟨d, hnext, hd⟩ := hboth.eq_next
    exact .next hinstr' hnext (ih hd)

/-- Where the second code has so many frames pending, a run of the first has room for them. -/
theorem le_room (h : Lockstep m m' code code' related)
    (hrises : Rises m' (fun _ _ _ => none) code' c' n)
    (hrun : Run m (fun _ _ _ => none) outline code o c r) (hc : related c c') : n ≤ o.room := by
  induction hrises generalizing c with
  | here c' =>
    rw [h.frames hc]
    exact hrun.sound.room
  | @next c' d' instr' _ hinstr' hstep' _ ih =>
    rcases hrun.address_cases with haddr | ⟨instr, hinstr⟩
    · rw [h.ends hc haddr, List.getElem?_eq_none (Nat.le_refl _)] at hinstr'
      cases hinstr'
    · obtain ⟨same, hsame, hboth⟩ := h.step hc hinstr
      rw [hinstr'] at hsame
      cases hsame
      rw [hstep'] at hboth
      generalize hprogress :
        c.perform (m.move (fun _ _ _ => none) c.pos c.captures instr) = progress at hboth
      cases hboth with
      | next hd => exact ih (hrun.tail hinstr hprogress) hd

/-- **The room of a run of the first code is enough for the second.** -/
theorem fits (h : Lockstep m m' code code' related)
    (hrun : Run m (fun _ _ _ => none) outline code o c r)
    (hrun' : Run m' (fun _ _ _ => none) outline' code' o' c' r') (hc : related c c') :
    Run m' (fun _ _ _ => none) outline' code' { o' with room := o.room } c' r' := by
  obtain ⟨n, hrises, hrun'⟩ := hrun'.exists_rises
  exact hrun'.roomier (h.le_room hrises hrun hc)

end Lockstep

end PegMachine
