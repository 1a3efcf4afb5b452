import PegMachine.Proofs.Blocks.Meets
import PegMachine.Proofs.Programs.Compiled

/-!
# Aims of compiled programs

Neither pass moves a call. So where only configurations at calls are bad, what the code of a program
comes to can be shown along the runs of the block that the program was made of.

* `Aim.onBlock`: an aim of the code, as one of the block.
* `Pattern.Compiled.takenBack_onBlock`: **what is taken back along the code is taken back along the
  block.**
* `Pattern.Compiled.avoids_onBlock`: **what a run of the block avoids the code avoids.**
-/

namespace PegMachine

open Block

/-- An aim of the code of a program, as one of the block that the program was made of. -/
def Aim.onBlock (aim : Aim) (block : Block) (o : Origin) : Aim :=
  (aim.threaded (moveOpens block)).moved block (moveOpens block) o

/-- A configuration of a block, on its way to which no start of a capture is, nor to where its frames
lead. -/
structure Settled (block : Block) (c : Config) : Prop where
  address : Aligned block (moveOpens block) (jumpTargets block) c.address none
  frames : FramesLead (Aligned block (moveOpens block) (jumpTargets block) · none) c.frames

/-- Nothing that a configuration stands for is bad once it is as far along chains. -/
def NoneBad (block : Block) (bad : Config → Prop) (c : Config) : Prop :=
  ∀ c', (threading (moveOpens block)).OnConfigs c c' → c'.address = c.address → ¬ bad c'

section

variable {m : Setting} {p : Pattern} {block code : Block} {o : Origin} {aim : Aim}
  {good bad : Config → Prop} {c c' : Config} {answers : Answers} {n : Nat} {r : Answer} {off : Int}
  {P : Config → Prop}

theorem getElem?_moved_call {k : Nat} (hcall : block[k]? = some (.call off)) :
    (moveOpens block)[k]? = some (.call off) :=
  getElem?_moved (aligned_moveOpens block) hcall rfl rfl

theorem leads_of_moveOpens {start stop : Nat} (h : Leads (moveOpens block) start stop) :
    Leads block start stop := by
  refine h.mono fun k off hjump => ?_
  rcases moved_getElem? (aligned_moveOpens block) hjump with hjump | hcheck | ⟨_, _, _, he⟩
  · exact hjump
  · cases hcheck
  · cases he

theorem Settled.call (h : Settled block c) (hcont : Contained block)
    (hcall : block[c.address]? = some (.call off))
    (hstep : c.perform (m.move answers c.pos c.captures (.call off)) = .next c') :
    Settled block c' := by
  obtain ⟨-, hnext⟩ := h.address.keep hcall rfl
  obtain ⟨haddr, hframes⟩ := Config.perform_leads hnext
    (fun _ => aligned_of_move hcont (aligned_moveOpens block) hcall) h.frames hstep
  exact ⟨haddr, hframes⟩

theorem goodAtMoved_of_calls
    (hbad : ∀ c, bad c → ∃ off, block[c.address]? = some (.call off)) :
    GoodAtMoved (moveOpens block) (NoneBad block bad) := by
  intro c instr hinstr hkind c' _ haddr hc'
  obtain ⟨off, hcall⟩ := hbad c' hc'
  have hmoved := getElem?_moved_call hcall
  rw [haddr, hinstr] at hmoved
  cases hmoved
  rcases hkind with hcheck | ⟨_, _, _, hopen⟩
  · cases hcheck
  · cases hopen

namespace Pattern.Compiled

theorem length_eq (h : p.Compiled m.program block code) : code.length = block.length := by
  rw [← length_moveOpens block, ← h.threaded.1]
  rfl

theorem takenBack_threaded (h : p.Compiled m.program block code)
    (hback : aim.TakenBack m answers block code o fun c => ¬ bad c) :
    (aim.threaded (moveOpens block)).TakenBack m answers block (moveOpens block) o
      (NoneBad block bad) :=
  hback.threaded h.threaded fun _ c' hc hboth haddr => hc c' hboth haddr

/-- **What is taken back along the code is taken back along the block.** -/
theorem takenBack_onBlock (h : p.Compiled m.program block code)
    (hback : aim.TakenBack m answers block code o fun c => ¬ bad c)
    (hbad : ∀ c, bad c → ∃ off, block[c.address]? = some (.call off))
    (hgood : ∀ c, good c → Settled block c → NoneBad block bad c) :
    (aim.onBlock block o).TakenBack m answers block block o good :=
  (h.takenBack_threaded hback).moved (contained_lower h.lowered) (aligned_moveOpens block)
    (goodAtMoved_of_calls hbad) fun c hc haddr hframes => hgood c hc ⟨haddr, hframes⟩

theorem onBlock_exit (h : p.Compiled m.program block code)
    (hback : aim.TakenBack m answers block code o fun c => ¬ bad c)
    (hbad : ∀ c, bad c → ∃ off, block[c.address]? = some (.call off))
    (haddr : c.address = block.length) (hs : Sound m o c)
    (hexit : ∀ c', c'.address = code.length → aim.holds c') : (aim.onBlock block o).holds c := by
  refine fun _ => .exit (h.takenBack_threaded hback) (goodAtMoved_of_calls hbad) haddr hs
    fun c' hboth => hexit c' ?_
  have hlength : (moveOpens block).length = c.address := by rw [length_moveOpens, haddr]
  have hleads : Leads (moveOpens block) c.address c'.address := hboth.address
  rw [hleads.eq_of_length_le (Nat.le_of_eq hlength), haddr, h.length_eq]

/-- Where a block has come to an aim, so has the code of the program. -/
theorem holds_of_onBlock (hc : (aim.onBlock block o).holds c) (hsettled : Settled block c)
    (hboth : (threading (moveOpens block)).OnConfigs c c') : aim.holds c' :=
  (hc hsettled.frames).settled hsettled.address c' hboth

/-! ## Avoiding configurations -/

/-- Behind its code a program comes by nothing that it can only come by at a call. -/
theorem avoids_exit (h : p.Compiled m.program block code)
    (hcall : ∀ c, P c → ∃ off, block[c.address]? = some (.call off))
    (haddr : c.address = code.length) : (Aim.avoids m answers code n P).holds c := by
  intro hmeets
  cases hmeets with
  | here _ hc =>
    obtain ⟨off, hinstr⟩ := hcall c hc
    simp [haddr, h.length_eq] at hinstr
  | next _ hinstr => simp [haddr] at hinstr

theorem avoids_of_lt (hlt : c.frames.length < n) :
    ((Aim.avoids m answers code n P).onBlock block o).holds c := by
  have hfew : ∀ c' : Config, c'.frames.length = c.frames.length →
      ((Aim.avoids m answers code n P).threaded (moveOpens block)).holds c' := by
    intro c' hlength c'' hboth hmeets
    have hle := hmeets.le_length
    rw [← hboth.frames.length_eq] at hle
    omega
  exact fun _ => ⟨fun _ => hfew c rfl, fun _ _ _ _ _ _ => hfew _ rfl⟩

/-- **What a run of the block avoids the code avoids.** -/
theorem avoids_onBlock (h : p.Compiled m.program block code)
    (hcall : ∀ c, P c → ∃ off, block[c.address]? = some (.call off))
    (hcongr : ∀ {c c' : Config}, c'.address = c.address → c'.pos = c.pos → P c' → P c)
    (hrun : Run m answers block block o c r) (havoids : ¬ Meets m answers block n P c) :
    ((Aim.avoids m answers code n P).onBlock block o).holds c := by
  have hback : ((Aim.avoids m answers code n P).onBlock block o).TakenBack m answers block block o
      fun c => ¬ P c := h.takenBack_onBlock Aim.takenBack_avoids hcall
    fun c hc _ c' hboth haddr hc' => hc (hcongr haddr hboth.pos hc')
  have step : ∀ {c : Config} {instr : Instr}, ¬ Meets m answers block n P c →
      block[c.address]? = some instr → Sound m o c → instr.Ready m answers block o c →
      ((Aim.avoids m answers code n P).onBlock block o).After
        (c.perform (m.move answers c.pos c.captures instr)) →
      ((Aim.avoids m answers code n P).onBlock block o).holds c := by
    intro c instr hnot hinstr hs hr hafter
    rcases Nat.lt_or_ge c.frames.length n with hlt | hge
    · exact avoids_of_lt hlt
    · exact hback.step (fun hc => hnot (.here hge hc)) hinstr hs hr hafter
  induction hrun with
  | exit haddr _ hs =>
    exact h.onBlock_exit Aim.takenBack_avoids hcall haddr hs fun c' => h.avoids_exit hcall
  | next hinstr hs hr hstep _ ih =>
    rcases Nat.lt_or_ge _ n with hlt | hge
    · exact avoids_of_lt hlt
    · refine step havoids hinstr hs hr ?_
      rw [hstep]
      exact ih fun hmeets => havoids (.next hge hinstr hstep hmeets)
  | failed hinstr hs hr hstep =>
    refine step havoids hinstr hs hr ?_
    rw [hstep]
    trivial
  | crashed hinstr hs hr hstep =>
    refine step havoids hinstr hs hr ?_
    rw [hstep]
    trivial

end Pattern.Compiled

end

end PegMachine
