import PegMachine.Proofs.Lowering.Reentry
import PegMachine.Proofs.Nesting.Calls
import PegMachine.Proofs.Programs.Aims
import PegMachine.Proofs.Programs.Meaning

/-!
# No rule is reentered where it started

Calls are told apart by the addresses that they lead to, so rules that the passes made one count as
one rule.

* `Reenters`: a call from which on the same call is made again, no later in the subject, before it has
  returned.
* `Pattern.Compiled.avoids_reentry`: no run of the block of a program comes to one.
* `Setting.Since.exists_config`: the run of the code along which frames stay pending.
* `Setting.not_reentered`: **while a call is pending, the same call is made at later positions only.**
-/

namespace PegMachine

open Block

/-! ## Runs -/

/-- A call in the code of a program from which on it comes by a call to the same address, at the same
position or before it, while the first call is pending. -/
def Reenters (m : Setting) (block code : Block) (c : Config) : Prop :=
  ∃ (off : Int) (target : Nat), code[c.address]? = some (.call off) ∧
    (c.address : Int) + off = target ∧
    Meets m (fun _ _ _ => none) code (c.frames.length + 1) (CallsAgain block target c.pos)
      ⟨target, c.pos, ⟨.ret (c.address + 1), c.address⟩ :: c.frames, c.captures⟩

theorem CallsAgain.congr {code : Block} {stop pos : Nat} {c c' : Config}
    (h : CallsAgain code stop pos c') (haddr : c'.address = c.address) (hpos : c'.pos = c.pos) :
    CallsAgain code stop pos c :=
  ⟨haddr ▸ h.calls, hpos ▸ h.pos_le⟩

namespace Pattern.Compiled

variable {m : Setting} {p : Pattern} {block code : Block} {o : Origin} {c c' : Config} {r : Answer}
  {pos : Nat} {off : Int}

/-- A call of the program is one of the block that leads to the same address. -/
theorem callsAgain (h : p.Compiled m.program block code)
    (hcall : m.program.code[c.address]? = some (.call off)) (hpos : c.pos ≤ pos) :
    ∃ target : Nat, (c.address : Int) + off = target ∧ CallsAgain block target pos c := by
  obtain ⟨off', n, n', hblock, hn, hn', hleads⟩ := h.block_call hcall
  exact ⟨n', hn', ⟨off', n, hblock, hn, leads_of_moveOpens hleads⟩, hpos⟩

theorem call_of_reenters (h : p.Compiled m.program block code) (hc : Reenters m block code c) :
    ∃ off, block[c.address]? = some (.call off) := by
  obtain ⟨off, _, hcall, -⟩ := hc
  obtain ⟨off', _, _, hblock, -⟩ := h.block_call (h.getElem?_of_code hcall)
  exact ⟨off', hblock⟩

theorem noneBad_reenters (h : p.Compiled m.program block code)
    (hrun : Run m (fun _ _ _ => none) block block o c r) (hsettled : Settled block c) :
    NoneBad block (Reenters m block code) c := by
  rintro c' hboth haddr ⟨off, target, hcall, htarget, hmeets⟩
  obtain ⟨off', n, n', hblock, hn, hn', hleads⟩ := h.block_call (h.getElem?_of_code hcall)
  obtain rfl : target = n' := by omega
  rw [haddr] at hblock hn
  have hstep : c.perform (m.move (fun _ _ _ => none) c.pos c.captures (.call off')) =
      .next ⟨n, c.pos, ⟨.ret (c.address + 1), c.address⟩ :: c.frames, c.captures⟩ := by
    rw [Setting.move, Config.perform, Config.target, hn]
    rfl
  have hs := hrun.sound
  have havoids := avoids_lower h.lowered (.refl _) hblock hn (leads_of_moveOpens hleads) hs.pos_le
    hs.levels
  have honBlock := h.avoids_onBlock (fun _ hagain => hagain.call)
    (fun haddr hpos hagain => hagain.congr haddr hpos) (hrun.tail hblock hstep) havoids
  have hcalled : (threading (moveOpens block)).OnConfigs
      ⟨n, c.pos, ⟨.ret (c.address + 1), c.address⟩ :: c.frames, c.captures⟩
      ⟨target, c.pos, ⟨.ret (c'.address + 1), c'.address⟩ :: c'.frames, c'.captures⟩ := by
    refine ⟨hleads, rfl, hboth.captures, .cons ?_ hboth.frames⟩
    rw [haddr]
    exact .ret (.refl _) rfl
  rw [← hboth.frames.length_eq, hboth.pos] at hmeets
  exact holds_of_onBlock honBlock (hsettled.call (contained_lower h.lowered) hblock hstep) hcalled
    hmeets

/-- **No run of the block of a program comes to a call that is reentered.** -/
theorem avoids_reentry (h : p.Compiled m.program block code)
    (hrun : Run m (fun _ _ _ => none) block block o c r) :
    ((Aim.avoids m (fun _ _ _ => none) code 0 (Reenters m block code)).onBlock block o).holds c := by
  have hcall : ∀ c, Reenters m block code c → ∃ off, block[c.address]? = some (.call off) :=
    fun _ => h.call_of_reenters
  have hback : ((Aim.avoids m (fun _ _ _ => none) code 0 (Reenters m block code)).onBlock block
      o).TakenBack m (fun _ _ _ => none) block block o
      fun c => ∃ r, Run m (fun _ _ _ => none) block block o c r :=
    h.takenBack_onBlock Aim.takenBack_avoids hcall
      fun _ ⟨_, hrun⟩ hsettled => h.noneBad_reenters hrun hsettled
  exact hrun.takesBack hback (fun hrun => ⟨_, hrun⟩)
    (fun haddr _ hs _ => h.onBlock_exit Aim.takenBack_avoids hcall haddr hs fun _ =>
      h.avoids_exit hcall) (fun _ => trivial) fun _ => trivial

theorem not_meets_reentry (h : p.Compiled m.program block code) (hpos : pos ≤ m.subject.size) :
    ¬ Meets m (fun _ _ _ => none) code 0 (Reenters m block code) ⟨0, pos, [], #[]⟩ := by
  obtain ⟨r, k, hrun, -⟩ := runs_lower (fun _ _ _ => none) #[] h.lowered (.refl _) id hpos
  have hsettled : Settled block ⟨0, pos, [], #[]⟩ := ⟨aligned_moveOpens block, nofun⟩
  exact holds_of_onBlock (h.avoids_reentry hrun) hsettled ⟨.refl 0, rfl, rfl, .nil⟩

end Pattern.Compiled

/-! ## States -/

namespace Setting

variable {m : Setting} {p : Pattern} {block code : Block} {start n address : Nat} {r : Answer}
  {c : Config} {s : State} {above below frames : List Frame} {entries : List Entry}
  {owners : List (Option Nat)} {off : Int}

theorem Since.exists_config (h : p.Compiled m.program block code)
    (hsince : m.Since frames entries (m.stateOf start c) s) (hn : frames.length = n + 1)
    (hrun : m.ComesTo block code start c r) :
    ∃ c', s = m.stateOf start c' ∧ m.ComesTo block code start c' r ∧ n ≤ c'.frames.length ∧
      ∀ P, Meets m (fun _ _ _ => none) code n P c' → Meets m (fun _ _ _ => none) code n P c := by
  have hlength : ∀ {c' : Config}, frames <:+ (m.stateOf start c').stack.frames →
      n ≤ c'.frames.length := by
    intro c' hframes
    have hle := hframes.length_le
    rw [← Stack.size_eq, size_stateOf] at hle
    omega
  induction hsince with
  | refl hframes => exact ⟨c, rfl, hrun, hlength hframes, fun _ => id⟩
  | step _ hstep hframes _ ih =>
    obtain ⟨c', rfl, hrun', hle, hmeets⟩ := ih
    rcases step_of_run h hrun' hstep with ⟨c'', instr, hinstr, hmove, rfl, hrun''⟩ | ⟨-, rfl⟩
    · exact ⟨c'', rfl, hrun'', hlength hframes,
        fun P hmet => hmeets P (.next hle hinstr hmove hmet)⟩
    · have hempty := hframes.length_le
      rw [hn] at hempty
      cases hempty

theorem step_call (h : p.Compiled m.program block code) {s' : State} {event : Option Event}
    (hrun : m.ComesTo block code start c r)
    (hcall : m.program.code[c.address]? = some (.call off))
    (hstep : m.step (m.stateOf start c) = .next s' event) :
    s' = m.stateOf start ⟨c.target off, c.pos, ⟨.ret (c.address + 1), c.address⟩ :: c.frames,
      c.captures⟩ ∧ m.ComesTo block code start ⟨c.target off, c.pos,
        ⟨.ret (c.address + 1), c.address⟩ :: c.frames, c.captures⟩ r := by
  rcases step_of_run h hrun hstep with ⟨c', instr, hinstr, hmove, rfl, hrun'⟩ | ⟨-, rfl⟩
  · rw [h.getElem?_of_code hinstr] at hcall
    cases hcall
    cases hmove
    exact ⟨rfl, hrun'⟩
  · rw [step_of_getElem? (s := m.stateOf start c) hcall] at hstep
    have hstack := congrArg (fun s => s.stack.size) (next_of_pushFrame hstep)
    cases hstack

/-- While a call is pending, the same call is made at later positions only. -/
theorem CalledAt.pos_lt (h : p.Compiled m.program block code) (hstart : start ≤ m.subject.size)
    {s₀ : State} {off₀ : Int} (hcalled : m.CalledAt start address below s₀ s)
    (hcall₀ : m.program.code[s₀.address]? = some (.call off₀))
    (hcall : m.program.code[s.address]? = some (.call off))
    (htarget : s.target off = s₀.target off₀) : s₀.pos < s.pos := by
  obtain ⟨r, hrun, -⟩ := h.runs hstart
  obtain ⟨owners₀, hreach₀⟩ := hcalled.reached
  obtain ⟨s₁, event, hstep, hpending, hsince⟩ := hcalled.since
  rcases hreach₀.exists_config
    (K := fun c => ¬ Meets m (fun _ _ _ => none) code 0 (Reenters m block code) c) h hrun
    (h.not_meets_reentry hstart) fun hinstr hmove hnot hmeets =>
      hnot (.next (Nat.zero_le _) hinstr hmove hmeets) with rfl | ⟨c₀, rfl, hrun₀, hnot⟩
  · rw [step_gaveUp h] at hstep
    cases hstep
  obtain ⟨rfl, hrun₁⟩ := step_call h hrun₀ hcall₀ hstep
  have hlength : (Frame.ret address :: below).length = c₀.frames.length + 1 + 1 := by
    rw [← hpending, ← Stack.size_eq, size_stateOf]
    rfl
  obtain ⟨c, rfl, -, hle, hmeets⟩ := hsince.exists_config h hlength hrun₁
  obtain ⟨target₀, htarget₀, -⟩ := h.callsAgain (c := c₀) hcall₀ (Nat.le_refl _)
  -- Otherwise the configuration of `s` would be met on from the call.
  refine Nat.lt_of_not_le fun hpos => hnot (.here (Nat.zero_le _) ?_)
  obtain ⟨target, htarget', hagain⟩ := h.callsAgain (c := c) hcall hpos
  have heq : ((c.address : Int) + off).toNat = ((c₀.address : Int) + off₀).toNat := htarget
  rw [htarget', htarget₀, Int.toNat_natCast, Int.toNat_natCast] at heq
  subst heq
  have hmet := hmeets _ (.here hle hagain)
  rw [Config.target, htarget₀, Int.toNat_natCast] at hmet
  exact ⟨off₀, target, h.code_call hcall₀, htarget₀, hmet⟩

/-- **While a call is pending, the same call is made at later positions only.** In any state that a run
of a compiled pattern comes by, and for any frame there that a call returns by, there is a state `s₀`
that made the call, and the frame has been pending since. If the next instruction is a call to the
same address, it is made behind the position of `s₀`. -/
theorem not_reentered (hp : p.compile = .ok m.program) (start : Nat)
    (hreach : m.Reaches (min start m.subject.size) s owners)
    (hframes : s.stack.frames = above ++ .ret address :: below) :
    (∃ s₀, m.CalledAt (min start m.subject.size) address below s₀ s) ∧
      ∀ s₀ off₀ off, m.CalledAt (min start m.subject.size) address below s₀ s →
        m.program.code[s₀.address]? = some (.call off₀) →
        m.program.code[s.address]? = some (.call off) → s.target off = s₀.target off₀ →
        s₀.pos < s.pos := by
  obtain ⟨block, code, h⟩ := p.compiled_exists hp
  exact ⟨hreach.exists_calledAt (hframes ▸ List.suffix_append above _),
    fun _ _ _ hcalled hcall₀ hcall htarget =>
      hcalled.pos_lt h (Nat.min_le_right _ _) hcall₀ hcall htarget⟩

end Setting

/-- A rule calls itself behind the bracket that it consumes. -/
theorem brackets_not_reentered :
    let m : Setting := ⟨bracketsProgram, {}, #[40, 41], []⟩
    let s : State := ⟨5, 1,
      ((Stack.empty.push (.choice ⟨11, 0, 0⟩)).push (.ret 1)).push (.choice ⟨9, 0, 0⟩),
      #[.opened .simple 0 1]⟩
    m.CalledAt 0 1 [.choice ⟨11, 0, 0⟩] (m.initial 0) s ∧ s.target (-3) = (m.initial 0).target 2 ∧
      (m.initial 0).pos < s.pos := by
  intro m s
  have hs : ∃ owners, m.Reaches (min 0 m.subject.size) s owners :=
    ⟨_, .step (.step (.step (.step .start rfl) rfl) rfl) rfl⟩
  obtain ⟨owners, hs⟩ := hs
  have hframes : s.stack.frames = [.choice ⟨9, 0, 0⟩] ++ .ret 1 :: [.choice ⟨11, 0, 0⟩] := rfl
  have hcalled : m.CalledAt 0 1 [.choice ⟨11, 0, 0⟩] (m.initial 0) s := by
    have hstays : [Frame.ret 1, .choice ⟨11, 0, 0⟩] <:+
        [.choice ⟨9, 0, 0⟩, .ret 1, .choice ⟨11, 0, 0⟩] := List.suffix_cons _ _
    refine ⟨⟨_, .start⟩, ⟨2, rfl⟩, rfl, _, none, rfl, rfl, ?_⟩
    exact .step (.step (.step (.refl List.suffix_rfl List.nil_prefix)
      rfl List.suffix_rfl List.nil_prefix) rfl hstays List.nil_prefix) rfl hstays List.nil_prefix
  have hlater := (Setting.not_reentered compile_brackets 0 hs hframes).2 (m.initial 0) 2 (-3)
    hcalled rfl rfl rfl
  exact ⟨hcalled, rfl, hlater⟩

end PegMachine
