import PegMachine.Proofs.Programs.Ends

/-!
# The stack discipline of compiled programs

* `Instr.back`, `Instr.pops`: how far an instruction looks back, and whether it works on the choice
  on top of the stack.
* `Setting.InOrder`: what holds of a state in which the machine finds what it needs.
* `Setting.inOrder_of_compile`: **every state that a run of a compiled pattern comes by is in order,
  and no run ends because the machine does not find what it needs.**
-/

namespace PegMachine

/-- The number of bytes that an instruction subtracts from the position. -/
def Instr.back : Instr → Nat
  | .choice _ back | .openCapture _ back _ => back
  | .fullCapture _ length _ => length
  | _ => 0

/-- Whether an instruction works on the choice on top of the stack. -/
def Instr.pops : Instr → Bool
  | .commit _ | .partialCommit _ | .backCommit _ | .failTwice => true
  | _ => false

/-! ## Instructions of the program and of the block -/

namespace Pattern.Compiled

variable {p : Pattern} {program : Program} {block code : Block} {instr : Instr} {k : Nat}

/-- An instruction that works on a choice is that of the block, up to where it jumps to. -/
theorem block_of_pops (h : p.Compiled program block code) (hinstr : code[k]? = some instr)
    (hpops : instr.pops = true) :
    ∃ instr' off, block[k]? = some instr' ∧ instr = instr'.withOffset off := by
  have hinstr' : code.toArray[k]? = some instr := by rwa [List.getElem?_toArray]
  obtain ⟨source, hsource, hthreaded⟩ := h.threaded.getElem? hinstr'
  obtain ⟨off, heq⟩ : ∃ off, instr = source.withOffset off := by
    cases hthreaded with
    | same hnone =>
      cases instr with
      | commit | partialCommit | backCommit => cases hnone
      | failTwice => exact ⟨0, rfl⟩
      | _ => cases hpops
    | jump => exact ⟨_, rfl⟩
  refine ⟨source, off, ?_, heq⟩
  rcases moved_getElem? (aligned_moveOpens block) hsource with hblock | hcheck | ⟨_, _, _, rfl⟩
  · exact hblock
  · rw [heq] at hpops
    cases source <;> first | cases hcheck | cases hpops
  · rw [heq] at hpops
    cases hpops

theorem getElem?_choice (h : p.Compiled program block code) {off : Int} {back : Nat}
    (hinstr : block[k]? = some (.choice off back)) :
    ∃ off', program.code[k]? = some (.choice off' back) := by
  have hmoved := getElem?_moved (aligned_moveOpens block) hinstr rfl rfl
  obtain ⟨instr', hinstr', hthreaded⟩ := h.threaded.2 k _ hmoved
  have hcode : code[k]? = some instr' := by rwa [List.getElem?_toArray] at hinstr'
  cases hthreaded with
  | same hnone => cases hnone
  | jump => exact ⟨_, h.getElem?_of_code hcode⟩

end Pattern.Compiled

/-! ## States in order -/

namespace Setting

/-- A state in which the machine finds what it needs. Each frame has an owner. The instructions that
work on the choice on top of the stack find the one of the innermost choice around them in the block
that the program is made of. -/
structure InOrder (m : Setting) (block : Block) (start : Nat) (s : State)
    (owners : List (Option Nat)) : Prop where
  address_lt : s.address < m.program.size
  pos_ge : start ≤ s.pos
  pos_le : s.pos ≤ m.subject.size
  owned : owners.length = s.stack.size
  back_le : ∀ instr, m.program.code[s.address]? = some instr → start + instr.back ≤ s.pos
  ret : m.program.code[s.address]? = some .ret →
    ∃ address frames, s.stack.frames = .ret address :: frames
  pops : ∀ instr, m.program.code[s.address]? = some instr → instr.pops = true →
    (∃ instr' off, block[s.address]? = some instr' ∧ instr = instr'.withOffset off) ∧
    ∃ point frames owner rest, s.stack.frames = .choice point :: frames ∧
      owners = some owner :: rest ∧ OwnChoice block s.address owner ∧
      ∃ off back, m.program.code[owner]? = some (.choice off back)

variable {m : Setting} {p : Pattern} {block code : Block} {start : Nat} {r : Answer} {s : State}
  {owners : List (Option Nat)} {c : Config} {instr : Instr}

theorem inOrder_of_last (hlt : s.address < m.program.size) (hge : start ≤ s.pos)
    (hle : s.pos ≤ m.subject.size) (howned : owners.length = s.stack.size)
    (hinstr : m.program.code[s.address]? = some instr)
    (hlast : instr = .done ∨ instr = .giveUp) : m.InOrder block start s owners := by
  have hneeds : instr.back = 0 ∧ instr.pops = false ∧ instr ≠ .ret := by
    rcases hlast with rfl | rfl <;> exact ⟨rfl, rfl, nofun⟩
  refine ⟨hlt, hge, hle, howned, fun instr' hinstr' => ?_, fun hret => ?_,
    fun instr' hinstr' hpops => ?_⟩
  · rw [hinstr] at hinstr'
    cases hinstr'
    rw [hneeds.1]
    exact hge
  · rw [hinstr] at hret
    cases hret
    exact absurd rfl hneeds.2.2
  · rw [hinstr] at hinstr'
    cases hinstr'
    rw [hneeds.2.1] at hpops
    cases hpops

/-- Where an instruction of the code is ready, the state is in order. -/
theorem inOrder_of_ready (h : p.Compiled m.program block code)
    {room : Nat} (hs : Sound m ⟨start, #[], room⟩ c) (hinstr : code[c.address]? = some instr)
    (hready : instr.Ready m (fun _ _ _ => none) block ⟨start, #[], room⟩ c) :
    m.InOrder block start (m.stateOf start c) (ownersOf c.frames) := by
  have hprogram : m.program.code[(m.stateOf start c).address]? = some instr :=
    h.getElem?_of_code hinstr
  refine ⟨?_, hs.pos_ge, hs.pos_le, length_ownersOf c, fun instr' hinstr' => ?_, fun hret => ?_,
    fun instr' hinstr' hpops => ?_⟩
  · exact (Array.getElem?_eq_some_iff.1 hprogram).1
  · rw [hprogram] at hinstr'
    cases hinstr'
    cases instr with
    | choice | openCapture | fullCapture => exact hready
    | _ => exact hs.pos_ge
  · rw [hprogram] at hret
    cases hret
    obtain ⟨address, owner, rest, hframes⟩ := hready
    refine ⟨address, m.framesOf start rest, ?_⟩
    show m.framesOf start c.frames = _
    rw [hframes]
    rfl
  · rw [hprogram] at hinstr'
    cases hinstr'
    refine ⟨h.block_of_pops hinstr hpops, ?_⟩
    obtain ⟨point, owner, rest, hframes, hown⟩ : ∃ point owner rest,
        c.frames = ⟨.choice point, owner⟩ :: rest ∧ OwnChoice block c.address owner := by
      cases instr with
      | commit | partialCommit | backCommit | failTwice => exact hready
      | _ => cases hpops
    refine ⟨point, m.framesOf start rest, owner, ownersOf rest, ?_, ?_, hown, ?_⟩
    · show m.framesOf start c.frames = _
      rw [hframes]
      rfl
    · rw [hframes]
      rfl
    · obtain ⟨-, ⟨off, back, hchoice, -⟩, -⟩ := hown
      obtain ⟨off', hchoice'⟩ := h.getElem?_choice hchoice
      exact ⟨off', back, hchoice'⟩

theorem Tracked.inOrder (ht : Tracked m start block code r s owners)
    (h : p.Compiled m.program block code) (hstart : start ≤ m.subject.size) :
    m.InOrder block start s owners := by
  cases ht with
  | @running c hrun =>
    obtain ⟨room, hrun⟩ := hrun
    have hs := hrun.sound
    rcases hrun.address_cases with hend | ⟨instr, hinstr⟩
    · have hdone := getElem?_stateOf start h hend
      exact inOrder_of_last (Array.getElem?_eq_some_iff.1 hdone).1 hs.pos_ge hs.pos_le
        (length_ownersOf c) hdone (.inl rfl)
    · exact inOrder_of_ready h hs hinstr (hrun.ready hinstr)
  | gaveUp =>
    have hlast : m.program.code[(m.gaveUp start).address]? = some .giveUp := h.getElem?_giveUp
    exact inOrder_of_last (Array.getElem?_eq_some_iff.1 hlast).1 (Nat.le_refl _) hstart
      rfl hlast (.inr rfl)

/-- **Every state that a run of a compiled pattern comes by is in order, and no run ends because the
machine does not find what it needs.** -/
theorem inOrder_of_compile (hp : p.compile = .ok m.program) (start : Nat) :
    ∃ block, p.lower none #[] = .ok (block, m.program.constants) ∧
      (∀ s owners, m.Reaches (min start m.subject.size) s owners →
        m.InOrder block (min start m.subject.size) s owners) ∧
      ∀ address, ¬ m.Ends (min start m.subject.size) (.faulted (.invalidStack address)) ∧
        ¬ m.Ends (min start m.subject.size) (.faulted (.unresolvedCall address)) := by
  have hstart : min start m.subject.size ≤ m.subject.size := Nat.min_le_right _ _
  obtain ⟨block, code, hcompiled⟩ := p.compiled_exists hp
  obtain ⟨r, hrun, -⟩ := hcompiled.runs hstart
  refine ⟨block, hcompiled.lowered, fun s owners hs => ?_, fun address => ⟨?_, ?_⟩⟩
  · exact (hs.tracked hcompiled hrun).inOrder hcompiled hstart
  · intro hends
    cases hends.leadsTo hcompiled hrun with
    | faulted hfault => cases hfault
  · intro hends
    cases hends.leadsTo hcompiled hrun with
    | faulted hfault => cases hfault

end Setting

theorem rewinding_inOrder :
    ∃ block, rewinding.lower none #[] = .ok (block, rewindingProgram.constants) ∧
      (∀ s owners, (⟨rewindingProgram, {}, #[97, 97], []⟩ : Setting).Reaches (min 0 2) s owners →
        (⟨rewindingProgram, {}, #[97, 97], []⟩ : Setting).InOrder block (min 0 2) s owners) ∧
      ∀ address,
        ¬ (⟨rewindingProgram, {}, #[97, 97], []⟩ : Setting).Ends (min 0 2)
          (.faulted (.invalidStack address)) ∧
        ¬ (⟨rewindingProgram, {}, #[97, 97], []⟩ : Setting).Ends (min 0 2)
          (.faulted (.unresolvedCall address)) :=
  Setting.inOrder_of_compile (m := ⟨rewindingProgram, {}, #[97, 97], []⟩) compile_rewinding 0

end PegMachine
