import PegMachine.Proofs.Blocks.Carried

/-!
# Steps at known instructions

One lemma for each instruction with a jump: a run that goes on with the configuration after the
instruction also goes on with the one before it.
-/

namespace PegMachine

namespace Run

variable {m : Setting} {answers : Answers} {code : Block} {o : Origin} {R : Answer}
  {address pos owner n : Nat} {captures : Array Entry} {frames : List Pending} {d : Int}
  {point : ChoicePoint} {i : Instr}

theorem step_advance {pos' : Nat} {captures' : Array Entry}
    (hinstr : code[address]? = some i) (hs : Sound m o ⟨address, pos, frames, captures⟩)
    (hr : i.Ready m answers code o ⟨address, pos, frames, captures⟩)
    (hmove : m.move answers pos captures i = .advance pos' captures')
    (h : Run m answers code code o ⟨address + 1, pos', frames, captures'⟩ R) :
    Run m answers code code o ⟨address, pos, frames, captures⟩ R :=
  .next hinstr hs hr (by rw [hmove]; rfl) h

theorem step_fail (hinstr : code[address]? = some i)
    (hs : Sound m o ⟨address, pos, frames, captures⟩)
    (hr : i.Ready m answers code o ⟨address, pos, frames, captures⟩)
    (hmove : m.move answers pos captures i = .fail)
    (h : Backtracks m answers code o frames captures R) :
    Run m answers code code o ⟨address, pos, frames, captures⟩ R :=
  of_backtracks hinstr hs hr (by rw [hmove]; rfl) h

theorem step_jump (hinstr : code[address]? = some (.jump d))
    (hs : Sound m o ⟨address, pos, frames, captures⟩) (hn : (address : Int) + d = n)
    (h : Run m answers code code o ⟨n, pos, frames, captures⟩ R) :
    Run m answers code code o ⟨address, pos, frames, captures⟩ R := by
  refine .next hinstr hs trivial rfl ?_
  simpa [Config.target, hn] using h

theorem step_call (hinstr : code[address]? = some (.call d))
    (hs : Sound m o ⟨address, pos, frames, captures⟩) (hn : (address : Int) + d = n)
    (h : Run m answers code code o
      ⟨n, pos, ⟨.ret (address + 1), address⟩ :: frames, captures⟩ R) :
    Run m answers code code o ⟨address, pos, frames, captures⟩ R := by
  refine .next hinstr hs trivial rfl ?_
  simpa [Config.target, hn] using h

theorem step_ret {target : Nat} (hinstr : code[address]? = some .ret)
    (hs : Sound m o ⟨address, pos, ⟨.ret target, owner⟩ :: frames, captures⟩)
    (h : Run m answers code code o ⟨target, pos, frames, captures⟩ R) :
    Run m answers code code o ⟨address, pos, ⟨.ret target, owner⟩ :: frames, captures⟩ R :=
  .next hinstr hs ⟨target, owner, frames, rfl⟩ rfl h

theorem step_choice {back : Nat} (hinstr : code[address]? = some (.choice d back))
    (hs : Sound m o ⟨address, pos, frames, captures⟩) (hback : o.pos + back ≤ pos)
    (hn : (address : Int) + d = n)
    (h : Run m answers code code o
      ⟨address + 1, pos, ⟨.choice ⟨n, pos - back, captures.size⟩, address⟩ :: frames, captures⟩ R) :
    Run m answers code code o ⟨address, pos, frames, captures⟩ R := by
  refine .next hinstr hs hback rfl ?_
  simpa [Config.target, hn] using h

theorem step_commit (hinstr : code[address]? = some (.commit d))
    (hs : Sound m o ⟨address, pos, ⟨.choice point, owner⟩ :: frames, captures⟩)
    (hown : OwnChoice code address owner) (hn : (address : Int) + d = n)
    (h : Run m answers code code o ⟨n, pos, frames, captures⟩ R) :
    Run m answers code code o ⟨address, pos, ⟨.choice point, owner⟩ :: frames, captures⟩ R := by
  refine .next hinstr hs ⟨point, owner, frames, rfl, hown⟩ rfl ?_
  simpa [Config.target, hn] using h

theorem step_partialCommit (hinstr : code[address]? = some (.partialCommit d))
    (hs : Sound m o ⟨address, pos, ⟨.choice point, owner⟩ :: frames, captures⟩)
    (hown : OwnChoice code address owner) (hn : (address : Int) + d = n)
    (h : Run m answers code code o
      ⟨n, pos, ⟨.choice ⟨point.address, pos, captures.size⟩, owner⟩ :: frames, captures⟩ R) :
    Run m answers code code o ⟨address, pos, ⟨.choice point, owner⟩ :: frames, captures⟩ R := by
  refine .next hinstr hs ⟨point, owner, frames, rfl, hown⟩ rfl ?_
  simpa [Config.target, hn] using h

theorem step_backCommit (hinstr : code[address]? = some (.backCommit d))
    (hs : Sound m o ⟨address, pos, ⟨.choice point, owner⟩ :: frames, captures⟩)
    (hown : OwnChoice code address owner) (hn : (address : Int) + d = n)
    (h : Run m answers code code o ⟨n, point.pos, frames, captures.shrink point.captures⟩ R) :
    Run m answers code code o ⟨address, pos, ⟨.choice point, owner⟩ :: frames, captures⟩ R := by
  refine .next hinstr hs ⟨point, owner, frames, rfl, hown⟩ rfl ?_
  simpa [Config.target, hn] using h

theorem step_failTwice (hinstr : code[address]? = some .failTwice)
    (hs : Sound m o ⟨address, pos, ⟨.choice point, owner⟩ :: frames, captures⟩)
    (hown : OwnChoice code address owner) (h : Backtracks m answers code o frames captures R) :
    Run m answers code code o ⟨address, pos, ⟨.choice point, owner⟩ :: frames, captures⟩ R :=
  of_backtracks hinstr hs ⟨point, owner, frames, rfl, hown⟩ rfl h

end Run

/-! ## Going back -/

section

variable {m : Setting} {answers : Answers} {code : Block} {o : Origin} {R : Answer}
  {captures : Array Entry} {frames : List Pending} {point : ChoicePoint} {owner : Nat}

theorem Backtracks.nil : Backtracks m answers code o [] captures .failed := rfl

theorem Backtracks.choice
    (h : Run m answers code code o
      ⟨point.address, point.pos, frames, captures.shrink point.captures⟩ R) :
    Backtracks m answers code o (⟨.choice point, owner⟩ :: frames) captures R := h

theorem Backtracks.here {address pos : Nat} (owner : Nat)
    (h : Run m answers code code o ⟨address, pos, frames, captures⟩ R) :
    Backtracks m answers code o (⟨.choice ⟨address, pos, captures.size⟩, owner⟩ :: frames) captures
      R := by
  refine .choice ?_
  rwa [shrink_size]

end

/-! ## The own choice of a position in a block -/

/-- A choice whose alternative lies behind a position, with only contained code between. -/
theorem OwnChoice.of_jumpsWithin (before : Block) {between behind : Block} {off l : Int}
    {back address : Nat} (haddr : address = before.length + 1 + between.length)
    (hbehind : (address : Int) < before.length + off)
    (hbetween : Block.JumpsWithin l address (before.length + 1) between) :
    OwnChoice (before ++ .choice off back :: (between ++ behind)) address before.length := by
  refine ⟨by omega, ⟨off, back, by simp, hbehind⟩, ?_⟩
  intro k hk hk' off' back' hcode
  have hmem : between[k - (before.length + 1)]? = some (.choice off' back') := by
    rw [List.getElem?_append_right (by omega), List.getElem?_cons, if_neg (by omega),
      List.getElem?_append_left (by omega)] at hcode
    rwa [show k - before.length - 1 = k - (before.length + 1) by omega] at hcode
  have := (hbetween _ _ off' hmem rfl).2
  omega

end PegMachine
