import Mathlib.Logic.Relation
import PegMachine.Proofs.Plain.Code
import PegMachine.Proofs.Plain.Written

/-!
# Where code leads

* `Program.Holds`: a block stands in a program, with its open calls linked.
* `Setting.GoesTo`: some steps of the machine. `Setting.Overruns`: some steps lead to a stack that is
  full.
* `Setting.Within`: the stack gets full on the way, or there is room for a number of frames.
* `Setting.Comes`: the machine gets behind a piece of code or back to the latest choice.
* `Setting.Yields`: it does so within a number of frames.
* `Setting.Yields.tried`, `Setting.Yields.after`: behind a choice, and behind a match.
-/

namespace PegMachine

/-- A block stands in a program, with its open calls linked if it is known where the rules stand. -/
def Program.Holds (program : Program) (starts : Option (Nat → Nat)) (base : Nat) (block : Block) :
    Prop :=
  ∀ (k : Nat) (instr : Instr), block[k]? = some instr →
    program.code[base + k]? = some (starts.elim instr fun starts => instr.linkedAt starts (base + k))

namespace Setting

variable (m : Setting)

/-- A step from a state to the next one. -/
def StepsTo (s s' : State) : Prop := ∃ event, m.step s = .next s' event

/-- Some steps. -/
def GoesTo : State → State → Prop := Relation.ReflTransGen m.StepsTo

/-- Some steps lead to a stack that is full. -/
def Overruns (s : State) : Prop :=
  ∃ s' event, m.GoesTo s s' ∧ m.step s' = .halt (.faulted .stackOverflow) event

/-- There is room for a number of frames above a stack. -/
def Fits (stack : Stack) (n : Nat) : Prop :=
  ∀ limit, m.limits.maxStack = some limit → 0 < n → stack.size + n ≤ limit

/-- The stack gets full on the way from a state, or there is room for a number of frames and
something holds. -/
def Within (s : State) (stack : Stack) (n : Nat) (done : Prop) : Prop :=
  m.Overruns s ∨ (m.Fits stack n ∧ done)

/-- From a state the machine gets to an address with a stack and with more captures, or it goes back
to the latest choice. -/
def Comes (s : State) (next : Nat) (stack : Stack) (captures : Array Entry) : Parse → Prop
  | some (stop, forest) => ∃ entries captures', m.GoesTo s ⟨next, stop, stack, captures'⟩ ∧
      Records captures entries captures' ∧ Writes m.program entries forest
  | none => ∀ point below, stack.unwind? = some (point, below) →
      point.captures ≤ captures.size →
      m.GoesTo s ⟨point.address, point.pos, below, captures.shrink point.captures⟩

/-- It does so within a number of frames. -/
def Yields (s : State) (next : Nat) (stack : Stack) (captures : Array Entry) (n : Nat)
    (r : Parse) : Prop :=
  m.Within s stack n (m.Comes s next stack captures r)

end Setting

/-! ## Code -/

namespace Program.Holds

variable {program : Program} {starts : Option (Nat → Nat)} {base k : Nat} {a b : Block}
  {instr : Instr}

theorem left (h : program.Holds starts base (a ++ b)) : program.Holds starts base a := by
  intro k instr hk
  refine h k instr ?_
  rw [List.getElem?_append_left (List.getElem?_eq_some_iff.1 hk).1, hk]

theorem right (h : program.Holds starts base (a ++ b)) :
    program.Holds starts (base + a.length) b := by
  intro k instr hk
  have hk' : (a ++ b)[a.length + k]? = some instr := by
    rw [List.getElem?_append_right (Nat.le_add_right _ _), Nat.add_sub_cancel_left, hk]
  rw [Nat.add_assoc]
  exact h (a.length + k) instr hk'

theorem tail (h : program.Holds starts base (instr :: b)) : program.Holds starts (base + 1) b :=
  right (a := [instr]) h

theorem head (h : program.Holds starts base (instr :: b))
    (hopen : ∀ rule, instr ≠ .openCall rule) : program.code[base]? = some instr := by
  have hat := h 0 instr rfl
  cases starts with
  | none => exact hat
  | some starts =>
    cases instr with
    | openCall rule => exact absurd rfl (hopen rule)
    | _ => exact hat

end Program.Holds

namespace Setting

variable {m : Setting} {s s' : State} {next mid k n pos stop address : Nat} {stack : Stack}
  {captures captures' : Array Entry} {entries : List Entry} {forest : List Tree} {r : Parse}
  {instr : Instr} {frame : Frame} {off : Int} {done done' : Prop}

/-! ## Steps -/

theorem GoesTo.trans {t : State} (h : m.GoesTo s s') (h' : m.GoesTo s' t) : m.GoesTo s t :=
  Relation.ReflTransGen.trans h h'

theorem goesTo_of_execute (event : Option Event) (hinstr : m.program.code[s.address]? =
    some instr) (h : m.execute s instr = .next s' event) : m.GoesTo s s' := by
  refine Relation.ReflTransGen.single ⟨event, ?_⟩
  rw [step, hinstr]
  exact h

theorem goesTo_jump (hinstr : m.program.code[address]? = some (.jump off))
    (hnext : (address : Int) + off = next) :
    m.GoesTo ⟨address, pos, stack, captures⟩ ⟨next, pos, stack, captures⟩ := by
  refine goesTo_of_execute none hinstr ?_
  simp [execute, State.jump, State.target, hnext]

theorem goesTo_ret (hinstr : m.program.code[address]? = some .ret) :
    m.GoesTo ⟨address, pos, stack.push (.ret next), captures⟩ ⟨next, pos, stack, captures⟩ :=
  goesTo_of_execute none hinstr rfl

theorem goesTo_commit {point : ChoicePoint} (hinstr : m.program.code[address]? = some (.commit off))
    (hnext : (address : Int) + off = next) :
    m.GoesTo ⟨address, pos, stack.push (.choice point), captures⟩ ⟨next, pos, stack, captures⟩ := by
  refine goesTo_of_execute none hinstr ?_
  simp [execute, State.popChoice, State.jump, State.target, hnext]

theorem goesTo_partialCommit {point : ChoicePoint}
    (hinstr : m.program.code[address]? = some (.partialCommit off))
    (hnext : (address : Int) + off = next) :
    m.GoesTo ⟨address, pos, stack.push (.choice point), captures⟩
      ⟨next, pos, stack.push (.choice ⟨point.address, pos, captures.size⟩), captures⟩ := by
  refine goesTo_of_execute none hinstr ?_
  simp [execute, State.popChoice, State.target, hnext]

theorem goesTo_backCommit {point : ChoicePoint}
    (hinstr : m.program.code[address]? = some (.backCommit off))
    (hnext : (address : Int) + off = next) :
    m.GoesTo ⟨address, pos, stack.push (.choice point), captures⟩
      ⟨next, point.pos, stack, captures.shrink point.captures⟩ := by
  refine goesTo_of_execute none hinstr ?_
  simp [execute, State.popChoice, State.target, hnext]

/-! ## Room -/

theorem fits_zero (stack : Stack) : m.Fits stack 0 := fun _ _ h => absurd h (Nat.lt_irrefl 0)

theorem Fits.max (hk : m.Fits stack k) (hn : m.Fits stack n) : m.Fits stack (max k n) := by
  intro limit hlimit hpos
  rcases Nat.le_total k n with hle | hle
  · rw [Nat.max_eq_right hle] at hpos ⊢
    exact hn limit hlimit hpos
  · rw [Nat.max_eq_left hle] at hpos ⊢
    exact hk limit hlimit hpos

theorem Fits.above (hone : m.Fits stack 1) (h : m.Fits (stack.push frame) k) :
    m.Fits stack (k + 1) := by
  intro limit hlimit _
  cases k with
  | zero => exact hone limit hlimit Nat.one_pos
  | succ k =>
    have hle : stack.size + 1 + (k + 1) ≤ limit := h limit hlimit (Nat.succ_pos k)
    omega

theorem Overruns.of_goesTo (h : m.GoesTo s s') (h' : m.Overruns s') : m.Overruns s := by
  obtain ⟨last, event, hlast, hstep⟩ := h'
  exact ⟨last, event, h.trans hlast, hstep⟩

theorem Within.imp (h : m.Within s stack n done) (himp : done → done') :
    m.Within s stack n done' :=
  h.imp_right fun ⟨hfits, hdone⟩ => ⟨hfits, himp hdone⟩

theorem Within.bind (h : m.Within s stack k done) (hnext : done → m.Within s stack n done') :
    m.Within s stack (max k n) done' := by
  rcases h with hover | ⟨hfits, hdone⟩
  · exact .inl hover
  · exact (hnext hdone).imp_right fun ⟨hfits', hdone'⟩ => ⟨hfits.max hfits', hdone'⟩

theorem Within.of_goesTo (h : m.GoesTo s s') (h' : m.Within s' stack n done) :
    m.Within s stack n done :=
  h'.imp_left (.of_goesTo h)

theorem Within.above (hone : m.Fits stack 1) (h : m.Within s (stack.push frame) k done) :
    m.Within s stack (k + 1) done :=
  h.imp_right fun ⟨hfits, hdone⟩ => ⟨hone.above hfits, hdone⟩

theorem within_pushFrame (hinstr : m.program.code[s.address]? = some instr)
    (hpush : m.execute s instr = m.pushFrame s frame off) :
    m.Within s s.stack 1
      (m.GoesTo s { s with address := s.target off, stack := s.stack.push frame }) := by
  have hstep : m.step s = m.pushFrame s frame off := by rw [step, hinstr]; exact hpush
  rw [pushFrame] at hstep
  cases hlimit : m.limits.maxStack with
  | none =>
    rw [hlimit] at hstep
    refine .inr ⟨fun limit hlimit' => ?_, .single ⟨_, hstep⟩⟩
    rw [hlimit] at hlimit'
    cases hlimit'
  | some limit =>
    rw [hlimit] at hstep
    dsimp only at hstep
    by_cases hfull : limit ≤ s.stack.size
    · rw [if_pos hfull] at hstep
      exact .inl ⟨s, _, .refl, hstep⟩
    · rw [if_neg hfull] at hstep
      refine .inr ⟨fun limit' hlimit' _ => ?_, .single ⟨_, hstep⟩⟩
      rw [hlimit] at hlimit'
      cases hlimit'
      omega

theorem within_choice (hinstr : m.program.code[address]? = some (.choice off 0))
    (hnext : (address : Int) + off = next) :
    m.Within ⟨address, pos, stack, captures⟩ stack 1
      (m.GoesTo ⟨address, pos, stack, captures⟩
        ⟨address + 1, pos, stack.push (.choice ⟨next, pos, captures.size⟩), captures⟩) := by
  refine (within_pushFrame (s := ⟨address, pos, stack, captures⟩) hinstr rfl).imp fun hgoes => ?_
  simp only [State.target, hnext, Int.toNat_natCast] at hgoes
  exact hgoes

theorem within_call (hinstr : m.program.code[address]? = some (.call off))
    (hnext : (address : Int) + off = next) :
    m.Within ⟨address, pos, stack, captures⟩ stack 1
      (m.GoesTo ⟨address, pos, stack, captures⟩
        ⟨next, pos, stack.push (.ret (address + 1)), captures⟩) := by
  refine (within_pushFrame (s := ⟨address, pos, stack, captures⟩) hinstr rfl).imp fun hgoes => ?_
  simp only [State.target, hnext, Int.toNat_natCast] at hgoes
  exact hgoes

/-! ## Places -/

theorem comes_here : m.Comes ⟨next, pos, stack, captures⟩ next stack captures (some (pos, [])) :=
  ⟨[], captures, .refl, records_nil captures, .nil⟩

theorem Comes.of_goesTo (h : m.GoesTo s s') (h' : m.Comes s' next stack captures r) :
    m.Comes s next stack captures r := by
  cases r with
  | none => exact fun point below hunwind hle => h.trans (h' point below hunwind hle)
  | some found =>
    obtain ⟨entries, captures', hgoes, hrecords, hwrites⟩ := h'
    exact ⟨entries, captures', h.trans hgoes, hrecords, hwrites⟩

theorem Comes.after (h : m.Comes s next stack captures' r)
    (hrecords : Records captures entries captures') (hwrites : Writes m.program entries forest) :
    m.Comes s next stack captures (r.after forest) := by
  cases r with
  | none =>
    intro point below hunwind hle
    rw [← hrecords.extends.shrink hle]
    exact h point below hunwind (Nat.le_trans hle hrecords.extends.size_le)
  | some found =>
    obtain ⟨more, captures'', hgoes, hmore, hwrites'⟩ := h
    exact ⟨entries ++ more, captures'', hgoes, hrecords.trans hmore, hwrites.append hwrites'⟩

/-- A failure does not depend on what has been recorded meanwhile. -/
theorem Comes.failed (h : m.Comes s mid stack captures' none) (hextends : Extends captures captures') :
    m.Comes s next stack captures none := by
  intro point below hunwind hle
  rw [← hextends.shrink hle]
  exact h point below hunwind (Nat.le_trans hle hextends.size_le)

theorem comes_backtrack (event : Option Event) {stack' : Stack}
    (hinstr : m.program.code[s.address]? = some instr)
    (hback : m.execute s instr = State.backtrack { s with stack := stack' } event)
    (hunwind : stack'.unwind? = stack.unwind?) (hextends : Extends captures s.captures) :
    m.Comes s next stack captures none := by
  intro point below hpoint hle
  refine goesTo_of_execute event hinstr ?_
  rw [hback, State.backtrack, hunwind, hpoint, ← hextends.shrink hle]

theorem Comes.taken
    (h : m.Comes s mid (stack.push (.choice ⟨next, pos, captures.size⟩)) captures none) :
    m.GoesTo s ⟨next, pos, stack, captures⟩ := by
  have hgoes := h _ _ (Stack.unwind?_push_choice _ _) (Nat.le_refl _)
  rwa [shrink_size] at hgoes

/-! ## Pieces of code -/

theorem Yields.of_goesTo (h : m.GoesTo s s') (h' : m.Yields s' next stack captures n r) :
    m.Yields s next stack captures n r :=
  Within.of_goesTo h (h'.imp (.of_goesTo h))

theorem Comes.yields (h : m.Comes s next stack captures r) : m.Yields s next stack captures 0 r :=
  .inr ⟨fits_zero stack, h⟩

theorem Yields.tried (hinstr : m.program.code[address]? = some (.choice off 0))
    (hnext : (address : Int) + off = next)
    (h : m.Yields ⟨address + 1, pos, stack.push (.choice ⟨next, pos, captures.size⟩), captures⟩ mid
      (stack.push (.choice ⟨next, pos, captures.size⟩)) captures k r) :
    m.Within ⟨address, pos, stack, captures⟩ stack (k + 1)
      (m.Comes ⟨address, pos, stack, captures⟩ mid
        (stack.push (.choice ⟨next, pos, captures.size⟩)) captures r) := by
  rcases within_choice hinstr hnext with hover | ⟨hone, hgoes⟩
  · exact .inl hover
  · exact .above hone (h.of_goesTo hgoes)

theorem Yields.after (h : m.Yields s mid stack captures k (some (stop, forest)))
    (hrest : ∀ captures', m.Yields ⟨mid, stop, stack, captures'⟩ next stack captures' n r) :
    m.Yields s next stack captures (max k n) (r.after forest) := by
  refine Within.bind h fun hcomes => ?_
  obtain ⟨entries, captures', hgoes, hrecords, hwrites⟩ := hcomes
  refine Within.of_goesTo hgoes ((hrest captures').imp fun hcomes' => ?_)
  exact (hcomes'.after hrecords hwrites).of_goesTo hgoes

end Setting

end PegMachine
