import Mathlib.Data.Finset.Lattice.Fold
import PegMachine.Proofs.Lowering.TailCalls
import PegMachine.Proofs.Nesting.Calls
import PegMachine.Proofs.Nesting.Steps
import PegMachine.Proofs.Programs.Discipline
import PegMachine.Proofs.Programs.Limits

/-!
# Grammars that need a bounded stack

A grammar whose rules call at their ends only is left with one call, that of its start rule. So no
more frames can be pending than there are choices around an address, and the two at the bottom.

* `Setting.Reaches.call_of_ret`: pending calls return behind call instructions.
* `Nest.choices`, `Setting.Stands.length_le`: how many frames the layers of a nest are.
* `Pattern.call_eq_zero_of_tail`: the only call of the program of such a grammar.
* `Setting.stack_bounded_of_tail`: **such a grammar needs a stack of the same size for all
  subjects.**
-/

namespace PegMachine

open Block

theorem Setting.Reaches.call_of_ret {m : Setting} {start address : Nat} {s : State}
    {owners : List (Option Nat)} (h : m.Reaches start s owners)
    (hmem : .ret address ∈ s.stack.frames) :
    ∃ (k : Nat) (off : Int), m.program.code[k]? = some (.call off) ∧ address = k + 1 := by
  obtain ⟨above, below, hframes⟩ := List.append_of_mem hmem
  obtain ⟨s₀, hcalled⟩ := h.exists_calledAt (hframes ▸ List.suffix_append above _)
  obtain ⟨off, hcall⟩ := hcalled.calls
  exact ⟨s₀.address, off, hcall, hcalled.address_eq⟩

/-! ## Layers -/

/-- The number of choices that are open in a nest, up to the call of a rule. -/
def Nest.choices : Nest → Nat
  | .hole | .rule => 0
  | .opened _ _ _ outer => outer.choices
  | .chosen outer => outer.choices + 1

/-- Where all pending calls return to where nothing is open, the pending frames are the choices that
are open, and two more at most. -/
theorem Setting.Stands.length_le {m : Setting} {place : Nat → Place} {start hi : Nat} {s : State}
    {nest : Nest} {frames : List Frame} {entries : List Entry}
    (h : m.Stands place start s nest frames entries hi)
    (hret : ∀ address, .ret address ∈ frames → (place address).nest = .hole) :
    frames.length ≤ nest.choices + 2 := by
  induction h with
  | hole => exact Nat.le_succ _
  | rule h _ _ _ =>
    rw [hret _ (.head _)] at h
    cases h with
    | hole => exact Nat.le_refl _
  | opened _ _ _ _ _ _ _ ih => exact ih hret
  | chosen _ _ _ _ _ _ _ ih =>
    have hbelow := ih fun address hmem => hret address (.tail _ hmem)
    rw [List.length_cons, Nest.choices]
    omega

/-! ## Grammars -/

variable {start : RuleKey} {rules : List (RuleKey × Pattern)} {program : Program}

theorem Pattern.call_eq_zero_of_tail {block code : Block}
    (h : (Pattern.grammar start rules).Compiled program block code)
    (htail : ∀ rule ∈ rules, rule.2.isTail = true) {k : Nat} {off : Int}
    (hk : program.code[k]? = some (.call off)) : k = 0 := by
  obtain ⟨off', _, _, hblock, -⟩ := h.block_call hk
  obtain ⟨table, codes, -, hcodes, hlink⟩ := lower_grammar.1 h.lowered
  have hbodies : ∀ body ∈ codes, Onward body ∧ CallsLast body := by
    intro body hbody
    obtain ⟨rule, hrule, _, _, hlower, -⟩ := lowerRules_mem hcodes hbody
    exact ⟨onward_lower hlower, callsLast_lower hlower (htail rule hrule)⟩
  have hlinked := linkedCode_of_link hlink fun body hbody => (hbodies body hbody).1
  exact hlinked.call_eq_zero (fun body hbody => (hbodies body hbody).2) hblock

namespace Setting

/-- A bound on the stack that depends on the grammar alone. -/
theorem exists_bound_of_tail (h : (Pattern.grammar start rules).compile = .ok program)
    (htail : ∀ rule ∈ rules, rule.2.isTail = true) :
    ∃ bound, ∀ (m : Setting) (pos : Nat) (s : State) (owners : List (Option Nat)),
      m.program = program → pos ≤ m.subject.size → m.Reaches pos s owners →
      s.stack.size ≤ bound := by
  obtain ⟨block, code, hcompiled⟩ := Pattern.compiled_exists h
  obtain ⟨place, hplaced⟩ := hcompiled.placed
  refine ⟨(Finset.range program.size).sup (fun k => (place k).nest.choices) + 2, ?_⟩
  rintro m pos s owners rfl hpos hreach
  obtain ⟨r, hrun, -⟩ := hcompiled.runs hpos
  have hlt := ((hreach.tracked hcompiled hrun).inOrder hcompiled hpos).address_lt
  cases inPlace_of_reaches hcompiled hplaced hpos hreach with
  | within hstands hnest hframes =>
    have hlength := hstands.length_le fun address hmem => by
      rw [← hframes] at hmem
      obtain ⟨k, off, hcall, rfl⟩ := hreach.call_of_ret hmem
      obtain rfl := Pattern.call_eq_zero_of_tail hcompiled htail hcall
      -- The start rule returns to where nothing is open.
      rw [Nat.zero_add, (hplaced.fits 0 _ hcall).1.nest, hplaced.entry]
      rfl
    have hle : (place s.address).nest.choices ≤
        (Finset.range m.program.size).sup fun k => (place k).nest.choices :=
      Finset.le_sup (f := fun k => (place k).nest.choices) (Finset.mem_range.2 hlt)
    rw [s.stack.size_eq, hframes]
    rw [← hnest] at hlength
    omega
  | gaveUp => exact Nat.zero_le _

/-- **A grammar whose rules refer to rules at their ends only needs a stack of the same size for all
subjects.** The bound counts the choice at the bottom of the stack. A match that may have so many
frames pending does not end with a stack that is full. -/
theorem stack_bounded_of_tail (h : (Pattern.grammar start rules).compile = .ok program)
    (htail : ∀ rule ∈ rules, rule.2.isTail = true) :
    ∃ bound, ∀ (limits : Limits) (subject : Bytes) (arguments : List Value) (pos : Nat),
      (∀ s owners, (⟨program, limits, subject, arguments⟩ : Setting).Reaches
        (min pos subject.size) s owners → s.stack.size ≤ bound) ∧
      ((∀ limit, limits.maxStack = some limit → bound ≤ limit) →
        ¬ (⟨program, limits, subject, arguments⟩ : Setting).Ends (min pos subject.size)
          (.faulted .stackOverflow)) := by
  obtain ⟨bound, hbound⟩ := exists_bound_of_tail h htail
  refine ⟨bound, fun limits subject arguments pos => ⟨fun s owners => ?_, ?_⟩⟩
  · exact hbound _ _ s owners rfl (Nat.min_le_right _ _)
  · exact not_ends_overflow_of_size_le (m := ⟨program, limits, subject, arguments⟩) h
      (Nat.min_le_right _ _) fun s owners => hbound _ _ s owners rfl (Nat.min_le_right _ _)

end Setting

/-- A rule that skips bytes up to one that it looks for, by calling itself. -/
def searching : Pattern :=
  .grammar (.index 0) [(.index 0, .choice (.literal #[98]) (.seq (.any 1) (.rule (.index 0))))]

/-- The program of the rule. The call at its end has become a jump. -/
def searchingProgram : Program where
  code := #[.call 2, .jump 6, .char 98 2, .jump 3, .any 1 0, .jump (-3), .ret, .done, .giveUp]
  constants := #[]

theorem compile_searching : searching.compile = .ok searchingProgram := rfl

theorem searching_stack_bounded :
    (∀ rule ∈ searching.rules, rule.2.isTail = true) ∧
    ∃ bound, ∀ (limits : Limits) (subject : Bytes) (arguments : List Value) (pos : Nat),
      (∀ s owners, (⟨searchingProgram, limits, subject, arguments⟩ : Setting).Reaches
        (min pos subject.size) s owners → s.stack.size ≤ bound) ∧
      ((∀ limit, limits.maxStack = some limit → bound ≤ limit) →
        ¬ (⟨searchingProgram, limits, subject, arguments⟩ : Setting).Ends (min pos subject.size)
          (.faulted .stackOverflow)) :=
  ⟨List.forall_mem_singleton.2 rfl,
    Setting.stack_bounded_of_tail compile_searching (List.forall_mem_singleton.2 rfl)⟩

end PegMachine
