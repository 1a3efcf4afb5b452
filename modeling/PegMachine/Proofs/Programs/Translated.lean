import PegMachine.Proofs.Programs.Closed
import PegMachine.Proofs.Programs.Later
import PegMachine.Proofs.Programs.Resolved

/-!
# Matches behind a prefix

* `Setting.placeFree_of_reaches`: where no instruction looks at its place, no position is recorded.
* `Setting.step_later`, `Setting.run_later`: steps and runs that have moved along with the subject.
* `Setting.ends_behind_iff`, `Pattern.parseAt_append`: **a match does not depend on what stands
  before its start**, but for where it ends.
-/

namespace PegMachine

theorem Pattern.Compiled.placeFree {p : Pattern} {program : Program} {block code : Block}
    (h : p.Compiled program block code) (hfree : p.placeFree = true) :
    ∀ instr ∈ program.code, instr.placeFree = true := by
  have hcode : ∀ instr ∈ code, instr.placeFree = true :=
    h.forall_mem (P := fun instr => instr.placeFree = true) (fun _ _ _ hplace _ => hplace)
      (fun instr off hplace => (instr.placeFree_withOffset off).trans hplace)
      (placeFree_lower h.lowered hfree)
  intro instr hmem
  rw [← Array.mem_toList_iff, h.code_eq] at hmem
  rcases List.mem_append.1 hmem with hmem | hmem
  · exact hcode instr hmem
  · rcases List.mem_cons.1 hmem with rfl | hmem
    · rfl
    · obtain rfl := List.mem_singleton.1 hmem
      rfl

/-! ## Recorded entries -/

/-- No entry is that of a position. -/
def State.PlaceFree (s : State) : Prop := ∀ entry ∈ s.captures, entry.PlaceFree

/-- The state that a step leads to, if it does not end the run, records no position either. -/
def Step.PlaceFree : Step → Prop
  | .next s _ => s.PlaceFree
  | .halt .. => True

namespace State

variable {s : State}

theorem placeFree_popChoice {use : ChoicePoint → State → Step}
    (h : ∀ point stack, (use point { s with stack := stack }).PlaceFree) :
    (s.popChoice use).PlaceFree := by
  rw [popChoice]
  split
  · exact h _ _
  · trivial

variable (h : s.PlaceFree)

include h

theorem PlaceFree.shrink (n : Nat) : ∀ entry ∈ s.captures.shrink n, entry.PlaceFree := by
  intro entry hmem
  rw [← Array.mem_toList_iff, Array.toList_shrink] at hmem
  exact h entry (Array.mem_toList_iff.1 (List.mem_of_mem_take hmem))

theorem PlaceFree.backtrack (stack : Stack) (event : Option Event) :
    ({ s with stack := stack }.backtrack event).PlaceFree := by
  rw [State.backtrack]
  split
  · exact h.shrink _
  · trivial

theorem PlaceFree.refuse (off : Int) : (s.refuse off).PlaceFree := by
  rw [State.refuse]
  split
  · exact h.backtrack s.stack none
  · exact h

theorem PlaceFree.record {entry : Entry} (hentry : entry.PlaceFree) :
    (s.record entry).PlaceFree := by
  intro other hmem
  rcases Array.mem_push.1 hmem with hmem | rfl
  · exact h other hmem
  · exact hentry

theorem PlaceFree.closeCapture : (Setting.closeCapture s).PlaceFree := by
  rw [Setting.closeCapture]
  split
  · next kind index pos hlast =>
    intro entry hmem
    rcases Array.mem_push.1 hmem with hmem | rfl
    · rw [← Array.mem_toList_iff, Array.toList_pop] at hmem
      exact h entry (Array.mem_toList_iff.1 (List.mem_of_mem_dropLast hmem))
    · exact h (.opened kind index pos) (Array.mem_of_back? hlast)
  · exact h.record (Entry.placeFree_closed s.pos)

end State

namespace Setting

variable {m : Setting} {s : State} {owners : List (Option Nat)} {instr : Instr} {pos : Nat}

theorem placeFree_test {holds : Prop} [Decidable holds] (h : s.PlaceFree) (pos : Nat) (off : Int) :
    (if holds then Step.next (s.proceedAt pos) none else s.refuse off).PlaceFree := by
  split
  · exact h
  · exact h.refuse off

theorem placeFree_pushFrame (h : s.PlaceFree) (frame : Frame) (off : Int) :
    (m.pushFrame s frame off).PlaceFree := by
  rw [pushFrame]
  split
  · trivial
  · exact h

theorem placeFree_execute (h : s.PlaceFree) (hplace : instr.placeFree = true) :
    (m.execute s instr).PlaceFree := by
  have hrecorded : ∀ {kind : CaptureKind}, (kind != .position) = true → some kind ≠ some .position :=
    fun hkind => mt Option.some.inj (bne_iff_ne.1 hkind)
  cases instr with
  | any | char | set => exact placeFree_test h _ _
  | span | jump => exact h
  | ret =>
    rw [execute]
    split
    · exact h
    · trivial
  | done | openCall | giveUp => trivial
  | choice | call => exact placeFree_pushFrame h _ _
  | commit | partialCommit =>
    rw [execute]
    exact State.placeFree_popChoice fun _ _ => h
  | backCommit =>
    rw [execute]
    exact State.placeFree_popChoice fun point _ => h.shrink point.captures
  | failTwice | fail => exact h.backtrack _ none
  | matcher | closeMatchTime => cases hplace
  | fullCapture | emptyCapture | emptyCaptureConst | openCapture =>
    exact h.record (hrecorded hplace)
  | closeCapture => exact h.closeCapture

theorem placeFree_of_reaches (hcode : ∀ instr ∈ m.program.code, instr.placeFree = true)
    (hreach : m.Reaches pos s owners) : s.PlaceFree := by
  induction hreach with
  | start => exact nofun
  | @step s s' owners event _ hstep ih =>
    have hplace : (m.step s).PlaceFree := by
      rw [step]
      split
      · next instr hinstr => exact placeFree_execute ih (hcode instr (Array.mem_of_getElem? hinstr))
      · trivial
    rw [hstep] at hplace
    exact hplace

/-! ## Runs -/

variable {p : Pattern} (hp : p.compile = .ok m.program) (hfree : p.placeFree = true) (u : Bytes)

include hp hfree

theorem step_later (hreach : m.Reaches 0 s owners) :
    (m.step s).Later u.size ((m.behind u).step (s.later u.size)) := by
  obtain ⟨block, code, hcompiled⟩ := p.compiled_exists hp
  have hcode := hcompiled.placeFree hfree
  obtain ⟨_, -, horder, -⟩ := inOrder_of_compile hp 0
  rw [Nat.zero_min] at horder
  rw [step, step, show (m.behind u).program.code[(s.later u.size).address]? =
    m.program.code[s.address]? from rfl]
  cases hinstr : m.program.code[s.address]? with
  | none => exact .halt
  | some instr =>
    by_cases hdone : instr = .done
    · subst hdone
      have hrecorded := resolver_recorded hp 0 ((Nat.zero_min _).symm ▸ hreach) hinstr
      have hresolve := Resolver.resolve_later hrecorded (placeFree_of_reaches hcode hreach) u
      have hbehind : ((m.behind u).resolver (s.later u.size).captures).resolve =
        (m.resolver s.captures).resolve := hresolve
      simp only [execute, finish, hbehind]
      cases (m.resolver s.captures).resolve <;> exact .halt
    · have hback := (horder s owners hreach).back_le instr hinstr
      rw [Nat.zero_add] at hback
      exact m.execute_later u s (hcode instr (Array.mem_of_getElem? hinstr)) hback hdone

/-- A run from the start of the subject is the same behind a prefix. -/
theorem run_later (hreach : m.Reaches 0 s owners) (fuel : Nat) (log log' : Array Event) :
    ((m.behind u).run fuel (s.later u.size) log').1 = (m.run fuel s log).1.later u.size := by
  induction fuel generalizing s owners log log' with
  | zero => rfl
  | succ fuel ih =>
    have hlater := step_later hp hfree u hreach
    rw [run, run]
    cases hstep : m.step s with
    | next s' event =>
      rw [hstep] at hlater
      generalize (m.behind u).step (s.later u.size) = moved at hlater
      cases hlater with
      | next => exact ih (hreach.step hstep) _ _
    | halt outcome event =>
      rw [hstep] at hlater
      generalize (m.behind u).step (s.later u.size) = moved at hlater
      cases hlater with
      | halt => rfl

/-- **A run behind a prefix ends as the run without it does, so much later**, however many steps it
takes. -/
theorem ends_behind_iff {outcome : Outcome} : (m.behind u).Ends u.size outcome ↔
    ∃ before, m.Ends 0 before ∧ outcome = before.later u.size := by
  have hrun : ∀ fuel, ((m.behind u).run fuel ((m.behind u).initial u.size) #[]).1 =
      (m.run fuel (m.initial 0) #[]).1.later u.size := by
    intro fuel
    rw [← run_later hp hfree u .start fuel #[] #[], ← m.initial_later u 0, Nat.zero_add]
  constructor
  · rintro ⟨hne, fuel, log, hends⟩
    have houtcome := hrun fuel
    rw [hends] at houtcome
    have hne' : (m.run fuel (m.initial 0) #[]).1 ≠ .unfinished := fun h =>
      hne (houtcome.trans (Outcome.later_eq_unfinished_iff.2 h))
    exact ⟨_, ⟨hne', fuel, _, rfl⟩, houtcome⟩
  · rintro ⟨before, ⟨hne, fuel, log, hends⟩, rfl⟩
    have houtcome := hrun fuel
    rw [hends] at houtcome
    exact ⟨mt Outcome.later_eq_unfinished_iff.1 hne, fuel, _, Prod.ext houtcome rfl⟩

end Setting

theorem Program.parseAt_eq (program : Program) (limits : Limits) (subject : Bytes) (start : Nat)
    (arguments : List Value) :
    program.parseAt limits subject start arguments =
      (Setting.run ⟨program, limits, subject, arguments⟩ stepBudget
        (Setting.initial ⟨program, limits, subject, arguments⟩ (min start subject.size))
        #[.matchStarted (min start subject.size) subject.size]).1 := by
  rw [parseAt, traceAt]

/-- **A match does not depend on what stands before its start.** With a prefix before the subject and
the match started behind it, it comes to the same outcome, with the same values or the same fault,
and ends so much later. This holds of patterns without matchers, match-time captures and
positions. -/
theorem Pattern.parseAt_append {p : Pattern} {program : Program} (hp : p.compile = .ok program)
    (hfree : p.placeFree = true) (limits : Limits) (u t : Bytes) (arguments : List Value) :
    program.parseAt limits (u ++ t) u.size arguments =
      (program.parseAt limits t 0 arguments).later u.size := by
  let m : Setting := ⟨program, limits, t, arguments⟩
  have hsize : min u.size (u ++ t).size = u.size := by
    rw [Array.size_append]
    omega
  have hrun := Setting.run_later (m := m) hp hfree u .start stepBudget
    #[.matchStarted 0 t.size] #[.matchStarted u.size (u ++ t).size]
  rw [← m.initial_later u 0, Nat.zero_add] at hrun
  rw [Program.parseAt_eq, Program.parseAt_eq, hsize, Nat.zero_min]
  exact hrun

/-- The list of what comes out of the group is the same behind two bytes, and the match ends two bytes
later. -/
theorem recalled_parseAt_append :
    recalled.compile = .ok recalledProgram ∧ recalled.placeFree = true ∧
      recalledProgram.parseAt {} (#[98, 98] ++ #[97]) 2 [] =
        .matched ⟨3, [.list [.str #[97]]]⟩ := by
  have houtcome : recalledProgram.parseAt {} #[97] 0 [] = .matched ⟨1, [.list [.str #[97]]]⟩ := by
    rw [Program.parseAt_eq]
    cbv
  have happend := Pattern.parseAt_append compile_recalled rfl {} #[98, 98] #[97] []
  rw [houtcome] at happend
  exact ⟨compile_recalled, rfl, happend⟩

end PegMachine
