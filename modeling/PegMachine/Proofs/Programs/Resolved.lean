import PegMachine.Proofs.Captures.Spread
import PegMachine.Proofs.Captures.Standing
import PegMachine.Proofs.Nesting.Steps

/-!
# What the captures of a match resolve to

* `Setting.recorded_of_reaches`: at the end of a match the entries recorded are those of captures.
* `Setting.resolve_of_compile`: **what the captures of a match resolve to is what their nesting
  says.**
* `Setting.resolver_recorded`: captures without nested ones may take up one entry or two.
* `Setting.exists_reads_of_reaches`: every capture that has ended can be read, already during the
  match.
-/

namespace PegMachine

namespace Setting

variable {m : Setting} {p : Pattern} {block code : Block} {start : Nat} {r : Answer} {s : State}
  {owners : List (Option Nat)}

theorem Tracked.address_eq (ht : Tracked m start block code r s owners)
    (hp : p.Compiled m.program block code) (hdone : m.program.code[s.address]? = some .done) :
    s.address = code.length := by
  cases ht with
  | @running c hrun =>
    obtain ⟨room, hrun⟩ := hrun
    rcases hrun.address_cases with hend | ⟨instr, hinstr⟩
    · exact hend
    · have hdone' : m.program.code[c.address]? = some .done := hdone
      rw [hp.getElem?_of_code hinstr] at hdone'
      cases hdone'
      cases hrun with
      | exit haddr => exact haddr
      | next hinstr' _ _ hmove | failed hinstr' _ _ hmove | crashed hinstr' _ _ hmove =>
        rw [hinstr] at hinstr'
        cases hinstr'
        cases hmove
  | gaveUp =>
    have hdone' : m.program.code[m.program.size - 1]? = some .done := hdone
    rw [hp.getElem?_giveUp] at hdone'
    cases hdone'

/-- At the end of a match the entries recorded are those of captures one after another, nested in
one another between the start of the match and its end. -/
theorem recorded_of_reaches (hp : p.Compiled m.program block code) (hstart : start ≤ m.subject.size)
    (hreach : m.Reaches start s owners) (hdone : m.program.code[s.address]? = some .done) :
    ∃ captures, Spells m.program start captures s.pos s.captures.toList ∧
      s.pos ≤ m.subject.size := by
  obtain ⟨place, hplaced⟩ := hp.placed
  obtain ⟨r, hrun, -⟩ := hp.runs hstart
  have haddress := (hreach.tracked hp hrun).address_eq hp hdone
  cases inPlace_of_reaches hp hplaced hstart hreach with
  | within h hnest hframes hentries hlag hpos =>
    obtain ⟨starts, hexit⟩ := hplaced.exit
    rw [haddress, hexit] at hnest hlag
    cases hnest
    cases h with
    | hole hspells =>
      rw [hentries]
      exact ⟨_, hspells.mono hlag, hpos⟩
  | gaveUp =>
    have hdone' : m.program.code[m.program.size - 1]? = some .done := hdone
    rw [hp.getElem?_giveUp] at hdone'
    cases hdone'

/-- **What the captures of a match resolve to is what their nesting says.** The entries recorded at
the end of a match are those of captures nested in one another, and resolving them gives the values
of these captures one after another, or the first of their faults. -/
theorem resolve_of_compile (hp : p.compile = .ok m.program) (start : Nat)
    (hreach : m.Reaches (min start m.subject.size) s owners)
    (hdone : m.program.code[s.address]? = some .done) :
    ∃ captures, Spells m.program (min start m.subject.size) captures s.pos s.captures.toList ∧
      (m.resolver s.captures).resolve = evaluate m.subject m.arguments captures := by
  obtain ⟨block, code, hcompiled⟩ := p.compiled_exists hp
  obtain ⟨captures, hspells, hpos⟩ :=
    recorded_of_reaches hcompiled (Nat.min_le_right _ _) hreach hdone
  have hholds : (m.resolver s.captures).Holds (min start m.subject.size) 0 captures s.pos
      s.captures.size := ⟨hspells.covers_all, hpos⟩
  exact ⟨captures, hspells, Resolver.resolve_eq hholds⟩

/-- At the end of a match the list is one of captures in the subject, in which one without nested ones
may take up one entry or two. -/
theorem resolver_recorded (hp : p.compile = .ok m.program) (start : Nat)
    (hreach : m.Reaches (min start m.subject.size) s owners)
    (hdone : m.program.code[s.address]? = some .done) : (m.resolver s.captures).Recorded := by
  obtain ⟨block, code, hcompiled⟩ := p.compiled_exists hp
  obtain ⟨captures, hspells, hpos⟩ :=
    recorded_of_reaches hcompiled (Nat.min_le_right _ _) hreach hdone
  exact ⟨_, captures, s.pos, hspells, hpos⟩

theorem exists_reads_of_reaches {list : Array Entry} {cursor next : Nat}
    (hp : p.compile = .ok m.program) (start : Nat)
    (hreach : m.Reaches (min start m.subject.size) s owners)
    (hlist : s.captures.toList <+: list.toList)
    (hafter : Entry.after? s.captures cursor = some next) :
    ∃ bindings capture, (m.resolver list).Reads cursor bindings capture next := by
  obtain ⟨block, code, hcompiled⟩ := p.compiled_exists hp
  obtain ⟨place, hplaced⟩ := hcompiled.placed
  cases inPlace_of_reaches hcompiled hplaced (Nat.min_le_right _ _) hreach with
  | @within _ _ _ entries hi h hnest hframes hentries hlag hpos =>
    obtain ⟨bindings, hv⟩ := h.visible (r := m.resolver s.captures) rfl
      (show hi ≤ m.subject.size by omega) (hentries ▸ List.prefix_refl _)
    rw [← hentries, Array.length_toList] at hv
    obtain ⟨bindings, capture, hreads⟩ := hv.exists_reads hafter (Entry.le_size_of_after? hafter)
    exact ⟨bindings, capture, hreads.mono hlist⟩
  | gaveUp =>
    have hsize := Entry.le_size_of_after? hafter
    exact absurd (Entry.lt_of_after? hafter) (Nat.not_lt.2 (Nat.le_trans hsize (Nat.zero_le _)))

end Setting

/-- A list of what comes out of a named group, by way of a back reference. -/
def recalled : Pattern :=
  .capture .table (.seq (.capture (.named "x") (.any 1)) (.backref "x"))

/-- The program of the back reference. -/
def recalledProgram : Program where
  code := #[.any 1 0, .openCapture .table 1 0, .fullCapture .group 1 1,
    .emptyCaptureConst .backref 2, .closeCapture, .done, .giveUp]
  constants := #[.name "x", .name "x"]

theorem compile_recalled : recalled.compile = .ok recalledProgram := rfl

theorem recalled_resolve : ∃ captures,
    Spells recalledProgram 0 captures 1 [.opened .table 0 0, .full .group 1 0 1,
      .full .backref 2 1 0, .closed 1] ∧
    ((⟨recalledProgram, {}, #[97], []⟩ : Setting).resolver #[.opened .table 0 0,
      .full .group 1 0 1, .full .backref 2 1 0, .closed 1]).resolve =
      evaluate #[97] [] captures := by
  let m : Setting := ⟨recalledProgram, {}, #[97], []⟩
  have hs : ∃ owners, m.Reaches (min 0 m.subject.size)
      ⟨5, 1, (m.initial 0).stack, #[.opened .table 0 0, .full .group 1 0 1, .full .backref 2 1 0,
        .closed 1]⟩ owners :=
    ⟨_, .step (.step (.step (.step (.step .start rfl) rfl) rfl) rfl) rfl⟩
  obtain ⟨owners, hs⟩ := hs
  exact Setting.resolve_of_compile compile_recalled 0 hs rfl

end PegMachine
