import PegMachine.Proofs.Programs.Resolved
import PegMachine.Proofs.Semantics.Replacements

/-!
# Substitutions that a run records

* `Setting.substitution_of_compile`: **a substitution is its text with the nested captures replaced
  one after another, or the fault of the first that cannot be.**
-/

namespace PegMachine

namespace Setting

variable {m : Setting} {p : Pattern} {cursor next : Nat} {entry : Entry} {s : State}
  {owners : List (Option Nat)} {list : Array Entry}

/-- **A substitution is its text with the nested captures replaced one after another, or the fault
of the first that cannot be.** The captures nested directly in it have spans one behind another from
its start to its end. Between them the subject stays, each of them gives way to the text of its
first value, and those without values stay as well. There is a fault exactly if one of them has a
fault or a first value that is neither a string nor an integer, and it is that of the first. This
holds of each substitution that has ended in the entries recorded by then, also when more has been
recorded behind it. -/
theorem substitution_of_compile (hp : p.compile = .ok m.program) (start : Nat)
    (hreach : m.Reaches (min start m.subject.size) s owners)
    (hlist : s.captures.toList <+: list.toList) (hat : s.captures[cursor]? = some entry)
    (hkind : entry.kind? = some .subst) (hafter : Entry.after? s.captures cursor = some next) :
    ∃ stop nested values, (m.resolver list).Includes cursor entry.start stop nested next ∧
      Resolver.Spaced stop entry.start nested ∧ stop ≤ m.subject.size ∧
      (m.resolver list).ValuesAt cursor values next ∧
      (∀ result, values = .ok result ↔
        ∃ text, Replaces m.subject stop entry.start nested text ∧ result = [.str text]) ∧
      ∀ fault, values = .error fault ↔ Spoils nested fault := by
  obtain ⟨bindings, capture, hreads⟩ := exists_reads_of_reaches hp start hreach hlist hafter
  have hat' : list[cursor]? = some entry := getElem?_mono hlist hat
  obtain ⟨content, begun, stop, nested⟩ := capture
  obtain ⟨hencloses, rfl, index, hname, -⟩ := hreads.names hat' hkind
  cases hname
  obtain ⟨hok, herror⟩ := subst_values_iff m.subject m.arguments bindings entry.start stop
    ((m.resolver list).readings bindings nested)
  exact ⟨stop, _, _, hencloses.includes hreads.visible, hencloses.spaced, hencloses.le.2,
    hreads.valuesAt, hok, herror⟩

end Setting

/-- Two bytes with a number between them, the second one in a group. -/
def numbering : Pattern :=
  .capture .subst (.seq (.any 1) (.seq (.const [.int 7]) (.capture (.named "k") (.any 1))))

/-- The program of the text. -/
def numberingProgram : Program where
  code := #[.any 1 0, .openCapture .subst 1 0, .emptyCaptureConst .const 1, .any 1 0,
    .fullCapture .group 1 2, .closeCapture, .done, .giveUp]
  constants := #[.value (.int 7), .name "k"]

theorem compile_numbering : numbering.compile = .ok numberingProgram := rfl

/-- The entries of the text at the end of a match. -/
def numberingEntries : Array Entry :=
  #[.opened .subst 0 0, .full .const 1 1 0, .full .group 2 1 1, .closed 2]

/-- The number takes no place of the subject, and the byte of the group stays. -/
theorem numbering_substitution :
    let m : Setting := ⟨numberingProgram, {}, #[97, 98], []⟩
    (∃ owners, m.Reaches 0 ⟨6, 2, (m.initial 0).stack, numberingEntries⟩ owners) ∧
      ∃ nested, (m.resolver numberingEntries).Includes 0 0 2 nested 4 ∧
        Replaces m.subject 2 0 nested #[97, 55, 98] := by
  intro m
  have hs : ∃ owners, m.Reaches (min 0 m.subject.size)
      ⟨6, 2, (m.initial 0).stack, numberingEntries⟩ owners :=
    ⟨_, .step (.step (.step (.step (.step (.step .start rfl) rfl) rfl) rfl) rfl) rfl⟩
  refine ⟨hs, ?_⟩
  obtain ⟨owners, hreach⟩ := hs
  have hafter : Entry.after? numberingEntries 0 = some 4 := by cbv
  obtain ⟨stop, nested, values, hincludes, -, -, hvalues, hok, -⟩ :=
    Setting.substitution_of_compile compile_numbering 0 hreach (List.prefix_refl _) rfl rfl hafter
  have htext : (m.resolver numberingEntries).values (m.resolver numberingEntries).maxDepth 0 =
      .ok ⟨[.str #[97, 55, 98]], 4⟩ := by cbv
  obtain ⟨text, hreplaces, heq⟩ := (hok _).1 (hvalues.eq_ok htext)
  cases heq
  obtain rfl : stop = 2 := by
    cases hincludes with
    | nest _ _ hclosed =>
      cases hclosed
      rfl
  exact ⟨nested, hincludes, hreplaces⟩

end PegMachine
