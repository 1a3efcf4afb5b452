import PegMachine.Proofs.Captures.Items
import PegMachine.Proofs.Programs.Resolved

/-!
# Templates that a run records

* `Setting.template_of_compile`: **a template is its format with the pieces of its capture, however
  many there are, or the fault of the first that it refers to and that has no text.**
-/

namespace PegMachine

namespace Setting

variable {m : Setting} {p : Pattern} {cursor next : Nat} {entry : Entry} {s : State}
  {owners : List (Option Nat)} {list : Array Entry}

/-- **A template is its format with the pieces of its capture, however many there are, or the fault
of the first that it refers to and that has no text.** The pieces are the text of the capture and
those in the captures nested in it, simple captures being looked into and all others taken as they
are. This holds of each template that has ended in the entries recorded by then, also when more has
been recorded behind it, and the capture behind it is found right after its end. -/
theorem template_of_compile (hp : p.compile = .ok m.program) (start : Nat)
    (hreach : m.Reaches (min start m.subject.size) s owners)
    (hlist : s.captures.toList <+: list.toList) (hat : s.captures[cursor]? = some entry)
    (hkind : entry.kind? = some .template) (hafter : Entry.after? s.captures cursor = some next) :
    ∃ index format items values,
      (entry = .opened .template index entry.start ∨
        ∃ length, entry = .full .template index entry.start length) ∧
      m.program.constant? index = some (.template format) ∧
      Entry.Items list cursor items next ∧ (m.resolver list).ValuesAt cursor values next ∧
      (∀ result, values = .ok result ↔
        ∃ text, Fills ((m.resolver list).Shows items) format.toList text ∧ result = [.str text]) ∧
      ∀ fault, values = .error fault ↔
        Fails ((m.resolver list).Shows items) ((m.resolver list).Lacks items) format.toList
          fault := by
  obtain ⟨bindings, capture, hreads⟩ := exists_reads_of_reaches hp start hreach hlist hafter
  have hat' : list[cursor]? = some entry := getElem?_mono hlist hat
  obtain ⟨content, begun, stop, nested⟩ := capture
  obtain ⟨hencloses, rfl, index, hname, hform⟩ := hreads.names hat' hkind
  cases hname with
  | template hconstant =>
    obtain ⟨items, hitems, hok, herror⟩ := hencloses.template_iff hreads.visible _
    exact ⟨index, _, items, _, hform.imp_left And.left, hconstant, hitems, hreads.valuesAt, hok,
      herror⟩

end Setting

/-- A byte and a number behind it, written the other way round and with percent signs. -/
def relabelling : Pattern :=
  .capture (.template #[37, 50, 37, 49, 37, 37, 37])
    (.capture .simple (.seq (.any 1) (.const [.int 7])))

/-- The program of the template. -/
def relabellingProgram : Program where
  code := #[.openCapture .template 0 2, .any 1 0, .openCapture .simple 1 0,
    .emptyCaptureConst .const 1, .closeCapture, .closeCapture, .done, .giveUp]
  constants := #[.value (.int 7), .template #[37, 50, 37, 49, 37, 37, 37]]

theorem compile_relabelling : relabelling.compile = .ok relabellingProgram := rfl

/-- The entries of the template at the end of a match. -/
def relabellingEntries : Array Entry :=
  #[.opened .template 2 0, .opened .simple 0 0, .full .const 1 1 0, .closed 1, .closed 1]

/-- The number comes first, and the percent signs behind are one escaped and one at the end. -/
theorem relabelling_template :
    let m : Setting := ⟨relabellingProgram, {}, #[97], []⟩
    (∃ owners, m.Reaches 0 ⟨6, 1, (m.initial 0).stack, relabellingEntries⟩ owners) ∧
      ∃ items, Entry.Items relabellingEntries 0 items 5 ∧
        Fills ((m.resolver relabellingEntries).Shows items) [37, 50, 37, 49, 37, 37, 37]
          #[55, 97, 37, 37] := by
  intro m
  have hs : ∃ owners, m.Reaches (min 0 m.subject.size)
      ⟨6, 1, (m.initial 0).stack, relabellingEntries⟩ owners :=
    ⟨_, .step (.step (.step (.step (.step (.step .start rfl) rfl) rfl) rfl) rfl) rfl⟩
  refine ⟨hs, ?_⟩
  obtain ⟨owners, hreach⟩ := hs
  have hafter : Entry.after? relabellingEntries 0 = some 5 := by cbv
  obtain ⟨index, format, items, values, hform, hconstant, hitems, hvalues, hok, -⟩ :=
    Setting.template_of_compile compile_relabelling 0 hreach (List.prefix_refl _) rfl rfl hafter
  obtain rfl : index = 2 := by
    rcases hform with hform | ⟨length, hform⟩ <;> cases hform
    rfl
  cases hconstant
  have htext : (m.resolver relabellingEntries).values (m.resolver relabellingEntries).maxDepth 0 =
      .ok ⟨[.str #[55, 97, 37, 37]], 5⟩ := by cbv
  obtain ⟨text, hfills, heq⟩ := (hok _).1 (hvalues.eq_ok htext)
  cases heq
  exact ⟨items, hitems, hfills⟩

end PegMachine
