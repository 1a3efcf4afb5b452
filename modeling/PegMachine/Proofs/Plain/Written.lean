import PegMachine.Proofs.Captures.Recorded
import PegMachine.Proofs.Lowering.Parts

/-!
# Entries that write a forest

* `Entry.Known`: the number of an entry refers to something, or it is zero.
* `Writes`: the entries recorded are those of a forest, well-bracketed and known.
* `Names.of_payload`: what an entry stands for depends on what its number refers to.
* `Covers.of_marks`: **the captures that entries are read as depend on their marks.**
-/

namespace PegMachine

/-- The number of an entry refers to something, or it is zero. -/
def Entry.Known (program : Program) : Entry → Prop
  | .opened kind index _ | .full kind index _ _ =>
    program.payload kind index = .nothing → index = 0
  | .closed _ | .dynamic _ _ _ => True

/-- The entries recorded are those of a forest. -/
structure Writes (program : Program) (entries : List Entry) (forest : List Tree) : Prop where
  serialises : Serialises program entries forest
  balanced : Balanced entries
  known : ∀ entry ∈ entries, entry.Known program

section

variable {program program' : Program} {entries more : List Entry} {forest others : List Tree}
  {kind : CaptureKind} {index index' start stop : Nat} {payload : Payload} {content : Content}

namespace Writes

theorem nil : Writes program [] [] := ⟨serialises_nil, .nil, by simp⟩

theorem append (h : Writes program entries forest) (h' : Writes program more others) :
    Writes program (entries ++ more) (forest ++ others) := by
  refine ⟨h.serialises.append h'.serialises, h.balanced.append h'.balanced, ?_⟩
  intro entry hentry
  exact (List.mem_append.1 hentry).elim (h.known entry) (h'.known entry)

theorem wrap (h : Writes program entries forest) (hle : start ≤ stop)
    (hpayload : program.payload kind index = payload) (hknown : payload = .nothing → index = 0) :
    Writes program (wrapEntries kind index start stop entries)
      [.node kind payload start stop forest] := by
  subst hpayload
  refine ⟨?_, balanced_wrapEntries h.balanced, ?_⟩
  · have hserial := h.serialises
    rw [Serialises] at hserial ⊢
    rw [Pattern.mark_wrapEntries entries hle, hserial, forestMarks, forestMarks, List.append_nil,
      Tree.marks]
  · intro entry hentry
    cases entries with
    | nil =>
      rw [wrapEntries, List.mem_singleton] at hentry
      subst hentry
      exact hknown
    | cons first rest =>
      simp only [wrapEntries, List.mem_cons, List.mem_append, List.not_mem_nil,
        or_false] at hentry
      rcases hentry with rfl | (rfl | hrest) | rfl
      · exact hknown
      · exact h.known _ (by simp)
      · exact h.known _ (by simp [hrest])
      · trivial

theorem single (pos : Nat) (hpayload : program.payload kind index = payload)
    (hknown : payload = .nothing → index = 0) :
    Writes program [.full kind index pos 0] [.node kind payload pos pos []] := by
  have hnil : Writes program [] [] := nil
  have h := hnil.wrap (Nat.le_refl pos) hpayload hknown
  rwa [wrapEntries, Nat.sub_self] at h

end Writes

/-! ## Reading entries -/

theorem Names.of_payload (h : Names program kind index content)
    (hpayload : program'.payload kind index' = program.payload kind index)
    (hknown : program'.payload kind index' = .nothing → index' = 0) :
    Names program' kind index' content := by
  have zero : kind ≠ .argument → index = 0 → index' = 0 := by
    rintro hkind rfl
    exact hknown (by rw [hpayload, Program.payload, if_neg hkind]; rfl)
  have refers : ∀ {constant : Constant}, kind ≠ .argument →
      program.constant? index = some constant → program'.constant? index' = some constant := by
    intro constant hkind hconstant
    rw [(Program.payload_eq_constant hkind).2 hconstant] at hpayload
    exact (Program.payload_eq_constant hkind).1 hpayload
  cases h with
  | argument =>
    have hn : Payload.argument index' = .argument index := hpayload
    cases hn
    exact .argument
  | position => exact zero (by simp) rfl ▸ .position
  | simple => exact zero (by simp) rfl ▸ .simple
  | table => exact zero (by simp) rfl ▸ .table
  | subst => exact zero (by simp) rfl ▸ .subst
  | group => exact zero (by simp) rfl ▸ .group
  | const h => exact .const (refers (by simp) h)
  | backref h => exact .backref (refers (by simp) h)
  | named h => exact .named (refers (by simp) h)
  | fold h => exact .fold (refers (by simp) h)
  | function h => exact .function (refers (by simp) h)
  | query h => exact .query (refers (by simp) h)
  | template h => exact .template (refers (by simp) h)

variable {list list' : Array Entry} {k : Nat} {entry : Entry}

/-- Entries with the same marks have the same marks everywhere. -/
theorem mark_of_marks_eq
    (hmarks : list'.toList.map (Entry.mark program') = list.toList.map (Entry.mark program))
    (hknown : ∀ entry ∈ list'.toList, entry.Known program') (hat : list[k]? = some entry) :
    ∃ entry', list'[k]? = some entry' ∧ entry'.mark program' = entry.mark program ∧
      entry'.Known program' := by
  have hk := congrArg (·[k]?) hmarks
  simp only [List.getElem?_map, Array.getElem?_toList, hat, Option.map_some,
    Option.map_eq_some_iff] at hk
  obtain ⟨entry', hat', hmark⟩ := hk
  have hmem : entry' ∈ list'.toList := Array.mem_toList_iff.2 (Array.mem_of_getElem? hat')
  exact ⟨entry', hat', hmark, hknown entry' hmem⟩

/-- **The captures that entries are read as depend on their marks.** -/
theorem Covers.of_marks {lo hi cursor next : Nat} {captures : List Capture}
    (h : Covers program list lo cursor captures hi next)
    (hmarks : list'.toList.map (Entry.mark program') = list.toList.map (Entry.mark program))
    (hknown : ∀ entry ∈ list'.toList, entry.Known program') :
    Covers program' list' lo cursor captures hi next := by
  induction h with
  | nil hle => exact .nil hle
  | full hat hlo hname _ ih =>
    obtain ⟨entry', hat', hmark, hknown'⟩ := mark_of_marks_eq hmarks hknown hat
    cases entry' with
    | full kind' index' pos' length' =>
      simp only [Entry.mark, Mark.full.injEq] at hmark
      obtain ⟨rfl, hpayload, rfl, hlength⟩ := hmark
      obtain rfl := Nat.add_left_cancel hlength
      exact .full hat' hlo (hname.of_payload hpayload hknown') ih
    | opened | closed | dynamic => cases hmark
  | dynamic hat hlo hle _ ih =>
    obtain ⟨entry', hat', hmark, -⟩ := mark_of_marks_eq hmarks hknown hat
    cases entry' with
    | dynamic start' stop' values' =>
      cases hmark
      exact .dynamic hat' hlo hle ih
    | opened | full | closed => cases hmark
  | nest hat hlo hname hwraps _ hclosed _ ihNested ih =>
    obtain ⟨entry', hat', hmark, hknown'⟩ := mark_of_marks_eq hmarks hknown hat
    obtain ⟨last', hclosed', hmarkLast, -⟩ := mark_of_marks_eq hmarks hknown hclosed
    cases entry' with
    | opened kind' index' start' =>
      simp only [Entry.mark, Mark.opened.injEq] at hmark
      obtain ⟨rfl, hpayload, rfl⟩ := hmark
      cases last' with
      | closed stop' =>
        cases hmarkLast
        exact .nest hat' hlo (hname.of_payload hpayload hknown') hwraps ihNested hclosed' ih
      | opened | full | dynamic => cases hmarkLast
    | full | closed | dynamic => cases hmark

end

end PegMachine
