import PegMachine.Proofs.Captures.Segments
import PegMachine.Proofs.Lowering.Shape

/-!
# Captures behind the start of another one

The same entries in a longer list, behind the start of a capture that has not ended, with more
constants to refer to.

* `Spells.grow`: captures stay the same where constants are added behind those that are there.
* `Covers.behind`, `Visible.behind`: **captures take up the same entries, and the named groups before
  them are the same.** The capture around them is not a group to refer to yet.
-/

namespace PegMachine

/-- The same entries behind another one. -/
def Behind (head : Entry) (entries entries' : Array Entry) : Prop :=
  entries'.toList = head :: entries.toList

section

variable {program program' : Program} {kind : CaptureKind} {index pos lo hi cursor next : Nat}
  {content : Content} {captures : List Capture} {entries entries' : Array Entry} {head entry : Entry}
  {list : List Entry}

/-! ## More constants -/

theorem Program.constant?_grow {constant : Constant}
    (hgrow : ConstantsGrow program.constants program'.constants)
    (h : program.constant? index = some constant) : program'.constant? index = some constant := by
  obtain ⟨behind, hbehind⟩ := hgrow
  cases index with
  | zero => cases h
  | succ k =>
    rw [constant?, ← Array.getElem?_toList] at h ⊢
    rw [← hbehind, List.getElem?_append_left (List.getElem?_eq_some_iff.1 h).1]
    exact h

theorem Names.grow (h : Names program kind index content)
    (hgrow : ConstantsGrow program.constants program'.constants) :
    Names program' kind index content := by
  cases h with
  | position => exact .position
  | const h => exact .const (Program.constant?_grow hgrow h)
  | argument => exact .argument
  | backref h => exact .backref (Program.constant?_grow hgrow h)
  | simple => exact .simple
  | table => exact .table
  | subst => exact .subst
  | group => exact .group
  | named h => exact .named (Program.constant?_grow hgrow h)
  | fold h => exact .fold (Program.constant?_grow hgrow h)
  | function h => exact .function (Program.constant?_grow hgrow h)
  | query h => exact .query (Program.constant?_grow hgrow h)
  | template h => exact .template (Program.constant?_grow hgrow h)

theorem Spells.grow (h : Spells program lo captures hi list)
    (hgrow : ConstantsGrow program.constants program'.constants) :
    Spells program' lo captures hi list := by
  induction h with
  | nil hle => exact .nil hle
  | full hlo hname _ ih => exact .full hlo (hname.grow hgrow) ih
  | dynamic hlo hle _ ih => exact .dynamic hlo hle ih
  | nest hlo hname hwraps _ _ ihNested ih =>
    exact .nest hlo (hname.grow hgrow) hwraps ihNested ih

/-! ## More entries -/

namespace Behind

theorem size_eq (h : Behind head entries entries') : entries'.size = entries.size + 1 := by
  rw [← Array.length_toList, ← Array.length_toList, h, List.length_cons]

theorem getElem? (h : Behind head entries entries') (k : Nat) : entries'[k + 1]? = entries[k]? := by
  rw [← Array.getElem?_toList, ← Array.getElem?_toList, h, List.getElem?_cons_succ]

theorem getElem?_zero (h : Behind head entries entries') : entries'[0]? = some head := by
  rw [← Array.getElem?_toList, h, List.getElem?_cons_zero]

theorem push (h : Behind head entries entries') (entry : Entry) :
    Behind head (entries.push entry) (entries'.push entry) := by
  rw [Behind, Array.toList_push, Array.toList_push, h, List.cons_append]

theorem shrink (h : Behind head entries entries') (n : Nat) :
    Behind head (entries.shrink n) (entries'.shrink (n + 1)) := by
  rw [Behind, Array.toList_shrink, Array.toList_shrink, h, List.take_succ_cons]

theorem records {before before' : Array Entry} (h : Behind head entries entries')
    (hbefore : Behind head before before') (hrecords : Records before list entries) :
    Records before' list entries' := by
  rw [Records, h, hbefore, hrecords, List.cons_append]

/-- The end of a capture completes the same entries, unless nothing is behind the first one. -/
theorem closeEntries (h : Behind head entries entries') (hne : entries.toList ≠ []) (pos : Nat) :
    Behind head (closeEntries entries pos) (closeEntries entries' pos) := by
  have hback : entries'.back? = entries.back? := by
    rw [← Array.getLast?_toList, ← Array.getLast?_toList, h, List.getLast?_cons,
      List.getLast?_eq_some_getLast hne, Option.getD_some]
  have hpop : Behind head entries.pop entries'.pop := by
    rw [Behind, Array.toList_pop, Array.toList_pop, h, List.dropLast_cons_of_ne_nil hne]
  rw [PegMachine.closeEntries, PegMachine.closeEntries, hback]
  cases entries.back? with
  | none => exact h.push _
  | some last =>
    cases last with
    | opened => exact hpop.push _
    | full | closed | dynamic => exact h.push _

end Behind

theorem Covers.behind (h : Covers program entries lo cursor captures hi next)
    (hbehind : Behind head entries entries')
    (hgrow : ConstantsGrow program.constants program'.constants) :
    Covers program' entries' lo (cursor + 1) captures hi (next + 1) := by
  induction h with
  | nil hle => exact .nil hle
  | full hat hlo hname _ ih =>
    exact .full ((hbehind.getElem? _).trans hat) hlo (hname.grow hgrow) ih
  | dynamic hat hlo hle _ ih => exact .dynamic ((hbehind.getElem? _).trans hat) hlo hle ih
  | nest hat hlo hname hwraps _ hclosed _ ihNested ih =>
    exact .nest ((hbehind.getElem? _).trans hat) hlo (hname.grow hgrow) hwraps ihNested
      ((hbehind.getElem? _).trans hclosed) ih

/-- **The named groups before a place of the longer list are the same.** A group around that place is
not among them. -/
theorem Visible.behind {r r' : Resolver} {bindings : Bindings} (h : Visible r cursor bindings)
    (hbehind : Behind (.opened kind index pos) r.entries r'.entries)
    (hgrow : ConstantsGrow r.program.constants r'.program.constants)
    (hsubject : r'.subject = r.subject) (harguments : r'.arguments = r.arguments) :
    Visible r' (cursor + 1) bindings := by
  induction h with
  | start => exact .opened .start hbehind.getElem?_zero
  | opened _ hat ih => exact .opened ih ((hbehind.getElem? _).trans hat)
  | capture _ hcapture hhi ih =>
    rw [← hsubject, ← harguments]
    exact .capture ih (hcapture.behind hbehind hgrow) (hsubject ▸ hhi)

end

end PegMachine
