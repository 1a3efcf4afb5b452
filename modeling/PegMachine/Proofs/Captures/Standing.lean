import PegMachine.Proofs.Captures.Evaluated
import PegMachine.Proofs.Captures.Segments
import PegMachine.Proofs.Captures.Siblings

/-!
# Captures at places of a list

What the resolver finds where a capture starts, told by the list and not by the nesting that it
comes from.

* `Resolver.ValuesAt`: the values of the capture at a place, and the place after it.
* `Resolver.Reads`: a capture stands at a place, behind groups that can be read.
* `Visible.exists_reads`: **every capture of a list that has ended can be read.**
* `Resolver.Lists`, `Resolver.Includes`: captures one after another, and those nested directly in
  one, with their spans and their values.
* `Resolver.Encloses.includes`: **a capture includes the readings of what is nested in it.**
-/

namespace PegMachine

/-! ## Ends of captures -/

namespace Entry

variable {entries : Array Entry} {depth cursor next place : Nat}

theorem le_size_of_afterClose? (h : afterClose? entries depth place = some next) :
    next ≤ entries.size := by
  fun_induction afterClose? entries depth place with
  | case1 _ _ _ _ _ _ _ ih | case3 _ _ _ _ _ _ ih | case4 _ _ _ _ _ ih => exact ih h
  | case2 _ _ hlt =>
    cases h
    exact hlt
  | case5 => cases h

theorem le_size_of_after? (h : after? entries place = some next) : next ≤ entries.size := by
  rcases after?_cases h with ⟨_, _, _, -, hafter⟩ | ⟨rfl, ⟨_, _, _, _, hat⟩ | ⟨_, _, _, hat⟩⟩
  · exact le_size_of_afterClose? hafter
  · exact (Array.getElem?_eq_some_iff.1 hat).1
  · exact (Array.getElem?_eq_some_iff.1 hat).1

theorem around_of_after? (h : after? entries place = some next) (hbefore : place < cursor)
    (hbehind : cursor < next) : Around entries place cursor := by
  rcases after?_cases h with ⟨kind, index, pos, hat, -⟩ | ⟨rfl, -⟩
  · refine ⟨⟨kind, index, pos, hat⟩, hbefore, fun other hother => ?_⟩
    rw [h] at hother
    cases hother
    exact hbehind
  · omega

end Entry

namespace Resolver

/-- The values of the capture at a place of the list and the place after it. However deep captures
are entered and back references followed beyond the greatest depth of the list, they are the
same. -/
def ValuesAt (r : Resolver) (cursor : Nat) (values : Values) (next : Nat) : Prop :=
  ∀ depth, r.maxDepth ≤ depth → r.values depth cursor = values.map (⟨·, next⟩)

/-- A capture stands at a place of the list, behind groups that can be read. -/
structure Reads (r : Resolver) (cursor : Nat) (bindings : Bindings) (capture : Capture)
    (next : Nat) : Prop where
  visible : Visible r cursor bindings
  holds : ∃ lo hi, r.Holds lo cursor [capture] hi next

/-- Captures one after another, with their spans and their values. -/
inductive Lists (r : Resolver) : (cursor : Nat) → List Reading → (last : Nat) → Prop where
  | nil {cursor : Nat} : Lists r cursor [] cursor
  | cons {cursor next last : Nat} {entry : Entry} {reading : Reading} {rest : List Reading}
      (hat : r.entries[cursor]? = some entry) (hstart : entry.start = reading.start)
      (hstop : Entry.stop? r.entries cursor = some reading.stop)
      (hafter : Entry.after? r.entries cursor = some next)
      (hvalues : r.ValuesAt cursor reading.values next) (hrest : Lists r next rest last) :
      Lists r cursor (reading :: rest) last

/-- The capture at a place of the list, from `start` to `stop`, with the spans and the values of the
captures nested directly in it. -/
inductive Includes (r : Resolver) :
    (cursor start stop : Nat) → List Reading → (next : Nat) → Prop where
  | full {cursor start length index : Nat} {kind : CaptureKind}
      (hat : r.entries[cursor]? = some (.full kind index start length)) :
      Includes r cursor start (start + length) [] (cursor + 1)
  | nest {cursor start stop last index : Nat} {kind : CaptureKind} {nested : List Reading}
      (hat : r.entries[cursor]? = some (.opened kind index start))
      (hnested : r.Lists (cursor + 1) nested last)
      (hclosed : r.entries[last]? = some (.closed stop)) :
      Includes r cursor start stop nested (last + 1)

variable {r : Resolver} {lo hi cursor next place limit start stop last index length : Nat}
  {kind : CaptureKind} {bindings : Bindings} {captures nested : List Capture} {capture : Capture}
  {content : Content} {entry : Entry} {values : List Value}

/-! ## Single captures -/

theorem holds_full (hat : r.entries[cursor]? = some (.full kind index start length))
    (hname : Names r.program kind index content) (hsize : start + length ≤ r.subject.size) :
    r.Holds start cursor [.node content start (start + length) []] (start + length) (cursor + 1) :=
  ⟨.full hat (Nat.le_refl _) hname (.nil (Nat.le_refl _)), hsize⟩

theorem holds_dynamic (hat : r.entries[cursor]? = some (.dynamic start stop values))
    (hle : start ≤ stop) (hsize : stop ≤ r.subject.size) :
    r.Holds start cursor [.node (.dynamic values) start stop []] stop (cursor + 1) :=
  ⟨.dynamic hat (Nat.le_refl _) hle (.nil (Nat.le_refl _)), hsize⟩

theorem holds_nest (hat : r.entries[cursor]? = some (.opened kind index start))
    (hname : Names r.program kind index content) (hwraps : content.wraps = true)
    (hnested : Covers r.program r.entries start (cursor + 1) nested stop last)
    (hclosed : r.entries[last]? = some (.closed stop)) (hsize : stop ≤ r.subject.size) :
    r.Holds start cursor [.node content start stop nested] stop (last + 1) :=
  ⟨.nest hat (Nat.le_refl _) hname hwraps hnested hclosed (.nil (Nat.le_refl _)), hsize⟩

/-! ## Captures that have ended -/

theorem Reads.after?_eq (h : r.Reads cursor bindings capture next) :
    Entry.after? r.entries cursor = some next := by
  obtain ⟨-, lo, hi, hholds⟩ := h
  obtain ⟨content, start, stop, nested⟩ := capture
  exact hholds.1.after?_eq

/-- Each entry among those that captures take up is the end of one, or one that can be read starts
there. -/
theorem closed_or_reads_of_covers (h : Covers r.program r.entries lo cursor captures hi limit)
    (hhi : hi ≤ r.subject.size) (hv : Visible r cursor bindings) (hle : cursor ≤ place)
    (hlt : place < limit) : (∃ pos, r.entries[place]? = some (.closed pos)) ∨
      ∃ bindings capture next, r.Reads place bindings capture next := by
  induction h generalizing bindings with
  | nil => omega
  | @full lo hi cursor limit pos length index kind content others hat hlo hname hrest ih =>
    have hcapture := holds_full hat hname (Nat.le_trans hrest.le_span hhi)
    rcases Nat.eq_or_lt_of_le hle with rfl | hmore
    · exact .inr ⟨_, _, _, hv, _, _, hcapture⟩
    · exact ih hhi (hcapture.visible hv) hmore hlt
  | @dynamic lo hi cursor limit start stop values others hat hlo hspan hrest ih =>
    have hcapture := holds_dynamic hat hspan (Nat.le_trans hrest.le_span hhi)
    rcases Nat.eq_or_lt_of_le hle with rfl | hmore
    · exact .inr ⟨_, _, _, hv, _, _, hcapture⟩
    · exact ih hhi (hcapture.visible hv) hmore hlt
  | @nest lo hi cursor last limit start stop index kind content nested others hat hlo hname hwraps
      hnested hclosed hrest ihNested ih =>
    have hstop := Nat.le_trans hrest.le_span hhi
    have hcapture := holds_nest hat hname hwraps hnested hclosed hstop
    rcases Nat.eq_or_lt_of_le hle with rfl | hmore
    · exact .inr ⟨_, _, _, hv, _, _, hcapture⟩
    · rcases Nat.lt_trichotomy place last with hinner | rfl | hbehind
      · exact ihNested hstop (hv.opened hat) hmore hinner
      · exact .inl ⟨stop, hclosed⟩
      · exact ih hhi (hcapture.visible hv) hbehind hlt

end Resolver

open Resolver

/-- **Every capture of a list that has ended can be read.** -/
theorem Visible.exists_reads {r : Resolver} {limit place next : Nat} {bindings : Bindings}
    (hv : Visible r limit bindings) (hafter : Entry.after? r.entries place = some next)
    (hle : next ≤ limit) : ∃ bindings capture, r.Reads place bindings capture next := by
  have hlt := Entry.lt_of_after? hafter
  induction hv with
  | start => omega
  | @opened cursor index pos kind bindings hv hat ih =>
    obtain ⟨around, reach, houtline⟩ := hv.exists_outline
    rcases Nat.lt_trichotomy place cursor with hless | rfl | hmore
    · refine ih (Nat.le_of_not_lt fun hbehind => ?_)
      have hmem := houtline.mem_around_iff.2 (Entry.around_of_after? hafter hless hbehind)
      have hover := (houtline.opened hat).mem_around_iff.1 (List.mem_cons_of_mem _ hmem)
      exact absurd (hover.2.2 next hafter) (Nat.not_lt.2 hle)
    · rw [Entry.after?_opened hat] at hafter
      exact absurd (Entry.lt_of_afterClose? hafter) (Nat.not_lt.2 hle)
    · omega
  | @capture lo hi cursor after capture bindings hv hcapture hhi ih =>
    obtain ⟨around, reach, houtline⟩ := hv.exists_outline
    rcases Nat.lt_or_ge place cursor with hless | hmore
    · refine ih (Nat.le_of_not_lt fun hbehind => ?_)
      have hmem := houtline.mem_around_iff.2 (Entry.around_of_after? hafter hless hbehind)
      obtain ⟨content, start, stop, nested⟩ := capture
      have hover := (houtline.capture hcapture.after?_eq).mem_around_iff.1 hmem
      exact absurd (hover.2.2 next hafter) (Nat.not_lt.2 hle)
    · rcases closed_or_reads_of_covers hcapture hhi hv hmore (by omega) with
        ⟨pos, hclosed⟩ | ⟨bindings, capture, other, hreads⟩
      · -- nothing starts where a capture ends
        rw [Entry.after?, hclosed] at hafter
        cases hafter
      · have hsame := hreads.after?_eq
        rw [hafter] at hsame
        cases hsame
        exact ⟨bindings, capture, hreads⟩

namespace Resolver

variable {r : Resolver} {lo hi cursor next place limit start stop : Nat} {bindings : Bindings}
  {captures nested : List Capture} {capture : Capture} {content : Content} {entry : Entry}

/-- A capture can still be read when entries are recorded behind it. -/
theorem Reads.mono {list : Array Entry} (h : r.Reads cursor bindings capture next)
    (hlist : r.entries.toList <+: list.toList) :
    Reads { r with entries := list } cursor bindings capture next := by
  obtain ⟨hv, lo, hi, hcapture, hhi⟩ := h
  exact ⟨hv.mono hlist, lo, hi, hcapture.mono hlist, hhi⟩

/-! ## Values -/

theorem Reads.valuesAt (h : r.Reads cursor bindings capture next) :
    r.ValuesAt cursor (r.reading bindings capture).values next := by
  intro depth hdepth
  have hlimit := Entry.le_size_of_after? h.after?_eq
  obtain ⟨hv, lo, hi, hholds⟩ := h
  have hmul : next * (r.entries.size + 1) ≤ r.entries.size * (r.entries.size + 1) :=
    Nat.mul_le_mul_right _ hlimit
  rw [maxDepth, Nat.add_mul, Nat.one_mul] at hdepth
  exact r.finds_values depth 0 next (Nat.zero_le _) (by omega) (Nat.zero_le _) (Nat.le_refl _) hv
    hholds

theorem ValuesAt.eq_ok {values : Values} {result : List Value} {last : Nat}
    (h : r.ValuesAt cursor values next) (hfound : r.values r.maxDepth cursor = .ok ⟨result, last⟩) :
    values = .ok result := by
  rw [h _ (Nat.le_refl _)] at hfound
  cases values with
  | error fault => cases hfound
  | ok values =>
    cases hfound
    rfl

theorem Holds.lists (h : r.Holds lo cursor captures hi next) (hv : Visible r cursor bindings) :
    r.Lists cursor (r.readings bindings captures) next := by
  induction captures generalizing lo cursor bindings with
  | nil =>
    obtain ⟨h, -⟩ := h
    cases h
    exact .nil
  | cons capture others ih =>
    obtain ⟨mid, after, hhead, hrest⟩ := h.uncons
    have hvalues : r.ValuesAt cursor (r.reading bindings capture).values after :=
      Reads.valuesAt ⟨hv, _, _, hhead⟩
    obtain ⟨content, start, stop, nested⟩ := capture
    obtain ⟨⟨entry, hat, hstart⟩, -⟩ := hhead.1.start_eq
    exact .cons hat hstart hhead.1.stop?_eq hhead.1.after?_eq hvalues (ih hrest (hhead.visible hv))

/-- **A capture includes the readings of what is nested in it.** -/
theorem Encloses.includes (h : r.Encloses cursor start stop nested next)
    (hv : Visible r cursor bindings) :
    r.Includes cursor start stop (r.readings bindings nested) next := by
  cases h with
  | full hat => exact .full hat
  | nest hat hnested hclosed => exact .nest hat (hnested.lists (hv.opened hat)) hclosed

/-! ## Kinds -/

theorem Reads.names (h : r.Reads cursor bindings (.node content start stop nested) next)
    (hat : r.entries[cursor]? = some entry) {kind : CaptureKind} (hkind : entry.kind? = some kind) :
    r.Encloses cursor start stop nested next ∧ entry.start = start ∧
      ∃ index, Names r.program kind index content ∧
        (entry = .opened kind index start ∧ content.wraps = true ∨
          ∃ length, entry = .full kind index start length) := by
  obtain ⟨hv, lo, hi, hholds⟩ := h
  have hdynamic : ∀ values, content ≠ .dynamic values := by
    rintro values rfl
    cases hholds.1 with
    | full _ _ hname | nest _ _ hname => cases hname
    | dynamic hat' =>
      rw [hat] at hat'
      cases hat'
      cases hkind
  refine ⟨hholds.encloses hdynamic, ?_⟩
  cases hholds.1 with
  | full hat' _ hname =>
    rw [hat] at hat'
    cases hat'
    cases hkind
    exact ⟨rfl, _, hname, .inr ⟨_, rfl⟩⟩
  | dynamic => exact absurd rfl (hdynamic _)
  | nest hat' _ hname hwraps =>
    rw [hat] at hat'
    cases hat'
    cases hkind
    exact ⟨rfl, _, hname, .inl ⟨rfl, hwraps⟩⟩

end Resolver

end PegMachine
