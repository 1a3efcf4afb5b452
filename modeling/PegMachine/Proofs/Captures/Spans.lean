import PegMachine.Proofs.Captures.Segments

/-!
# Spans of entries

* `Entry.stop`: the last position that an entry is about.
* `Spanned`: well-bracketed entries with nested spans.
* `Spanned.bounds`, `Spanned.ordered`: the positions of such entries.
* `Spells.spanned`: the entries of captures are among them.
-/

namespace PegMachine

/-- The position in the subject that an entry is about, the last one if there are two. -/
def Entry.stop : Entry → Nat
  | .opened _ _ pos | .closed pos => pos
  | .full _ _ pos length => pos + length
  | .dynamic _ stop _ => stop

/-- Well-bracketed entries with spans between `lo` and `hi`. Each span starts where the one before
it has ended, or later, and the spans nested in one lie between its start and its end. -/
inductive Spanned : (lo : Nat) → List Entry → (hi : Nat) → Prop where
  | nil {lo hi : Nat} (hle : lo ≤ hi) : Spanned lo [] hi
  | full {lo hi pos length index : Nat} {kind : CaptureKind} {entries : List Entry} (hlo : lo ≤ pos)
      (hrest : Spanned (pos + length) entries hi) :
      Spanned lo (.full kind index pos length :: entries) hi
  | dynamic {lo hi start stop : Nat} {values : List Value} {entries : List Entry} (hlo : lo ≤ start)
      (hle : start ≤ stop) (hrest : Spanned stop entries hi) :
      Spanned lo (.dynamic start stop values :: entries) hi
  | nest {lo hi start stop index : Nat} {kind : CaptureKind} {inner entries : List Entry}
      (hlo : lo ≤ start) (hnested : Spanned start inner stop) (hrest : Spanned stop entries hi) :
      Spanned lo (.opened kind index start :: (inner ++ .closed stop :: entries)) hi

section

variable {program : Program} {lo mid hi : Nat} {captures : List Capture}
  {entries more : List Entry}

namespace Spanned

theorem le_span (h : Spanned lo entries hi) : lo ≤ hi := by
  induction h with
  | nil hle => exact hle
  | full _ _ ih => omega
  | dynamic _ _ _ ih => omega
  | nest _ _ _ ihNested ih => omega

theorem append (h : Spanned lo entries mid) (hmore : Spanned mid more hi) :
    Spanned lo (entries ++ more) hi := by
  induction h with
  | nil hle =>
    cases hmore with
    | nil hle' => exact .nil (Nat.le_trans hle hle')
    | full hlo hrest => exact .full (Nat.le_trans hle hlo) hrest
    | dynamic hlo hle' hrest => exact .dynamic (Nat.le_trans hle hlo) hle' hrest
    | nest hlo hnested hrest => exact .nest (Nat.le_trans hle hlo) hnested hrest
  | full hlo _ ih => exact .full hlo (ih hmore)
  | dynamic hlo hle _ ih => exact .dynamic hlo hle (ih hmore)
  | nest hlo hnested _ _ ih =>
    rw [List.cons_append, List.append_assoc, List.cons_append]
    exact .nest hlo hnested (ih hmore)

theorem bounds (h : Spanned lo entries hi) :
    ∀ entry ∈ entries, lo ≤ entry.start ∧ entry.start ≤ entry.stop ∧ entry.stop ≤ hi := by
  induction h with
  | nil => exact nofun
  | @full lo hi pos length index kind entries hlo hrest ih =>
    have hle := hrest.le_span
    refine List.forall_mem_cons.2 ⟨⟨hlo, Nat.le_add_right .., hle⟩, fun entry hentry => ?_⟩
    obtain ⟨hge, hrest⟩ := ih entry hentry
    exact ⟨by omega, hrest⟩
  | dynamic hlo hle hrest ih =>
    have hspan := hrest.le_span
    refine List.forall_mem_cons.2 ⟨⟨hlo, hle, hspan⟩, fun entry hentry => ?_⟩
    obtain ⟨hge, hrest⟩ := ih entry hentry
    exact ⟨by omega, hrest⟩
  | @nest lo hi start stop index kind inner entries hlo hnested hrest ihNested ih =>
    have hinner := hnested.le_span
    have hspan := hrest.le_span
    refine List.forall_mem_cons.2 ⟨⟨hlo, Nat.le_refl _, Nat.le_trans hinner hspan⟩, ?_⟩
    refine List.forall_mem_append.2 ⟨fun entry hentry => ?_, List.forall_mem_cons.2 ⟨?_, ?_⟩⟩
    · obtain ⟨hge, hle, hstop⟩ := ihNested entry hentry
      exact ⟨by omega, hle, by omega⟩
    · exact ⟨Nat.le_trans hlo hinner, Nat.le_refl _, hspan⟩
    · intro entry hentry
      obtain ⟨hge, hle, hstop⟩ := ih entry hentry
      exact ⟨by omega, hle, hstop⟩

theorem ordered (h : Spanned lo entries hi) :
    (entries.map Entry.start).Pairwise (· ≤ ·) := by
  induction h with
  | nil => exact .nil
  | full _ hrest ih =>
    refine List.pairwise_cons.2 ⟨List.forall_mem_map.2 fun entry hentry => ?_, ih⟩
    have hbound := (hrest.bounds entry hentry).1
    exact Nat.le_trans (Nat.le_add_right ..) hbound
  | dynamic _ hle hrest ih =>
    refine List.pairwise_cons.2 ⟨List.forall_mem_map.2 fun entry hentry => ?_, ih⟩
    exact Nat.le_trans hle (hrest.bounds entry hentry).1
  | @nest _ _ start stop _ _ inner entries _ hnested hrest ihNested ih =>
    have hinner := hnested.le_span
    have hbehind : ∀ entry ∈ entries, stop ≤ entry.start := fun entry hentry =>
      (hrest.bounds entry hentry).1
    have hwithin : ∀ entry ∈ inner, start ≤ entry.start ∧ entry.start ≤ stop := by
      intro entry hentry
      obtain ⟨hge, hle, hstop⟩ := hnested.bounds entry hentry
      exact ⟨hge, Nat.le_trans hle hstop⟩
    have hclosed : ((Entry.closed stop :: entries).map Entry.start).Pairwise (· ≤ ·) :=
      List.pairwise_cons.2 ⟨List.forall_mem_map.2 hbehind, ih⟩
    rw [List.map_cons, List.map_append]
    refine List.pairwise_cons.2 ⟨?_, List.pairwise_append.2 ⟨ihNested, hclosed, ?_⟩⟩
    · refine List.forall_mem_append.2 ⟨List.forall_mem_map.2 fun entry hentry =>
        (hwithin entry hentry).1, List.forall_mem_map.2 (List.forall_mem_cons.2 ⟨hinner, ?_⟩)⟩
      exact fun entry hentry => Nat.le_trans hinner (hbehind entry hentry)
    · refine List.forall_mem_map.2 fun entry hentry => List.forall_mem_map.2
        (List.forall_mem_cons.2 ⟨(hwithin entry hentry).2, fun entry' hentry' => ?_⟩)
      exact Nat.le_trans (hwithin entry hentry).2 (hbehind entry' hentry')

end Spanned

/-- The entries of captures have nested spans. -/
theorem Spells.spanned (h : Spells program lo captures hi entries) : Spanned lo entries hi := by
  induction h with
  | nil hle => exact .nil hle
  | full hlo _ _ ih => exact .full hlo ih
  | dynamic hlo hle _ ih => exact .dynamic hlo hle ih
  | nest hlo _ _ _ _ ihNested ih => exact .nest hlo ihNested ih

end

end PegMachine
