import PegMachine.Proofs.Cursor.Values
import PegMachine.Proofs.Programs.Resolved

/-!
# Where the resolver leaves its cursor

* `Spells.whole`, `Setting.pointsWhole_of_reaches`: a run records no start of a capture that is
  resolved from a single entry.
* `Setting.cursor_resolves`: with one cursor, the values of what a run has recorded are the same.
* `Setting.push_of_ended`: with enough depth, the depth does not matter.
* **`Setting.stopsBehind_of_compile`**: every part of the resolver leaves its cursor right behind
  the capture where it was started.
-/

namespace PegMachine

theorem CaptureKind.isPoint_of_wraps {kind : CaptureKind} (h : kind.wraps = true) :
    kind.isPoint = false := by
  cases kind with
  | position | const | backref | argument => cases h
  | _ => rfl

theorem Spells.whole {program : Program} {lo hi : Nat} {captures : List Capture}
    {entries : List Entry} (h : Spells program lo captures hi entries) :
    ∀ entry ∈ entries, entry.Whole := by
  induction h with
  | nil => nofun
  | full _ _ _ ih | dynamic _ _ _ ih => exact List.forall_mem_cons.2 ⟨trivial, ih⟩
  | nest _ hname hwraps _ _ ihNested ih =>
    rw [hname.wraps_eq] at hwraps
    refine List.forall_mem_cons.2 ⟨CaptureKind.isPoint_of_wraps hwraps, ?_⟩
    exact List.forall_mem_append.2 ⟨ihNested, List.forall_mem_cons.2 ⟨trivial, ih⟩⟩

namespace Setting

variable {m : Setting} {p : Pattern} {block code : Block} {place : Nat → Place}
  {start last hi : Nat} {nest : Nest} {frames : List Frame} {entries : List Entry}
  {s : State} {owners : List (Option Nat)}

theorem Stands.whole (h : m.Stands place start s nest frames entries hi)
    (hplaced : m.program.Placed place last) : ∀ entry ∈ entries, entry.Whole := by
  induction h with
  | hole hspells => exact hspells.whole
  | rule _ _ hspells ih => exact List.forall_mem_append.2 ⟨ih, hspells.whole⟩
  | chosen _ _ _ _ hspells _ _ ih => exact List.forall_mem_append.2 ⟨ih, hspells.whole⟩
  | opened _ _ hspells hopening _ _ _ ih =>
    refine List.forall_mem_append.2 ⟨ih, List.forall_mem_cons.2 ⟨?_, hspells.whole⟩⟩
    obtain ⟨back, hinstr, -⟩ := hopening.opens
    cases (hplaced.fits _ _ hinstr).2.1 with
    | wraps _ hname hwraps =>
      rw [hname.wraps_eq] at hwraps
      exact CaptureKind.isPoint_of_wraps hwraps
    | matchTime hkind =>
      subst hkind
      rfl

/-- In what a run has recorded, and with an end behind it, captures that are resolved from a single
entry take up one. -/
theorem pointsWhole_of_reaches (hp : p.compile = .ok m.program) (start : Nat)
    (hreach : m.Reaches (min start m.subject.size) s owners) {list : Array Entry}
    (hlist : list = s.captures ∨ list = s.captures.push (.closed s.pos)) :
    Entry.PointsWhole list := by
  have hrecorded : Entry.PointsWhole s.captures := by
    obtain ⟨block, code, hcompiled⟩ := p.compiled_exists hp
    obtain ⟨place, hplaced⟩ := hcompiled.placed
    cases inPlace_of_reaches hcompiled hplaced (Nat.min_le_right _ _) hreach with
    | within h hnest hframes hentries =>
      intro entry hmem
      exact h.whole hplaced entry (hentries ▸ Array.mem_toList_iff.2 hmem)
    | gaveUp => nofun
  rcases hlist with rfl | rfl
  · exact hrecorded
  · intro entry hmem
    rcases Array.mem_push.1 hmem with hmem | rfl
    · exact hrecorded entry hmem
    · trivial

open Cursor

/-- With one cursor, what a run has recorded has the same values, and so has what is nested in one
capture. -/
theorem cursor_resolves (hp : p.compile = .ok m.program) (start : Nat)
    (hreach : m.Reaches (min start m.subject.size) s owners) {list : Array Entry}
    (hlist : list = s.captures ∨ list = s.captures.push (.closed s.pos)) :
    ((resolve (m.resolver list)).run 0).map Prod.fst = (m.resolver list).resolve ∧
      ∀ place, ((nested (m.resolver list) place).run 0).map Prod.fst =
        (m.resolver list).nested place := by
  have hwhole : Entry.PointsWhole (m.resolver list).entries :=
    pointsWhole_of_reaches hp start hreach hlist
  exact ⟨resolve_run hwhole, fun place => nested_run hwhole place 0⟩

/-- With enough depth, what is appended for a capture that has ended does not depend on the
depth. -/
theorem push_of_ended (hp : p.compile = .ok m.program) (start : Nat)
    (hreach : m.Reaches (min start m.subject.size) s owners) {list : Array Entry}
    (hlist : list = s.captures ∨ list = s.captures.push (.closed s.pos)) {cursor next : Nat}
    (hafter : Entry.after? s.captures cursor = some next) :
    ∃ values : Values, ∀ depth, (m.resolver list).maxDepth ≤ depth → ∀ out : Array Value,
      (push (m.resolver list) depth out).run cursor =
        values.map fun found : List Value => ((found.length, out ++ found), next) := by
  have hwhole : Entry.PointsWhole (m.resolver list).entries :=
    pointsWhole_of_reaches hp start hreach hlist
  have hrecorded : s.captures.toList <+: list.toList := by
    rcases hlist with rfl | rfl <;> simp
  obtain ⟨bindings, capture, hreads⟩ := exists_reads_of_reaches hp start hreach hrecorded hafter
  refine ⟨((m.resolver list).reading bindings capture).values, fun depth hdepth out => ?_⟩
  rw [push_run hwhole, hreads.valuesAt depth hdepth]
  cases ((m.resolver list).reading bindings capture).values <;> rfl

/-- **Every part of the resolver leaves its cursor right behind the capture where it was started.**
Whatever depth is allowed, if it ends without a fault, and whichever captures a back reference or a
template has taken the cursor to, it is left at the index after the capture. What has been found is
appended to what was there, and the number of values tells how many there are. For a whole capture
these are the values that the walk over the list finds. -/
theorem stopsBehind_of_compile (hp : p.compile = .ok m.program) (start : Nat)
    (hreach : m.Reaches (min start m.subject.size) s owners) {list : Array Entry}
    (hlist : list = s.captures ∨ list = s.captures.push (.closed s.pos)) (depth cursor : Nat) :
    let r := m.resolver list
    (∀ out, (push r depth out).run cursor = (r.values depth cursor).map (pushed out)) ∧
    (∀ out, StopsBehind list cursor (push r depth out) (Counts out)) ∧
    (∀ whole out, StopsBehind list cursor (pushNested r (push r depth) whole out) (Counts out)) ∧
    (∀ entry, list[cursor]? = some entry → entry.kind? = some .backref → ∀ index out,
      StopsBehind list cursor (backref r (push r depth) index out) (Counts out)) ∧
    (∀ entry kind, list[cursor]? = some entry → entry.kind? = some kind → ∀ index out,
      StopsBehind list cursor (fold r (push r depth) index out) (Counts out)) ∧
    (∀ items, StopsBehind list cursor (addItems r depth items) (Appended items)) ∧
    (∀ done, StopsBehind list cursor (substitute r (addText r depth) done) (Appended done)) ∧
    (∀ done, StopsBehind list cursor (fill r (addText r depth) done) (Appended done)) ∧
    ∀ done,
      StopsBehind list cursor (addText r depth done) fun result => Appended done result.2 := by
  intro r
  have hwhole : Entry.PointsWhole r.entries := pointsWhole_of_reaches hp start hreach hlist
  exact ⟨fun out => push_run hwhole depth out cursor,
    fun out => push_stopsBehind hwhole depth out cursor,
    fun whole out => pushNested_stopsBehind hwhole depth whole out cursor,
    fun entry hat hkind => backref_stopsBehind hwhole depth hat hkind,
    fun entry kind hat hkind => fold_stopsBehind hwhole depth hat hkind,
    fun items => addItems_stopsBehind depth items cursor,
    fun done => substitute_stopsBehind hwhole depth done cursor,
    fun done => fill_stopsBehind hwhole depth done cursor,
    fun done => addText_stopsBehind hwhole depth done cursor⟩

end Setting

/-- A template that refers to a back reference, behind the group. -/
def wandering : Pattern :=
  .seq (.capture (.named "x") (.any 1))
    (.capture (.template #[37, 49, 33]) (.seq (.backref "x") (.any 1)))

/-- The program of the template. -/
def wanderingProgram : Program where
  code := #[.any 1 0, .fullCapture .group 1 1, .openCapture .template 0 3,
    .emptyCaptureConst .backref 2, .any 1 0, .closeCapture, .done, .giveUp]
  constants := #[.name "x", .name "x", .template #[37, 49, 33]]

theorem compile_wandering : wandering.compile = .ok wanderingProgram := rfl

/-- The entries of the group and the template at the end of a match. -/
def wanderingEntries : Array Entry :=
  #[.full .group 1 0 1, .opened .template 3 1, .full .backref 2 1 0, .closed 2]

/-- The template takes the cursor to the back reference, that one takes it to the group, and it ends
behind the template. -/
theorem wandering_stopsBehind :
    let m : Setting := ⟨wanderingProgram, {}, #[97, 98], []⟩
    (∃ owners, m.Reaches 0 ⟨6, 2, (m.initial 0).stack, wanderingEntries⟩ owners) ∧
      (Cursor.push (m.resolver wanderingEntries) 2 #[]).run 1 =
        .ok ((1, #[.str #[97, 33]]), 4) ∧
      Entry.after? wanderingEntries 1 = some 4 := by
  intro m
  have hs : ∃ owners, m.Reaches (min 0 m.subject.size)
      ⟨6, 2, (m.initial 0).stack, wanderingEntries⟩ owners :=
    ⟨_, .step (.step (.step (.step (.step (.step .start rfl) rfl) rfl) rfl) rfl) rfl⟩
  have hrun : (Cursor.push (m.resolver wanderingEntries) 2 #[]).run 1 =
      .ok ((1, #[.str #[97, 33]]), 4) := rfl
  refine ⟨hs, hrun, ?_⟩
  obtain ⟨owners, hreach⟩ := hs
  obtain ⟨-, hpush, -⟩ := Setting.stopsBehind_of_compile compile_wandering 0 hreach (.inl rfl) 2 1
  exact (hpush #[] _ hrun).1

end PegMachine
