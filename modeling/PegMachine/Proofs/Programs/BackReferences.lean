import PegMachine.Proofs.Captures.Siblings
import PegMachine.Proofs.Programs.Resolved
import PegMachine.Proofs.Semantics.Intact

/-!
# What back references find

* `Resolver.Recalls`: a back reference in a list, behind groups that can be read.
* `Resolver.recalls_of_covers`, `Setting.recalls_of_reaches`: so is every back reference that a run
  records.
* `Setting.backReferences_of_compile`: **a back reference finds the latest group of its name in
  reach, which has ended before it, and is resolved whatever that group refers to.**
-/

namespace PegMachine

namespace Resolver

/-- A back reference to a name stands at a place of the list, behind groups that can be read. -/
structure Recalls (r : Resolver) (name : String) (cursor : Nat) (entry : Entry) : Prop where
  entry_eq : ∃ index pos length, entry = .full .backref index pos length ∧
    r.program.constant? index = some (.name name) ∧ pos + length ≤ r.subject.size
  at_cursor : r.entries[cursor]? = some entry
  visible : ∃ bindings, Visible r cursor bindings

variable {r : Resolver} {lo hi cursor next place : Nat} {captures : List Capture}
  {bindings : Bindings} {name : String} {entry : Entry}

theorem recalls_of_covers (h : Covers r.program r.entries lo cursor captures hi next)
    (hhi : hi ≤ r.subject.size) (hv : Visible r cursor bindings) (hle : cursor ≤ place)
    (hlt : place < next) (hat : r.entries[place]? = some entry)
    (hkind : entry.kind? = some .backref) : ∃ name, r.Recalls name place entry := by
  rcases closed_or_reads_of_covers h hhi hv hle hlt with
    ⟨pos, hclosed⟩ | ⟨bindings, ⟨content, start, stop, nested⟩, after, hreads⟩
  · rw [hat] at hclosed
    cases hclosed
    cases hkind
  · obtain ⟨hencloses, -, index, hname, hform⟩ := hreads.names hat hkind
    cases hname with
    | backref hconst =>
      obtain ⟨length, rfl⟩ := hform.resolve_left fun hopened => Bool.noConfusion hopened.2
      refine ⟨_, ⟨index, start, length, rfl, hconst, ?_⟩, hat, _, hreads.visible⟩
      cases hencloses with
      | full hfull hsize =>
        rw [hat] at hfull
        cases hfull
        exact hsize
      | nest hopened =>
        rw [hat] at hopened
        cases hopened

theorem Recalls.exists_values (h : r.Recalls name cursor entry) :
    ∃ values : Values, Intact values ∧
      ∀ depth, r.maxDepth ≤ depth → r.values depth cursor = values.map (⟨·, cursor + 1⟩) := by
  obtain ⟨⟨index, pos, length, rfl, hconst, hsize⟩, hat, bindings, hv⟩ := h
  let capture : Capture := .node (.backref name) pos (pos + length) []
  have hholds : r.Holds pos cursor [capture] (pos + length) (cursor + 1) :=
    holds_full hat (.backref hconst) hsize
  exact ⟨(r.reading bindings capture).values, (capture.intact_read hv.intact).values,
    Reads.valuesAt ⟨hv, pos, pos + length, hholds⟩⟩

end Resolver

namespace Setting

variable {m : Setting} {p : Pattern} {block code : Block} {place : Nat → Place}
  {start last hi cursor : Nat} {nest : Nest} {frames : List Frame} {entries : List Entry}
  {entry : Entry} {s : State} {owners : List (Option Nat)}

/-- Each back reference among the entries of layers is one, behind groups that can be read. -/
theorem Stands.recalls (h : m.Stands place start s nest frames entries hi)
    (hplaced : m.program.Placed place last) {r : Resolver} (hprogram : r.program = m.program)
    (hhi : hi ≤ r.subject.size) (hentries : entries <+: r.entries.toList)
    (hlt : cursor < entries.length) (hat : r.entries[cursor]? = some entry)
    (hkind : entry.kind? = some .backref) : ∃ name, r.Recalls name cursor entry := by
  induction h with
  | hole hspells =>
    have hcovers := hspells.covers_leading [] hentries
    rw [← hprogram] at hcovers
    exact Resolver.recalls_of_covers hcovers hhi .start (Nat.zero_le _) hlt hat hkind
  | @rule _ _ _ _ _ entries _ h _ hspells ih | @chosen _ _ _ _ _ entries _ _ h _ _ _ hspells _ _ ih =>
    have hle := hspells.le_span
    have hbefore := (List.prefix_append ..).trans hentries
    -- the back reference is in what is open around, or in the captures recorded since
    rcases Nat.lt_or_ge cursor entries.length with hless | hmore
    · exact ih (by omega) hbefore hless
    · obtain ⟨bindings, hv⟩ := h.visible hprogram (by omega) hbefore
      have hcovers := hspells.covers_leading _ hentries
      rw [← hprogram] at hcovers
      exact Resolver.recalls_of_covers hcovers hhi hv hmore hlt hat hkind
  | @opened _ _ _ index begun kind _ _ _ entries nested _ h hlo hspells hopening _ _ _ ih =>
    have hle := hspells.le_span
    have hbefore := (List.prefix_append ..).trans hentries
    rw [List.append_cons] at hentries hlt
    have hopened : r.entries[entries.length]? = some (.opened kind index begun) :=
      getElem?_leading ((List.prefix_append ..).trans hentries)
    rcases Nat.lt_trichotomy cursor entries.length with hless | rfl | hmore
    · exact ih (by omega) hbefore hless
    · -- a back reference does not start anything
      rw [hopened] at hat
      cases hat
      cases hkind
      obtain ⟨back, hinstr, -⟩ := hopening.opens
      cases (hplaced.fits _ _ hinstr).2.1 with
      | wraps _ hname hwraps =>
        cases hname with
        | backref => cases hwraps
      | matchTime hkind => cases hkind
    · obtain ⟨bindings, hv⟩ := h.visible hprogram (by omega) hbefore
      have hcovers := hspells.covers_leading _ hentries
      rw [← hprogram, List.length_append, List.length_singleton] at hcovers
      exact Resolver.recalls_of_covers hcovers hhi (hv.opened hopened) hmore
        (by simpa using hlt) hat hkind

/-- Each back reference in the captures that a run has recorded, or in those with an end behind them,
is one behind groups that can be read. -/
theorem recalls_of_reaches (hp : p.Compiled m.program block code)
    (hplaced : m.program.Placed place last) (hstart : start ≤ m.subject.size)
    (hreach : m.Reaches start s owners) {list : Array Entry}
    (hlist : list = s.captures ∨ list = s.captures.push (.closed s.pos))
    (hat : list[cursor]? = some entry) (hkind : entry.kind? = some .backref) :
    ∃ name, (m.resolver list).Recalls name cursor entry := by
  have hcursor : s.captures.toList <+: list.toList ∧ cursor < s.captures.toList.length := by
    rcases hlist with rfl | rfl
    · exact ⟨List.prefix_refl _, (Array.getElem?_eq_some_iff.1 hat).1⟩
    · refine ⟨by simp, Nat.lt_of_le_of_ne ?_ ?_⟩
      · have hlt := (Array.getElem?_eq_some_iff.1 hat).1
        rw [Array.size_push] at hlt
        exact Nat.le_of_lt_succ hlt
      · rintro rfl
        rw [Array.length_toList, Array.getElem?_push_size] at hat
        cases hat
        cases hkind
  cases inPlace_of_reaches hp hplaced hstart hreach with
  | within h hnest hframes hentries hlag hpos =>
    rw [hentries] at hcursor
    exact h.recalls hplaced rfl (by show _ ≤ m.subject.size; omega) hcursor.1 hcursor.2 hat hkind
  | gaveUp => exact absurd hcursor.2 (Nat.not_lt_zero _)

/-- **A back reference finds the latest group of its name in reach.** In the captures that a run has
recorded at any time, and in those with the end of a match-time capture behind them, each back
reference finds the latest group of its name among the captures that are earlier siblings of it, or
of a capture around it, and that have ended. The group has ended before the back reference, what is
around it is around the back reference too, and there is a fault exactly if no such group is there.
However deep captures are entered and back references followed, beyond a depth that depends on the
length of the list only, the values are the same. -/
theorem backReferences_of_compile (hp : p.compile = .ok m.program) (start : Nat)
    (hreach : m.Reaches (min start m.subject.size) s owners) {list : Array Entry}
    (hlist : list = s.captures ∨ list = s.captures.push (.closed s.pos))
    (hat : list[cursor]? = some entry) (hkind : entry.kind? = some .backref) :
    ∃ index pos length name, entry = .full .backref index pos length ∧
      m.program.constant? index = some (.name name) ∧
      (∀ group, Entry.groupBelow m.program name list 0 cursor = .ok group ↔
        IsGreatest {place | Entry.InReach list place cursor ∧
          Entry.GroupAt m.program name list place} group) ∧
      (∀ fault, Entry.groupBelow m.program name list 0 cursor = .error fault ↔
        fault = .backReference name ∧
          ∀ place, Entry.InReach list place cursor → ¬ Entry.GroupAt m.program name list place) ∧
      (∀ group, Entry.groupBelow m.program name list 0 cursor = .ok group →
        (∃ next, Entry.after? list group = some next ∧ next ≤ cursor) ∧
          ¬ Entry.Around list group cursor ∧
          ∀ outer, Entry.Around list outer group → Entry.Around list outer cursor) ∧
      ∃ values : Values, Intact values ∧ ∀ depth, (m.resolver list).maxDepth ≤ depth →
        (m.resolver list).values depth cursor = values.map (⟨·, cursor + 1⟩) := by
  obtain ⟨block, code, hcompiled⟩ := p.compiled_exists hp
  obtain ⟨place, hplaced⟩ := hcompiled.placed
  obtain ⟨name, hrecalls⟩ :=
    recalls_of_reaches hcompiled hplaced (Nat.min_le_right _ _) hreach hlist hat hkind
  obtain ⟨index, pos, length, hentry, hconst, -⟩ := hrecalls.entry_eq
  obtain ⟨bindings, hv⟩ := hrecalls.visible
  obtain ⟨around, reach, houtline⟩ := hv.exists_outline
  refine ⟨index, pos, length, name, hentry, hconst, fun _ => houtline.groupBelow_eq_ok_iff,
    fun _ => houtline.groupBelow_eq_error_iff, fun group hgroup => ?_, hrecalls.exists_values⟩
  have hreached := (houtline.groupBelow_eq_ok_iff.1 hgroup).1.1
  obtain ⟨next, hafter, hle⟩ := hreached.ended
  refine ⟨⟨next, hafter, hle⟩, fun haround => ?_, fun outer => hreached.around_trans⟩
  exact absurd (haround.2.2 next hafter) (Nat.not_lt.2 hle)

end Setting

/-- Returns the position and the values that it is given. -/
def passOn : MatchTimeFunction := fun _ pos values => some (pos, values)

/-- A back reference in a match-time capture, with one group of its name before that capture, one
around the reference, and one nested in a capture before it. -/
def sheltered : Pattern :=
  .seq (.capture (.named "x") (.any 1))
    (.capture (.matchTime passOn) (.capture (.named "x")
      (.seq (.capture .simple (.capture (.named "x") (.any 1))) (.backref "x"))))

/-- The program of the groups. -/
def shelteredProgram : Program where
  code := #[.any 1 0, .fullCapture .group 1 1, .openCapture .matchTime 0 5, .openCapture .group 0 4,
    .any 1 0, .openCapture .simple 1 0, .fullCapture .group 1 2, .closeCapture,
    .emptyCaptureConst .backref 3, .closeCapture, .closeMatchTime, .done, .giveUp]
  constants := #[.name "x", .name "x", .name "x", .name "x", .matchTime passOn]

theorem compile_sheltered : sheltered.compile = .ok shelteredProgram := rfl

/-- What is recorded when the match-time capture ends. -/
def shelteredEntries : Array Entry :=
  #[.full .group 1 0 1, .opened .matchTime 5 1, .opened .group 4 1, .opened .simple 0 1,
    .full .group 2 1 1, .closed 2, .full .backref 3 2 0, .closed 2]

/-- The group before the match-time capture is found. -/
theorem sheltered_backReference :
    let m : Setting := ⟨shelteredProgram, {}, #[97, 98], []⟩
    let list := shelteredEntries.push (.closed 2)
    (∃ owners, m.Reaches 0 ⟨10, 2, (m.initial 0).stack, shelteredEntries⟩ owners) ∧
      list[6]? = some (.full .backref 3 2 0) ∧
      Entry.groupBelow shelteredProgram "x" list 0 6 = .ok 0 ∧
      IsGreatest {place | Entry.InReach list place 6 ∧
        Entry.GroupAt shelteredProgram "x" list place} 0 := by
  intro m list
  have hs : ∃ owners, m.Reaches (min 0 m.subject.size)
      ⟨10, 2, (m.initial 0).stack, shelteredEntries⟩ owners :=
    ⟨_, .step (.step (.step (.step (.step (.step (.step (.step (.step (.step .start rfl) rfl) rfl)
      rfl) rfl) rfl) rfl) rfl) rfl) rfl⟩
  have hfound : Entry.groupBelow shelteredProgram "x" list 0 6 = .ok 0 := rfl
  have hat : list[6]? = some (.full .backref 3 2 0) := rfl
  refine ⟨hs, hat, hfound, ?_⟩
  obtain ⟨owners, hreach⟩ := hs
  obtain ⟨_, _, _, name, hentry, hconst, hok, -⟩ :=
    Setting.backReferences_of_compile compile_sheltered 0 hreach (.inr rfl) hat rfl
  cases hentry
  cases hconst
  exact (hok 0).1 hfound

end PegMachine
