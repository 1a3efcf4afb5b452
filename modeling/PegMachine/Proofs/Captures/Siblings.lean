import Mathlib.Order.Bounds.Basic
import PegMachine.Proofs.Captures.Recorded

/-!
# Captures in reach

Which captures stand around an entry, and which have ended before it next to one of these.

* `Entry.Around`, `Entry.SiblingBefore`, `Entry.InReach`: the captures around an entry, those that
  have ended before it with the same captures around them, and those in reach of it.
* `Entry.Outline`: the captures around a place of the list and those in reach, the latest first.
* `Entry.Outline.mem_around_iff`, `Entry.Outline.mem_reach_iff`: they are what an outline says.
* **`Entry.Outline.groupBelow_eq_ok_iff`**: the group found is the latest one in reach.
-/

namespace PegMachine.Entry

/-! ## Captures around an entry and in reach of it -/

section

variable (entries : Array Entry)

/-- The capture that starts at `outer` is around the entry at `i`: it has not ended by then. -/
def Around (outer i : Nat) : Prop :=
  (∃ kind index pos, entries[outer]? = some (.opened kind index pos)) ∧ outer < i ∧
    ∀ next, after? entries outer = some next → i < next

/-- The capture that starts at `place` has ended before the entry at `i`, and the same captures are
around both. -/
def SiblingBefore (place i : Nat) : Prop :=
  (∃ next, after? entries place = some next ∧ next ≤ i) ∧
    ∀ outer, Around entries outer place ↔ Around entries outer i

/-- The capture that starts at `place` is an earlier sibling of the entry at `i` or of a capture
around it. -/
def InReach (place i : Nat) : Prop :=
  SiblingBefore entries place i ∨
    ∃ outer, Around entries outer i ∧ SiblingBefore entries place outer

/-- The captures around a place of the list and those in reach of it, the latest first. -/
inductive Outline : (cursor : Nat) → (around reach : List Nat) → Prop where
  | start : Outline 0 [] []
  | opened {cursor index pos : Nat} {kind : CaptureKind} {around reach : List Nat}
      (h : Outline cursor around reach) (hat : entries[cursor]? = some (.opened kind index pos)) :
      Outline (cursor + 1) (cursor :: around) reach
  | capture {cursor next : Nat} {around reach : List Nat} (h : Outline cursor around reach)
      (hafter : after? entries cursor = some next) : Outline next around (cursor :: reach)

end

variable {program : Program} {entries : Array Entry} {depth cursor next outer place i : Nat}
  {around reach : List Nat} {name : String}

/-! ## Ends of captures -/

theorem lt_of_afterClose? (h : afterClose? entries depth i = some next) : i < next := by
  fun_induction afterClose? entries depth i with
  | case1 depth i hlt kind index pos hat ih => exact Nat.lt_of_succ_lt (ih h)
  | case2 depth i hlt pos hat hdepth =>
    cases h
    exact Nat.lt_succ_self i
  | case3 depth i hlt pos hat hdepth ih => exact Nat.lt_of_succ_lt (ih h)
  | case4 depth i hlt hopened hclosed ih => exact Nat.lt_of_succ_lt (ih h)
  | case5 => cases h

theorem afterClose?_add (entries : Array Entry) (depth more i : Nat) :
    afterClose? entries (depth + more + 2) i =
      (afterClose? entries (depth + 1) i).bind (afterClose? entries (more + 1)) := by
  generalize hdepth : depth + 1 = inner
  fun_induction afterClose? entries inner i generalizing depth with
  | case1 inner i hlt kind index pos hat ih =>
    rw [← ih (depth + 1) (by omega), afterClose?, dif_pos hlt, hat]
    simp only
    congr 1
    omega
  | case2 inner i hlt pos hat hle =>
    rw [afterClose?, dif_pos hlt, hat]
    simp only
    rw [if_neg (by omega), Option.bind_some]
    congr 1
    omega
  | case3 inner i hlt pos hat hle ih =>
    rw [← ih (depth - 1) (by omega), afterClose?, dif_pos hlt, hat]
    simp only
    rw [if_neg (by omega)]
    congr 1
    omega
  | case4 inner i hlt hopened hclosed ih =>
    rw [← ih depth hdepth, afterClose?, dif_pos hlt]
    split
    · next he => exact absurd he (hopened _ _ _)
    · next he => exact absurd he (hclosed _)
    · rfl
  | case5 inner i hlt => rw [afterClose?, dif_neg hlt, Option.bind_none]

theorem afterClose?_step (h : afterClose? entries (depth + 1) i = some next)
    (hlt : i + 1 < next) : ∃ depth', afterClose? entries (depth' + 1) (i + 1) = some next := by
  rw [afterClose?] at h
  split at h
  · split at h
    · exact ⟨_, h⟩
    · split at h
      · cases h
        omega
      · next hdepth =>
        refine ⟨depth - 1, ?_⟩
        rwa [Nat.sub_add_cancel (by omega)]
    · exact ⟨_, h⟩
  · cases h

theorem exists_afterClose? (h : afterClose? entries (depth + 1) i = some next) (hle : i ≤ place)
    (hlt : place < next) : ∃ depth', afterClose? entries (depth' + 1) place = some next := by
  induction hle with
  | refl => exact ⟨depth, h⟩
  | step _ ih =>
    obtain ⟨depth', h'⟩ := ih (by omega)
    exact afterClose?_step h' hlt

theorem lt_of_after? (h : after? entries i = some next) : i < next := by
  rw [after?] at h
  split at h
  · exact lt_of_afterClose? h
  · cases h
    exact Nat.lt_succ_self i
  · cases h
    exact Nat.lt_succ_self i
  · cases h
  · cases h

theorem after?_cases (h : after? entries i = some next) :
    (∃ kind index pos, entries[i]? = some (.opened kind index pos) ∧
      afterClose? entries 1 (i + 1) = some next) ∨
    next = i + 1 ∧ ((∃ kind index pos length, entries[i]? = some (.full kind index pos length)) ∨
      ∃ start stop values, entries[i]? = some (.dynamic start stop values)) := by
  rw [after?] at h
  split at h
  · next kind index pos hat =>
    obtain ⟨hlt, hget⟩ := Array.getElem?_eq_some_iff.1 hat
    rw [afterClose?, dif_pos hlt, hget] at h
    exact .inl ⟨kind, index, pos, hat, h⟩
  · next hat => exact .inr ⟨(Option.some.inj h).symm, .inl ⟨_, _, _, _, hat⟩⟩
  · next hat => exact .inr ⟨(Option.some.inj h).symm, .inr ⟨_, _, _, hat⟩⟩
  · cases h
  · cases h

theorem after?_opened {kind : CaptureKind} {index pos : Nat}
    (hat : entries[i]? = some (.opened kind index pos)) :
    after? entries i = afterClose? entries 1 (i + 1) := by
  obtain ⟨hlt, hget⟩ := Array.getElem?_eq_some_iff.1 hat
  rw [after?, hat]
  simp only
  rw [afterClose?, dif_pos hlt, hget]

theorem afterClose?_capture (h : after? entries i = some next) (depth : Nat) :
    afterClose? entries (depth + 1) i = afterClose? entries (depth + 1) next := by
  rcases after?_cases h with ⟨kind, index, pos, hat, hafter⟩ | ⟨rfl, hat⟩
  · obtain ⟨hlt, hget⟩ := Array.getElem?_eq_some_iff.1 hat
    have hadd := afterClose?_add entries 0 depth (i + 1)
    rw [Nat.zero_add, Nat.zero_add, hafter, Option.bind_some] at hadd
    rw [afterClose?, dif_pos hlt, hget]
    exact hadd
  · rcases hat with ⟨_, _, _, _, hat⟩ | ⟨_, _, _, hat⟩ <;>
      obtain ⟨hlt, hget⟩ := Array.getElem?_eq_some_iff.1 hat <;>
      rw [afterClose?, dif_pos hlt, hget]

theorem after?_nested (h : after? entries outer = some next) {kind : CaptureKind} {index pos : Nat}
    (hat : entries[i]? = some (.opened kind index pos)) (hlt : outer < i) (hnext : i < next) :
    ∃ mid, after? entries i = some mid ∧ mid < next := by
  rcases after?_cases h with ⟨_, _, _, -, hafter⟩ | ⟨rfl, -⟩
  · obtain ⟨depth, hdepth⟩ := exists_afterClose? hafter hlt hnext
    obtain ⟨hsize, hget⟩ := Array.getElem?_eq_some_iff.1 hat
    rw [afterClose?, dif_pos hsize, hget] at hdepth
    simp only at hdepth
    have hadd := afterClose?_add entries 0 depth (i + 1)
    rw [Nat.zero_add, Nat.zero_add, hdepth, eq_comm, Option.bind_eq_some_iff] at hadd
    obtain ⟨mid, hmid, hrest⟩ := hadd
    exact ⟨mid, (after?_opened hat).trans hmid, lt_of_afterClose? hrest⟩
  · omega

/-- What is around an entry is around the entries before it, as far as its start. -/
theorem Around.back (h : Around entries outer i) (hlt : outer < place) (hle : place ≤ i) :
    Around entries outer place :=
  ⟨h.1, hlt, fun next hnext => Nat.lt_of_le_of_lt hle (h.2.2 next hnext)⟩

theorem Around.trans (h : Around entries outer place) (h' : Around entries place i) :
    Around entries outer i := by
  obtain ⟨hopened, hlt, hafter⟩ := h
  obtain ⟨⟨kind, index, pos, hat⟩, hlt', hafter'⟩ := h'
  refine ⟨hopened, Nat.lt_trans hlt hlt', fun next hnext => ?_⟩
  obtain ⟨mid, hmid, hless⟩ := after?_nested hnext hat hlt (hafter next hnext)
  exact Nat.lt_trans (hafter' mid hmid) hless

theorem InReach.around_trans (h : InReach entries place i) (houter : Around entries outer place) :
    Around entries outer i := by
  rcases h with hsibling | ⟨other, hother, hsibling⟩
  · exact (hsibling.2 outer).1 houter
  · exact ((hsibling.2 outer).1 houter).trans hother

theorem InReach.ended (h : InReach entries place i) :
    ∃ next, after? entries place = some next ∧ next ≤ i := by
  rcases h with hsibling | ⟨other, hother, hsibling⟩
  · exact hsibling.1
  · obtain ⟨next, hafter, hle⟩ := hsibling.1
    exact ⟨next, hafter, Nat.le_trans hle (Nat.le_of_lt hother.2.1)⟩

/-! ## Outlines -/

namespace Outline

theorem after?_around (h : Outline entries cursor around reach) (hat : around[depth]? = some outer) :
    after? entries outer = afterClose? entries (depth + 1) cursor := by
  induction h generalizing depth with
  | start => cases hat
  | @opened cursor _ _ _ _ _ _ hopened ih =>
    cases depth with
    | zero =>
      cases hat
      exact after?_opened hopened
    | succ depth =>
      obtain ⟨hlt, hget⟩ := Array.getElem?_eq_some_iff.1 hopened
      rw [ih hat, afterClose?, dif_pos hlt, hget]
  | capture _ hafter ih => rw [ih hat, afterClose?_capture hafter]

theorem opened_of_mem (h : Outline entries cursor around reach) (hmem : outer ∈ around) :
    (∃ kind index pos, entries[outer]? = some (.opened kind index pos)) ∧ outer < cursor := by
  induction h with
  | start => cases hmem
  | opened _ hopened ih =>
    rcases List.mem_cons.1 hmem with rfl | hmem
    · exact ⟨⟨_, _, _, hopened⟩, Nat.lt_succ_self _⟩
    · exact ⟨(ih hmem).1, Nat.lt_succ_of_lt (ih hmem).2⟩
  | capture _ hafter ih => exact ⟨(ih hmem).1, Nat.lt_trans (ih hmem).2 (lt_of_after? hafter)⟩

/-- The captures around a place are those of its outline. -/
theorem mem_around_iff (h : Outline entries cursor around reach) :
    outer ∈ around ↔ Around entries outer cursor := by
  constructor
  · intro hmem
    obtain ⟨depth, hdepth⟩ := List.getElem?_of_mem hmem
    obtain ⟨hopened, hlt⟩ := h.opened_of_mem hmem
    refine ⟨hopened, hlt, fun next hafter => ?_⟩
    rw [h.after?_around hdepth] at hafter
    exact lt_of_afterClose? hafter
  · intro haround
    induction h with
    | start => exact absurd haround.2.1 (Nat.not_lt_zero _)
    | opened _ _ ih =>
      obtain ⟨hopened, hlt, hafter⟩ := haround
      rcases Nat.eq_or_lt_of_le (Nat.le_of_lt_succ hlt) with rfl | hlt
      · exact List.mem_cons_self
      · exact List.mem_cons_of_mem _ (ih ⟨hopened, hlt, fun next hnext =>
          Nat.lt_of_succ_lt (hafter next hnext)⟩)
    | @capture cursor next _ _ _ hnext ih =>
      obtain ⟨⟨kind, index, pos, hopened⟩, hlt, hafter⟩ := haround
      rcases Nat.lt_trichotomy outer cursor with hless | rfl | hmore
      · exact ih ⟨⟨kind, index, pos, hopened⟩, hless, fun mid hmid =>
          Nat.lt_trans (lt_of_after? hnext) (hafter mid hmid)⟩
      · exact absurd (hafter next hnext) (Nat.lt_irrefl _)
      · -- what is inside a capture that has ended has ended too
        obtain ⟨mid, hmid, hless⟩ := after?_nested hnext hopened hmore hlt
        exact absurd (hafter mid hmid) (by omega)

/-- A capture of the reach has ended before the place of the outline, and the same captures are
around it, or it has ended before one around that place, and the same captures are around both. -/
theorem cases_of_mem_reach (h : Outline entries cursor around reach) (hmem : place ∈ reach) :
    ∃ next reach', after? entries place = some next ∧
      (next ≤ cursor ∧ Outline entries place around reach' ∨
        ∃ outer ∈ around, next ≤ outer ∧ ∃ around' reach'', Outline entries place around' reach' ∧
          Outline entries outer around' reach'') := by
  induction h with
  | start => cases hmem
  | opened h hat ih =>
    obtain ⟨next, reach', hafter, ⟨hle, hplace⟩ | ⟨outer, houter, hrest⟩⟩ := ih hmem
    · exact ⟨next, reach', hafter, .inr ⟨_, List.mem_cons_self, hle, _, _, hplace, h⟩⟩
    · exact ⟨next, reach', hafter, .inr ⟨outer, List.mem_cons_of_mem _ houter, hrest⟩⟩
  | @capture cursor next _ _ h hnext ih =>
    rcases List.mem_cons.1 hmem with rfl | hmem
    · exact ⟨next, _, hnext, .inl ⟨Nat.le_refl _, h⟩⟩
    · obtain ⟨mid, reach', hafter, ⟨hle, hplace⟩ | hrest⟩ := ih hmem
      · have hlt := lt_of_after? hnext
        exact ⟨mid, reach', hafter, .inl ⟨by omega, hplace⟩⟩
      · exact ⟨mid, reach', hafter, .inr hrest⟩

theorem mem_reach (h : Outline entries cursor around reach)
    (hafter : after? entries place = some next) (hle : next ≤ cursor)
    (haround : ∀ outer, Around entries outer place → Around entries outer cursor) :
    place ∈ reach := by
  have hlt := lt_of_after? hafter
  induction h with
  | start => omega
  | @opened cursor _ _ _ _ _ h hat ih =>
    -- what has ended is not the capture that starts here, nor does it reach into that one
    have hne : place ≠ cursor := by
      rintro rfl
      rw [after?_opened hat] at hafter
      exact absurd (lt_of_afterClose? hafter) (by omega)
    have hle' : next ≤ cursor := by
      refine Nat.le_of_not_lt fun hmore => ?_
      obtain ⟨mid, hmid, hless⟩ := after?_nested hafter hat (by omega) (by omega)
      exact absurd (lt_of_after? hmid) (by omega)
    exact ih hle' fun outer houter => (haround outer houter).back (by have := houter.2.1; omega)
      (Nat.le_succ _)
  | @capture cursor next' _ _ h hnext ih =>
    have hcapture := h.capture hnext
    have hlt' := lt_of_after? hnext
    rcases Nat.lt_trichotomy place cursor with hless | rfl | hmore
    · have hle' : next ≤ cursor := by
        refine Nat.le_of_not_lt fun hmore => ?_
        obtain ⟨kind, index, pos, hat, -⟩ | ⟨rfl, -⟩ := after?_cases hafter
        · have hplace : Around entries place cursor := ⟨⟨kind, index, pos, hat⟩, hless,
            fun mid hmid => by rw [hafter] at hmid; cases hmid; omega⟩
          have hbeyond := (hcapture.mem_around_iff.1 (h.mem_around_iff.2 hplace)).2.2 next hafter
          omega
        · omega
      exact List.mem_cons_of_mem _ (ih hle' fun outer houter =>
        (haround outer houter).back (by have := houter.2.1; omega) (Nat.le_of_lt hlt'))
    · exact List.mem_cons_self
    · -- what is inside a capture that has ended has that one around it
      obtain ⟨kind, index, pos, hat, -⟩ | ⟨rfl, -⟩ := after?_cases hnext
      · have hcursor : Around entries cursor place := ⟨⟨kind, index, pos, hat⟩, hmore,
          fun mid hmid => by rw [hnext] at hmid; cases hmid; omega⟩
        exact absurd ((haround cursor hcursor).2.2 next' hnext) (Nat.lt_irrefl _)
      · omega

/-- The captures in reach of a place are those of its outline. -/
theorem mem_reach_iff (h : Outline entries cursor around reach) :
    place ∈ reach ↔ InReach entries place cursor := by
  constructor
  · intro hmem
    obtain ⟨next, reach', hafter, ⟨hle, hplace⟩ | ⟨outer, houter, hle, around', reach'', hplace,
      houtline⟩⟩ := h.cases_of_mem_reach hmem
    · exact .inl ⟨⟨next, hafter, hle⟩, fun outer => hplace.mem_around_iff.symm.trans h.mem_around_iff⟩
    · exact .inr ⟨outer, h.mem_around_iff.1 houter, ⟨next, hafter, hle⟩, fun other =>
        hplace.mem_around_iff.symm.trans houtline.mem_around_iff⟩
  · intro hreach
    obtain ⟨next, hafter, hle⟩ := hreach.ended
    exact h.mem_reach hafter hle fun outer => hreach.around_trans

theorem pairwise_reach (h : Outline entries cursor around reach) :
    reach.Pairwise (· > ·) ∧ ∀ place ∈ reach, place < cursor := by
  induction h with
  | start => exact ⟨.nil, nofun⟩
  | opened _ _ ih => exact ⟨ih.1, fun place hplace => Nat.lt_succ_of_lt (ih.2 place hplace)⟩
  | capture _ hafter ih =>
    have hlt := lt_of_after? hafter
    refine ⟨List.pairwise_cons.2 ⟨ih.2, ih.1⟩, List.forall_mem_cons.2 ⟨hlt, fun place hplace => ?_⟩⟩
    exact Nat.lt_trans (ih.2 place hplace) hlt

end Outline

/-! ## Groups -/

/-- A group of a name starts at a place of the list. -/
def GroupAt (program : Program) (name : String) (entries : Array Entry) (place : Nat) : Prop :=
  ∃ entry, entries[place]? = some entry ∧ isGroup program name entry = true

theorem groupBelow_of_afterClose? (h : afterClose? entries (depth + 1) i = some next)
    (inner : Nat) : groupBelow program name entries inner next =
      groupBelow program name entries (inner + depth + 1) i := by
  generalize hdepth : depth + 1 = outer at h
  fun_induction afterClose? entries outer i generalizing depth with
  | case1 outer i hlt kind index pos hat ih =>
    have hat' : entries[i]? = some (.opened kind index pos) := Array.getElem?_eq_some_iff.2 ⟨hlt, hat⟩
    rw [ih (congrArg (· + 1) hdepth) h, ← Nat.add_assoc, groupBelow, hat']
  | case2 outer i hlt pos hat hle =>
    have hat' : entries[i]? = some (.closed pos) := Array.getElem?_eq_some_iff.2 ⟨hlt, hat⟩
    obtain rfl : depth = 0 := by omega
    cases h
    rw [groupBelow, hat', Nat.add_zero]
  | case3 outer i hlt pos hat hle ih =>
    have hat' : entries[i]? = some (.closed pos) := Array.getElem?_eq_some_iff.2 ⟨hlt, hat⟩
    obtain ⟨depth, rfl⟩ : ∃ k, depth = k + 1 := ⟨depth - 1, by omega⟩
    rw [ih (show depth + 1 = outer - 1 by omega) h, groupBelow, hat', Nat.add_assoc inner]
  | case4 outer i hlt hopened hclosed ih =>
    rw [ih hdepth h, groupBelow, Array.getElem?_eq_getElem hlt]
    split
    · next he => exact absurd (Option.some.inj he) (hclosed _)
    · next he => exact absurd (Option.some.inj he) (hopened _ _ _)
    · rw [if_neg (by omega)]
    · rfl
  | case5 => cases h

theorem groupBelow_capture (program : Program) (name : String) (h : after? entries i = some next) :
    (GroupAt program name entries i → groupBelow program name entries 0 next = .ok i) ∧
      (¬ GroupAt program name entries i → groupBelow program name entries 0 next =
        groupBelow program name entries 0 i) := by
  have hgroup : ∀ {entry}, entries[i]? = some entry →
      (GroupAt program name entries i ↔ isGroup program name entry = true) := fun hat =>
    ⟨fun ⟨_, hat', hgroup⟩ => by rw [hat] at hat'; cases hat'; exact hgroup, fun hgroup =>
      ⟨_, hat, hgroup⟩⟩
  rcases after?_cases h with ⟨kind, index, pos, hat, hafter⟩ | ⟨rfl, hat⟩
  · rw [groupBelow_of_afterClose? hafter, groupBelow, hat, hgroup hat]
    simp only
    constructor <;> intro h <;> simp [h]
  · rcases hat with ⟨_, _, _, _, hat⟩ | ⟨_, _, _, hat⟩ <;>
      rw [hgroup hat, groupBelow, hat] <;> constructor <;> intro h <;> simp [h]

/-- The search goes through the captures of the reach. -/
theorem Outline.groupBelow_cases (h : Outline entries cursor around reach) (program : Program)
    (name : String) :
    (∃ group before behind, reach = before ++ group :: behind ∧ GroupAt program name entries group ∧
      (∀ place ∈ before, ¬ GroupAt program name entries place) ∧
      groupBelow program name entries 0 cursor = .ok group) ∨
    (∀ place ∈ reach, ¬ GroupAt program name entries place) ∧
      groupBelow program name entries 0 cursor = .error (.backReference name) := by
  induction h with
  | start => exact .inr ⟨nofun, rfl⟩
  | @opened cursor _ _ _ _ _ _ hat ih =>
    have hskip : groupBelow program name entries 0 (cursor + 1) =
        groupBelow program name entries 0 cursor := by
      rw [groupBelow, hat]
    rwa [hskip]
  | @capture cursor next _ reach _ hafter ih =>
    obtain ⟨hfound, hskip⟩ := groupBelow_capture program name hafter
    by_cases hgroup : GroupAt program name entries cursor
    · exact .inl ⟨cursor, [], reach, rfl, hgroup, nofun, hfound hgroup⟩
    · rw [hskip hgroup]
      rcases ih with ⟨group, before, behind, rfl, hat, hbefore, hok⟩ | ⟨hnone, herror⟩
      · exact .inl ⟨group, cursor :: before, behind, rfl, hat,
          List.forall_mem_cons.2 ⟨hgroup, hbefore⟩, hok⟩
      · exact .inr ⟨List.forall_mem_cons.2 ⟨hgroup, hnone⟩, herror⟩

/-- **The group found is the latest one in reach.** -/
theorem Outline.groupBelow_eq_ok_iff (h : Outline entries cursor around reach) {group : Nat} :
    groupBelow program name entries 0 cursor = .ok group ↔
      IsGreatest {place | InReach entries place cursor ∧ GroupAt program name entries place}
        group := by
  rcases h.groupBelow_cases program name with ⟨found, before, behind, rfl, hgroup, hbefore, hok⟩ |
    ⟨hnone, herror⟩
  · have hgreatest : IsGreatest
        {place | InReach entries place cursor ∧ GroupAt program name entries place} found := by
      refine ⟨⟨h.mem_reach_iff.1 (by simp), hgroup⟩, fun place ⟨hplace, hat⟩ => ?_⟩
      have hdescending := (List.pairwise_append.1 h.pairwise_reach.1).2.1
      rcases List.mem_append.1 (h.mem_reach_iff.2 hplace) with hmem | hmem
      · exact absurd hat (hbefore place hmem)
      · rcases List.mem_cons.1 hmem with rfl | hmem
        · exact Nat.le_refl _
        · exact Nat.le_of_lt ((List.pairwise_cons.1 hdescending).1 place hmem)
    rw [hok, Except.ok.injEq]
    exact ⟨fun he => he ▸ hgreatest, hgreatest.unique⟩
  · rw [herror]
    exact ⟨nofun, fun hgreatest =>
      absurd hgreatest.1.2 (hnone group (h.mem_reach_iff.2 hgreatest.1.1))⟩

theorem Outline.groupBelow_eq_error_iff (h : Outline entries cursor around reach) {fault : Fault} :
    groupBelow program name entries 0 cursor = .error fault ↔ fault = .backReference name ∧
      ∀ place, InReach entries place cursor → ¬ GroupAt program name entries place := by
  rcases h.groupBelow_cases program name with ⟨found, before, behind, rfl, hgroup, -, hok⟩ |
    ⟨hnone, herror⟩
  · rw [hok]
    exact ⟨nofun, fun ⟨_, habsent⟩ => absurd hgroup (habsent found (h.mem_reach_iff.1 (by simp)))⟩
  · rw [herror, Except.error.injEq]
    refine ⟨fun he => ⟨he.symm, fun place hplace => hnone place (h.mem_reach_iff.2 hplace)⟩,
      fun he => he.1.symm⟩

end PegMachine.Entry

namespace PegMachine

theorem Visible.exists_outline {r : Resolver} {cursor : Nat} {bindings : Bindings}
    (h : Visible r cursor bindings) :
    ∃ around reach, Entry.Outline r.entries cursor around reach := by
  induction h with
  | start => exact ⟨[], [], .start⟩
  | opened _ hat ih =>
    obtain ⟨around, reach, houtline⟩ := ih
    exact ⟨_, reach, houtline.opened hat⟩
  | @capture _ _ _ _ capture _ _ hcapture _ ih =>
    obtain ⟨around, reach, houtline⟩ := ih
    obtain ⟨content, start, stop, nested⟩ := capture
    exact ⟨around, _, houtline.capture hcapture.after?_eq⟩

end PegMachine
