import PegMachine.Proofs.Captures.Spans
import PegMachine.Proofs.Programs.MatchTime
import PegMachine.Proofs.Programs.Resolved
import PegMachine.Proofs.Semantics.Intact

/-!
# Recorded captures are well bracketed

* `Setting.WellBracketed`: what holds of the captures recorded in a state.
* `Setting.Stands.spanned`: the entries of layers are well bracketed once the open captures end.
* `Setting.Tracked.resolves`: only where captures are resolved may they be found malformed.
* `Setting.wellBracketed_of_compile`: **in every state that a run of a compiled pattern comes by, the
  captures recorded are well bracketed, and no run ends because they are not.**
-/

namespace PegMachine

namespace Setting

/-- What holds of the captures recorded in a state. -/
structure WellBracketed (m : Setting) (start : Nat) (s : State) : Prop where
  /-- If the captures that are still open ended now, all spans would be nested. -/
  spanned : ∃ opened,
    Spanned start (s.captures.toList ++ List.replicate opened (.closed s.pos)) s.pos
  ordered : (s.captures.toList.map Entry.start).Pairwise (· ≤ ·)
  bounds : ∀ entry ∈ s.captures.toList,
    start ≤ entry.start ∧ entry.start ≤ entry.stop ∧ entry.stop ≤ s.pos
  /-- A capture that ends now has not started later. -/
  closes : ∀ kind index pos, s.captures.back? = some (.opened kind index pos) → pos ≤ s.pos
  pos_le : s.pos ≤ m.subject.size

variable {m : Setting} {p : Pattern} {block code : Block} {place : Nat → Place} {start last : Nat}
  {r : Answer} {s : State} {owners : List (Option Nat)}

/-! ## Spans -/

theorem Stands.spanned {nest : Nest} {frames : List Frame} {entries : List Entry} {lo : Nat}
    (h : m.Stands place start s nest frames entries lo) :
    ∃ opened, ∀ {hi : Nat} {more : List Entry}, Spanned lo more hi →
      Spanned start (entries ++ more ++ List.replicate opened (.closed hi)) hi := by
  induction h with
  | hole hspells =>
    refine ⟨0, fun hmore => ?_⟩
    rw [List.replicate_zero, List.append_nil]
    exact hspells.spanned.append hmore
  | rule _ _ hspells ih | chosen _ _ _ _ hspells _ _ ih =>
    obtain ⟨opened, hspanned⟩ := ih
    refine ⟨opened, fun hmore => ?_⟩
    have hwhole := hspanned (hspells.spanned.append hmore)
    rwa [← List.append_assoc] at hwhole
  | @opened _ _ _ index begun kind _ _ _ _ nested _ _ hlo hspells _ _ _ _ ih =>
    obtain ⟨opened, hspanned⟩ := ih
    refine ⟨opened + 1, fun {hi more} hmore => ?_⟩
    have hinner : Spanned begun (nested ++ more) hi := hspells.spanned.append hmore
    have hnest : Spanned _ (.opened kind index begun :: (nested ++ more ++ [.closed hi])) hi :=
      .nest hlo hinner (.nil (Nat.le_refl hi))
    rw [List.replicate_succ]
    simpa using hspanned hnest

/-- Entries that are well bracketed once the open captures end meet all that is asked of them. -/
theorem wellBracketed_of_spanned
    (h : ∃ opened, Spanned start (s.captures.toList ++ List.replicate opened (.closed s.pos)) s.pos)
    (hpos : s.pos ≤ m.subject.size) : m.WellBracketed start s := by
  obtain ⟨opened, hspanned⟩ := h
  have hbounds : ∀ entry ∈ s.captures.toList,
      start ≤ entry.start ∧ entry.start ≤ entry.stop ∧ entry.stop ≤ s.pos :=
    fun entry hentry => hspanned.bounds entry (List.mem_append_left _ hentry)
  refine ⟨⟨opened, hspanned⟩, ?_, hbounds, fun kind index pos hback => ?_, hpos⟩
  · have hordered := hspanned.ordered
    rw [List.map_append] at hordered
    exact (List.pairwise_append.1 hordered).1
  · rw [← Array.getLast?_toList] at hback
    exact (hbounds _ (List.mem_of_getLast? hback)).2.2

theorem InPlace.wellBracketed (h : m.InPlace place start s) (hstart : start ≤ m.subject.size) :
    m.WellBracketed start s := by
  cases h with
  | @within _ _ _ entries hi h _ _ hentries hlag hpos =>
    refine wellBracketed_of_spanned ?_ hpos
    obtain ⟨opened, hspanned⟩ := h.spanned
    have hwhole := hspanned (.nil (show hi ≤ s.pos by omega))
    rw [List.append_nil, ← hentries] at hwhole
    exact ⟨opened, hwhole⟩
  | gaveUp => exact wellBracketed_of_spanned ⟨0, .nil (Nat.le_refl start)⟩ hstart

/-! ## Faults -/

theorem Tracked.resolves (ht : Tracked m start block code r s owners)
    (hp : p.Compiled m.program block code) {event : Option Event}
    (hstep : m.step s = .halt (.faulted .malformedCaptures) event) :
    m.program.code[s.address]? = some .done ∨
      m.program.code[s.address]? = some .closeMatchTime := by
  cases ht with
  | @running c hrun =>
    obtain ⟨room, hrun⟩ := hrun
    cases hrun with
    | exit haddr => exact .inl (getElem?_stateOf start hp haddr)
    | next hinstr _ _ hmove =>
      rcases follows_step start hp hinstr hmove with ⟨event', hnext⟩ | ⟨limit, -, -, -, hfull⟩
      · rw [hstep] at hnext
        cases hnext
      · rw [hstep] at hfull
        cases hfull
    | failed hinstr _ _ hmove =>
      obtain ⟨event', hnext⟩ := follows_step start hp hinstr hmove
      rw [hstep] at hnext
      cases hnext
    | crashed hinstr _ _ hmove =>
      obtain rfl := eq_closeMatchTime_of_crash (Config.perform_eq_crashed hmove)
      exact .inr (hp.getElem?_of_code hinstr)
  | gaveUp =>
    rw [step_gaveUp hp] at hstep
    cases hstep

/-- The captures of a match are not found malformed. -/
theorem finish_ne_malformed {captures : List Capture}
    (hspells : Spells m.program start captures s.pos s.captures.toList)
    (hpos : s.pos ≤ m.subject.size) {event : Option Event} :
    m.finish s ≠ .halt (.faulted .malformedCaptures) event := by
  have hholds : (m.resolver s.captures).Holds start 0 captures s.pos s.captures.size :=
    ⟨hspells.covers_all, hpos⟩
  have hintact : Intact (m.resolver s.captures).resolve := by
    rw [Resolver.resolve_eq hholds]
    exact intact_evaluate captures
  intro h
  rw [finish] at h
  cases hresolve : (m.resolver s.captures).resolve with
  | ok values =>
    rw [hresolve] at h
    cases h
  | error fault =>
    rw [hresolve] at h
    cases h
    exact hintact hresolve

theorem EndsCapture.ne_malformed {s₀ : State} {index begun : Nat} {f : MatchTimeFunction}
    {captures : List Capture} {bindings : Bindings}
    (h : m.EndsCapture start s₀ s index begun f captures bindings)
    (hclose : m.program.code[s.address]? = some .closeMatchTime) {event : Option Event} :
    m.step s ≠ .halt (.faulted .malformedCaptures) event := by
  have hintact : Intact (m.nestedSince begun s.pos captures bindings) :=
    intact_nestedOr _ (intact_readAll captures h.visible.intact)
  have hback : ∀ event', s.backtrack event' ≠ .halt (.faulted .malformedCaptures) event := by
    intro event' h
    rw [State.backtrack] at h
    cases hlatest : s.stack.unwind? <;> rw [hlatest] at h <;> cases h
  rw [(h.step_eq hclose).2]
  cases hvalues : m.nestedSince begun s.pos captures bindings with
  | error fault =>
    intro h
    cases h
    exact hintact hvalues
  | ok values =>
    rw [afterMatchTime]
    cases f m.subject s.pos values with
    | none => exact hback none
    | some found =>
      obtain ⟨next, results⟩ := found
      dsimp only
      by_cases hwithin : begun ≤ next ∧ next ≤ m.subject.size
      · rw [if_pos hwithin]
        intro h
        cases h
      · rw [if_neg hwithin]
        exact hback _

/-! ## Runs -/

/-- **In every state that a run of a compiled pattern comes by, the captures recorded are well
bracketed, and no run ends because they are not**, neither before the function of a match-time
capture is run nor at the end of the match. -/
theorem wellBracketed_of_compile (hp : p.compile = .ok m.program) (start : Nat) :
    (∀ s owners, m.Reaches (min start m.subject.size) s owners →
      m.WellBracketed (min start m.subject.size) s ∧
        ∀ event, m.step s ≠ .halt (.faulted .malformedCaptures) event) ∧
    ¬ m.Ends (min start m.subject.size) (.faulted .malformedCaptures) := by
  have hstart : min start m.subject.size ≤ m.subject.size := Nat.min_le_right _ _
  obtain ⟨block, code, hcompiled⟩ := p.compiled_exists hp
  obtain ⟨place, hplaced⟩ := hcompiled.placed
  obtain ⟨r, hrun, -⟩ := hcompiled.runs hstart
  have hsteps : ∀ s owners, m.Reaches (min start m.subject.size) s owners →
      ∀ event, m.step s ≠ .halt (.faulted .malformedCaptures) event := by
    intro s owners hreach event hstep
    rcases (hreach.tracked hcompiled hrun).resolves hcompiled hstep with hdone | hclose
    · obtain ⟨captures, hspells, hpos⟩ := recorded_of_reaches hcompiled hstart hreach hdone
      rw [step_done hdone] at hstep
      exact finish_ne_malformed hspells hpos hstep
    · obtain ⟨s₀, index, begun, f, captures, bindings, hends, -⟩ :=
        endsCapture_of_reaches hcompiled hplaced hstart hreach hclose
      exact hends.ne_malformed hclose hstep
  refine ⟨fun s owners hreach => ⟨?_, hsteps s owners hreach⟩, fun hends => ?_⟩
  · exact (inPlace_of_reaches hcompiled hplaced hstart hreach).wellBracketed hstart
  · obtain ⟨-, s, owners, event, hreach, hstep⟩ := ends_iff.1 hends
    exact hsteps s owners hreach event hstep

end Setting

theorem rewinding_wellBracketed :
    let m : Setting := ⟨rewindingProgram, {}, #[97, 97], []⟩
    (∀ s owners, m.Reaches 0 s owners →
      m.WellBracketed 0 s ∧ ∀ event, m.step s ≠ .halt (.faulted .malformedCaptures) event) ∧
    ¬ m.Ends 0 (.faulted .malformedCaptures) :=
  Setting.wellBracketed_of_compile (m := ⟨rewindingProgram, {}, #[97, 97], []⟩) compile_rewinding 0

end PegMachine
