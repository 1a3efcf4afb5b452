import PegMachine.Proofs.Nesting.Steps
import PegMachine.Proofs.Programs.Ends

/-!
# Ends of match-time captures

* `Setting.EndsCapture`: a state at the end of a match-time capture, and the one that started it.
* `Setting.endsCapture_of_reaches`: the end of a match-time capture finds its start.
* `Setting.closeMatchTime_of_compile`: **at the end of a match-time capture its function gets the
  values recorded since its start, and what it returns decides what stays of the capture.**
-/

namespace PegMachine

namespace Setting

/-- State `s` is at the end of a match-time capture that state `s₀` started, at the same depth of the
stack. In between, captures have been recorded, and there are groups before them. -/
structure EndsCapture (m : Setting) (start : Nat) (s₀ s : State) (index begun : Nat)
    (f : MatchTimeFunction) (captures : List Capture) (bindings : Bindings) : Prop where
  own : OwnOpen m.program.code.toList s.address s₀.address
  opening : m.Opening start .matchTime index begun s₀ s
  stack_eq : s.stack = s₀.stack
  function : m.program.constant? index = some (.matchTime f)
  recorded : ∃ recorded, Spells m.program begun captures s.pos recorded ∧
    s.captures.toList = s₀.captures.toList ++ .opened .matchTime index begun :: recorded
  visible : Visible (m.resolver s₀.captures) s₀.captures.size bindings
  pos_le : s.pos ≤ m.subject.size

/-- The values that the function of a match-time capture gets, from the captures recorded since it
started and the groups before it. -/
def nestedSince (m : Setting) (begun stop : Nat) (captures : List Capture) (bindings : Bindings) :
    Values :=
  nestedOr (m.subject.extract begun stop) (readAll m.subject m.arguments bindings captures)

section

variable {m : Setting} {p : Pattern} {block code : Block} {place : Nat → Place}
  {start last index begun : Nat} {s s₀ : State} {owners : List (Option Nat)}
  {f : MatchTimeFunction} {captures : List Capture} {bindings : Bindings}

/-- The end of a match-time capture finds its start. What is pending below it is a choice that was
made before that start. -/
theorem endsCapture_of_reaches (hp : p.Compiled m.program block code)
    (hplaced : m.program.Placed place last) (hstart : start ≤ m.subject.size)
    (hreach : m.Reaches start s owners)
    (hclose : m.program.code[s.address]? = some .closeMatchTime) :
    ∃ s₀ index begun f captures bindings,
      m.EndsCapture start s₀ s index begun f captures bindings ∧
      ∃ point below s₂, s.stack.unwind? = some (point, below) ∧
        m.ChosenAt start point below.frames s₂ s ∧ Extends s₂.captures s₀.captures := by
  cases inPlace_of_reaches hp hplaced hstart hreach with
  | gaveUp =>
    have hclose' : m.program.code[m.program.size - 1]? = some .closeMatchTime := hclose
    rw [hp.getElem?_giveUp] at hclose'
    cases hclose'
  | @within _ nest frames entries hi h hnest hframes hentries hlag hpos =>
    obtain ⟨-, -, ordinal, kind, index, hopened, rfl, hunclosed⟩ := hplaced.fits _ _ hclose
    rw [hopened] at hnest
    subst hnest
    obtain ⟨f, hf⟩ := (h.starts hplaced).exists_function
    cases h with
    | @opened lo _ _ _ begun _ _ _ captures entries nested s₀ h hlo hspells hopening hpending hbefore
        hstarts =>
      obtain ⟨back, hinstr, -⟩ := hopening.opens
      obtain ⟨owner, hown, -, hsame, -⟩ := hplaced.ownOpen
        (Nat.le_of_lt (Array.getElem?_eq_some_iff.1 hclose).1) hunclosed
      obtain ⟨⟨kind', back', index', hinstr'⟩, -⟩ := id hown
      rw [Array.getElem?_toList] at hinstr'
      obtain rfl : owner = s₀.address :=
        hplaced.eq_of_starts hinstr' hinstr (hsame.trans hstarts.symm)
      have hspan := hspells.le_span
      obtain ⟨bindings, hv⟩ := h.visible (r := m.resolver s₀.captures) rfl
        (show lo ≤ m.subject.size by omega) (hbefore ▸ List.prefix_refl _)
      rw [← hbefore, Array.length_toList] at hv
      obtain ⟨point, below, s₂, hlatest, hchosen, hprefix, -⟩ := h.latest hframes
      rw [← hbefore] at hprefix
      exact ⟨s₀, index, begun, f, captures, bindings,
        ⟨hown, hopening, Stack.ext (hframes.trans hpending.symm), hf,
          ⟨nested, hspells.mono (by omega), hbefore ▸ hentries⟩, hv, hpos⟩,
        point, below, s₂, hlatest, hchosen, hprefix⟩

theorem EndsCapture.step_eq (h : m.EndsCapture start s₀ s index begun f captures bindings)
    (hclose : m.program.code[s.address]? = some .closeMatchTime) :
    Entry.innermostOpen? s.captures = some s₀.captures.size ∧
      m.step s = m.afterMatchTime s f s₀.captures.size begun
        (m.nestedSince begun s.pos captures bindings) := by
  obtain ⟨recorded, hspells, hentries⟩ := h.recorded
  have hrecords : Records (s₀.captures.push (.opened .matchTime index begun)) recorded
      s.captures := by
    simp [Records, hentries]
  rw [step_of_getElem? hclose]
  exact closeMatchTime_eq hspells (Nat.le_refl _) h.pos_le hrecords h.function h.visible

/-- **At the end of a match-time capture its function gets the values recorded since its start, and
what it returns decides what stays of the capture.** Where the values cannot be resolved, the match
ends with that fault. Where the function returns a position between the start of the capture and the
end of the subject, the entries of the capture give way to its values. Otherwise the match goes on
from the latest choice, with the captures that were recorded when that choice was made, before the
capture started. -/
theorem closeMatchTime_of_compile (hp : p.compile = .ok m.program) (start : Nat)
    (hreach : m.Reaches (min start m.subject.size) s owners)
    (hclose : m.program.code[s.address]? = some .closeMatchTime) :
    ∃ s₀ index begun f captures bindings,
      m.EndsCapture (min start m.subject.size) s₀ s index begun f captures bindings ∧
      Entry.innermostOpen? s.captures = some s₀.captures.size ∧
      (∀ fault, m.nestedSince begun s.pos captures bindings = .error fault →
        m.step s = .crash fault) ∧
      ∀ values, m.nestedSince begun s.pos captures bindings = .ok values →
        (∀ next results, f m.subject s.pos values = some (next, results) →
          begun ≤ next → next ≤ m.subject.size →
          m.step s = .next
            { address := s.address + 1
              pos := next
              stack := s.stack
              captures :=
                if results.isEmpty then s₀.captures
                else s₀.captures.push (.dynamic begun next results) }
            none) ∧
        ((∀ next results, f m.subject s.pos values = some (next, results) →
            next < begun ∨ m.subject.size < next) →
          ∃ point below s₂ event, s.stack.unwind? = some (point, below) ∧
            m.ChosenAt (min start m.subject.size) point below.frames s₂ s ∧
            Extends s₂.captures s₀.captures ∧
            m.step s = .next ⟨point.address, point.pos, below, s₂.captures⟩ event) := by
  obtain ⟨block, code, hcompiled⟩ := p.compiled_exists hp
  obtain ⟨place, hplaced⟩ := hcompiled.placed
  obtain ⟨s₀, index, begun, f, captures, bindings, hends, point, below, s₂, hlatest, hchosen,
    hextends⟩ := endsCapture_of_reaches hcompiled hplaced (Nat.min_le_right _ _) hreach hclose
  obtain ⟨hopen, hstep⟩ := hends.step_eq hclose
  obtain ⟨recorded, -, hentries⟩ := hends.recorded
  have hkept : s.captures.shrink s₀.captures.size = s₀.captures :=
    Extends.shrink_self ⟨_, hentries.symm⟩
  -- Failing leads to the latest choice, which was made before the capture started.
  have hback : ∀ event, s.backtrack event =
      .next ⟨point.address, point.pos, below, s₂.captures⟩ event := by
    intro event
    rw [State.backtrack, hlatest]
    dsimp only
    rw [hchosen.shrink]
  refine ⟨s₀, index, begun, f, captures, bindings, hends, hopen, fun fault hfault => ?_,
    fun values hvalues => ⟨fun next results hresult hge hle => ?_, fun hstrays => ?_⟩⟩
  · rw [hstep, hfault, afterMatchTime]
  · rw [hstep, hvalues, afterMatchTime, hresult]
    dsimp only
    rw [if_pos ⟨hge, hle⟩, replaceCapture, hkept]
  · rw [hvalues, afterMatchTime] at hstep
    cases hresult : f m.subject s.pos values with
    | none =>
      rw [hresult] at hstep
      exact ⟨point, below, s₂, none, hlatest, hchosen, hextends, hstep.trans (hback none)⟩
    | some found =>
      obtain ⟨next, results⟩ := found
      have hout := hstrays next results hresult
      rw [hresult] at hstep
      dsimp only at hstep
      rw [if_neg (by omega)] at hstep
      exact ⟨point, below, s₂, _, hlatest, hchosen, hextends, hstep.trans (hback _)⟩

end

end Setting

theorem rewinding_closeMatchTime : ∃ s₀ index begun f captures bindings,
    (⟨rewindingProgram, {}, #[97, 97], []⟩ : Setting).EndsCapture 0 s₀
      ⟨5, 1, ((Stack.empty.push (.choice ⟨11, 0, 0⟩)).push (.ret 1)).push (.choice ⟨9, 0, 0⟩),
        #[.opened .matchTime 1 0]⟩ index begun f captures bindings ∧
    Entry.innermostOpen? #[.opened .matchTime 1 0] = some s₀.captures.size := by
  let m : Setting := ⟨rewindingProgram, {}, #[97, 97], []⟩
  have hs : ∃ owners, m.Reaches (min 0 m.subject.size)
      ⟨5, 1, ((Stack.empty.push (.choice ⟨11, 0, 0⟩)).push (.ret 1)).push (.choice ⟨9, 0, 0⟩),
        #[.opened .matchTime 1 0]⟩ owners :=
    ⟨_, .step (.step (.step (.step .start rfl) rfl) rfl) rfl⟩
  obtain ⟨owners, hs⟩ := hs
  obtain ⟨s₀, index, begun, f, captures, bindings, hends, hopen, -⟩ :=
    Setting.closeMatchTime_of_compile compile_rewinding 0 hs rfl
  exact ⟨s₀, index, begun, f, captures, bindings, hends, hopen⟩

end PegMachine
