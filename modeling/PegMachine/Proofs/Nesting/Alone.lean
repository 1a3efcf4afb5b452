import PegMachine.Proofs.Nesting.Steps

/-!
# Code as it stands

The code of a pattern with no pass made over it, run without a limit on the stack.

* `Setting.Alone`: a setting for such runs.
* `Setting.ComesBy`: the configurations that a run comes by.
* `Setting.ComesBy.stands`: **frames and entries are in line with the place of the address.**
* `Setting.ComesBy.ne_nil`, `Setting.ComesBy.exists_opened`: what has been recorded at the end of a
  capture. `Setting.Alone.exists_spells`: what has been recorded at the end of a match.
-/

namespace PegMachine

namespace Setting

/-- The program is the code of a pattern as it stands, and the stack has no limit. -/
structure Alone (m : Setting) (p : Pattern) (block : Block) : Prop where
  lowered : p.lower none #[] = .ok (block, m.program.constants)
  hasCode : m.program.HasCode block
  unlimited : m.limits.maxStack = none

/-- A run from a position comes by the state of a configuration. -/
def ComesBy (m : Setting) (start : Nat) (c : Config) : Prop :=
  ∃ owners, m.Reaches start (m.stateOf start c) owners

/-- A match-time capture is open behind the given entries, and has its function, and others nested in
it. -/
structure OpenedAt (m : Setting) (c : Config) (before : Array Entry) (index begun : Nat)
    (f : MatchTimeFunction) (nested : List Entry) (captures : List Capture) (bindings : Bindings) :
    Prop where
  records : Records (before.push (.opened .matchTime index begun)) nested c.captures
  spells : Spells m.program begun captures c.pos nested
  function : m.program.constant? index = some (.matchTime f)
  visible : Visible (m.resolver before) before.size bindings
  pos_le : c.pos ≤ m.subject.size

variable {m : Setting} {p : Pattern} {block : Block} {place : Nat → Place} {start : Nat}
  {c c' : Config} {instr : Instr}

theorem Alone.placed (h : m.Alone p block) : ∃ place, m.program.Placed place block.length := by
  obtain ⟨place, starts, hblock⟩ := Pattern.nested_lower h.lowered (.refl _)
  exact hblock.placed (Pattern.contained_lower h.lowered) h.hasCode

namespace ComesBy

theorem initial (m : Setting) (start : Nat) : m.ComesBy start ⟨0, start, [], #[]⟩ :=
  ⟨_, .start⟩

theorem step (hc : m.ComesBy start c) (h : m.Alone p block)
    (hinstr : block[c.address]? = some instr)
    (hnext : c.perform (m.move (fun _ _ _ => none) c.pos c.captures instr) = .next c') :
    m.ComesBy start c' := by
  obtain ⟨owners, hreach⟩ := hc
  have hstate : m.program.code[(m.stateOf start c).address]? = some instr :=
    h.hasCode.getElem?_of_code hinstr
  have hfollows : m.Follows start (c.perform (m.move (fun _ _ _ => none) c.pos c.captures instr))
      (m.execute (m.stateOf start c) instr) := follows_execute instr
  rw [hnext, ← step_of_getElem? hstate] at hfollows
  rcases hfollows with ⟨event, hstep⟩ | ⟨limit, hlimit, -⟩
  · exact ⟨_, hreach.step hstep⟩
  · rw [h.unlimited] at hlimit
    cases hlimit

/-- **Frames and entries are in line with the place of the address.** -/
theorem stands (hc : m.ComesBy start c) (h : m.Alone p block)
    (hplaced : m.program.Placed place block.length) (hstart : start ≤ m.subject.size) :
    ∃ hi, m.Stands place start (m.stateOf start c) (place c.address).nest
        (m.framesOf start c.frames) c.captures.toList hi ∧
      hi + (place c.address).lag ≤ c.pos ∧ c.pos ≤ m.subject.size := by
  obtain ⟨owners, hreach⟩ := hc
  have hin := inPlace_of_placed h.hasCode.getElem?_giveUp hplaced hstart hreach
  generalize hs : m.stateOf start c = s at hin
  cases hin with
  | @within _ nest frames entries hi hstands hnest hframes hentries hlag hpos =>
    subst hs hnest hframes hentries
    exact ⟨hi, hstands, hlag, hpos⟩
  | gaveUp =>
    have hsize : (m.stateOf start c).stack.size = c.frames.length + 1 := size_stateOf c
    rw [hs] at hsize
    cases hsize

variable (hc : m.ComesBy start c) (h : m.Alone p block) (hstart : start ≤ m.subject.size)

include hc h hstart

theorem ne_nil (hinstr : block[c.address]? = some .closeCapture) : c.captures.toList ≠ [] := by
  obtain ⟨place, hplaced⟩ := h.placed
  obtain ⟨hi, hstands, -⟩ := hc.stands h hplaced hstart
  obtain ⟨-, -, ordinal, kind, index, hopened, -⟩ :=
    hplaced.fits _ _ (h.hasCode.getElem?_of_code hinstr)
  rw [hopened] at hstands
  generalize c.captures.toList = entries at hstands
  cases hstands
  simp

theorem exists_opened (hinstr : block[c.address]? = some .closeMatchTime) :
    ∃ before index begun f nested captures bindings,
      m.OpenedAt c before index begun f nested captures bindings := by
  obtain ⟨place, hplaced⟩ := h.placed
  obtain ⟨hi, hstands, hlag, hpos⟩ := hc.stands h hplaced hstart
  obtain ⟨-, -, ordinal, kind, index, hopened, rfl, -⟩ :=
    hplaced.fits _ _ (h.hasCode.getElem?_of_code hinstr)
  rw [hopened] at hstands
  obtain ⟨f, hf⟩ := (hstands.starts hplaced).exists_function
  generalize hentries : c.captures.toList = entries at hstands
  cases hstands with
  | @opened lo _ _ _ begun _ _ _ captures entries nested s₀ hbelow hlo hspells =>
    have hspan := hspells.le_span
    obtain ⟨bindings, hv⟩ := hbelow.visible (r := m.resolver entries.toArray) rfl
      (show lo ≤ m.subject.size by omega) (List.prefix_refl _)
    exact ⟨entries.toArray, index, begun, f, nested, captures, bindings,
      by simp [Records, hentries], hspells.mono (by omega), hf, hv, hpos⟩

theorem exists_spells (haddr : c.address = block.length) :
    ∃ captures, Spells m.program start captures c.pos c.captures.toList := by
  obtain ⟨place, hplaced⟩ := h.placed
  obtain ⟨hi, hstands, hlag, -⟩ := hc.stands h hplaced hstart
  obtain ⟨starts, hexit⟩ := hplaced.exit
  rw [haddr, hexit] at hstands hlag
  generalize c.captures.toList = entries at hstands
  generalize m.framesOf start c.frames = frames at hstands
  cases hstands with
  | hole hspells => exact ⟨_, hspells.mono hlag⟩

end ComesBy

/-- What a run records up to a match are the entries of captures. -/
theorem Alone.exists_spells {outline : Block} {o : Origin} {stop : Nat} {list : Array Entry}
    (h : m.Alone p block) (hstart : start ≤ m.subject.size)
    (hrun : Run m (fun _ _ _ => none) outline block o c (.matched stop list))
    (hc : m.ComesBy start c) :
    ∃ captures, Spells m.program start captures stop list.toList := by
  generalize hr : Answer.matched stop list = r at hrun
  induction hrun with
  | exit haddr =>
    cases hr
    exact hc.exists_spells h hstart haddr
  | next hinstr _ _ hstep _ ih => exact ih (hc.step h hinstr hstep) hr
  | failed | crashed => cases hr

end Setting

end PegMachine
