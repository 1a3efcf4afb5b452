import PegMachine.Proofs.Captures.Evaluated
import PegMachine.Proofs.Machine.StackChanges
import PegMachine.Proofs.Nesting.Layers

/-!
# Steps between places

* `Setting.InPlace`: the frames and the entries of a state are in line with the place of its
  address, or the machine has given up.
* `Setting.inPlace_execute`: what an instruction leads to is in place again, from a lemma for each
  kind of instruction. `Setting.InPlace.step`: so is what one step leads to.
* `Setting.inPlace_of_reaches`: **every state that a run of a compiled pattern comes by is in
  place.**
-/

namespace PegMachine

namespace Setting

/-- The frames and the entries of a state are in line with the place of its address, or the machine
has given up. -/
inductive InPlace (m : Setting) (place : Nat → Place) (start : Nat) : State → Prop where
  | within {s : State} {nest : Nest} {frames : List Frame} {entries : List Entry} {hi : Nat}
      (h : m.Stands place start s nest frames entries hi) (hnest : (place s.address).nest = nest)
      (hframes : s.stack.frames = frames) (hentries : s.captures.toList = entries)
      (hlag : hi + (place s.address).lag ≤ s.pos) (hpos : s.pos ≤ m.subject.size) :
      InPlace m place start s
  | gaveUp : InPlace m place start (m.gaveUp start)

/-- What the end of a match-time capture leads to that started as the entry `opened`, from the
values nested in it. -/
def afterMatchTime (m : Setting) (s : State) (f : MatchTimeFunction) (opened begun : Nat) :
    Values → Step
  | .error fault => .crash fault
  | .ok values =>
    match f m.subject s.pos values with
    | none => s.backtrack none
    | some (next, values) =>
      if begun ≤ next ∧ next ≤ m.subject.size then
        .next (replaceCapture s opened begun next values) none
      else s.backtrack (some (.captureStrayed next begun m.subject.size))

section

variable {m : Setting} {place : Nat → Place} {start lo hi ordinal index begun : Nat}
  {nest outer : Nest} {frames : List Frame} {captures : List Capture}
  {entries nested : List Entry} {s s' : State} {event : Option Event} {kind : CaptureKind}

theorem spanStop_bounds (bytes : ByteSet) {pos : Nat} (hpos : pos ≤ m.subject.size) :
    pos ≤ m.spanStop bytes pos ∧ m.spanStop bytes pos ≤ m.subject.size := by
  induction pos using Setting.spanStop.induct m bytes with
  | case1 pos hlt hmem ih =>
    obtain ⟨hge, hle⟩ := ih hlt
    rw [spanStop, dif_pos hlt, if_pos hmem]
    exact ⟨by omega, hle⟩
  | case2 pos hlt hmiss =>
    rw [spanStop, dif_pos hlt, if_neg hmiss]
    exact ⟨Nat.le_refl _, hpos⟩
  | case3 pos hend =>
    rw [spanStop, dif_neg hend]
    exact ⟨Nat.le_refl _, hpos⟩

/-! ## Ends of captures -/

theorem nested_of_records {before list : Array Entry} {bindings : Bindings} {pos : Nat}
    (hspells : Spells m.program begun captures hi nested) (hhi : hi ≤ pos)
    (hpos : pos ≤ m.subject.size)
    (hrecords : Records (before.push (.opened .matchTime index begun)) nested list)
    (hv : Visible (m.resolver before) before.size bindings) :
    (m.resolver (list.push (.closed pos))).nested before.size =
      nestedOr (m.subject.extract begun pos) (readAll m.subject m.arguments bindings captures) := by
  have hat := hrecords.getElem?_at
  have hlist : (list.push (.closed pos)).toList =
      (before.toList ++ [.opened .matchTime index begun]) ++ nested ++ [.closed pos] := by
    rw [Records, Array.toList_push] at hrecords
    rw [Array.toList_push, hrecords]
  have hsize : (before.toList ++ [Entry.opened .matchTime index begun]).length + nested.length =
      list.size := by
    rw [← Array.length_toList, hrecords, Array.toList_push]
    exact List.length_append.symm
  have hcovers := (hspells.mono hhi).covers hlist
  rw [hsize, List.length_append, List.length_singleton, Array.length_toList] at hcovers
  have hprefix : before.toList <+: (list.push (.closed pos)).toList := by
    rw [hlist, List.append_assoc, List.append_assoc]
    exact List.prefix_append ..
  have hencloses : (m.resolver (list.push (.closed pos))).Encloses before.size begun pos captures
      (list.size + 1) := by
    have hstill : (m.resolver (list.push (.closed pos))).entries[before.size]? =
        some (.opened .matchTime index begun) := getElem?_mono (Extends.push _ _) hat
    exact .nest hstill ⟨hcovers, hpos⟩ (by simp [resolver])
  exact Resolver.nested_eq hencloses (by simp [resolver]) (hv.mono hprefix)

/-- The end of a match-time capture goes by the values of what is nested in it. -/
theorem closeMatchTime_eq {before : Array Entry} {f : MatchTimeFunction} {bindings : Bindings}
    (hspells : Spells m.program begun captures hi nested) (hhi : hi ≤ s.pos)
    (hpos : s.pos ≤ m.subject.size)
    (hrecords : Records (before.push (.opened .matchTime index begun)) nested s.captures)
    (hconst : m.program.constant? index = some (.matchTime f))
    (hv : Visible (m.resolver before) before.size bindings) :
    Entry.innermostOpen? s.captures = some before.size ∧
      m.closeMatchTime s = m.afterMatchTime s f before.size begun
        (nestedOr (m.subject.extract begun s.pos)
          (readAll m.subject m.arguments bindings captures)) := by
  have hopened := innermostOpen?_of_records hrecords hspells.balanced
  refine ⟨hopened, ?_⟩
  rw [closeMatchTime, hopened]
  dsimp only
  rw [hrecords.getElem?_at]
  dsimp only
  rw [hconst]
  dsimp only
  rw [nested_of_records hspells hhi hpos hrecords hv]
  cases nestedOr (m.subject.extract begun s.pos)
    (readAll m.subject m.arguments bindings captures) with
  | error fault => rfl
  | ok values =>
    dsimp only
    rw [Array.pop_push]
    rfl

/-! ## Parts of steps -/

namespace Stands

theorem records (h : m.Stands place start s nest frames entries lo)
    (hspells : Spells m.program lo captures hi nested) (hstep : m.step s = .next s' event)
    (hnest : (place s'.address).nest = nest) (hframes : s'.stack.frames = frames)
    (hentries : s'.captures.toList = entries ++ nested)
    (hlag : hi + (place s'.address).lag ≤ s'.pos) (hpos : s'.pos ≤ m.subject.size) :
    m.InPlace place start s' :=
  .within ((h.extend hspells).advance hstep (hframes ▸ List.suffix_refl _)
    (hentries ▸ List.prefix_refl _)) hnest hframes hentries hlag hpos

theorem moves (h : m.Stands place start s nest frames entries hi)
    (hstep : m.step s = .next s' event) (hnest : (place s'.address).nest = nest)
    (hframes : s'.stack.frames = frames) (hentries : s'.captures.toList = entries)
    (hlag : hi + (place s'.address).lag ≤ s'.pos) (hpos : s'.pos ≤ m.subject.size) :
    m.InPlace place start s' :=
  h.records (.nil (Nat.le_refl hi)) hstep hnest hframes (by rw [hentries, List.append_nil]) hlag hpos

theorem lands {target : Int} (h : m.Stands place start s nest frames entries lo)
    (hspells : Spells m.program lo captures hi nested) (hstep : m.step s = .next s' event)
    (hland : Place.LandsIn place target nest) (haddr : s'.address = target.toNat)
    (hframes : s'.stack.frames = frames) (hentries : s'.captures.toList = entries ++ nested)
    (hhi : hi ≤ s'.pos) (hpos : s'.pos ≤ m.subject.size) : m.InPlace place start s' :=
  h.records hspells hstep (haddr ▸ hland.nest) hframes hentries
    (by rw [haddr, hland.lag]; exact hhi) hpos

theorem backtracks (stack : Stack) {event' : Option Event}
    (h : m.Stands place start s nest frames entries hi) (hstack : stack.frames = frames)
    (hstep : m.step s = .next s' event)
    (hback : { s with stack := stack }.backtrack event' = .next s' event) :
    m.InPlace place start s' := by
  obtain ⟨point, below, s₂, hlatest, hchosen, -, hrest⟩ := h.latest hstack
  rw [State.backtrack, show ({ s with stack := stack } : State).stack.unwind? = _ from hlatest]
    at hback
  cases hback
  rcases hrest with ⟨rfl, rfl⟩ | ⟨lo, hbelow, hlag, hlo, hpos⟩
  · have hnone : s.captures.shrink (m.lastResort start).captures = #[] := by simp [lastResort]
    rw [show ({ s with stack := stack } : State).captures = s.captures from rfl, hnone]
    exact .gaveUp
  · have hcaptures : s.captures.shrink point.captures = s₂.captures := hchosen.shrink
    refine hbelow.moves hstep rfl rfl ?_ (by rw [hlag]; exact hlo) hpos
    rw [show ({ s with stack := stack } : State).captures = s.captures from rfl, hcaptures]

end Stands

section

variable {p : Pattern} {block code : Block} {last n : Nat} {off : Int} {instr : Instr}
  {owners : List (Option Nat)} {c : Prop} [Decidable c]

theorem backtracks_of_stands
    (h : m.Stands place start s nest s.stack.frames s.captures.toList hi)
    (hstep : m.step s = .next s' event) {event' : Option Event}
    (hback : s.backtrack event' = .next s' event) : m.InPlace place start s' :=
  h.backtracks s.stack rfl hstep hback

theorem inPlace_test
    (h : m.Stands place start s (place s.address).nest s.stack.frames s.captures.toList hi)
    (hlag : hi + (place s.address).lag ≤ s.pos) (hpos : s.pos ≤ m.subject.size)
    (hstep : m.step s = .next s' event) (hc : c → s.pos + n ≤ m.subject.size)
    (hexec : (if c then .next (s.proceedAt (s.pos + n)) none else s.refuse off) =
      Step.next s' event)
    (hkeeps : (place s.address).Keeps (place (s.address + 1)))
    (hbytes : (place (s.address + 1)).lag ≤ (place s.address).lag + n)
    (hland : off ≠ 0 → Place.LandsIn place (s.address + off) (place s.address).nest) :
    m.InPlace place start s' := by
  split at hexec
  · next hholds =>
    cases hexec
    exact h.moves hstep hkeeps.nest rfl rfl (by simp only [State.proceedAt]; omega) (hc hholds)
  · rw [State.refuse] at hexec
    split at hexec
    · exact backtracks_of_stands h hstep hexec
    · next hne =>
      cases hexec
      exact h.lands (.nil (Nat.le_refl hi)) hstep (hland hne) rfl rfl (List.append_nil _).symm
        (Nat.le_trans (Nat.le_add_right ..) hlag) hpos

theorem popChoice_eq {use : ChoicePoint → State → Step} {point : ChoicePoint}
    (h : s.stack.frames = .choice point :: frames) :
    s.popChoice use = use point { s with stack := .ofFrames frames } := by
  have hstack : s.stack = (Stack.ofFrames frames).push (.choice point) := Stack.ext h
  rw [State.popChoice, hstack, Stack.pop?_push]

theorem Stands.of_chosen (h : m.Stands place start s (.chosen outer) frames entries hi) :
    ∃ point below earlier recorded lo captures, frames = .choice point :: below ∧
      entries = earlier ++ recorded ∧ m.Stands place start s outer below earlier lo ∧
      Spells m.program lo captures hi recorded ∧ (place point.address).nest = outer ∧
      (place point.address).lag = 0 ∧ lo ≤ point.pos ∧ point.pos ≤ m.subject.size ∧
      earlier.length = point.captures := by
  cases h with
  | chosen h hlag hlo hpos hspells hchosen hentries =>
    exact ⟨_, _, _, _, _, _, rfl, rfl, h, hspells, rfl, hlag, hlo, hpos, by
      rw [← hchosen.captures, ← hentries, Array.length_toList]⟩

theorem Stands.starts
    (h : m.Stands place start s (.opened ordinal kind index outer) frames entries hi)
    (hplaced : m.program.Placed place last) : Starts m.program kind index := by
  cases h with
  | opened _ _ _ hopening =>
    obtain ⟨back, hinstr, -⟩ := hopening.opens
    exact (hplaced.fits _ _ hinstr).2.1

theorem inPlace_closeCapture
    (h : m.Stands place start s (.opened ordinal kind index outer) s.stack.frames
      s.captures.toList hi) (hkind : kind ≠ .matchTime) (hhi : hi ≤ s.pos)
    (hpos : s.pos ≤ m.subject.size) (hstarts : Starts m.program kind index)
    (hstep : m.step s = .next (closeCapture s) event)
    (hlag : (place (s.address + 1)).lag = 0) (hnest : (place (s.address + 1)).nest = outer) :
    m.InPlace place start (closeCapture s) := by
  obtain ⟨content, hname, hwraps⟩ : ∃ content, Names m.program kind index content ∧
      content.wraps = true := by
    cases hstarts with
    | wraps _ hname hwraps => exact ⟨_, hname, hwraps⟩
    | matchTime heq => exact absurd heq hkind
  have hclosed : closeCapture s =
      ⟨s.address + 1, s.pos, s.stack, closeEntries s.captures s.pos⟩ := closeCapture_eq s
  generalize hframes : s.stack.frames = frames at h
  generalize hentries : s.captures.toList = entries at h
  cases h with
  | @opened lo _ _ _ begun _ _ _ captures entries nested _ h hlo hspells =>
    have hrecords : Records (entries.toArray.push (.opened kind index begun)) nested s.captures := by
      simp [Records, hentries]
    have hclose : Records entries.toArray (wrapEntries kind index begun s.pos nested)
        (closeEntries s.captures s.pos) := closeEntries_of_records hrecords hspells.balanced
    rw [hclosed] at hstep ⊢
    exact h.records (hspells.wrap hlo hhi hname hwraps) hstep hnest hframes hclose
      (by rw [hlag]; exact Nat.le_refl _) hpos

theorem inPlace_closeMatchTime
    (h : m.Stands place start s (.opened ordinal .matchTime index outer) s.stack.frames
      s.captures.toList hi) (hhi : hi ≤ s.pos) (hpos : s.pos ≤ m.subject.size)
    {f : MatchTimeFunction} (hconst : m.program.constant? index = some (.matchTime f))
    (hstep : m.step s = .next s' event) (hexec : m.closeMatchTime s = .next s' event)
    (hlag : (place (s.address + 1)).lag = 0) (hnest : (place (s.address + 1)).nest = outer) :
    m.InPlace place start s' := by
  have hwhole := h
  generalize hframes : s.stack.frames = frames at h
  generalize hentries : s.captures.toList = entries at h
  cases h with
  | @opened lo _ _ _ begun _ _ _ captures entries nested s₀ h hlo hspells _ _ hbefore =>
    have hrecords : Records (s₀.captures.push (.opened .matchTime index begun)) nested
        s.captures := by
      simp [Records, hentries, hbefore]
    obtain ⟨bindings, hv⟩ := h.visible (r := m.resolver s₀.captures) rfl
      (show lo ≤ m.subject.size by have := hspells.le_span; omega)
      (hbefore ▸ List.prefix_refl _)
    rw [← hbefore, Array.length_toList] at hv
    rw [(closeMatchTime_eq hspells hhi hpos hrecords hconst hv).2] at hexec
    generalize nestedOr (m.subject.extract begun s.pos)
      (readAll m.subject m.arguments bindings captures) = values at hexec
    cases values with
    | error fault => cases hexec
    | ok values =>
      rw [afterMatchTime] at hexec
      split at hexec
      · exact backtracks_of_stands hwhole hstep hexec
      · next next results hresult =>
        split at hexec
        · next hbounds =>
          cases hexec
          have hkept : (s.captures.shrink s₀.captures.size).toList = entries := by
            rw [Array.shrink_eq_take, Array.take_eq_extract, Array.toList_extract, hentries,
              ← hbefore]
            simp
          -- without results nothing stands for the capture, otherwise one entry does
          by_cases hempty : results.isEmpty
          · refine h.moves hstep hnest hframes ?_ ?_ hbounds.2
            · rw [replaceCapture, if_pos hempty]
              exact hkept
            · rw [show (place (replaceCapture s _ begun next results).address).lag = 0 from hlag]
              exact Nat.le_trans hlo hbounds.1
          · have hdynamic : Spells m.program lo [.node (.dynamic results) begun next []] next
                [.dynamic begun next results] := .dynamic hlo hbounds.1 (.nil (Nat.le_refl next))
            refine h.records hdynamic hstep hnest hframes ?_ ?_ hbounds.2
            · rw [replaceCapture, if_neg hempty, Array.toList_push, hkept]
            · rw [show (place (replaceCapture s _ begun next results).address).lag = 0 from hlag]
              exact Nat.le_refl _
        · exact backtracks_of_stands hwhole hstep hexec

theorem inPlace_openCapture {back : Nat} (hreach : m.Reaches start s owners)
    (hinstr : m.program.code[s.address]? = some (.openCapture kind back index))
    (h : m.Stands place start s (place s.address).nest s.stack.frames s.captures.toList hi)
    (hback : hi + back ≤ s.pos) (hpos : s.pos ≤ m.subject.size)
    (hstep : m.step s = .next (s.record (.opened kind index (s.pos - back))) event)
    (hlag : (place (s.address + 1)).lag ≤ back)
    (hnest : (place (s.address + 1)).nest =
      .opened (place s.address).starts kind index (place s.address).nest) :
    m.InPlace place start (s.record (.opened kind index (s.pos - back))) := by
  have hrecorded : (s.record (.opened kind index (s.pos - back))).captures.toList =
      s.captures.toList ++ [.opened kind index (s.pos - back)] := Array.toList_push ..
  have hstays := h.advance hstep (List.suffix_refl _) (hrecorded ▸ List.prefix_append ..)
  have hopening : m.Opening start kind index (s.pos - back) s
      (s.record (.opened kind index (s.pos - back))) :=
    ⟨⟨owners, hreach⟩, ⟨back, hinstr, by omega⟩, _, _, hstep,
      .refl (List.suffix_refl _) (hrecorded ▸ List.prefix_refl _)⟩
  have hwhole := Stands.opened hstays (show hi ≤ s.pos - back by omega)
    (.nil (Nat.le_refl (s.pos - back))) hopening rfl rfl rfl
  exact .within hwhole hnest rfl hrecorded (by simp only [State.record]; omega) hpos

theorem inPlace_fullCapture {content : Content} {length : Nat}
    (h : m.Stands place start s (place s.address).nest s.stack.frames s.captures.toList hi)
    (hhi : hi ≤ begun) (hbegun : begun + length = s.pos) (hpos : s.pos ≤ m.subject.size)
    (hname : Names m.program kind index content)
    (hstep : m.step s = .next (s.record (.full kind index begun length)) event)
    (hkeeps : (place s.address).Keeps (place (s.address + 1)))
    (hlag : (place (s.address + 1)).lag = 0) :
    m.InPlace place start (s.record (.full kind index begun length)) := by
  have hfull : Spells m.program hi [.node content begun (begun + length) []] s.pos
      [.full kind index begun length] := .full hhi hname (.nil (Nat.le_of_eq hbegun))
  exact h.records hfull hstep hkeeps.nest rfl (Array.toList_push ..)
    (by simp only [State.record, hlag]; omega) hpos

/-! ## Functions, calls and choices -/

theorem inPlace_matcher
    (h : m.Stands place start s (place s.address).nest s.stack.frames s.captures.toList hi)
    (hhi : hi ≤ s.pos) (hstep : m.step s = .next s' event)
    (hexec : m.execute s (.matcher index) = .next s' event)
    (hkeeps : (place s.address).Keeps (place (s.address + 1)))
    (hlag : (place (s.address + 1)).lag = 0) : m.InPlace place start s' := by
  rw [execute] at hexec
  split at hexec
  · next f hconst =>
    obtain ⟨next, hge, hle, rfl⟩ | ⟨event', hback⟩ := next_of_runMatcher hexec
    · exact h.moves hstep hkeeps.nest rfl rfl (by simp only [State.proceedAt, hlag]; omega) hle
    · exact backtracks_of_stands h hstep hback
  · cases hexec

theorem inPlace_call
    (h : m.Stands place start s (place s.address).nest s.stack.frames s.captures.toList hi)
    (hhi : hi ≤ s.pos) (hpos : s.pos ≤ m.subject.size) (hstep : m.step s = .next s' event)
    (hexec : m.execute s (.call off) = .next s' event)
    (hkeeps : (place s.address).Keeps (place (s.address + 1)))
    (hlag : (place (s.address + 1)).lag = 0)
    (hland : Place.LandsIn place (s.address + off) .rule) : m.InPlace place start s' := by
  obtain rfl := next_of_pushFrame hexec
  have hstays := h.advance hstep (List.suffix_cons ..) (List.prefix_refl _)
  rw [← hkeeps.nest] at hstays
  have hwhole := Stands.rule hstays hlag (.nil (Nat.le_refl hi))
  rw [List.append_nil] at hwhole
  have htarget : (place (s.target off)).lag = 0 := hland.lag
  exact .within hwhole hland.nest rfl rfl (by simp only [htarget]; exact hhi) hpos

/-- A return takes the layer of a rule away and leaves what has been recorded in it. -/
theorem inPlace_ret
    (h : m.Stands place start s .rule s.stack.frames s.captures.toList hi) (hhi : hi ≤ s.pos)
    (hpos : s.pos ≤ m.subject.size) (hstep : m.step s = .next s' event)
    (hexec : m.execute s .ret = .next s' event) : m.InPlace place start s' := by
  generalize hframes : s.stack.frames = frames at h
  generalize hentries : s.captures.toList = entries at h
  cases h with
  | @rule _ _ address frames _ _ _ h hlag hspells =>
    have hstack : s.stack = (Stack.ofFrames frames).push (.ret address) := Stack.ext hframes
    rw [execute, hstack, Stack.pop?_push] at hexec
    cases hexec
    exact h.records hspells hstep rfl rfl hentries (by simp only [hlag]; exact hhi) hpos

theorem inPlace_choice {back : Nat} (hreach : m.Reaches start s owners)
    (hinstr : m.program.code[s.address]? = some (.choice off back))
    (h : m.Stands place start s (place s.address).nest s.stack.frames s.captures.toList hi)
    (hback : hi + back ≤ s.pos) (hpos : s.pos ≤ m.subject.size)
    (hstep : m.step s = .next s' event) (hexec : m.execute s (.choice off back) = .next s' event)
    (hnest : (place (s.address + 1)).nest = .chosen (place s.address).nest)
    (hlag : (place (s.address + 1)).lag ≤ back)
    (hland : Place.LandsIn place (s.address + off) (place s.address).nest) :
    m.InPlace place start s' := by
  obtain rfl := next_of_pushFrame hexec
  have hstays := h.advance hstep (List.suffix_cons ..) (List.prefix_refl _)
  have hopen : (place (s.target off)).nest = (place s.address).nest := hland.nest
  have hnext : s.target 1 = s.address + 1 := by
    rw [State.target]
    omega
  rw [← hopen] at hstays
  have hchosen : m.ChosenAt start ⟨s.target off, s.pos - back, s.captures.size⟩ s.stack.frames
      { s with
        address := s.target 1
        stack := s.stack.push (.choice ⟨s.target off, s.pos - back, s.captures.size⟩) } _ :=
    ⟨.inr ⟨s, owners, _, event, hreach, hinstr, rfl, hstep⟩, rfl, rfl,
      .refl (List.suffix_refl _) (List.prefix_refl _)⟩
  have hwhole : m.Stands place start _ (.chosen (place (s.target off)).nest)
      (.choice ⟨s.target off, s.pos - back, s.captures.size⟩ :: s.stack.frames)
      (s.captures.toList ++ []) hi :=
    .chosen hstays hland.lag (by simp only; omega) (by simp only; omega)
      (.nil (Nat.le_refl hi)) hchosen rfl
  rw [List.append_nil, hopen] at hwhole
  refine .within hwhole ?_ rfl rfl ?_ hpos
  · rw [hnext, hnest]
  · simp only [hnext]
    omega

theorem inPlace_commit
    (h : m.Stands place start s (.chosen outer) s.stack.frames s.captures.toList hi)
    (hhi : hi ≤ s.pos) (hpos : s.pos ≤ m.subject.size) (hstep : m.step s = .next s' event)
    (hexec : m.execute s (.commit off) = .next s' event)
    (hland : Place.LandsIn place (s.address + off) outer) : m.InPlace place start s' := by
  obtain ⟨point, below, earlier, recorded, lo, captures, hframes, hentries, h, hspells, -⟩ :=
    h.of_chosen
  rw [execute, popChoice_eq hframes] at hexec
  cases hexec
  exact h.lands hspells hstep hland rfl rfl hentries hhi hpos

/-- A commit that goes back takes the layer of a choice away with what has been recorded in it. -/
theorem inPlace_backCommit
    (h : m.Stands place start s (.chosen outer) s.stack.frames s.captures.toList hi)
    (hstep : m.step s = .next s' event) (hexec : m.execute s (.backCommit off) = .next s' event)
    (hland : Place.LandsIn place (s.address + off) outer) : m.InPlace place start s' := by
  obtain ⟨point, below, earlier, recorded, lo, captures, hframes, hentries, h, -, -, -, hlo, hle,
    hlength⟩ := h.of_chosen
  rw [execute, popChoice_eq hframes] at hexec
  cases hexec
  refine h.lands (.nil (Nat.le_refl lo)) hstep hland rfl rfl ?_ hlo hle
  show (s.captures.shrink point.captures).toList = earlier ++ []
  rw [Array.shrink_eq_take, Array.take_eq_extract, Array.toList_extract, hentries, ← hlength]
  simp

/-- A partial commit moves the layer of a choice to the position, and what has been recorded in it
below. -/
theorem inPlace_partialCommit (hreach : m.Reaches start s owners)
    (hinstr : m.program.code[s.address]? = some (.partialCommit off))
    (h : m.Stands place start s (.chosen outer) s.stack.frames s.captures.toList hi)
    (hhi : hi ≤ s.pos) (hpos : s.pos ≤ m.subject.size) (hstep : m.step s = .next s' event)
    (hexec : m.execute s (.partialCommit off) = .next s' event)
    (hland : Place.LandsIn place (s.address + off) (.chosen outer)) : m.InPlace place start s' := by
  obtain ⟨point, below, earlier, recorded, lo, captures, hframes, hentries, h, hspells, rfl, hlag0,
    -⟩ := h.of_chosen
  rw [execute, popChoice_eq hframes] at hexec
  cases hexec
  have htarget : (place (s.target off)).lag = 0 := hland.lag
  have hstays := (h.extend hspells).advance hstep (List.suffix_cons ..)
    (hentries ▸ List.prefix_refl _)
  rw [← hentries] at hstays
  have hmoved : m.ChosenAt start ⟨point.address, s.pos, s.captures.size⟩ below
      { s with
        address := s.target off
        stack := (Stack.ofFrames below).push (.choice ⟨point.address, s.pos, s.captures.size⟩) }
      _ :=
    ⟨.inr ⟨s, owners, _, _, hreach, hinstr, rfl, hstep⟩, rfl, rfl,
      .refl (List.suffix_refl _) (List.prefix_refl _)⟩
  have hwhole := @Stands.chosen m place start _ hi hi ⟨point.address, s.pos, s.captures.size⟩
    below [] s.captures.toList [] _ hstays hlag0 hhi hpos (.nil (Nat.le_refl hi)) hmoved rfl
  rw [List.append_nil] at hwhole
  refine .within hwhole hland.nest rfl rfl ?_ hpos
  show hi + (place (s.target off)).lag ≤ s.pos
  rw [htarget]
  exact hhi

/-! ## Steps -/

theorem inPlace_execute (hplaced : m.program.Placed place last)
    (hreach : m.Reaches start s owners) (hinstr : m.program.code[s.address]? = some instr)
    (h : m.Stands place start s (place s.address).nest s.stack.frames s.captures.toList hi)
    (hlag : hi + (place s.address).lag ≤ s.pos) (hpos : s.pos ≤ m.subject.size)
    (hstep : m.step s = .next s' event) (hexec : m.execute s instr = .next s' event) :
    m.InPlace place start s' := by
  have hhi : hi ≤ s.pos := by omega
  have hfits := hplaced.fits _ _ hinstr
  cases instr with
  | any n off => exact inPlace_test h hlag hpos hstep id hexec hfits.1 hfits.2.1 hfits.2.2
  | char b off =>
    refine inPlace_test h hlag hpos hstep (fun hc => ?_) hexec hfits.1 hfits.2.1 hfits.2.2
    exact (Array.getElem?_eq_some_iff.1 hc).1
  | set bytes off =>
    refine inPlace_test h hlag hpos hstep (fun hc => ?_) hexec hfits.1 hfits.2.1 hfits.2.2
    obtain ⟨b, hb, -⟩ := (Option.any_eq_true ..).1 hc
    exact (Array.getElem?_eq_some_iff.1 hb).1
  | span bytes =>
    obtain ⟨hkeeps, hlag0⟩ := hfits
    obtain ⟨hge, hle⟩ := spanStop_bounds (m := m) bytes hpos
    cases hexec
    exact h.moves hstep hkeeps.nest rfl rfl
      (by simp only [State.proceedAt, hlag0]; omega) hle
  | matcher index => exact inPlace_matcher h hhi hstep hexec hfits.1 hfits.2
  | ret => exact inPlace_ret (hfits.1 ▸ h) hhi hpos hstep hexec
  | done | giveUp | openCall rule => cases hexec
  | fail => exact backtracks_of_stands h hstep hexec
  | choice off back =>
    obtain ⟨hback, hnest, hbytes, -, hland⟩ := hfits
    exact inPlace_choice hreach hinstr h (by omega) hpos hstep hexec hnest hbytes hland
  | jump off =>
    cases hexec
    exact h.lands (.nil (Nat.le_refl hi)) hstep hfits.2 rfl rfl (List.append_nil _).symm hhi hpos
  | call off =>
    obtain ⟨hkeeps, hlag0, hland⟩ := hfits
    exact inPlace_call h hhi hpos hstep hexec hkeeps hlag0 hland
  | commit off =>
    obtain ⟨-, outer, hchosen, hland⟩ := hfits
    exact inPlace_commit (hchosen ▸ h) hhi hpos hstep hexec hland
  | backCommit off =>
    obtain ⟨-, outer, hchosen, hland⟩ := hfits
    exact inPlace_backCommit (hchosen ▸ h) hstep hexec hland
  | partialCommit off =>
    obtain ⟨-, ⟨outer, hchosen⟩, hland⟩ := hfits
    exact inPlace_partialCommit hreach hinstr (hchosen ▸ h) hhi hpos hstep hexec (hchosen ▸ hland)
  | failTwice =>
    obtain ⟨-, outer, hchosen⟩ := hfits
    rw [hchosen] at h
    obtain ⟨point, below, earlier, recorded, lo, captures, hframes, hentries, h, -⟩ := h.of_chosen
    exact h.backtracks s.stack.drop (by rw [Stack.frames_drop, hframes, List.tail_cons])
      hstep hexec
  | fullCapture kind length index =>
    obtain ⟨hkeeps, hlag0, hlength, content, hname⟩ := hfits
    cases hexec
    exact inPlace_fullCapture h (by omega) (by omega) hpos hname hstep hkeeps hlag0
  | emptyCapture kind index | emptyCaptureConst kind index =>
    obtain ⟨hkeeps, hlag0, content, hname⟩ := hfits
    cases hexec
    exact inPlace_fullCapture h hhi rfl hpos hname hstep hkeeps hlag0
  | openCapture kind back index =>
    obtain ⟨hback, -, hnest, hbytes, -, -⟩ := hfits
    cases hexec
    exact inPlace_openCapture hreach hinstr h (by omega) hpos hstep hbytes hnest
  | closeCapture =>
    obtain ⟨hlag0, -, ordinal, kind, index, hopened, hkind, -⟩ := hfits
    rw [hopened] at h
    cases hexec
    exact inPlace_closeCapture h hkind hhi hpos (h.starts hplaced) hstep hlag0 rfl
  | closeMatchTime =>
    obtain ⟨hlag0, -, ordinal, kind, index, hopened, rfl, -⟩ := hfits
    rw [hopened] at h
    obtain ⟨f, hconst⟩ := (h.starts hplaced).exists_function
    exact inPlace_closeMatchTime h hhi hpos hconst hstep hexec hlag0 rfl

/-- **What one step leads to is in place again.** -/
theorem InPlace.step (h : m.InPlace place start s)
    (hlast : m.program.code[m.program.size - 1]? = some .giveUp)
    (hplaced : m.program.Placed place last) (hreach : m.Reaches start s owners)
    (hstep : m.step s = .next s' event) : m.InPlace place start s' := by
  cases h with
  | gaveUp =>
    rw [step_of_getElem? (s := m.gaveUp start) hlast] at hstep
    cases hstep
  | within h hnest hframes hentries hlag hpos =>
    subst hnest hframes hentries
    have hexec := hstep
    rw [Setting.step] at hexec
    split at hexec
    · next instr hinstr =>
      exact inPlace_execute hplaced hreach hinstr h hlag hpos hstep hexec
    · cases hexec

theorem inPlace_of_placed (hlast : m.program.code[m.program.size - 1]? = some .giveUp)
    (hplaced : m.program.Placed place last) (hstart : start ≤ m.subject.size)
    (hreach : m.Reaches start s owners) : m.InPlace place start s := by
  induction hreach with
  | start =>
    have hentry : place (m.initial start).address = .past 0 := hplaced.entry
    refine .within (.hole (.nil (Nat.le_refl start)) (.initial m start)) ?_ rfl rfl ?_ hstart
    · rw [hentry]
      rfl
    · rw [hentry]
      exact Nat.le_refl _
  | step hreach hstep ih => exact ih.step hlast hplaced hreach hstep

/-- **Every state that a run of a compiled pattern comes by is in place.** -/
theorem inPlace_of_reaches (hp : p.Compiled m.program block code)
    (hplaced : m.program.Placed place last) (hstart : start ≤ m.subject.size)
    (hreach : m.Reaches start s owners) : m.InPlace place start s :=
  inPlace_of_placed hp.getElem?_giveUp hplaced hstart hreach

end

end

end Setting

end PegMachine
