import PegMachine.Proofs.Captures.Behind
import PegMachine.Proofs.Lowering.Pieces
import PegMachine.Proofs.Machine.Lockstep
import PegMachine.Proofs.Nesting.Alone

/-!
# Code behind the start of a capture

The code of a pattern does the same on its own and behind the start of a capture around it, from
which nothing of it can tell that the capture is there.

* `behind`: configurations that differ by the entry of that start.
* `Setting.Alone.onMoves_behind`: **instructions make the same moves.** The end of a match-time
  capture finds the same values nested in it.
* `Setting.Alone.exists_runs_behind`: **the runs come to the same answer**, in the same room.
* `Setting.Alone.runs_enclose`: the runs of a capture around the code.
-/

namespace PegMachine

open Block

/-- The answer of code with a capture around it, from that of the code on its own. -/
def Answer.enclosed (kind : CaptureKind) (index start : Nat) : Answer → Answer
  | .matched stop captures =>
    .matched stop (wrapEntries kind index start stop captures.toList).toArray
  | answer => answer

/-- Configurations with the same addresses, in which the captures of the second one stand behind
another entry. -/
def behind (head : Entry) : Likeness where
  address := Eq
  owner := fun _ _ => True
  captures := Behind head
  lift := 1
  size_eq := Behind.size_eq
  shrink := fun n h => h.shrink n

namespace Setting

variable {m m' : Setting} {p : Pattern} {block : Block} {start index pos : Nat} {kind : CaptureKind}
  {c : Config} {captures' : Array Entry} {instr : Instr}

theorem SameInput.afterChecks_eq (h : m.SameInput m') (pos : Nat)
    (code : Block) : m'.afterChecks pos code = m.afterChecks pos code := by
  induction code generalizing pos with
  | nil => rfl
  | cons check rest ih => rw [afterChecks, afterChecks, h.holds_eq, ih]

/-- The end of a match-time capture runs its function on the values nested in it. -/
theorem closeMatchTimeMove_eq {before list : Array Entry} {begun : Nat} {f : MatchTimeFunction}
    {nested : List Entry}
    (hrecords : Records (before.push (.opened .matchTime index begun)) nested list)
    (hbalanced : Balanced nested) (hconst : m.program.constant? index = some (.matchTime f)) :
    m.closeMatchTimeMove pos list = m.matchTimeMove pos list f before.size begun := by
  rw [closeMatchTimeMove, innermostOpen?_of_records hrecords hbalanced]
  dsimp only
  rw [hrecords.getElem?_at]
  dsimp only
  rw [hconst]

namespace Alone

variable (h : m.Alone p block) (hstart : start ≤ m.subject.size) (hinput : m.SameInput m')
  (hgrow : ConstantsGrow m.program.constants m'.program.constants)

include h hstart hinput hgrow

theorem onMoves_closeMatchTime (hc : m.ComesBy start c)
    (hinstr : block[c.address]? = some .closeMatchTime)
    (hbehind : Behind (.opened kind index pos) c.captures captures') :
    (behind (.opened kind index pos)).OnMoves c.address c.address
      (m.closeMatchTimeMove c.pos c.captures) (m'.closeMatchTimeMove c.pos captures') := by
  obtain ⟨before, index', begun, f, nested, captures, bindings, hopened⟩ :=
    hc.exists_opened h hstart hinstr
  have hbefore : Behind (.opened kind index pos) before
      (.opened kind index pos :: before.toList).toArray := rfl
  have hrecords := hbehind.records (hbefore.push _) hopened.records
  have hbalanced := hopened.spells.balanced
  have hpos : c.pos ≤ m'.subject.size := hinput.subject ▸ hopened.pos_le
  have hvisible : Visible (m'.resolver _) (before.size + 1) bindings :=
    hopened.visible.behind hbefore hgrow hinput.subject hinput.arguments
  have hnested := nested_of_records hopened.spells (Nat.le_refl _) hopened.pos_le hopened.records
    hopened.visible
  have hnested' := nested_of_records (hopened.spells.grow hgrow) (Nat.le_refl _) hpos hrecords
    (hbefore.size_eq ▸ hvisible)
  rw [closeMatchTimeMove_eq hopened.records hbalanced hopened.function,
    closeMatchTimeMove_eq hrecords hbalanced (Program.constant?_grow hgrow hopened.function),
    hbefore.size_eq]
  refine Likeness.onMoves_matchTime hinput hbehind rfl (fun hpair => Behind.push hpair _) f ?_
  rw [hbefore.size_eq] at hnested'
  refine hnested'.trans (Eq.trans ?_ hnested.symm)
  rw [hinput.subject, hinput.arguments]

/-- **Instructions make the same moves** behind the start of a capture. -/
theorem onMoves_behind (hc : m.ComesBy start c) (hinstr : block[c.address]? = some instr)
    (hbehind : Behind (.opened kind index pos) c.captures captures') :
    (behind (.opened kind index pos)).OnMoves c.address c.address
      (m.move (fun _ _ _ => none) c.pos c.captures instr)
      (m'.move (fun _ _ _ => none) c.pos captures' instr) := by
  have hnext : (behind (.opened kind index pos)).address (c.address + 1) (c.address + 1) := rfl
  cases instr with
  | any | char | set | span | ret | done | giveUp | choice | jump | call | commit | partialCommit
  | backCommit | failTwice | fail =>
    exact Likeness.onMoves_silent hinput hbehind hnext rfl fun _ _ => rfl
  | openCall => exact .halt
  | matcher index =>
    rcases Pattern.proper_lower h.lowered (.refl _) _ (List.mem_of_getElem? hinstr) with
      ⟨f, hf⟩ | ⟨_, _, _, hscope, -⟩
    · rw [move, move, hf, Program.constant?_grow hgrow hf]
      exact Likeness.onMoves_matcher hinput hbehind hnext f
    · cases hscope
  | fullCapture | emptyCapture | emptyCaptureConst | openCapture =>
    exact .advance hnext (hbehind.push _)
  | closeCapture => exact .advance hnext (hbehind.closeEntries (hc.ne_nil h hstart hinstr) _)
  | closeMatchTime => exact h.onMoves_closeMatchTime hstart hinput hgrow hc hinstr hbehind

/-- **A run on its own and one behind the start of a capture are in lockstep.** -/
theorem lockstep_behind (kind : CaptureKind) (index pos : Nat) :
    Lockstep m m' block block fun c c' =>
      (behind (.opened kind index pos)).OnConfigs c c' ∧ m.ComesBy start c where
  ends hc haddr := (show _ = _ from hc.1.address) ▸ haddr
  frames hc := hc.1.frames.length_eq.symm
  step := by
    rintro c c' instr ⟨hconfigs, hc⟩ hinstr
    have haddr : c.address = c'.address := hconfigs.address
    refine ⟨instr, haddr ▸ hinstr, ?_⟩
    have hmoves := h.onMoves_behind hstart hinput hgrow hc hinstr hconfigs.captures
    rw [hconfigs.pos]
    refine ((haddr ▸ hmoves : Likeness.OnMoves _ c.address c'.address _ _).perform hconfigs
      trivial).imp fun d d' hnext hd => ⟨hd, hc.step h hinstr hnext⟩

/-- **Behind the start of a capture the code comes to the same answer**, in the same room. -/
theorem exists_runs_behind {n : Nat} {r : Answer}
    (hrun : Runs m (fun _ _ _ => none) n block start #[] r)
    (hrises : Rises m (fun _ _ _ => none) block ⟨0, start, [], #[]⟩ n) (kind : CaptureKind)
    (index : Nat) :
    ∃ r', Runs m' (fun _ _ _ => none) n block start #[.opened kind index start] r' ∧
      Rises m' (fun _ _ _ => none) block ⟨0, start, [], #[.opened kind index start]⟩ n ∧
      r.Both (behind (.opened kind index start)).OnConfigs r' := by
  have hlock := h.lockstep_behind hstart hinput hgrow kind index start
  have hconfigs : (behind (.opened kind index start)).OnConfigs ⟨0, start, [], #[]⟩
      ⟨0, start, [], #[.opened kind index start]⟩ := ⟨rfl, rfl, rfl, .nil⟩
  have hc := And.intro hconfigs (ComesBy.initial m start)
  have hstart' : start ≤ m'.subject.size := hinput.subject ▸ hstart
  obtain ⟨r', k, hrun', -⟩ := Pattern.runs_lower (m := m') (fun _ _ _ => none)
    #[.opened kind index start] h.lowered hgrow id hstart'
  refine ⟨r', hlock.fits hrun hrun' hc, hlock.rises hrises hc, ?_⟩
  cases hlock.answer hrun hrun' hc with
  | matched hend => exact .matched hend.1.1
  | failed => exact .failed
  | crashed fault => exact .crashed fault

/-! ## Captures around the code -/

/-- **A capture around the code comes to its answer, with the entries of that capture around those
recorded**, and has as many frames pending, whatever follows it. -/
theorem runs_enclose {n : Nat} {r : Answer} (hrun : Runs m (fun _ _ _ => none) n block start #[] r)
    (hrises : Rises m (fun _ _ _ => none) block ⟨0, start, [], #[]⟩ n) (hkind : kind ≠ .matchTime)
    (index : Nat) (behind : Block) :
    Runs m' (fun _ _ _ => none) n (enclose kind index block) start #[]
        (r.enclosed kind index start) ∧
      Rises m' (fun _ _ _ => none) (enclose kind index block ++ behind) ⟨0, start, [], #[]⟩ n := by
  have hcont := Pattern.contained_lower h.lowered
  have hstart' : start ≤ m'.subject.size := hinput.subject ▸ hstart
  generalize hcode : enclose kind index block = code
  cases enclose_form hcode with
  | matchTime he => exact absurd he hkind
  | fixed _ hchecks =>
    -- while checks run, nothing is pending
    have hzero : n ≤ 0 := hrises.le_room (runs_checks hchecks hstart)
    obtain rfl : n = 0 := Nat.le_zero.1 hzero
    refine ⟨?_, .here ⟨0, start, [], #[]⟩⟩
    have hrun' : Runs m' (fun _ _ _ => none) 0 block start #[] r := by
      rw [hrun.unique (runs_checks hchecks hstart), ← hinput.afterChecks_eq]
      exact runs_checks hchecks hstart'
    cases r with
    | matched stop captures =>
      obtain ⟨rfl, hwhole⟩ := runs_fullCapture hrun' hchecks
      exact hwhole
    | failed | crashed =>
      exact runs_append_of_unmatched hrun' nofun hcont (Pattern.contained_single rfl)
  | opened =>
    obtain ⟨r', hrun', hrises', hanswer⟩ :=
      h.exists_runs_behind hstart hinput hgrow hrun hrises kind index
    constructor
    · cases hanswer with
      | @matched c c' hend =>
        obtain ⟨nested, hspells⟩ := h.exists_spells hstart hrun (.initial m start)
        have hrecords : Records (#[].push (.opened kind index start)) c.captures.toList
            c'.captures := hend.captures
        have hclosed : closeEntries c'.captures c.pos =
            (wrapEntries kind index start c.pos c.captures.toList).toArray :=
          Array.toList_inj.1 (closeEntries_of_records hrecords hspells.balanced)
        rw [hend.pos] at hrun'
        rw [Answer.enclosed, ← hclosed]
        exact runs_closeCapture hrun' hrecords hspells.balanced hcont
      | failed => exact runs_opened hrun' hcont id nofun nofun
      | crashed fault => exact runs_opened hrun' hcont nofun (fun _ => id) nofun
    · have hat : StandsAt (.openCapture kind 0 index :: (block ++ [.closeCapture]) ++ behind) 1
          block := ⟨[.openCapture kind 0 index], .closeCapture :: behind, by simp, rfl⟩
      have hinstr : (.openCapture kind 0 index :: (block ++ [.closeCapture]) ++ behind : Block)[0]? =
          some (.openCapture kind 0 index) := rfl
      exact .next hinstr rfl (hrises'.within hat hcont [])

end Alone

end Setting

end PegMachine
