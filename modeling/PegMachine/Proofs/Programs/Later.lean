import PegMachine.Proofs.Captures.Later
import PegMachine.Proofs.Lowering.PlaceFree
import PegMachine.Proofs.Programs.Discipline

/-!
# Steps behind a prefix

* `State.later`: a state that has moved along with the subject.
* `Setting.behind`: a match of the subject with a prefix before it.
* `Step.Later`: what instructions lead to before and after they have moved.
* `Setting.execute_later`: **an instruction that does not look at its place does the same behind a
  prefix**, as far as it does not look back beyond the start of the subject.
-/

namespace PegMachine

/-! ## States -/

/-- A frame that has moved by `k` bytes. -/
def Frame.later (k : Nat) : Frame → Frame
  | .ret address => .ret address
  | .choice point => .choice { point with pos := point.pos + k }

namespace Stack

/-- A stack whose choices have moved by `k` bytes. -/
def later (k : Nat) (stack : Stack) : Stack where
  frames := stack.frames.map (Frame.later k)
  size := stack.size
  size_eq := by rw [List.length_map, stack.size_eq]

variable (k : Nat) (stack : Stack)

theorem later_drop : stack.drop.later k = (stack.later k).drop := by
  obtain ⟨_ | ⟨frame, frames⟩, size, h⟩ := stack <;> rfl

theorem pop?_later :
    (stack.later k).pop? = stack.pop?.map fun top => (top.1.later k, top.2.later k) := by
  obtain ⟨_ | ⟨frame, frames⟩, size, h⟩ := stack <;> rfl

theorem unwindFrames?_later (frames : List Frame) (size : Nat) (h : size = frames.length)
    (h' : size = (frames.map (Frame.later k)).length) :
    unwindFrames? (frames.map (Frame.later k)) size h' =
      (unwindFrames? frames size h).map fun top =>
        ({ top.1 with pos := top.1.pos + k }, top.2.later k) := by
  induction frames generalizing size with
  | nil => rfl
  | cons frame frames ih =>
    cases frame with
    | ret address => exact ih _ _ _
    | choice point => rfl

theorem unwind?_later : (stack.later k).unwind? = stack.unwind?.map fun top =>
    ({ top.1 with pos := top.1.pos + k }, top.2.later k) :=
  unwindFrames?_later k _ _ _ _

end Stack

/-- A state that has moved by `k` bytes. -/
def State.later (k : Nat) (s : State) : State where
  address := s.address
  pos := s.pos + k
  stack := s.stack.later k
  captures := s.captures.map (Entry.later k)

/-- An outcome that has moved by `k` bytes: a match ends so much later, and has the same values. -/
def Outcome.later (k : Nat) : Outcome → Outcome
  | .matched result => .matched { result with stop := result.stop + k }
  | outcome => outcome

theorem Outcome.later_eq_unfinished_iff {k : Nat} {outcome : Outcome} :
    outcome.later k = .unfinished ↔ outcome = .unfinished := by
  cases outcome <;> simp [Outcome.later]

/-- What an instruction leads to before and after it has moved by `k` bytes, events aside. -/
inductive Step.Later (k : Nat) : Step → Step → Prop where
  | next {s : State} {event event' : Option Event} :
      Later k (.next s event) (.next (s.later k) event')
  | halt {outcome : Outcome} {event event' : Option Event} :
      Later k (.halt outcome event) (.halt (outcome.later k) event')

/-! ## Recovery from failures -/

theorem later_shrink (k n : Nat) (captures : Array Entry) :
    (captures.shrink n).map (Entry.later k) = (captures.map (Entry.later k)).shrink n := by
  apply Array.toList_inj.1
  rw [Array.toList_map, Array.toList_shrink, Array.toList_shrink, Array.toList_map, List.map_take]

namespace State

variable (k : Nat) (s : State) (off : Int)

theorem backtrack_later (event event' : Option Event) :
    (s.backtrack event).Later k ((s.later k).backtrack event') := by
  rw [backtrack, backtrack, show (s.later k).stack = s.stack.later k from rfl, Stack.unwind?_later]
  cases s.stack.unwind? with
  | none => exact .halt
  | some top =>
    have hnext := @Step.Later.next k
      ⟨top.1.address, top.1.pos, top.2, s.captures.shrink top.1.captures⟩ event event'
    rw [later, later_shrink] at hnext
    exact hnext

theorem refuse_later : (s.refuse off).Later k ((s.later k).refuse off) := by
  rw [refuse, refuse]
  split
  · exact s.backtrack_later k none none
  · exact .next

theorem popChoice_later {use use' : ChoicePoint → State → Step}
    (h : ∀ point s, (use point s).Later k
      (use' { point with pos := point.pos + k } (s.later k))) :
    (s.popChoice use).Later k ((s.later k).popChoice use') := by
  rw [popChoice, popChoice, show (s.later k).stack = s.stack.later k from rfl, Stack.pop?_later]
  cases s.stack.pop? with
  | none => exact .halt
  | some top =>
    obtain ⟨frame, stack⟩ := top
    cases frame with
    | ret address => exact .halt
    | choice point => exact h point { s with stack := stack }

theorem record_later (entry : Entry) :
    (s.record entry).later k = (s.later k).record (entry.later k) := by
  rw [record, record, later, Array.map_push]
  rfl

end State

/-! ## Instructions -/

namespace Setting

variable (m : Setting) (u : Bytes)

/-- A match of the subject with a prefix before it. -/
def behind : Setting := { m with subject := u ++ m.subject }

theorem initial_later (pos : Nat) :
    (m.behind u).initial (pos + u.size) = (m.initial pos).later u.size := by
  rw [initial, initial, State.later, Array.map_empty]
  rfl

theorem size_behind : (m.behind u).subject.size = m.subject.size + u.size := by
  rw [behind, Array.size_append, Nat.add_comm]

theorem getElem?_behind (pos : Nat) :
    (m.behind u).subject[pos + u.size]? = m.subject[pos]? := by
  rw [behind, Array.getElem?_append_right (Nat.le_add_left _ _), Nat.add_sub_cancel]

theorem spanStop_behind (bytes : ByteSet) (pos : Nat) :
    (m.behind u).spanStop bytes (pos + u.size) = m.spanStop bytes pos + u.size := by
  have hsize := m.size_behind u
  have hget : ∀ {pos : Nat} (hlt : pos < m.subject.size)
      (hlt' : pos + u.size < (m.behind u).subject.size),
      (m.behind u).subject[pos + u.size] = m.subject[pos] := by
    intro pos hlt hlt'
    have hbyte := m.getElem?_behind u pos
    rwa [Array.getElem?_eq_getElem hlt', Array.getElem?_eq_getElem hlt, Option.some_inj] at hbyte
  fun_induction m.spanStop bytes pos with
  | case1 pos hlt hmem ih =>
    rw [spanStop, dif_pos (by omega), hget hlt, if_pos hmem, Nat.add_right_comm, ih]
  | case2 pos hlt hmem => rw [spanStop, dif_pos (by omega), hget hlt, if_neg hmem]
  | case3 pos hlt => rw [spanStop, dif_neg (by omega)]

section

variable {m u}

theorem test_later (k : Nat) (s : State) {holds holds' : Prop} [Decidable holds] [Decidable holds']
    (hiff : holds' ↔ holds) (n : Nat) (off : Int) :
    (if holds then Step.next (s.proceedAt (s.pos + n)) none else s.refuse off).Later k
      (if holds' then Step.next ((s.later k).proceedAt ((s.later k).pos + n)) none
        else (s.later k).refuse off) := by
  by_cases hholds : holds
  · rw [if_pos hholds, if_pos (hiff.2 hholds),
      show (s.later k).pos + n = s.pos + n + k from Nat.add_right_comm ..]
    exact .next
  · rw [if_neg hholds, if_neg (mt hiff.1 hholds)]
    exact s.refuse_later k off

end

theorem pushFrame_later (s : State) (frame : Frame) (off : Int) :
    (m.pushFrame s frame off).Later u.size
      ((m.behind u).pushFrame (s.later u.size) (frame.later u.size) off) := by
  rw [pushFrame, pushFrame, show (m.behind u).limits = m.limits from rfl,
    show (s.later u.size).stack.size = s.stack.size from rfl]
  split
  · exact .halt
  · exact .next

theorem record_later (k : Nat) (s : State) {entry entry' : Entry} (h : entry' = entry.later k) :
    (Step.next (s.record entry) none).Later k (.next ((s.later k).record entry') none) := by
  rw [h, ← State.record_later]
  exact .next

theorem closeCapture_later (k : Nat) (s : State) :
    closeCapture (s.later k) = (closeCapture s).later k := by
  have hback : (s.later k).captures.back? = s.captures.back?.map (Entry.later k) :=
    Array.back?_map
  rw [closeCapture, closeCapture, hback]
  cases s.captures.back? with
  | none => exact (s.record_later k (.closed s.pos)).symm
  | some entry =>
    cases entry with
    | opened kind index pos =>
      have hlength : (s.later k).pos - (pos + k) = s.pos - pos := Nat.add_sub_add_right ..
      simp only [Option.map_some, Entry.later, hlength]
      simp only [State.later, Array.map_push, Array.map_pop, Entry.later]
    | full | closed | dynamic => exact (s.record_later k (.closed s.pos)).symm

/-- **An instruction that does not look at its place does the same behind a prefix**, as far as it
does not look back beyond the start of the subject. The end of a match asks for more. -/
theorem execute_later (s : State) {instr : Instr} (hplace : instr.placeFree = true)
    (hback : instr.back ≤ s.pos) (hdone : instr ≠ .done) :
    (m.execute s instr).Later u.size ((m.behind u).execute (s.later u.size) instr) := by
  have hback' : (s.later u.size).pos - instr.back = s.pos - instr.back + u.size :=
    Nat.sub_add_comm hback
  have hbyte : (m.behind u).subject[(s.later u.size).pos]? = m.subject[s.pos]? :=
    m.getElem?_behind u s.pos
  cases instr with
  | any n off =>
    refine test_later u.size s ?_ n off
    rw [size_behind, show (s.later u.size).pos = s.pos + u.size from rfl]
    omega
  | char byte off => exact test_later u.size s (by rw [hbyte]) 1 off
  | set bytes off => exact test_later u.size s (by rw [hbyte]) 1 off
  | span bytes =>
    have hspan : (m.behind u).spanStop bytes (s.later u.size).pos =
      m.spanStop bytes s.pos + u.size := m.spanStop_behind u bytes s.pos
    rw [execute, execute, hspan]
    exact .next
  | ret =>
    rw [execute, execute, show (s.later u.size).stack = s.stack.later u.size from rfl,
      Stack.pop?_later]
    cases s.stack.pop? with
    | none => exact .halt
    | some top =>
      obtain ⟨frame, stack⟩ := top
      cases frame with
      | ret address => exact .next
      | choice point => exact .halt
  | done => exact absurd rfl hdone
  | choice off back =>
    have hpush := m.pushFrame_later u s (.choice ⟨s.target off, s.pos - back, s.captures.size⟩) 1
    rw [execute, execute, show (s.later u.size).pos - back = s.pos - back + u.size from hback',
      show (s.later u.size).captures.size = s.captures.size from Array.size_map]
    exact hpush
  | jump off => exact .next
  | call off => exact m.pushFrame_later u s (.ret (s.address + 1)) off
  | openCall rule => exact .halt
  | commit off =>
    rw [execute, execute]
    exact s.popChoice_later u.size fun _ _ => .next
  | partialCommit off =>
    rw [execute, execute]
    refine s.popChoice_later u.size fun point s => ?_
    rw [show (s.later u.size).captures.size = s.captures.size from Array.size_map]
    exact .next
  | backCommit off =>
    rw [execute, execute]
    refine s.popChoice_later u.size fun point s => ?_
    have hnext := @Step.Later.next u.size ⟨s.target off, point.pos, s.stack,
      s.captures.shrink point.captures⟩ none none
    rw [State.later, later_shrink] at hnext
    exact hnext
  | failTwice =>
    have hdrop := State.backtrack_later u.size { s with stack := s.stack.drop } none none
    rw [State.later, Stack.later_drop] at hdrop
    exact hdrop
  | fail => exact s.backtrack_later u.size none none
  | giveUp => exact .halt
  | matcher | closeMatchTime => cases hplace
  | fullCapture kind length index =>
    exact record_later u.size s (congrArg (Entry.full kind index · length) hback')
  | emptyCapture kind index | emptyCaptureConst kind index => exact record_later u.size s rfl
  | openCapture kind back index =>
    exact record_later u.size s (congrArg (Entry.opened kind index ·) hback')
  | closeCapture =>
    rw [execute, execute, closeCapture_later]
    exact .next

end Setting

end PegMachine
