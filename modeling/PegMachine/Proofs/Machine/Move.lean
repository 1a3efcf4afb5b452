import PegMachine.Machine.Step

/-!
# Moves

What an instruction does, seen apart from addresses and pending frames, and with the calls of rules
answered at once.

* `Answer`: what the run of a piece of code comes to.
* `Move`: the ways in which an instruction changes the machine.
* `Setting.move`: the move of an instruction at a position, with the captures recorded so far.
* `Config`: a state of the machine in which each pending frame remembers who pushed it.
* `Config.perform`: a move made in such a state.
-/

namespace PegMachine

/-- What the run of a piece of code comes to. -/
inductive Answer where
  | matched (pos : Nat) (captures : Array Entry)
  | failed
  | crashed (fault : Fault)

/-- The answers to the calls of rules, from the place of the rule in its grammar, the position and
the captures recorded so far; `none` where nothing is known about a call. With an answer goes the
number of frames that the rule may have pending at a time. -/
abbrev Answers := Nat → Nat → Array Entry → Option (Answer × Nat)

/-- How an instruction changes the machine. -/
inductive Move where
  /-- Goes on with the next instruction. -/
  | advance (pos : Nat) (captures : Array Entry)
  | jump (offset : Int)
  | call (offset : Int)
  | choose (offset : Int) (back : Nat)
  | ret
  | commit (offset : Int)
  | renew (offset : Int)
  | rewind (offset : Int)
  | fail
  | failTwice
  | crash (fault : Fault)
  /-- The end of a match, or an instruction that cannot be executed. -/
  | halt

/-! ## Moves of instructions -/

/-- The jump of a move, if it has one. -/
def Move.offset? : Move → Option Int
  | .jump off | .call off | .choose off _ | .commit off | .renew off | .rewind off => some off
  | _ => none

/-- The captures after the end of the capture that is open. -/
def closeEntries (captures : Array Entry) (pos : Nat) : Array Entry :=
  match captures.back? with
  | some (.opened kind index start) => captures.pop.push (.full kind index start (pos - start))
  | _ => captures.push (.closed pos)

theorem Setting.closeCapture_eq (s : State) :
    closeCapture s =
      { s with address := s.address + 1, captures := closeEntries s.captures s.pos } := by
  rw [closeCapture, closeEntries]
  cases s.captures.back? with
  | none => rfl
  | some entry => cases entry <;> rfl

/-- The move of an instruction whose test does not hold. -/
def Move.refuse (offset : Int) : Move :=
  if offset = 0 then .fail else .jump offset

/-- The move that follows the answer to a call. -/
def Move.ofAnswer : Option (Answer × Nat) → Move
  | some (.matched pos captures, _) => .advance pos captures
  | some (.failed, _) => .fail
  | some (.crashed fault, _) => .crash fault
  | none => .halt

namespace Setting

variable (m : Setting)

/-- Whether the test of a check holds at a position. -/
def holds (pos : Nat) : Instr → Bool
  | .any n _ => pos + n ≤ m.subject.size
  | .char b _ => m.subject[pos]? = some b
  | .set s _ => m.subject[pos]?.any s.contains
  | _ => false

/-- The move of a matcher. -/
def matcherMove (pos : Nat) (captures : Array Entry) (f : Matcher) : Move :=
  match f m.subject pos with
  | none => .fail
  | some next => if pos ≤ next ∧ next ≤ m.subject.size then .advance next captures else .fail

/-- The move that ends a match-time capture which started at `start`, as the entry `opened`. -/
def matchTimeMove (pos : Nat) (captures : Array Entry) (f : MatchTimeFunction)
    (opened start : Nat) : Move :=
  match (m.resolver (captures.push (.closed pos))).nested opened with
  | .error fault => .crash fault
  | .ok values =>
    match f m.subject pos values with
    | none => .fail
    | some (next, values) =>
      if start ≤ next ∧ next ≤ m.subject.size then
        let kept := captures.shrink opened
        .advance next (if values.isEmpty then kept else kept.push (.dynamic start next values))
      else .fail

/-- The move that ends the match-time capture that is open. -/
def closeMatchTimeMove (pos : Nat) (captures : Array Entry) : Move :=
  match Entry.innermostOpen? captures with
  | none => .crash .malformedCaptures
  | some opened =>
    match captures[opened]? with
    | some (.opened _ index start) =>
      match m.program.constant? index with
      | some (.matchTime f) => m.matchTimeMove pos captures f opened start
      | _ => .crash .malformedCaptures
    | _ => .crash .malformedCaptures

/-- The move of an instruction. -/
def move (answers : Answers) (pos : Nat) (captures : Array Entry) : Instr → Move
  | .any n off =>
    if m.holds pos (.any n off) then .advance (pos + n) captures else .refuse off
  | .char b off =>
    if m.holds pos (.char b off) then .advance (pos + 1) captures else .refuse off
  | .set s off =>
    if m.holds pos (.set s off) then .advance (pos + 1) captures else .refuse off
  | .span s => .advance (m.spanStop s pos) captures
  | .ret => .ret
  | .done | .giveUp => .halt
  | .choice off back => .choose off back
  | .jump off => .jump off
  | .call off => .call off
  | .openCall rule => .ofAnswer (answers rule pos captures)
  | .commit off => .commit off
  | .partialCommit off => .renew off
  | .backCommit off => .rewind off
  | .failTwice => .failTwice
  | .fail => .fail
  | .matcher index =>
    match m.program.constant? index with
    | some (.matcher f) => m.matcherMove pos captures f
    | _ => .halt
  | .fullCapture kind length index =>
    .advance pos (captures.push (.full kind index (pos - length) length))
  | .emptyCapture kind index | .emptyCaptureConst kind index =>
    .advance pos (captures.push (.full kind index pos 0))
  | .openCapture kind back index =>
    .advance pos (captures.push (.opened kind index (pos - back)))
  | .closeCapture => .advance pos (closeEntries captures pos)
  | .closeMatchTime => m.closeMatchTimeMove pos captures

end Setting

theorem Setting.spanStop_congr {m m' : Setting} (h : m'.subject = m.subject) (bytes : ByteSet)
    (pos : Nat) : m'.spanStop bytes pos = m.spanStop bytes pos := by
  obtain ⟨program', limits', subject', arguments'⟩ := m'
  obtain rfl : subject' = m.subject := h
  fun_induction m.spanStop bytes pos with
  | case1 pos hpos hmem ih =>
    rw [spanStop, dif_pos hpos]
    exact (if_pos hmem).trans ih
  | case2 pos hpos hnot =>
    rw [spanStop, dif_pos hpos]
    exact if_neg hnot
  | case3 pos hpos =>
    rw [spanStop, dif_neg hpos]

/-! ## Configurations -/

/-- A pending frame and the address of the instruction that pushed it. -/
structure Pending where
  frame : Frame
  owner : Nat

/-- A state of the machine in which each pending frame remembers who pushed it. -/
structure Config where
  address : Nat
  pos : Nat
  frames : List Pending
  captures : Array Entry

/-- What a move leads to. -/
inductive Progress where
  | next (c : Config)
  /-- A failure without a pending choice. -/
  | failed
  | crashed (fault : Fault)
  | stuck

/-- The latest choice, and what is pending below it. -/
def latestChoice? : List Pending → Option (ChoicePoint × List Pending)
  | [] => none
  | ⟨.choice point, _⟩ :: rest => some (point, rest)
  | ⟨.ret _, _⟩ :: rest => latestChoice? rest

namespace Config

/-- The address that a relative jump leads to. -/
def target (c : Config) (offset : Int) : Nat :=
  (c.address + offset).toNat

/-- Goes back to the latest choice among the given frames. -/
def backtrackTo (c : Config) (frames : List Pending) : Progress :=
  match latestChoice? frames with
  | some (point, rest) =>
    .next ⟨point.address, point.pos, rest, c.captures.shrink point.captures⟩
  | none => .failed

/-- Takes the choice on top off the frames. -/
def popChoice (c : Config) (use : ChoicePoint → Nat → List Pending → Config) : Progress :=
  match c.frames with
  | ⟨.choice point, owner⟩ :: rest => .next (use point owner rest)
  | _ => .stuck

/-- Makes a move. -/
def perform (c : Config) : Move → Progress
  | .advance pos captures => .next ⟨c.address + 1, pos, c.frames, captures⟩
  | .jump off => .next { c with address := c.target off }
  | .call off =>
    .next { c with address := c.target off, frames := ⟨.ret (c.address + 1), c.address⟩ :: c.frames }
  | .choose off back =>
    .next
      { c with
        address := c.address + 1
        frames :=
          ⟨.choice ⟨c.target off, c.pos - back, c.captures.size⟩, c.address⟩ :: c.frames }
  | .ret =>
    match c.frames with
    | ⟨.ret address, _⟩ :: rest => .next { c with address := address, frames := rest }
    | _ => .stuck
  | .commit off => c.popChoice fun _ _ rest => { c with address := c.target off, frames := rest }
  | .renew off => c.popChoice fun point owner rest =>
    { c with
      address := c.target off
      frames := ⟨.choice { point with pos := c.pos, captures := c.captures.size }, owner⟩ :: rest }
  | .rewind off => c.popChoice fun point _ rest =>
    ⟨c.target off, point.pos, rest, c.captures.shrink point.captures⟩
  | .fail => c.backtrackTo c.frames
  | .failTwice =>
    match c.frames with
    | _ :: rest => c.backtrackTo rest
    | [] => .stuck
  | .crash fault => .crashed fault
  | .halt => .stuck

end Config

end PegMachine
