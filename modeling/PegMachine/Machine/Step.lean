import PegMachine.Machine.State

/-!
# Steps of the matching machine

* `Setting.execute`: what each instruction does.
* `Setting.step`: one step from a state, the instruction at its address.
* `Setting.initial`: the state that a match starts in.
-/

namespace PegMachine

namespace Setting

/-- Pushes a frame, unless the stack is full, and jumps. -/
def pushFrame (m : Setting) (s : State) (frame : Frame) (offset : Int) : Step :=
  let full := match m.limits.maxStack with
    | some limit => if limit ≤ s.stack.size then some limit else none
    | none => none
  match full with
  | some limit => .halt (.faulted .stackOverflow) (some (.stackFull limit))
  | none => .next { s with address := s.target offset, stack := s.stack.push frame } none

/-- The position after the run of bytes of a set that starts at a position. -/
def spanStop (m : Setting) (bytes : ByteSet) (pos : Nat) : Nat :=
  if h : pos < m.subject.size then
    if bytes.contains m.subject[pos] then m.spanStop bytes (pos + 1) else pos
  else pos
termination_by m.subject.size - pos

/-- The recorded captures, ready to be resolved. -/
def resolver (m : Setting) (entries : Array Entry) : Resolver :=
  ⟨m.program, m.subject, m.arguments, entries⟩

/-- Runs a matcher. -/
def runMatcher (m : Setting) (s : State) (f : Matcher) : Step :=
  match f m.subject s.pos with
  | none => s.backtrack none
  | some next =>
    if s.pos ≤ next ∧ next ≤ m.subject.size then .next (s.proceedAt next) none
    else s.backtrack (some (.matcherStrayed next s.pos m.subject.size))

/-- Ends the capture that is open. One that has nothing nested in it becomes a single entry. -/
def closeCapture (s : State) : State :=
  match s.captures.back? with
  | some (.opened kind index pos) =>
    { s with
      address := s.address + 1
      captures := s.captures.pop.push (.full kind index pos (s.pos - pos)) }
  | _ => s.record (.closed s.pos)

/-- Puts the values of a match-time capture in the place of what was recorded from its start on. -/
def replaceCapture (s : State) (opened start next : Nat) (values : List Value) : State :=
  let kept := s.captures.shrink opened
  { s with
    address := s.address + 1
    pos := next
    captures := if values.isEmpty then kept else kept.push (.dynamic start next values) }

/-- Ends the match-time capture that is open and runs its function. -/
def closeMatchTime (m : Setting) (s : State) : Step :=
  match Entry.innermostOpen? s.captures with
  | none => .crash .malformedCaptures
  | some opened =>
    match s.captures[opened]? with
    | some (.opened _ index start) =>
      match m.program.constant? index with
      | some (.matchTime f) =>
        let closed := { s with captures := s.captures.push (.closed s.pos) }
        match (m.resolver closed.captures).nested opened with
        | .error fault => .crash fault
        | .ok values =>
          let s := { closed with captures := closed.captures.pop }
          match f m.subject s.pos values with
          | none => s.backtrack none
          | some (next, values) =>
            if start ≤ next ∧ next ≤ m.subject.size then
              .next (replaceCapture s opened start next values) none
            else s.backtrack (some (.captureStrayed next start m.subject.size))
      | _ => .crash .malformedCaptures
    | _ => .crash .malformedCaptures

/-- Ends with a match, once its captures have been resolved. -/
def finish (m : Setting) (s : State) : Step :=
  let outcome := match (m.resolver s.captures).resolve with
    | .ok values => .matched ⟨s.pos, values⟩
    | .error fault => .faulted fault
  .halt outcome (some (.matchEnded s.pos))

/-- Executes an instruction. -/
def execute (m : Setting) (s : State) : Instr → Step
  | .any n fail =>
    if s.pos + n ≤ m.subject.size then .next (s.proceedAt (s.pos + n)) none else s.refuse fail
  | .char byte fail =>
    if m.subject[s.pos]? = some byte then .next (s.proceedAt (s.pos + 1)) none else s.refuse fail
  | .set bytes fail =>
    if m.subject[s.pos]?.any bytes.contains then .next (s.proceedAt (s.pos + 1)) none
    else s.refuse fail
  | .span bytes => .next (s.proceedAt (m.spanStop bytes s.pos)) none
  | .ret =>
    match s.stack.pop? with
    | some (.ret address, stack) => .next { s with address := address, stack := stack } none
    | _ => .crash (.invalidStack s.address)
  | .done => m.finish s
  | .choice off back =>
    m.pushFrame s (.choice ⟨s.target off, s.pos - back, s.captures.size⟩) 1
  | .jump off => .next (s.jump off) none
  | .call off => m.pushFrame s (.ret (s.address + 1)) off
  | .openCall _ => .crash (.unresolvedCall s.address)
  | .commit off => s.popChoice fun _ s => .next (s.jump off) none
  | .partialCommit off => s.popChoice fun point s =>
    let point := { point with pos := s.pos, captures := s.captures.size }
    .next { s with address := s.target off, stack := s.stack.push (.choice point) } none
  | .backCommit off => s.popChoice fun point s =>
    .next
      { s with
        address := s.target off
        pos := point.pos
        captures := s.captures.shrink point.captures }
      none
  | .failTwice => { s with stack := s.stack.drop }.backtrack none
  | .fail => s.backtrack none
  | .giveUp => .halt .unmatched (some .matchFailed)
  | .matcher index =>
    match m.program.constant? index with
    | some (.matcher f) => m.runMatcher s f
    | _ => .crash (.invalidStack s.address)
  | .fullCapture kind length index =>
    .next (s.record (.full kind index (s.pos - length) length)) none
  | .emptyCapture kind index | .emptyCaptureConst kind index =>
    .next (s.record (.full kind index s.pos 0)) none
  | .openCapture kind back index => .next (s.record (.opened kind index (s.pos - back))) none
  | .closeCapture => .next (closeCapture s) none
  | .closeMatchTime => m.closeMatchTime s

/-- One step: the instruction at the current address. -/
def step (m : Setting) (s : State) : Step :=
  match m.program.code[s.address]? with
  | some instr => m.execute s instr
  | none => .crash (.invalidStack s.address)

/-- The state before the first instruction. The choice at the bottom of the stack leads to the last
instruction, which gives up. -/
def initial (m : Setting) (pos : Nat) : State where
  address := 0
  pos := pos
  stack := Stack.empty.push (.choice ⟨m.program.size - 1, pos, 0⟩)
  captures := #[]

end Setting

end PegMachine
