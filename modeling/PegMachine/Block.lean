import PegMachine.Fault
import PegMachine.Instr

/-!
# Blocks of code

A block is the code of a pattern. It is entered at its first instruction and left behind its last
one, and all its jumps are relative, so blocks can be put one after another.

* `Block.sequence`, `Block.choice`, `Block.difference`, `Block.lookahead`, `Block.repetition`: the
  code of a pattern from the code of its parts. Each takes the shortest form that the parts allow.
* `Block.enclose`: the code of a capture around a block.
* `checkedOffset`: the longest jump that a program may hold.
-/

namespace PegMachine

/-- The longest jump that a program may hold. -/
def maxOffset : Nat := 2147483647

/-- A distance as a jump, if it is not too long. -/
def checkedOffset (n : Nat) : Except Fault Int :=
  if n ≤ maxOffset then .ok n else .error .patternTooBig

/-- The greatest length of a capture that is recorded at once, and the greatest distance that the
start of a capture is moved. -/
def maxCaptureBack : Nat := 15

/-- The code of a pattern. -/
abbrev Block := List Instr

namespace Block

/-! ## Properties of blocks -/

/-- Whether the block is the failing instruction alone. -/
def isFail : Block → Bool
  | [.fail] => true
  | _ => false

/-- The set of a block that is a check of one byte and nothing else. -/
def charset? : Block → Option ByteSet
  | [instr] => if instr.isCheck && instr.step == 1 then instr.firstSet? else none
  | _ => none

/-- The number of bytes that the instructions of a block consume, one after another. -/
def width (code : Block) : Nat :=
  code.foldr (fun instr bytes => instr.step + bytes) 0

/-- The number of bytes that a block consumes, if it consists of checks and is short enough to be
captured at once. -/
def fixedLength? (code : Block) : Option Nat :=
  let length := width code
  if code.all Instr.isCheck && length ≤ maxCaptureBack then some length else none

/-- The number of bytes that a block skips, if it does nothing else. -/
def anyLength? (code : Block) : Option Nat :=
  if code.all Instr.isSkip then some (width code) else none

/-- Whether a jump of a block whose first instruction has address `start` lands on `target`. -/
def landsOn (target : Int) (start : Nat) : Block → Bool
  | [] => false
  | instr :: rest =>
    instr.offset?.any ((start : Int) + · == target) || landsOn target (start + 1) rest

/-- Whether the block can only fail at its first instruction, a check that nothing jumps back to. -/
def failsAtHead : Block → Bool
  | head :: rest => head.isCheck && rest.all Instr.cannotFail && !landsOn 0 0 (head :: rest)
  | [] => false

/-- The block with the check at its head turned into a test. -/
def withHeadTest (offset : Int) : Block → Block
  | head :: rest => head.withTest offset :: rest
  | [] => []

/-! ## Bytes -/

/-- The code that matches one byte of a set. -/
def ofSet (bytes : ByteSet) : Block :=
  if bytes.isEmpty then [.fail]
  else match bytes.single? with
  | some b => [.char b 0]
  | none => [.set bytes 0]

/-- The code that matches the given bytes. -/
def ofBytes (bytes : List UInt8) : Block :=
  bytes.map fun b => .char b 0

/-- The most bytes that one instruction skips. -/
def maxSkip : Nat := 255

/-- The code that skips `count` bytes. -/
def skip (count : Nat) : Block :=
  List.replicate (count / maxSkip) (.any maxSkip 0) ++
    if count % maxSkip = 0 then [] else [.any (count % maxSkip) 0]

/-! ## Choices -/

/-- Moves the check behind a choice in front of it as a test, so that no choice is pushed where the
test fails. -/
def hoistCheck : Block → Block
  | .choice off back :: check :: rest =>
    if check.isCheck && 1 < off && !landsOn 1 0 (.choice off back :: check :: rest) then
      check.withTest off :: .choice (off - 1) check.step :: rest
    else .choice off back :: check :: rest
  | code => code

/-- Whether the blocks start with checks of which at most one can hold. -/
def areExclusive (a b : Block) : Bool :=
  match a, b with
  | x :: _, y :: _ =>
    match x.firstSet?, y.firstSet? with
    | some s, some t => x.isCheck && !landsOn 0 0 a && y.isCheck && s.isDisjoint t
    | _, _ => false
  | _, _ => false

/-- The code of an ordered choice. Where the head of `a` decides, a test takes the place of the
choice:
```
    test L1               choice L1
    a                     a
    jump L2               commit L2
L1: b                 L1: b
L2:                   L2:
```
-/
def choice (a b : Block) : Except Fault Block :=
  if isFail a then .ok b
  else if isFail b || a.isEmpty then .ok a
  else match charset? a, charset? b with
  | some s, some t => .ok (ofSet (s.union t))
  | _, _ =>
    if areExclusive a b || failsAtHead a then do
      let toSecond ← checkedOffset (a.length + 1)
      let toEnd ← checkedOffset (b.length + 1)
      return withHeadTest toSecond a ++ .jump toEnd :: b
    else do
      let toSecond ← checkedOffset (a.length + 2)
      let toEnd ← checkedOffset (b.length + 1)
      return hoistCheck (.choice toSecond 0 :: a ++ .commit toEnd :: b)

/-- The code that matches `a` where `b` does not match:
```
    test L1               choice L1
    b                     b
    fail                  failTwice
L1: a                 L1: a
```
-/
def difference (a b : Block) : Except Fault Block :=
  if isFail b then .ok a
  else if b.isEmpty then .ok [.fail]
  else match charset? a, charset? b with
  | some s, some t => .ok (ofSet (s.diff t))
  | _, _ =>
    if failsAtHead b then do
      let toFirst ← checkedOffset (b.length + 1)
      return withHeadTest toFirst b ++ .fail :: a
    else do
      let toFirst ← checkedOffset (b.length + 2)
      return hoistCheck (.choice toFirst 0 :: b ++ .failTwice :: a)

/-- The code of the positive lookahead:
```
    choice L1
    a
    backCommit L2
L1: fail
L2:
```
-/
def lookahead (a : Block) : Except Fault Block :=
  if a.isEmpty || isFail a then .ok a
  else do
    let toFail ← checkedOffset (a.length + 2)
    return .choice toFail 0 :: a ++ [.backCommit 2, .fail]

/-! ## Sequences -/

/-- The code that matches exactly `n` bytes or, for a negative `n`, fewer than `-n` bytes up to the
end. -/
def any (n : Int) : Except Fault Block := do
  let count := n.natAbs
  let _ ← checkedOffset ((count + maxSkip - 1) / maxSkip)
  if 0 ≤ n then .ok (skip count)
  else if count ≤ maxSkip then .ok [.any count 2, .fail]
  else difference [] (skip count)

/-- The code of a sequence. -/
def sequence (a b : Block) : Except Fault Block :=
  if a.isFail || b.isEmpty then .ok a
  else if b.isFail || a.isEmpty then .ok b
  else match anyLength? a, anyLength? b with
  | some m, some n => any (m + n : Nat)
  | _, _ => .ok (a ++ b)

/-! ## Repetitions -/

/-- A block `count` times over. -/
def copies (count : Nat) (body : Block) : Block :=
  (List.replicate count body).flatten

/-- The code of as many repetitions as possible:
```
    span                  L1: test L2               choice L2
                          body                  L1: body
                          jump L1                   partialCommit L1
                      L2:                       L2:
```
-/
def loop (body : Block) : Block :=
  match charset? body with
  | some bytes => [.span bytes]
  | none =>
    if failsAtHead body then withHeadTest (body.length + 1 : Nat) body ++ [.jump (-body.length)]
    else .choice (body.length + 2 : Nat) 0 :: body ++ [.partialCommit (-body.length)]

/-- The body `count` times over, each copy with a test that jumps to the end. -/
def testedCopies (count : Nat) (body : Block) : Block :=
  (List.range count).reverse.flatMap fun later =>
    withHeadTest ((later + 1) * body.length : Nat) body

/-- The body `count + 1` times over, each copy followed by an instruction that keeps what it
matched. -/
def committedCopies (count : Nat) (body : Block) : Block :=
  copies count (body ++ [.partialCommit 1]) ++ body ++ [.commit 1]

/-- The code of at most `count` repetitions:
```
    test L1               choice L1
    body                  body
    ...                   partialCommit 1
    test L1               ...
    body                  body
L1:                       commit 1
                      L1:
```
-/
def optional (count : Nat) (body : Block) : Block :=
  if failsAtHead body then testedCopies count body
  else
    hoistCheck (.choice (1 + count * (body.length + 1) : Nat) 0 :: committedCopies (count - 1) body)

/-- The code of at least `n` repetitions or, for a negative `n`, of at most `-n`. -/
def repetition (body : Block) (n : Int) : Except Fault Block := do
  let _ ← checkedOffset ((n.natAbs + 2) * (body.length + 1))
  return if 0 ≤ n then copies n.natAbs body ++ loop body else optional n.natAbs body

/-! ## Captures -/

/-- The code of a capture around a block. A short block of checks is captured once it has
matched. -/
def enclose (kind : CaptureKind) (index : Nat) (body : Block) : Block :=
  if kind = .matchTime then .openCapture kind 0 index :: body ++ [.closeMatchTime]
  else match fixedLength? body with
  | some length => body ++ [.fullCapture kind length index]
  | none => .openCapture kind 0 index :: body ++ [.closeCapture]

end Block

end PegMachine
