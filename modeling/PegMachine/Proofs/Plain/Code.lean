import PegMachine.Compile

/-!
# Plain code

The code of a pattern without any of the shorter forms that its parts would allow.

* `Block.plainChoice`, `Block.plainDifference` and so on: each combination in its one form.
* `plainLink`: a grammar in which every call is a call.
* `Pattern.lowerPlain`, `Pattern.plain`: the plain block of a pattern, and its plain program. The
  constants are those of the other code.
-/

namespace PegMachine

namespace Block

/-- The code of an ordered choice:
```
    choice L1
    a
    commit L2
L1: b
L2:
```
-/
def plainChoice (a b : Block) : Block :=
  .choice (a.length + 2 : Nat) 0 :: (a ++ .commit (b.length + 1 : Nat) :: b)

/-- The code that matches `a` where `b` does not match:
```
    choice L1
    b
    failTwice
L1: a
```
-/
def plainDifference (a b : Block) : Block :=
  .choice (b.length + 2 : Nat) 0 :: (b ++ .failTwice :: a)

/-- The code of the positive lookahead:
```
    choice L1
    a
    backCommit L2
L1: fail
L2:
```
-/
def plainLookahead (a : Block) : Block :=
  .choice (a.length + 2 : Nat) 0 :: (a ++ [.backCommit 2, .fail])

/-- The code that matches exactly `n` bytes or, for a negative `n`, fewer than `-n` bytes up to the
end. -/
def plainAny (n : Int) : Block :=
  if 0 ≤ n then skip n.natAbs
  else if n.natAbs ≤ maxSkip then [.any n.natAbs 2, .fail]
  else plainDifference [] (skip n.natAbs)

/-- The rounds behind the choice of a repetition: those that go on as long as possible, or `-n` of
them at most. -/
def plainRounds (body : Block) (n : Int) : Block :=
  if n = 0 then body ++ [.partialCommit (-body.length)] else committedCopies (n.natAbs - 1) body

/-- The code of at least `n` repetitions or, for a negative `n`, of at most `-n`. Behind the ones that
are asked for stands a choice:
```
    choice L2             choice L1
L1: body                  body
    partialCommit L1      partialCommit 1
L2:                       ...
                          body
                          commit 1
                      L1:
```
-/
def plainRepetition (body : Block) (n : Int) : Block :=
  copies n.toNat body ++
    .choice ((plainRounds body (min n 0)).length + 1 : Nat) 0 :: plainRounds body (min n 0)

/-- The code of a capture around a block. -/
def plainEnclose (kind : CaptureKind) (index : Nat) (body : Block) : Block :=
  .openCapture kind 0 index ::
    (body ++ [if kind = .matchTime then .closeMatchTime else .closeCapture])

end Block

/-- An instruction at an address with its open call linked, if it is one. -/
def Instr.linkedAt (starts : Nat → Nat) (address : Nat) : Instr → Instr
  | .openCall rule => .call (starts rule - address)
  | instr => instr

/-- The block of a grammar from the blocks of its rules. -/
def plainLink (startRule : Nat) (bodies : List Block) : Block :=
  let (addresses, size) := layOut 2 bodies
  let code := .call (addresses.getD startRule 0 : Nat) :: .jump (size - 1 : Nat) ::
    bodies.flatMap fun body => body ++ [.ret]
  code.mapIdx fun address instr => instr.linkedAt (addresses.getD · 0) address

mutual

/-- The plain block of a pattern that stands in a rule or outside of every grammar. -/
def Pattern.lowerPlain (scope : Option Scope) : Pattern → Lowering Block
  | .any n => return Block.plainAny n
  | .literal bytes => return Block.ofBytes bytes.toList
  | .set bytes => return Block.ofSet bytes
  | .fail => return [.fail]
  | .succeed => return []
  | .seq a b => do
    let codeA ← lowerPlain scope a
    let codeB ← lowerPlain scope b
    return codeA ++ codeB
  | .choice a b => do
    let codeA ← lowerPlain scope a
    let codeB ← lowerPlain scope b
    return Block.plainChoice codeA codeB
  | .not a => do
    return Block.plainDifference [] (← lowerPlain scope a)
  | .and a => do
    return Block.plainLookahead (← lowerPlain scope a)
  | .rep a n => do
    return Block.plainRepetition (← lowerPlain scope a) n
  | .diff a b => do
    let codeA ← lowerPlain scope a
    let codeB ← lowerPlain scope b
    return Block.plainDifference codeA codeB
  | .capture wrapping a => do
    let body ← lowerPlain scope a
    let index ← Lowering.addConstant? wrapping.constant?
    return Block.plainEnclose wrapping.kind index body
  | .position => return [.emptyCapture .position 0]
  | .const values => values.mapM Lowering.constCapture
  | .argument n => return [.emptyCapture .argument n]
  | .backref name => do
    return [.emptyCaptureConst .backref (← Lowering.addConstant (.name name))]
  | .matcher f => do
    return [.matcher (← Lowering.addConstant (.matcher f))]
  | .rule key =>
    match scope with
    | none => throw (.outsideGrammar key)
    | some scope =>
      match scope.table.index? key with
      | none => throw (.undefinedRule key)
      | some place => return [.openCall place]
  | .grammar start rules => do
    let table ← RuleTable.ofRules start rules
    return plainLink table.startIndex (← lowerPlainRules table rules)
termination_by structural p => p

/-- The plain blocks of the rules of a grammar. -/
def Pattern.lowerPlainRules (table : RuleTable) :
    List (RuleKey × Pattern) → Lowering (List Block)
  | [] => return []
  | (key, body) :: rest => do
    let code ← lowerPlain (some ⟨table, key⟩) body
    let codes ← lowerPlainRules table rest
    return code :: codes
termination_by structural rules => rules

end

/-- The plain program of a pattern. -/
def Pattern.plain (p : Pattern) : Except Fault Program := do
  let (block, constants) ← (p.lowerPlain none).run #[]
  return ⟨(block ++ [Instr.done, Instr.giveUp]).toArray, constants⟩

end PegMachine
