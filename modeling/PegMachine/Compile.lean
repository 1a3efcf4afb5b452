import PegMachine.Program.Assembly
import PegMachine.RuleTable

/-!
# Compilation

* `Pattern.lower`: the block of a pattern.
* `link`: the block of a grammar from the blocks of its rules.
* `Pattern.compile`: the program of a pattern.
* `Pattern.sameCode`: two patterns are taken as equal when they compile to the same instructions.
-/

namespace PegMachine

/-- Lowering adds constants and may be refused. -/
abbrev Lowering := StateT (Array Constant) (Except Fault)

namespace Lowering

/-- Adds a constant and gives its number, counted from one. -/
def addConstant (constant : Constant) : Lowering Nat := fun constants =>
  .ok (constants.size + 1, constants.push constant)

/-- Adds a constant if there is one. Zero is the number of none. -/
def addConstant? : Option Constant → Lowering Nat
  | some constant => addConstant constant
  | none => pure 0

/-- Adds a value as a constant and gives the capture of it. -/
def constCapture (value : Value) : Lowering Instr := do
  return .emptyCaptureConst .const (← addConstant (.value value))

end Lowering

namespace Wrapping

/-- The kind of the entries of an enclosing capture. -/
def kind : Wrapping → CaptureKind
  | .simple => .simple
  | .table => .table
  | .subst => .subst
  | .group | .named _ => .group
  | .fold _ => .fold
  | .function _ => .function
  | .query _ => .query
  | .template _ => .template
  | .matchTime _ => .matchTime

/-- The constant that an enclosing capture needs. -/
def constant? : Wrapping → Option Constant
  | .simple | .table | .subst | .group => none
  | .named name => some (.name name)
  | .fold f => some (.fold f)
  | .function f => some (.function f)
  | .query entries => some (.query entries)
  | .template format => some (.template format)
  | .matchTime f => some (.matchTime f)

end Wrapping

/-! ## Linking -/

/-- Whether the code at an address returns right away, looking at `n` instructions at most. -/
def returnsAt (code : Array Instr) : (n : Nat) → (address : Int) → Bool
  | 0, _ => false
  | n + 1, address =>
    if address < 0 then false
    else match code[address.toNat]? with
    | some (.jump off) => returnsAt code n (address + off)
    | some .ret => true
    | _ => false

/-- Links the open call at an address, if there is one. A call that only a return follows becomes a
jump. -/
def linkCall (addresses : Array Nat) (code : Array Instr) (address : Nat) : Array Instr :=
  match code[address]? with
  | some (.openCall rule) =>
    let offset : Int := (addresses.getD rule 0 : Int) - address
    code.setIfInBounds address
      (if returnsAt code code.size (address + 1) then .jump offset else .call offset)
  | _ => code

/-- The addresses of blocks put one after another from `start`, each with a return behind it, and
the address behind the last. -/
def layOut (start : Nat) (bodies : List Block) : Array Nat × Nat :=
  bodies.foldl (fun (addresses, next) body => (addresses.push next, next + body.length + 1))
    (#[], start)

/-- The block of a grammar from the blocks of its rules:
```
    call start
    jump L1
    rule 0
    ret
    ...
    rule n
    ret
L1:
```
-/
def link (startRule : Nat) (bodies : List Block) : Except Fault Block := do
  let (addresses, size) := layOut 2 bodies
  let toStart ← checkedOffset (addresses.getD startRule 0)
  let toEnd ← checkedOffset (size - 1)
  let code := .call toStart :: .jump toEnd :: bodies.flatMap fun body => body ++ [.ret]
  return ((List.range code.length).foldl (linkCall addresses) code.toArray).toList

/-! ## Lowering -/

mutual

/-- The block of a pattern that stands in a rule or outside of every grammar. -/
def Pattern.lower (scope : Option Scope) : Pattern → Lowering Block
  | .any n => Block.any n
  | .literal bytes => return Block.ofBytes bytes.toList
  | .set bytes => return Block.ofSet bytes
  | .fail => return [.fail]
  | .succeed => return []
  | .seq a b => do
    let codeA ← lower scope a
    let codeB ← lower scope b
    Block.sequence codeA codeB
  | .choice a b => do
    let codeA ← lower scope a
    let codeB ← lower scope b
    Block.choice codeA codeB
  | .not a => do
    Block.difference [] (← lower scope a)
  | .and a => do
    Block.lookahead (← lower scope a)
  | .rep a n => do
    if 0 ≤ n then
      checkLoop scope a
    Block.repetition (← lower scope a) n
  | .diff a b => do
    let codeA ← lower scope a
    let codeB ← lower scope b
    Block.difference codeA codeB
  | .capture wrapping a => do
    let body ← lower scope a
    let index ← Lowering.addConstant? wrapping.constant?
    return Block.enclose wrapping.kind index body
  | .position => return [.emptyCapture .position 0]
  | .const values => values.mapM Lowering.constCapture
  | .argument n => return [.emptyCapture .argument n]
  | .backref name => do
    return [.emptyCaptureConst .backref (← Lowering.addConstant (.name name))]
  | .matcher f => do
    return [.matcher (← Lowering.addConstant (.matcher f))]
  | .rule key =>
    match scope with
    | none => throw (.outsideGrammar key)
    | some scope =>
      match scope.table.index? key with
      | none => throw (.undefinedRule key)
      | some place => return [.openCall place]
  | .grammar start rules => do
    let table ← RuleTable.ofRules start rules
    link table.startIndex (← lowerRules table rules)
termination_by structural p => p

/-- The blocks of the rules of a grammar. -/
def Pattern.lowerRules (table : RuleTable) : List (RuleKey × Pattern) → Lowering (List Block)
  | [] => return []
  | (key, body) :: rest => do
    let code ← lower (some ⟨table, key⟩) body
    let codes ← lowerRules table rest
    return code :: codes
termination_by structural rules => rules

end

namespace Pattern

/-- The program of a pattern. -/
def compile (p : Pattern) : Except Fault Program := do
  let (block, constants) ← (p.lower none).run #[]
  Program.ofBlock block constants

/-- Whether both patterns compile, to the same instructions. The constants are not compared. -/
def sameCode (p q : Pattern) : Bool :=
  match p.compile, q.compile with
  | .ok a, .ok b => a.code == b.code
  | _, _ => false

/-- Whether a pattern is taken as equal to another one or, if none is given, to itself. -/
def equals (p : Pattern) : Option Pattern → Bool
  | some q => p.sameCode q
  | none => true

end Pattern

end PegMachine
