import PegMachine.Block
import PegMachine.Program

/-!
# Assembly of programs

* `moveOpens`: the pass that moves the starts of captures past the checks behind them.
* `threadJumps`: the pass that lets jumps go directly to where they lead in the end.
* `Program.ofBlock`: the program of a block, both passes made and the instructions that end a match
  put behind it.
-/

namespace PegMachine

/-! ## Moving the starts of captures -/

/-- The addresses that jumps of the code land on, the end of the code included. -/
def jumpTargets (code : Block) : Array Bool :=
  code.zipIdx.foldl (fun targets (instr, address) =>
    match instr.offset? with
    | some offset =>
      let target := (address : Int) + offset
      if target < 0 then targets else targets.setIfInBounds target.toNat true
    | none => targets) (Array.replicate (code.length + 1) false)

/-- The start of a capture on its way past the checks behind it, `back` bytes so far. -/
structure PendingOpen where
  kind : CaptureKind
  back : Nat
  index : Nat

namespace PendingOpen

/-- The start of a capture behind an instruction, if it may be moved there. -/
def pass? (targets : Array Bool) (address : Nat) (instr : Instr) :
    Option PendingOpen → Option PendingOpen
  | some p =>
    if instr.isCheck && !targets.getD address false && p.back + instr.step ≤ maxCaptureBack then
      some { p with back := p.back + instr.step }
    else none
  | none => none

/-- Writes the start of a capture where it is. -/
def write (done : Array Instr) : Option PendingOpen → Array Instr
  | some p => done.push (.openCapture p.kind p.back p.index)
  | none => done

end PendingOpen

/-- Appends code whose first instruction has the given address to `done` while it moves the starts
of captures, `pending` among them. -/
def moveOpensFrom (targets : Array Bool) (address : Nat) (pending : Option PendingOpen)
    (done : Array Instr) : Block → Array Instr
  | [] => PendingOpen.write done pending
  | instr :: rest =>
    match PendingOpen.pass? targets address instr pending with
    | some p => moveOpensFrom targets (address + 1) (some p) (done.push instr) rest
    | none =>
      let done := PendingOpen.write done pending
      match instr with
      | .openCapture kind 0 index =>
        moveOpensFrom targets (address + 1) (some ⟨kind, 0, index⟩) done rest
      | instr => moveOpensFrom targets (address + 1) none (done.push instr) rest

/-- Moves the start of each capture past the checks behind it, as far as no jump lands among them
and the distance stays small. A start that was moved reaches back by that distance. -/
def moveOpens (code : Block) : Block :=
  (moveOpensFrom (jumpTargets code) 0 none #[] code).toList

/-! ## Threading jumps -/

/-- Where the unconditional jump at an address leads, unless it leads to itself. -/
def jumpAt? (code : Array Instr) (address : Int) : Option Int :=
  if address < 0 then none
  else match code[address.toNat]? with
  | some (.jump off) => if off = 0 then none else some (address + off)
  | _ => none

/-- The address that a chain of at most `n` unconditional jumps leads to. -/
def followJumps (code : Array Instr) : (n : Nat) → (address : Int) → Int
  | 0, address => address
  | n + 1, address =>
    match jumpAt? code address with
    | some next => followJumps code n next
    | none => address

/-- Lets the jump of one instruction go to the end of the chain of jumps that it leads to. -/
def threadJump (code : Array Instr) (address : Nat) : Array Instr :=
  match code[address]? with
  | none => code
  | some instr =>
    match instr.offset? with
    | none => code
    | some offset =>
      let target := followJumps code code.size (address + offset)
      code.setIfInBounds address (instr.withOffset (target - address))

/-- Lets every jump go directly to where it leads in the end. -/
def threadJumps (code : Array Instr) : Array Instr :=
  (List.range code.size).foldl threadJump code

/-! ## Whole programs -/

/-- The program of a block, with the instructions that end a match put behind it. -/
def Program.ofBlock (block : Block) (constants : Array Constant) : Except Fault Program := do
  let code := (threadJumps ((moveOpens block).toArray.push .done)).push .giveUp
  let _ ← checkedOffset code.size
  return ⟨code, constants⟩

end PegMachine
