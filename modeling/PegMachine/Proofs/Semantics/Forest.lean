import PegMachine.Capture.Entry
import PegMachine.Compile

/-!
# Capture forests

* `Tree`: a capture with its span and the captures nested in it.
* `Tree.marks`, `forestMarks`: captures written from left to right, one mark for a capture without
  nested captures and two around the nested ones for any other.
* `Entry.mark`: a recorded entry, with the number of its constant replaced by the constant.
-/

namespace PegMachine

/-- What comes along with a capture besides its span. -/
inductive Payload where
  | nothing
  /-- The number of an argument. -/
  | argument (n : Nat)
  | constant (constant : Constant)

/-- A capture, from `start` to `stop`, with the captures nested in it. -/
inductive Tree where
  | node (kind : CaptureKind) (payload : Payload) (start stop : Nat) (nested : List Tree)

/-- A recorded entry without reference to a table of constants. -/
inductive Mark where
  | opened (kind : CaptureKind) (payload : Payload) (start : Nat)
  | full (kind : CaptureKind) (payload : Payload) (start stop : Nat)
  | closed (stop : Nat)
  | dynamic (start stop : Nat) (values : List Value)

/-! ## Marks of captures -/

/-- The marks of a capture, from those of what is nested in it. -/
def wrapMarks (kind : CaptureKind) (payload : Payload) (start stop : Nat) : List Mark → List Mark
  | [] => [.full kind payload start stop]
  | mark :: rest => .opened kind payload start :: (mark :: rest ++ [.closed stop])

mutual

/-- The marks of a capture. -/
def Tree.marks : Tree → List Mark
  | .node kind payload start stop nested => wrapMarks kind payload start stop (forestMarks nested)

/-- The marks of captures one after another. -/
def forestMarks : List Tree → List Mark
  | [] => []
  | tree :: rest => tree.marks ++ forestMarks rest

end

/-! ## Marks of entries -/

/-- What an entry refers to. -/
def Program.payload (program : Program) (kind : CaptureKind) (index : Nat) : Payload :=
  if kind = .argument then .argument index
  else match program.constant? index with
  | some constant => .constant constant
  | none => .nothing

/-- The mark of a recorded entry. -/
def Entry.mark (program : Program) : Entry → Mark
  | .opened kind index pos => .opened kind (program.payload kind index) pos
  | .full kind index pos length => .full kind (program.payload kind index) pos (pos + length)
  | .closed pos => .closed pos
  | .dynamic start stop values => .dynamic start stop values

/-- The captures recorded are those of a forest. -/
def Serialises (program : Program) (entries : List Entry) (forest : List Tree) : Prop :=
  entries.map (Entry.mark program) = forestMarks forest

section

variable {program : Program} {entries : List Entry} {forest : List Tree}

theorem Program.payload_eq_constant {kind : CaptureKind} {index : Nat} {constant : Constant}
    (hkind : kind ≠ .argument) :
    program.payload kind index = .constant constant ↔
      program.constant? index = some constant := by
  rw [payload, if_neg hkind]
  cases program.constant? index <;> simp

theorem forestMarks_append (a b : List Tree) :
    forestMarks (a ++ b) = forestMarks a ++ forestMarks b := by
  induction a with
  | nil => rfl
  | cons tree rest ih => rw [List.cons_append, forestMarks, ih, forestMarks, List.append_assoc]

theorem serialises_nil : Serialises program [] [] := rfl

theorem Serialises.append {more : List Entry} {others : List Tree}
    (h : Serialises program entries forest) (h' : Serialises program more others) :
    Serialises program (entries ++ more) (forest ++ others) := by
  rw [Serialises] at h h' ⊢
  rw [List.map_append, h, h', forestMarks_append]

end

end PegMachine
