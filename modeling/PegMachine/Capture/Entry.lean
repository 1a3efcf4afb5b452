import PegMachine.Program

/-!
# Recorded captures

A match records its captures in one list, in the order in which they start. A capture without nested
captures takes one entry, any other one an entry where it starts and one where it ends.

* `Entry`: the entries.
* `Entry.openBelow?`: the innermost capture that is still open.
* `Entry.after?`, `Entry.stop?`: where a capture ends, in the list and in the subject.
* `Entry.groupBelow`: the latest group of a name.
-/

namespace PegMachine

/-- An entry of the list of recorded captures. -/
inductive Entry where
  /-- The start of a capture; its end follows later, or is not reached yet. -/
  | opened (kind : CaptureKind) (index : Nat) (pos : Nat)
  /-- A capture without nested captures. -/
  | full (kind : CaptureKind) (index : Nat) (pos : Nat) (length : Nat)
  /-- The end of the innermost open capture. -/
  | closed (pos : Nat)
  /-- The values that came out of a match-time capture. -/
  | dynamic (start stop : Nat) (values : List Value)

namespace Entry

instance : Inhabited Entry := ⟨.closed 0⟩

/-- The kind of the capture that starts with an entry. -/
def kind? : Entry → Option CaptureKind
  | .opened kind _ _ | .full kind _ _ _ => some kind
  | _ => none

/-- The position in the subject that an entry is about, the first one if there are two. -/
def start : Entry → Nat
  | .opened _ _ pos | .full _ _ pos _ | .closed pos => pos
  | .dynamic start _ _ => start

/-! ## Bracketing -/

/-- The innermost open capture among the first `limit` entries, when the ends of `depth` captures
have been passed already. -/
def openBelow? (entries : Array Entry) : (depth limit : Nat) → Option Nat
  | _, 0 => none
  | depth, i + 1 =>
    match entries[i]? with
    | some (.closed _) => openBelow? entries (depth + 1) i
    | some (.opened ..) =>
      match depth with
      | 0 => some i
      | depth + 1 => openBelow? entries depth i
    | _ => openBelow? entries depth i

/-- The innermost capture that is still open at the end of the list. -/
def innermostOpen? (entries : Array Entry) : Option Nat :=
  openBelow? entries 0 entries.size

/-- The index after the end of the outermost of the `depth` captures open at index `i`. -/
def afterClose? (entries : Array Entry) (depth i : Nat) : Option Nat :=
  if h : i < entries.size then
    match entries[i] with
    | .opened .. => afterClose? entries (depth + 1) (i + 1)
    | .closed _ => if depth ≤ 1 then some (i + 1) else afterClose? entries (depth - 1) (i + 1)
    | _ => afterClose? entries depth (i + 1)
  else none
termination_by entries.size - i

/-- The index right after the capture that starts at index `i`. -/
def after? (entries : Array Entry) (i : Nat) : Option Nat :=
  match entries[i]? with
  | some (.opened ..) => afterClose? entries 0 i
  | some (.full ..) | some (.dynamic ..) => some (i + 1)
  | some (.closed _) | none => none

/-- The position in the subject where the capture that starts at index `i` ends. -/
def stop? (entries : Array Entry) (i : Nat) : Option Nat :=
  match entries[i]? with
  | some (.full _ _ pos length) => some (pos + length)
  | some (.dynamic _ stop _) => some stop
  | some (.opened ..) => do
    let last ← entries[(← afterClose? entries 0 i) - 1]?
    return last.start
  | some (.closed _) | none => none

/-! ## Groups -/

/-- Whether a group of the given name starts with an entry. -/
def isGroup (program : Program) (name : String) : Entry → Bool
  | .opened .group index _ | .full .group index _ _ =>
    match program.constant? index with
    | some (.name other) => other == name
    | _ => false
  | _ => false

/-- The latest closed group of the given name among the first `limit` entries, when the ends of
`depth` captures have been passed already. Captures that are open at the limit do not count, and
neither does what is nested in closed captures. -/
def groupBelow (program : Program) (name : String) (entries : Array Entry) :
    (depth limit : Nat) → Except Fault Nat
  | 0, 0 => .error (.backReference name)
  | _ + 1, 0 => .error .malformedCaptures
  | depth, i + 1 =>
    match entries[i]? with
    | some (.closed _) => groupBelow program name entries (depth + 1) i
    | some (.opened kind index pos) =>
      match depth with
      | 0 => groupBelow program name entries 0 i
      | 1 =>
        if isGroup program name (.opened kind index pos) then .ok i
        else groupBelow program name entries 0 i
      | depth + 2 => groupBelow program name entries (depth + 1) i
    | some entry =>
      if depth = 0 ∧ isGroup program name entry then .ok i
      else groupBelow program name entries depth i
    | none => groupBelow program name entries depth i

end Entry

end PegMachine
