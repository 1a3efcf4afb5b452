import PegMachine.Capture.Resolve

/-!
# Resolving with one cursor

The resolver as a program with one cursor that all its parts move. Values and texts are appended to
what has been found so far, the number of values is returned, and what needs a capture elsewhere
takes the cursor there and back.

* `CursorM`: computations that move the cursor.
* `Cursor.pushNested`, `Cursor.fold`, `Cursor.backref`: the values nested in a capture, folds and
  back references.
* `Cursor.addItems`: the pieces that a template can refer to.
* `Cursor.substitute`, `Cursor.fill`: substitutions and templates.
* `Cursor.push`, `Cursor.addText`: the values of a capture, and its text inside a replacement.
* `Cursor.resolve`, `Cursor.nested`: the values of the whole list, and those nested in one capture.

`push` and `addText` call each other; what is between them is given both, for captures one level
deeper.
-/

namespace PegMachine

/-- A computation that reads and moves the cursor, and may end with a fault. -/
abbrev CursorM (α : Type) : Type := StateT Nat (Except Fault) α

namespace Cursor

variable (r : Resolver)

/-! ## Entries -/

/-- Moves the cursor to the next entry. -/
def advance : CursorM Unit := modify (· + 1)

/-- The entry at the cursor. -/
def entry : CursorM Entry := do
  Resolver.present r.entries[← get]?

/-- Whether a capture ends at the cursor. -/
def atClose : CursorM Bool := do
  match ← entry r with
  | .closed _ => return true
  | _ => return false

/-- The position where the capture ends that ends at the cursor. -/
def closePos : CursorM Nat := do
  match ← entry r with
  | .closed pos => return pos
  | _ => throw .malformedCaptures

/-- Moves the cursor behind the capture that starts there. -/
def skip : CursorM Unit := do
  set (← Resolver.present (Entry.after? r.entries (← get)))

/-- The constant of a number. -/
def constant (index : Nat) : CursorM Constant :=
  Resolver.present (r.program.constant? index)

/-! ## Loops -/

section

variable {σ : Type}

/-- Repeats the body until a capture ends at the cursor, `rounds` times at most. -/
def repeatUntilClose (body : σ → CursorM σ) : (rounds : Nat) → σ → CursorM σ
  | 0, _ => throw .malformedCaptures
  | rounds + 1, state => do
    if ← atClose r then return state
    else repeatUntilClose body rounds (← body state)

/-- Repeats the body until a capture ends at the cursor. A body that moves the cursor on is repeated
once for each entry at most. -/
def untilClose (body : σ → CursorM σ) (state : σ) : CursorM σ :=
  repeatUntilClose r body (r.entries.size + 1) state

end

/-! ## Nested values -/

section Nested

variable (push : Array Value → CursorM (Nat × Array Value))

/-- Appends the values of a nested capture, and adds their number to that of those before. -/
def pushMore : Nat × Array Value → CursorM (Nat × Array Value)
  | (n, out) => do
    let (more, out) ← push out
    return (n + more, out)

/-- Appends the values nested in the capture at the cursor. The text of the capture comes last,
where it is asked for or there are no values. -/
def pushNested (whole : Bool) (out : Array Value) : CursorM (Nat × Array Value) := do
  let first ← entry r
  advance
  match first with
  | .full _ _ pos length => return (1, out.push (.str (← r.text pos (pos + length))))
  | .opened _ _ pos =>
    let (n, out) ← untilClose r (pushMore push) (0, out)
    let stop ← closePos r
    advance
    if whole || n == 0 then return (n + 1, out.push (.str (← r.text pos stop)))
    else return (n, out)
  | _ => throw .malformedCaptures

/-- Appends the values of the latest group of a name, and moves the cursor there and back. -/
def backref (index : Nat) (out : Array Value) : CursorM (Nat × Array Value) := do
  match ← constant r index with
  | .name name =>
    let here ← get
    set (← Entry.groupBelow r.program name r.entries 0 here)
    let result ← pushNested r push false out
    set (here + 1)
    return result
  | _ => throw .malformedCaptures

/-- Combines the value so far with the values of a nested capture. -/
def foldIn (f : FoldFunction) (value : Value) : CursorM Value := do
  let (_, values) ← push #[]
  return f value values.toList

/-- The first value of the captures up to the end of the one around them, combined with the values
of those behind. -/
def foldNested (f : FoldFunction) : CursorM Value := do
  if ← atClose r then throw .emptyFold
  else
    let (_, values) ← push #[]
    match values[0]? with
    | some value => untilClose r (foldIn push f) value
    | none => throw .emptyFold

/-- Appends the first value nested in the capture at the cursor, combined with those behind. -/
def fold (index : Nat) (out : Array Value) : CursorM (Nat × Array Value) := do
  match ← constant r index with
  | .fold f =>
    let first ← entry r
    advance
    match first with
    | .full .. => throw .emptyFold
    | _ =>
      let value ← foldNested r push f
      advance
      return (1, out.push value)
  | _ => throw .malformedCaptures

end Nested

/-! ## Pieces of templates -/

/-- Appends the piece of a capture nested in one that a template refers to. A simple capture is
looked into, any other one is a piece itself, and all are passed over once there are enough. -/
def addItem (inner : Array Piece → CursorM (Array Piece)) (items : Array Piece) :
    CursorM (Array Piece) := do
  if Resolver.maxPieces ≤ items.size then
    skip r
    return items
  else if (← entry r).kind? = some .simple then inner items
  else
    let cursor ← get
    skip r
    return items.push (.capture cursor)

/-- Appends the text of the capture at the cursor and the pieces nested in it. The text takes its
place first, and gets its end last. Captures are entered `depth` levels deep at most. -/
def addItems : (depth : Nat) → (items : Array Piece) → CursorM (Array Piece)
  | 0, _ => throw .malformedCaptures
  | depth + 1, items => do
    let first ← entry r
    let place := items.size
    let items := items.push (.text first.start first.start)
    advance
    match first with
    | .full _ _ pos length => return items.setIfInBounds place (.text first.start (pos + length))
    | .opened .. =>
      let items ← untilClose r (addItem r (addItems depth)) items
      let stop ← closePos r
      advance
      return items.setIfInBounds place (.text first.start stop)
    | _ => throw .malformedCaptures

/-! ## Texts -/

section Texts

variable (addText : Bytes → CursorM (Bool × Bytes))

/-- Appends the subject up to the capture at the cursor and what takes the place of that capture.
The subject has been used up to `used`; a capture without values takes none. -/
def replaceOne : Bytes × Nat → CursorM (Bytes × Nat)
  | (done, used) => do
    let here ← get
    let start := (← entry r).start
    let stop ← Resolver.present (Entry.stop? r.entries here)
    let before ← r.text used start
    let (found, done) ← addText (done ++ before)
    return (done, if found then stop else start)

/-- Appends the text of the capture at the cursor with the nested captures replaced. -/
def substitute (done : Bytes) : CursorM Bytes := do
  let first ← entry r
  advance
  match first with
  | .full _ _ pos length => return done ++ (← r.text pos (pos + length))
  | .opened _ _ pos =>
    let (done, used) ← untilClose r (replaceOne r addText) (done, pos)
    let stop ← closePos r
    advance
    return done ++ (← r.text used stop)
  | _ => throw .malformedCaptures

/-- Appends the text of piece `n` of a template. A capture takes the cursor there. -/
def addPiece (items : Array Piece) (n : Nat) (done : Bytes) : CursorM Bytes := do
  match items[n]? with
  | some (.text start stop) => return done ++ (← r.text start stop)
  | some (.capture cursor) =>
    set cursor
    let (found, done) ← addText done
    if found then return done else throw (.noCaptureValue n)
  | none => throw (.captureIndex n)

/-- Writes out a template. -/
def expand (items : Array Piece) (done : Bytes) : (format : List UInt8) → CursorM Bytes
  | [] => return done
  | [b] => return done.push b
  | b :: c :: rest => do
    if b = 37 then
      if 48 ≤ c ∧ c ≤ 57 then
        expand items (← addPiece r addText items (c.toNat - 48) done) rest
      else expand items (done.push c) rest
    else expand items (done.push b) (c :: rest)

/-- Appends a template written out for the capture at the cursor. The pieces may take the cursor
elsewhere, and it is taken back. -/
def fillFormat (format done : Bytes) : CursorM Bytes := do
  let items ← addItems r (r.entries.size + 1) #[]
  let behind ← get
  let done ← expand r addText items done format.toList
  set behind
  return done

/-- Appends the text of a template for the capture at the cursor. -/
def fill (done : Bytes) : CursorM Bytes := do
  match ← entry r with
  | .opened _ index _ | .full _ index _ _ =>
    match ← constant r index with
    | .template format => fillFormat r addText format done
    | _ => throw .malformedCaptures
  | _ => throw .malformedCaptures

end Texts

/-! ## Values -/

/-- Moves the last of the values in front of those behind the first `size`. -/
def lastToFront (size : Nat) (values : Array Value) : Array Value :=
  values.take size ++ (values.toList.drop size).rotateRight 1

section Values

variable (push : Array Value → CursorM (Nat × Array Value))
  (addText : Bytes → CursorM (Bool × Bytes))

/-- Appends the values of the capture at the cursor, given its first entry, its kind, its constant
and its position. -/
def pushKind (first : Entry) (kind : CaptureKind) (index pos : Nat) (out : Array Value) :
    CursorM (Nat × Array Value) := do
  match kind with
  | .position =>
    advance
    return (1, out.push (.int pos))
  | .const =>
    advance
    match ← constant r index with
    | .value value => return (1, out.push value)
    | _ => throw .malformedCaptures
  | .argument =>
    advance
    match if index = 0 then none else r.arguments[index - 1]? with
    | some value => return (1, out.push value)
    | none => throw (.missingArgument index)
  | .backref => backref r push index out
  | .simple =>
    let (n, found) ← pushNested r push true out
    return (n, lastToFront out.size found)
  | .table =>
    advance
    match first with
    | .opened .. =>
      let (_, items) ← untilClose r (pushMore push) (0, #[])
      advance
      return (1, out.push (.list items.toList))
    | _ => return (1, out.push (.list []))
  | .group =>
    if index = 0 then pushNested r push false out
    else
      skip r
      return (0, out)
  | .function =>
    match ← constant r index with
    | .function f =>
      let (_, found) ← pushNested r push false #[]
      let values := f found.toList
      return (values.length, out ++ values)
    | _ => throw .malformedCaptures
  | .query =>
    match ← constant r index with
    | .query table =>
      let (_, keys) ← pushNested r push false #[]
      match (keys[0]?.bind Value.text?).bind table.find? with
      | some value => return (1, out.push value)
      | none => return (0, out)
    | _ => throw .malformedCaptures
  | .template =>
    let text ← fill r addText #[]
    return (1, out.push (.str text))
  | .subst =>
    let text ← substitute r addText #[]
    return (1, out.push (.str text))
  | .fold => fold r push index out
  | .matchTime =>
    skip r
    return (0, out)

/-- Appends the values of the capture at the cursor, given what appends those of nested ones. -/
def pushWith (out : Array Value) : CursorM (Nat × Array Value) := do
  let first ← entry r
  match first with
  | .dynamic _ _ values =>
    advance
    return (values.length, out ++ values)
  | .opened kind index pos | .full kind index pos _ =>
    pushKind r push addText first kind index pos out
  | .closed _ => throw .malformedCaptures

/-- Appends the text of the first value of the capture at the cursor, and tells whether it has a
value, given what does so for nested ones. -/
def addTextWith (done : Bytes) : CursorM (Bool × Bytes) := do
  match (← entry r).kind? with
  | some .template => return (true, ← fill r addText done)
  | some .subst => return (true, ← substitute r addText done)
  | _ =>
    let (_, values) ← pushWith r push addText #[]
    match values[0]? with
    | some value =>
      match value.text? with
      | some text => return (true, done ++ text)
      | none => throw .invalidReplacement
    | none => return (false, done)

end Values

mutual

/-- Appends the values of the capture at the cursor. Captures are entered, and back references
followed, `depth` levels deep at most. -/
def push : (depth : Nat) → (out : Array Value) → CursorM (Nat × Array Value)
  | 0, _ => throw .malformedCaptures
  | depth + 1, out => pushWith r (push depth) (addText depth) out

/-- Appends the text of the first value of the capture at the cursor, and tells whether it has a
value. Captures are entered, and back references followed, `depth` levels deep at most. -/
def addText : (depth : Nat) → (done : Bytes) → CursorM (Bool × Bytes)
  | 0, _ => throw .malformedCaptures
  | depth + 1, done => addTextWith r (push depth) (addText depth) done

end

/-- Appends the values of the captures from the cursor to the end of the list, `rounds` captures at
most. -/
def resolveFrom : (rounds : Nat) → (out : Array Value) → CursorM (Array Value)
  | 0, _ => throw .malformedCaptures
  | rounds + 1, out => do
    if (← get) < r.entries.size then
      let (_, out) ← push r r.maxDepth out
      resolveFrom rounds out
    else return out

/-- The values of all captures. -/
def resolve : CursorM (List Value) := do
  return (← resolveFrom r (r.entries.size + 1) #[]).toList

/-- The values nested in the closed capture at a place of the list, or its text if there are
none. -/
def nested (place : Nat) : CursorM (List Value) := do
  set place
  let (_, out) ← pushNested r (push r r.maxDepth) false #[]
  return out.toList

end Cursor

end PegMachine
