import PegMachine.Capture.Entry

/-!
# Values of captures

The recorded captures are turned into values by walking the list from left to right with a cursor.

* `Resolver.values`: the values of the capture at a cursor, and the cursor after it.
* `Resolver.inside`: the walk over the captures nested in one. `collect`, `fold`, `substitute` and
  `pieces` are such walks.
* `Resolver.resolve`: the values of the whole list.

All of these but `values` and `resolve` are given the function that finds the values of a nested
capture. `values` passes itself, one level less deep.
-/

namespace PegMachine

/-- The recorded captures of a match and what they refer to. -/
structure Resolver where
  program : Program
  subject : Bytes
  arguments : List Value
  entries : Array Entry

/-- The values of a capture and the cursor right after it. -/
structure Yield where
  values : List Value
  next : Nat

/-- The outcome of a walk over the captures nested in one: what was gathered, the span of the
capture in the subject, and the cursor right after it. -/
structure Inside (σ : Type) where
  state : σ
  start : Nat
  stop : Nat
  next : Nat

/-- A piece of text that a template can refer to. -/
inductive Piece where
  | text (start stop : Nat)
  | capture (cursor : Nat)

namespace Resolver

/-- Takes what is missing only in a list that is not well bracketed. -/
def present {α : Type} : Option α → Except Fault α
  | some a => .ok a
  | none => .error .malformedCaptures

/-- The subject from `start` to `stop`. -/
def text (r : Resolver) (start stop : Nat) : Except Fault Bytes :=
  if start ≤ stop ∧ stop ≤ r.subject.size then .ok (r.subject.extract start stop)
  else .error .malformedCaptures

/-! ## Walking -/

section Walk

variable {σ : Type}

/-- Visits the captures from a cursor up to the end of the capture around them. Gives what was
gathered, where that capture ends in the subject, and the cursor right after it. -/
def walk (entries : Array Entry) (visit : σ → Nat → Except Fault (σ × Nat)) (cursor : Nat)
    (state : σ) : Except Fault (σ × Nat × Nat) :=
  if h : cursor < entries.size then
    match entries[cursor] with
    | .closed pos => .ok (state, pos, cursor + 1)
    | _ =>
      match visit state cursor with
      | .error fault => .error fault
      | .ok (state, next) =>
        if cursor < next then walk entries visit next state else .error .malformedCaptures
  else .error .malformedCaptures
termination_by entries.size - cursor

/-- Visits the captures nested in the one at the cursor, beginning with a state that may depend on
the position where it starts. -/
def inside (r : Resolver) (visit : σ → Nat → Except Fault (σ × Nat)) (init : Nat → σ)
    (cursor : Nat) : Except Fault (Inside σ) :=
  match r.entries[cursor]? with
  | some (.full _ _ pos length) => .ok ⟨init pos, pos, pos + length, cursor + 1⟩
  | some (.opened _ _ pos) =>
    match walk r.entries visit (cursor + 1) (init pos) with
    | .error fault => .error fault
    | .ok (state, stop, next) => .ok ⟨state, pos, stop, next⟩
  | _ => .error .malformedCaptures

end Walk

section Nested

variable (r : Resolver) (resolve : Nat → Except Fault Yield)

/-! ## Nested values -/

/-- Appends the values of a nested capture. -/
def gather (values : Array Value) (cursor : Nat) : Except Fault (Array Value × Nat) := do
  let found ← resolve cursor
  return (values ++ found.values, found.next)

/-- The values nested in the capture at the cursor. -/
def collect (cursor : Nat) : Except Fault (Inside (Array Value)) :=
  r.inside (gather resolve) (fun _ => #[]) cursor

/-- The values nested in the capture at the cursor, or its text if there are none. -/
def nestedOrText (cursor : Nat) : Except Fault Yield := do
  let nested ← r.collect resolve cursor
  if nested.state.isEmpty then
    return ⟨[.str (← r.text nested.start nested.stop)], nested.next⟩
  else
    return ⟨nested.state.toList, nested.next⟩

/-- The text of the capture at the cursor, then the values nested in it. -/
def textAndNested (cursor : Nat) : Except Fault Yield := do
  let nested ← r.collect resolve cursor
  return ⟨.str (← r.text nested.start nested.stop) :: nested.state.toList, nested.next⟩

/-- The values of the latest group of a name before the cursor. -/
def backref (name : String) (cursor : Nat) : Except Fault Yield := do
  let group ← Entry.groupBelow r.program name r.entries 0 cursor
  let found ← r.nestedOrText resolve group
  return ⟨found.values, cursor + 1⟩

/-! ## Folds -/

/-- Combines the values of a nested capture with the value so far. The first capture gives the value
to begin with. -/
def combine (f : FoldFunction) (acc : Option Value) (cursor : Nat) :
    Except Fault (Option Value × Nat) := do
  let found ← resolve cursor
  match acc, found.values with
  | some value, values => return (some (f value values), found.next)
  | none, first :: _ => return (some first, found.next)
  | none, [] => throw .emptyFold

/-- The captures nested in the one at the cursor, combined from left to right. -/
def fold (f : FoldFunction) (cursor : Nat) : Except Fault Yield := do
  let nested ← r.inside (combine resolve f) (fun _ => none) cursor
  match nested.state with
  | some value => return ⟨[value], nested.next⟩
  | none => throw .emptyFold

/-! ## Substitutions -/

/-- The text of the first value of the capture at the cursor, if it has a value, and the cursor
after it. -/
def replacement (cursor : Nat) : Except Fault (Option Bytes × Nat) := do
  let found ← resolve cursor
  match found.values with
  | [] => return (none, found.next)
  | value :: _ =>
    match value.text? with
    | some text => return (some text, found.next)
    | none => throw .invalidReplacement

/-- Appends the subject up to a nested capture and what takes its place. `state` is the text so far
and the position up to which the subject has been used; a capture without values takes none. -/
def replace (state : Bytes × Nat) (cursor : Nat) : Except Fault ((Bytes × Nat) × Nat) := do
  let entry ← present r.entries[cursor]?
  let stop ← present (Entry.stop? r.entries cursor)
  let (done, used) := state
  let before ← r.text used entry.start
  let (text, next) ← replacement resolve cursor
  match text with
  | some text => return ((done ++ before ++ text, stop), next)
  | none => return ((done ++ before, entry.start), next)

/-- The text of the capture at the cursor with the nested captures replaced, and the cursor after
it. -/
def substitute (cursor : Nat) : Except Fault (Bytes × Nat) := do
  let nested ← r.inside (r.replace resolve) (fun start => (#[], start)) cursor
  let (done, used) := nested.state
  return (done ++ (← r.text used nested.stop), nested.next)

end Nested

/-! ## Templates -/

/-- The number of pieces that a template can refer to. -/
def maxPieces : Nat := 10

/-- Appends the pieces of a nested capture to those of the capture around it, `taken` pieces having
been found before these. A simple capture adds those that `inner` finds in it. -/
def addPieces (r : Resolver) (inner : Nat → Nat → Except Fault (Array Piece × Nat)) (taken : Nat)
    (found : Array Piece) (cursor : Nat) : Except Fault (Array Piece × Nat) :=
  if maxPieces ≤ taken + found.size then do
    return (found, ← present (Entry.after? r.entries cursor))
  else if r.entries[cursor]?.bind Entry.kind? = some .simple then do
    let (more, next) ← inner (taken + found.size) cursor
    return (found ++ more, next)
  else do
    return (found.push (.capture cursor), ← present (Entry.after? r.entries cursor))

/-- The pieces of the capture at the cursor, its text first, and the cursor after it. Captures are
entered `depth` levels deep at most. -/
def pieces (r : Resolver) : (depth taken cursor : Nat) → Except Fault (Array Piece × Nat)
  | 0, _, _ => .error .malformedCaptures
  | depth + 1, taken, cursor => do
    let nested ← r.inside (r.addPieces (r.pieces depth) (taken + 1)) (fun _ => #[]) cursor
    return (#[.text nested.start nested.stop] ++ nested.state, nested.next)

/-- Writes out a template behind the text `done`: a percent sign before a digit stands for a piece,
and before anything else it is dropped, except at the end. -/
def expand (piece : Nat → Except Fault Bytes) (done : Bytes) : List UInt8 → Except Fault Bytes
  | [] => .ok done
  | [b] => .ok (done.push b)
  | b :: c :: rest =>
    if b = 37 then
      if 48 ≤ c ∧ c ≤ 57 then
        match piece (c.toNat - 48) with
        | .ok text => expand piece (done ++ text) rest
        | .error fault => .error fault
      else expand piece (done.push c) rest
    else expand piece (done.push b) (c :: rest)

/-- The text of piece `n` of a template. -/
def pieceText (r : Resolver) (resolve : Nat → Except Fault Yield) (found : Array Piece) (n : Nat) :
    Except Fault Bytes :=
  match found[n]? with
  | some (.text start stop) => r.text start stop
  | some (.capture cursor) => do
    let (text, _) ← replacement resolve cursor
    match text with
    | some text => return text
    | none => throw (.noCaptureValue n)
  | none => .error (.captureIndex n)

/-- The text of a template for the capture at the cursor, and the cursor after it. -/
def fill (r : Resolver) (resolve : Nat → Except Fault Yield) (format : Bytes) (cursor : Nat) :
    Except Fault (Bytes × Nat) := do
  let (found, next) ← r.pieces (r.entries.size + 1) 0 cursor
  return (← expand (r.pieceText resolve found) #[] format.toList, next)

/-! ## Values -/

/-- The values of the capture at the cursor, given its kind, its constant and its position. -/
def valuesOf (r : Resolver) (resolve : Nat → Except Fault Yield) (kind : CaptureKind)
    (index pos cursor : Nat) : Except Fault Yield :=
  match kind, r.program.constant? index with
  | .position, _ => .ok ⟨[.int pos], cursor + 1⟩
  | .const, some (.value value) => .ok ⟨[value], cursor + 1⟩
  | .argument, _ =>
    match index with
    | 0 => .error (.missingArgument 0)
    | n + 1 =>
      match r.arguments[n]? with
      | some value => .ok ⟨[value], cursor + 1⟩
      | none => .error (.missingArgument (n + 1))
  | .backref, some (.name name) => r.backref resolve name cursor
  | .simple, _ => r.textAndNested resolve cursor
  | .table, _ => do
    let nested ← r.collect resolve cursor
    return ⟨[.list nested.state.toList], nested.next⟩
  | .group, _ =>
    if index = 0 then r.nestedOrText resolve cursor
    else do return ⟨[], ← present (Entry.after? r.entries cursor)⟩
  | .function, some (.function f) => do
    let nested ← r.nestedOrText resolve cursor
    return ⟨f nested.values, nested.next⟩
  | .query, some (.query table) => do
    let keys ← r.nestedOrText resolve cursor
    let value := (keys.values.head?.bind Value.text?).bind table.find?
    return ⟨value.toList, keys.next⟩
  | .template, some (.template format) => do
    let (text, next) ← r.fill resolve format cursor
    return ⟨[.str text], next⟩
  | .subst, _ => do
    let (text, next) ← r.substitute resolve cursor
    return ⟨[.str text], next⟩
  | .fold, some (.fold f) => r.fold resolve f cursor
  | .matchTime, _ => do return ⟨[], ← present (Entry.after? r.entries cursor)⟩
  | _, _ => .error .malformedCaptures

/-- The values of the capture at the cursor and the cursor after it. Captures are entered, and back
references followed, `depth` levels deep at most. -/
def values (r : Resolver) : (depth cursor : Nat) → Except Fault Yield
  | 0, _ => .error .malformedCaptures
  | depth + 1, cursor =>
    match r.entries[cursor]? with
    | some (.opened kind index pos) | some (.full kind index pos _) =>
      r.valuesOf (r.values depth) kind index pos cursor
    | some (.dynamic _ _ values) => .ok ⟨values, cursor + 1⟩
    | some (.closed _) | none => .error .malformedCaptures

/-- A depth that no list of captures exceeds: between two back references, each of which leads to an
earlier entry, every level is entered at a later entry than the one before. -/
def maxDepth (r : Resolver) : Nat := (r.entries.size + 1) * (r.entries.size + 1)

/-- Appends the values of the captures from a cursor to the end of the list. -/
def resolveFrom (r : Resolver) (cursor : Nat) (done : Array Value) : Except Fault (Array Value) :=
  if cursor < r.entries.size then
    match r.values r.maxDepth cursor with
    | .error fault => .error fault
    | .ok found =>
      if cursor < found.next then r.resolveFrom found.next (done ++ found.values)
      else .error .malformedCaptures
  else .ok done
termination_by r.entries.size - cursor

/-- The values of all captures. -/
def resolve (r : Resolver) : Except Fault (List Value) := do
  return (← r.resolveFrom 0 #[]).toList

/-- The values nested in the closed capture at a cursor, or its text if there are none. -/
def nested (r : Resolver) (cursor : Nat) : Except Fault (List Value) := do
  return (← r.nestedOrText (r.values r.maxDepth) cursor).values

end Resolver

end PegMachine
