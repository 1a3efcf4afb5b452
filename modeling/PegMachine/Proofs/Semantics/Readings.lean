import PegMachine.Capture.Resolve

/-!
# What captures amount to

The values of captures, read off their nesting and not off the list that they are recorded in.

* `Capture`: a capture with its span and the captures nested in it.
* `Reading`: what a capture amounts to for the captures around it.
* `Content.reading`: the reading of a capture from the readings of what is nested in it.
* `Capture.read`, `readAll`: the readings of captures, with the named groups that stand before them.
* `evaluate`: the values of captures one after another.
-/

namespace PegMachine

/-! ## Captures -/

/-- What a capture stands for. -/
inductive Content where
  /-- The position where it starts. -/
  | position
  | const (value : Value)
  /-- The `n`th argument of the match, counted from one. -/
  | argument (n : Nat)
  /-- The values of the latest group of a name. -/
  | backref (name : String)
  /-- The text, then the nested values. -/
  | simple
  /-- One list of the nested values. -/
  | table
  /-- The text with the nested captures replaced. -/
  | subst
  /-- The nested values, or the text if there are none. -/
  | group
  /-- Nothing, but back references find the values of the group. -/
  | named (name : String)
  | fold (f : FoldFunction)
  | function (f : ValueFunction)
  | query (table : QueryTable)
  | template (format : Bytes)
  /-- The values that came out of a match-time capture. -/
  | dynamic (values : List Value)

/-- A capture, from `start` to `stop`, with the captures nested in it. -/
inductive Capture where
  | node (content : Content) (start stop : Nat) (nested : List Capture)

/-! ## Readings -/

/-- The values of a capture, or what goes wrong. -/
abbrev Values := Except Fault (List Value)

/-- The values of named groups, the latest one first. -/
abbrev Bindings := List (String × Values)

/-- What a capture amounts to for the captures around it and behind it. -/
structure Reading where
  start : Nat
  stop : Nat
  values : Values
  /-- The parts that a template around the capture refers to by number. -/
  parts : List Values
  /-- The group that back references behind the capture find, if it is a named one. -/
  bindings : Bindings

/-- The values of all of them, up to the first that goes wrong. -/
def nestedValues : List Reading → Values
  | [] => .ok []
  | reading :: rest => do
    let values ← reading.values
    return values ++ (← nestedValues rest)

/-- The nested values, or the text if there are none. -/
def nestedOr (text : Bytes) (nested : List Reading) : Values := do
  let values ← nestedValues nested
  return if values.isEmpty then [.str text] else values

/-! ## Folds -/

/-- The value so far combined with the values of each of them in turn. -/
def foldOnto (f : FoldFunction) (value : Value) : List Reading → Except Fault Value
  | [] => .ok value
  | reading :: rest => do
    let values ← reading.values
    foldOnto f (f value values) rest

/-- The first value of the first of them, combined with the values of the others in turn. -/
def folded (f : FoldFunction) : List Reading → Except Fault Value
  | [] => .error .emptyFold
  | first :: rest => do
    match ← first.values with
    | [] => .error .emptyFold
    | value :: _ => foldOnto f value rest

/-! ## Replacements -/

/-- The text of the first value, if there is one. -/
def firstText : List Value → Except Fault (Option Bytes)
  | [] => .ok none
  | value :: _ =>
    match value.text? with
    | some text => .ok (some text)
    | none => .error .invalidReplacement

/-- The subject from `used` to `stop` with each of the captures replaced by its first value. One
without values stays as it is. -/
def replaced (subject : Bytes) (used stop : Nat) : List Reading → Except Fault Bytes
  | [] => .ok (subject.extract used stop)
  | reading :: rest => do
    let text ← firstText (← reading.values)
    let behind ← replaced subject reading.stop stop rest
    return subject.extract used reading.start ++
      text.getD (subject.extract reading.start reading.stop) ++ behind

/-- The text of a numbered part of a template. -/
def partText (parts : List Values) (n : Nat) : Except Fault Bytes :=
  match parts[n]? with
  | some values => do
    match ← firstText (← values) with
    | some text => .ok text
    | none => .error (.noCaptureValue n)
  | none => .error (.captureIndex n)

/-! ## Captures from their nested captures -/

section

variable (subject : Bytes) (arguments : List Value) (bindings : Bindings)

/-- The parts that a template finds in a capture that it looks into: its text, and what it finds in
the nested captures. -/
def partsWithin (start stop : Nat) (nested : List Reading) : List Values :=
  .ok [.str (subject.extract start stop)] :: nested.flatMap Reading.parts

/-- The values of a capture, from the readings of the nested ones. -/
def Content.values (start stop : Nat) (nested : List Reading) : Content → Values
  | .position => .ok [.int start]
  | .const value => .ok [value]
  | .argument 0 => .error (.missingArgument 0)
  | .argument (n + 1) =>
    match arguments[n]? with
    | some value => .ok [value]
    | none => .error (.missingArgument (n + 1))
  | .backref name => (bindings.lookup name).getD (.error (.backReference name))
  | .simple => do return .str (subject.extract start stop) :: (← nestedValues nested)
  | .table => do return [.list (← nestedValues nested)]
  | .subst => do return [.str (← replaced subject start stop nested)]
  | .group => nestedOr (subject.extract start stop) nested
  | .named _ => .ok []
  | .fold f => do return [← folded f nested]
  | .function f => do return f (← nestedOr (subject.extract start stop) nested)
  | .query entries => do
    let keys ← nestedOr (subject.extract start stop) nested
    return ((keys.head?.bind Value.text?).bind entries.find?).toList
  | .template format => do
    return [.str (← Resolver.expand (partText (partsWithin subject start stop nested)) #[]
      format.toList)]
  | .dynamic values => .ok values

/-- The reading of a capture, from the readings of the nested ones. A template looks into simple
captures only, and only named groups are found by back references. -/
def Content.reading (start stop : Nat) (nested : List Reading) (content : Content) : Reading where
  start := start
  stop := stop
  values := content.values subject arguments bindings start stop nested
  parts := match content with
    | .simple => partsWithin subject start stop nested
    | content => [content.values subject arguments bindings start stop nested]
  bindings := match content with
    | .named name => [(name, nestedOr (subject.extract start stop) nested)]
    | _ => []

end

/-! ## Readings of captures -/

mutual

/-- The reading of a capture. What is nested in it can refer to the groups before it. -/
def Capture.read (subject : Bytes) (arguments : List Value) (bindings : Bindings) :
    Capture → Reading
  | .node content start stop nested =>
    content.reading subject arguments bindings start stop
      (readAll subject arguments bindings nested)

/-- The readings of captures one after another. Each can refer to the groups among those before
it. -/
def readAll (subject : Bytes) (arguments : List Value) (bindings : Bindings) :
    List Capture → List Reading
  | [] => []
  | capture :: rest =>
    let reading := capture.read subject arguments bindings
    reading :: readAll subject arguments (reading.bindings ++ bindings) rest

end

/-- The values of captures one after another, up to the first that goes wrong. -/
def evaluate (subject : Bytes) (arguments : List Value) (captures : List Capture) : Values :=
  nestedValues (readAll subject arguments [] captures)

end PegMachine
