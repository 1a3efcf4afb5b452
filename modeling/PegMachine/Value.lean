import PegMachine.Text.Escape

/-!
# Values

* `Value`: what captures produce.
* `Value.text?`: the text of a value inside a replacement, which only strings and integers have.
* `Value.render`: the written form of a value.
-/

namespace PegMachine

/-- A value produced by a capture. -/
inductive Value where
  | nil
  | bool (b : Bool)
  | int (n : Int)
  | str (bytes : Bytes)
  | list (items : List Value)
deriving Inhabited

namespace Value

/-! ## Equality -/

mutual

/-- Decides the equality of two values. -/
def decEq : (a b : Value) → Decidable (a = b)
  | .nil, .nil => isTrue rfl
  | .bool a, .bool b => if h : a = b then isTrue (h ▸ rfl) else isFalse (by simp [h])
  | .int a, .int b => if h : a = b then isTrue (h ▸ rfl) else isFalse (by simp [h])
  | .str a, .str b => if h : a = b then isTrue (h ▸ rfl) else isFalse (by simp [h])
  | .list a, .list b =>
    match decEqList a b with
    | isTrue h => isTrue (h ▸ rfl)
    | isFalse h => isFalse (by simp [h])
  | .nil, .bool _ | .nil, .int _ | .nil, .str _ | .nil, .list _ => isFalse nofun
  | .bool _, .nil | .bool _, .int _ | .bool _, .str _ | .bool _, .list _ => isFalse nofun
  | .int _, .nil | .int _, .bool _ | .int _, .str _ | .int _, .list _ => isFalse nofun
  | .str _, .nil | .str _, .bool _ | .str _, .int _ | .str _, .list _ => isFalse nofun
  | .list _, .nil | .list _, .bool _ | .list _, .int _ | .list _, .str _ => isFalse nofun

/-- Decides the equality of two lists of values. -/
def decEqList : (a b : List Value) → Decidable (a = b)
  | [], [] => isTrue rfl
  | [], _ :: _ => isFalse nofun
  | _ :: _, [] => isFalse nofun
  | a :: as, b :: bs =>
    match decEq a b, decEqList as bs with
    | isTrue h, isTrue hs => isTrue (h ▸ hs ▸ rfl)
    | isFalse h, _ => isFalse (by simp [h])
    | _, isFalse hs => isFalse (by simp [hs])

end

instance : DecidableEq Value := decEq

/-! ## Views -/

/-- The bytes of a string. -/
def bytes? : Value → Option Bytes
  | .str bytes => some bytes
  | _ => none

/-- The number of an integer. -/
def int? : Value → Option Int
  | .int n => some n
  | _ => none

/-- The items of a list. -/
def items? : Value → Option (List Value)
  | .list items => some items
  | _ => none

/-- Whether the value is `nil`. -/
def isNil : Value → Bool
  | .nil => true
  | _ => false

/-- The decimal digits of an integer as bytes. -/
def decimal (n : Int) : Bytes :=
  ((toString n).toList.map fun c => c.toNat.toUInt8).toArray

/-- The text that stands for a value in a replacement or a query key. -/
def text? : Value → Option Bytes
  | .str bytes => some bytes
  | .int n => some (decimal n)
  | _ => none

/-! ## Written form -/

mutual

/-- The written form of a value. -/
def render : Value → String
  | .nil => "nil"
  | .bool b => if b then "true" else "false"
  | .int n => toString n
  | .str bytes => Text.quoteBytes bytes
  | .list [] => "[]"
  | .list (item :: rest) => "[" ++ render item ++ renderRest rest ++ "]"

/-- The written form of the items after the first one. -/
def renderRest : List Value → String
  | [] => ""
  | item :: rest => ", " ++ render item ++ renderRest rest

end

end Value

end PegMachine
