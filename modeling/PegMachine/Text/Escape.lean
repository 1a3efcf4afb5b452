import PegMachine.Text.Extending
import PegMachine.Text.Unprintable

/-!
# Escaped text

Written forms of bytes, byte strings and names in listings and messages.

* `escapeByte`: one byte, as it stands in a byte set.
* `isLegible`: the characters that quoted text holds as they are.
* `quoteBytes`: a byte string between double quotes; what is valid UTF-8 stays readable.
* `quoteName`: a name between double quotes.
-/

namespace PegMachine

/-- A string of bytes. -/
abbrev Bytes := Array UInt8

namespace Text

/-- The two lower case hexadecimal digits of a byte. -/
def hexByte (b : UInt8) : List Char :=
  [Nat.digitChar (b.toNat / 16), Nat.digitChar (b.toNat % 16)]

/-- A byte as text: the six usual backslash escapes, printable ASCII as it is, and `\xhh` for every
other byte. -/
def escapeByte (b : UInt8) : List Char :=
  if b = 9 then ['\\', 't']
  else if b = 13 then ['\\', 'r']
  else if b = 10 then ['\\', 'n']
  else if b = 39 then ['\\', '\'']
  else if b = 34 then ['\\', '"']
  else if b = 92 then ['\\', '\\']
  else if 32 ≤ b ∧ b ≤ 126 then [Char.ofNat b.toNat]
  else '\\' :: 'x' :: hexByte b

/-- A character by its code point, in hexadecimal digits without leading zeros. -/
def escapeCode (c : Char) : List Char :=
  ['\\', 'u', '\x7b'] ++ Nat.toDigits 16 c.toNat ++ ['\x7d']

/-- The characters that a reader sees: they print, and they do not attach to the character before
them. -/
def isLegible (c : Char) : Bool :=
  !covers unprintable c.toNat && !covers extending c.toNat

/-- The characters of ASCII from the space on, delete apart, are legible. -/
theorem isLegible_of_ascii {c : Char} (hlo : 32 ≤ c.toNat) (hhi : c.toNat < 127) :
    isLegible c = true := by
  have key : ∀ n < 127, 32 ≤ n → (!covers unprintable n && !covers extending n) = true := by
    decide +kernel
  exact key _ hhi hlo

/-! ## UTF-8 -/

/-- The six bits that a continuation byte carries. -/
def continuation? (b : UInt8) : Option Nat :=
  if 0x80 ≤ b ∧ b ≤ 0xbf then some (b.toNat - 0x80) else none

/-- The character of a leading byte that carries the bits `lead` and is followed by `count`
continuation bytes. Encodings of characters below `least`, which have shorter ones, and surrogates
are refused. -/
def assemble? (lead least count : Nat) (rest : List UInt8) : Option (Char × Nat) := do
  let parts ← (rest.take count).mapM continuation?
  let code := parts.foldl (fun acc part => acc * 64 + part) lead
  if parts.length = count ∧ least ≤ code ∧ code.isValidChar then some (Char.ofNat code, count)
  else none

/-- The character that a byte string starts with and the number of its continuation bytes. -/
def leadingChar? : List UInt8 → Option (Char × Nat)
  | [] => none
  | b :: rest =>
    if b < 0x80 then some (Char.ofNat b.toNat, 0)
    else if 0xc0 ≤ b ∧ b < 0xe0 then assemble? (b.toNat - 0xc0) 0x80 1 rest
    else if 0xe0 ≤ b ∧ b < 0xf0 then assemble? (b.toNat - 0xe0) 0x800 2 rest
    else if 0xf0 ≤ b ∧ b < 0xf8 then assemble? (b.toNat - 0xf0) 0x10000 3 rest
    else none

/-! ## Quoted byte strings and names -/

/-- A character of a quoted byte string. -/
def escapeChar (c : Char) : List Char :=
  if c.toNat = 0 then ['\\', '0']
  else if c.toNat < 0x80 then escapeByte c.toNat.toUInt8
  else if isLegible c then [c]
  else escapeCode c

/-- Appends the text of the bytes after the first `skip` ones to `text`. -/
def appendBytes (text : String) : (skip : Nat) → List UInt8 → String
  | _, [] => text
  | skip + 1, _ :: rest => appendBytes text skip rest
  | 0, b :: rest =>
    match leadingChar? (b :: rest) with
    | some (c, more) => appendBytes (text ++ String.ofList (escapeChar c)) more rest
    | none => appendBytes (text ++ String.ofList ('\\' :: 'x' :: hexByte b)) 0 rest

/-- A byte string between double quotes. Bytes that are not part of a valid UTF-8 character are
written one by one. -/
def quoteBytes (bytes : Bytes) : String :=
  (appendBytes "\"" 0 bytes.toList).push '"'

/-- A character of a quoted name. -/
def escapeNameChar (c : Char) : List Char :=
  if c.toNat = 0 then ['\\', '0']
  else if c = '\t' then ['\\', 't']
  else if c = '\r' then ['\\', 'r']
  else if c = '\n' then ['\\', 'n']
  else if c = '"' then ['\\', '"']
  else if c = '\\' then ['\\', '\\']
  else if isLegible c then [c]
  else escapeCode c

/-- A name between double quotes. -/
def quoteName (name : String) : String :=
  String.ofList ('"' :: name.toList.flatMap escapeNameChar ++ ['"'])

end Text

end PegMachine
