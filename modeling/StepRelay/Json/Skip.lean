import StepRelay.Json.Reader

/-!
# Skipping a value

The values of unknown fields are passed over without being built. The grammar is that of the reader
with three liberties: brackets may be open to any depth, numbers may be of any size, and escapes
need not form characters.
-/

namespace StepRelay.Json

/-- Passes over the digits of an exponent, if the text goes on with one. -/
def skipExponent : List Char → Except Fault (List Char)
  | [] => .ok []
  | e :: text =>
    if e = 'e' ∨ e = 'E' then
      let text := match text with
        | '+' :: rest => rest
        | '-' :: rest => rest
        | _ => text
      match spanDigits text with
      | ([], rest) => faultAt .invalidNumber rest
      | (_, rest) => .ok rest
    else .ok (e :: text)

/-- Passes over a number. -/
def skipNumber (text : List Char) : Except Fault (List Char) := do
  let text := match text with
    | '-' :: rest => rest
    | _ => text
  if text = [] then faultAt .invalidNumber []
  else
    let (_, text) ← readWhole text
    match text with
    | '.' :: text =>
      match spanDigits text with
      | ([], rest) => faultAt .invalidNumber rest
      | (_, rest) => skipExponent rest
    | text => skipExponent text

/-- Passes over an escape, from behind its backslash. -/
def skipEscape : List Char → Except Fault (List Char)
  | [] => faultAt .endInString []
  | c :: text =>
    if c ∈ ['"', '\\', '/', 'b', 'f', 'n', 'r', 't'] then .ok text
    else if c = 'u' then do return (← readHex text).2
    else faultAt .invalidEscape (c :: text)

/-- Passes over a string whose opening quote has been taken. Each round takes at least one character
off the text. -/
def skipStringBody : Nat → List Char → Except Fault (List Char)
  | 0, _ => faultAt .endInString []
  | _ + 1, [] => faultAt .endInString []
  | fuel + 1, c :: text =>
    if c = '"' then .ok text
    else if c = '\\' then do skipStringBody fuel (← skipEscape text)
    else if c.toNat < 0x20 then faultAt .controlCharacter (c :: text)
    else skipStringBody fuel text

def skipString (text : List Char) : Except Fault (List Char) :=
  skipStringBody (text.length + 1) text

/-- Passes over items up to the closing bracket of an array, one at least. -/
def skipItems (item : List Char → Except Fault (List Char)) :
    Nat → List Char → Except Fault (List Char)
  | 0, text => faultAt .expectedValue text
  | fuel + 1, text => do
    match skipBlanks (← item text) with
    | [] => faultAt .endInList []
    | c :: rest =>
      if c = ']' then return rest
      else if c = ',' then skipItems item fuel rest
      else faultAt .expectedListCommaOrEnd (c :: rest)

/-- Passes over the array whose opening bracket has been taken. -/
def skipArray (item : List Char → Except Fault (List Char)) (text : List Char) :
    Except Fault (List Char) :=
  match skipBlanks text with
  | [] => faultAt .endInList []
  | c :: rest => if c = ']' then .ok rest else skipItems item (rest.length + 1) (c :: rest)

/-- Passes over members up to the closing bracket of an object, one at least. -/
def skipMembers (item : List Char → Except Fault (List Char)) :
    Nat → List Char → Except Fault (List Char)
  | 0, text => faultAt .keyNotString text
  | fuel + 1, text => do
    match skipBlanks text with
    | [] => faultAt .endInObject []
    | c :: rest =>
      if c ≠ '"' then faultAt .keyNotString (c :: rest)
      else
        match skipBlanks (← item (← readColon (← skipString rest))) with
        | [] => faultAt .endInObject []
        | c :: rest =>
          if c = '\x7d' then return rest
          else if c = ',' then skipMembers item fuel rest
          else faultAt .expectedObjectCommaOrEnd (c :: rest)

/-- Passes over the object whose opening bracket has been taken. -/
def skipObject (item : List Char → Except Fault (List Char)) (text : List Char) :
    Except Fault (List Char) :=
  match skipBlanks text with
  | [] => faultAt .endInObject []
  | c :: rest => if c = '\x7d' then .ok rest else skipMembers item (rest.length + 1) (c :: rest)

/-- Passes over a value that opens fewer brackets than `fuel` at a time. -/
def skipWithin : Nat → List Char → Except Fault (List Char)
  | 0, text => faultAt .expectedValue text
  | fuel + 1, text =>
    match skipBlanks text with
    | [] => faultAt .endInValue []
    | c :: rest =>
      if c = 'n' then readWord ['u', 'l', 'l'] rest
      else if c = 't' then readWord ['r', 'u', 'e'] rest
      else if c = 'f' then readWord ['a', 'l', 's', 'e'] rest
      else if c = '-' ∨ c.isDigit then skipNumber (c :: rest)
      else if c = '"' then skipString rest
      else if c = '[' then skipArray (skipWithin fuel) rest
      else if c = '\x7b' then skipObject (skipWithin fuel) rest
      else faultAt .expectedValue (c :: rest)

/-- Passes over a value. Each open bracket is a character of the text, so the bound is never met. -/
def skipValue (text : List Char) : Except Fault (List Char) := skipWithin (text.length + 1) text

end StepRelay.Json
