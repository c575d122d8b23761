import StepRelay.Double.Layout
import StepRelay.Json.Basic

/-!
# Compact JSON text

Inside quotes a double quote, a backslash and the characters below the blank are escaped and nothing
else. There are no blanks between the parts of a text.
-/

namespace StepRelay.Json

/-- The lower-case hexadecimal digit of a number below sixteen. -/
def hexDigit (n : Nat) : Char := Nat.digitChar n

/-- The characters that stand for one character inside quotes. -/
def escapeChar (c : Char) : List Char :=
  if c = '"' then ['\\', '"']
  else if c = '\\' then ['\\', '\\']
  else if c = '\n' then ['\\', 'n']
  else if c = '\r' then ['\\', 'r']
  else if c = '\t' then ['\\', 't']
  else if c = '\x08' then ['\\', 'b']
  else if c = '\x0c' then ['\\', 'f']
  else if c.toNat < 0x20 then
    ['\\', 'u', '0', '0', hexDigit (c.toNat / 16), hexDigit (c.toNat % 16)]
  else [c]

/-- A text between double quotes. -/
def stringText (text : String) : List Char :=
  '"' :: (text.toList.flatMap escapeChar ++ ['"'])

def integerText (n : Int) : List Char :=
  if n < 0 then '-' :: Nat.toDigits 10 n.natAbs else Nat.toDigits 10 n.natAbs

def Number.text : Number → List Char
  | .integer n _ => integerText n
  | .double d _ => d.wireText

def boolText (flag : Bool) : List Char := if flag then "true".toList else "false".toList

/-- Written items between an opening and a closing bracket, with commas between them. -/
def bracketed (opening closing : Char) (items : List (List Char)) : List Char :=
  opening :: ([','].intercalate items ++ [closing])

/-- A written member: its key, a colon, its written item. -/
def memberText (key : String) (item : List Char) : List Char := stringText key ++ ':' :: item

mutual

/-- The compact text of a tree: no blanks anywhere. -/
def text : Json → List Char
  | null => "null".toList
  | bool flag => boolText flag
  | number n => n.text
  | string s => stringText s
  | array items => bracketed '[' ']' (itemTexts items)
  | object members => bracketed '\x7b' '\x7d' (memberTexts members)

/-- The texts of the items, without commas. -/
def itemTexts : List Json → List (List Char)
  | [] => []
  | item :: rest => item.text :: itemTexts rest

/-- The texts of the members, each with its key, without commas. -/
def memberTexts : List (String × Json) → List (List Char)
  | [] => []
  | (key, item) :: rest => memberText key item.text :: memberTexts rest

end

/-- The compact text of a tree. -/
def render (json : Json) : String := .ofList json.text

end StepRelay.Json
