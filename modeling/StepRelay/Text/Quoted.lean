import StepRelay.Text.Shown

/-!
# Quoted texts in messages

A text between double quotes in which a backslash, a double quote, and the tab, line feed, carriage
return and null characters are escaped by a letter, and every character that is not shown by its
number in braces. A list of texts is written between square brackets.
-/

namespace StepRelay.Text

/-- The characters that stand for one character inside quotes. -/
def quotedChar (c : Char) : List Char :=
  match c with
  | '\x00' => ['\\', '0']
  | '\t' => ['\\', 't']
  | '\r' => ['\\', 'r']
  | '\n' => ['\\', 'n']
  | '"' => ['\\', '"']
  | '\\' => ['\\', '\\']
  | c =>
    if isShown c then [c]
    else '\\' :: 'u' :: '\x7b' :: (Nat.toDigits 16 c.toNat ++ ['\x7d'])

/-- The text between double quotes. -/
def quoted (text : String) : String :=
  .ofList ('"' :: (text.toList.flatMap quotedChar ++ ['"']))

/-- The quoted texts between brackets, with a comma and a space between them. -/
def quotedList (texts : List String) : String :=
  "[" ++ ", ".intercalate (texts.map quoted) ++ "]"

end StepRelay.Text
