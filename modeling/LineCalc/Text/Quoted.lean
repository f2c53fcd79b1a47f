import LineCalc.Text.Printable

/-!
Texts in double quotes, as error messages and the log show them. A quote and a backslash get a
backslash before them, four controls have letters of their own, and every other character that is
not printable is given by its code point.
-/

namespace LineCalc
namespace Text

/-- A code point in lowercase hexadecimal digits, without padding. -/
def escapedCodePoint (c : Char) : List Char :=
  ['\\', 'u', '\x7b'] ++ Nat.toDigits 16 c.toNat ++ ['\x7d']

/-- The written form of one character between double quotes. -/
def quotedChar (c : Char) : List Char :=
  match c with
  | '"' => ['\\', '"']
  | '\\' => ['\\', '\\']
  | '\t' => ['\\', 't']
  | '\n' => ['\\', 'n']
  | '\r' => ['\\', 'r']
  | c =>
    if c = Char.ofNat 0 then ['\\', '0']
    else if isPrintable c then [c]
    else escapedCodePoint c

/-- A text between double quotes. An apostrophe stands as it is. -/
def quoted (text : String) : String :=
  String.ofList ('"' :: (text.toList.flatMap quotedChar ++ ['"']))

end Text
end LineCalc
