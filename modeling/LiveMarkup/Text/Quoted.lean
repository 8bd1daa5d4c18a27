import LiveMarkup.Text.Printable

/-!
Texts in double quotes, as a program would write them: quotes, backslashes and the common controls are
escaped by a letter, everything else that is not shown as it is by its code point.
-/

namespace LiveMarkup.Text

def hexDigits (n : Nat) : List Char := Nat.toDigits 16 n

def codePoint (c : Char) : List Char := "\\u\x7b".toList ++ hexDigits c.toNat ++ ['\x7d']

def quoteChar (c : Char) : List Char :=
  match c with
  | '\x00' => ['\\', '0']
  | '\t' => ['\\', 't']
  | '\r' => ['\\', 'r']
  | '\n' => ['\\', 'n']
  | '"' => ['\\', '"']
  | '\\' => ['\\', '\\']
  | c => if extendsGrapheme c || !isPrintable c then codePoint c else [c]

def quoted (s : String) : String := String.ofList ('"' :: s.toList.flatMap quoteChar ++ ['"'])

end LiveMarkup.Text
