import Bytecode.Text.Hidden

/-! Quoted text, as diagnostics show it: a double quote and a backslash get a backslash, the common control characters
    a letter, and every other character without a glyph its code point. -/

namespace Bytecode.Text

/-- The letter that stands for a character after a backslash. -/
def quoteLetter? : Char → Option Char
  | '"' => some '"'
  | '\\' => some '\\'
  | '\n' => some 'n'
  | '\r' => some 'r'
  | '\t' => some 't'
  | '\x00' => some '0'
  | _ => none

/-- How a character is written between quotes. -/
def quoteChar (c : Char) : List Char :=
  match quoteLetter? c with
  | some letter => ['\\', letter]
  | none =>
    if isHidden c then ['\\', 'u', '\x7b'] ++ Nat.toDigits 16 c.toNat ++ ['\x7d'] else [c]

/-- A text between double quotes. -/
def quoted (s : String) : String :=
  String.ofList ('"' :: s.toList.flatMap quoteChar ++ ['"'])

end Bytecode.Text
