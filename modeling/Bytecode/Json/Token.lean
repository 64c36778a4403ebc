import Bytecode.Json.Basic

/-! The tokens of JSON texts, the tokens of a JSON value in order, and how tokens are spelled and recognised. -/

namespace Bytecode.Json

/-- A token. -/
inductive Token where
  | openArray
  | closeArray
  | openObject
  | closeObject
  | comma
  | colon
  | null
  | bool (b : Bool)
  | num (n : Text.Numeral)
  | str (s : Option String)

/-! ### The tokens of a value -/

mutual

/-- The tokens of a value. -/
def tokens : Json → List Token
  | .null => [.null]
  | .bool b => [.bool b]
  | .num n => [.num n]
  | .str s => [.str s]
  | .arr items => .openArray :: itemTokens items ++ [.closeArray]
  | .obj members => .openObject :: memberTokens members ++ [.closeObject]

/-- The tokens of the items of an array, separated by commas. -/
def itemTokens : List Json → List Token
  | [] => []
  | [j] => tokens j
  | j :: next :: rest => tokens j ++ .comma :: itemTokens (next :: rest)

/-- The tokens of the members of an object, separated by commas. -/
def memberTokens : List (Option String × Json) → List Token
  | [] => []
  | [(name, j)] => .str name :: .colon :: tokens j
  | (name, j) :: next :: rest => .str name :: .colon :: tokens j ++ .comma :: memberTokens (next :: rest)

end

/-! ### Spelling -/

/-- The letter that stands for a character after a backslash. -/
def escapeLetter? : Char → Option Char
  | '"' => some '"'
  | '\\' => some '\\'
  | '\x08' => some 'b'
  | '\t' => some 't'
  | '\n' => some 'n'
  | '\x0c' => some 'f'
  | '\r' => some 'r'
  | _ => none

/-- How a character is spelled in a string: only quotes, backslashes and control characters are escaped. -/
def spellChar (c : Char) : List Char :=
  match escapeLetter? c with
  | some letter => ['\\', letter]
  | none =>
    if c.toNat < 0x20 then
      ['\\', 'u', '0', '0', Nat.digitChar (c.toNat / 16), Nat.digitChar (c.toNat % 16)]
    else [c]

/-- How a string is spelled; one that is no text is spelled as half of a surrogate pair. -/
def spellString : Option String → List Char
  | some s => '"' :: s.toList.flatMap spellChar ++ ['"']
  | none => ['"', '\\', 'u', 'd', '8', '0', '0', '"']

/-- How a number is spelled: an exponent always has a sign. -/
def spellNumeral (n : Text.Numeral) : List Char :=
  let sign := if n.negative then ['-'] else []
  let fraction := if n.fraction.isEmpty then [] else '.' :: n.fraction
  let exponent :=
    match n.exponent with
    | none => []
    | some e => 'e' :: (if e.negative then '-' else '+') :: e.digits
  sign ++ n.whole ++ fraction ++ exponent

/-- How a token is spelled. -/
def Token.spell : Token → List Char
  | .openArray => ['[']
  | .closeArray => [']']
  | .openObject => ['\x7b']
  | .closeObject => ['\x7d']
  | .comma => [',']
  | .colon => [':']
  | .null => ['n', 'u', 'l', 'l']
  | .bool true => ['t', 'r', 'u', 'e']
  | .bool false => ['f', 'a', 'l', 's', 'e']
  | .num n => spellNumeral n
  | .str s => spellString s

/-- The text of a value without any blanks. -/
def text (j : Json) : String :=
  String.ofList (j.tokens.flatMap Token.spell)

/-! ### Recognition -/

/-- The blanks between tokens. -/
def isBlank (c : Char) : Bool :=
  c == ' ' || c == '\t' || c == '\n' || c == '\r'

/-- The value of a hexadecimal digit. -/
def hexDigit? (c : Char) : Option Nat :=
  if '0' ≤ c ∧ c ≤ '9' then some (c.toNat - '0'.toNat)
  else if 'a' ≤ c ∧ c ≤ 'f' then some (c.toNat - 'a'.toNat + 10)
  else if 'A' ≤ c ∧ c ≤ 'F' then some (c.toNat - 'A'.toNat + 10)
  else none

/-- The number that four hexadecimal digits stand for. -/
def hexUnit? (a b c d : Char) : Option Nat := do
  return (((← hexDigit? a) * 16 + (← hexDigit? b)) * 16 + (← hexDigit? c)) * 16 + (← hexDigit? d)

/-- The character that a letter stands for after a backslash. -/
def unescape? : Char → Option Char
  | '"' => some '"'
  | '\\' => some '\\'
  | '/' => some '/'
  | 'b' => some '\x08'
  | 't' => some '\t'
  | 'n' => some '\n'
  | 'f' => some '\x0c'
  | 'r' => some '\r'
  | _ => none

/-- A part of a string: a character, or half of a surrogate pair. -/
inductive Piece where
  | char (c : Char)
  | half (unit : Nat)

/-- The part that a 16-bit unit stands for. -/
def pieceOf (unit : Nat) : Piece :=
  if 0xd800 ≤ unit ∧ unit ≤ 0xdfff then .half unit else .char (Char.ofNat unit)

/-- The characters of the parts of a string: a high and a low half in a row make one, and any other half makes the
string no text. -/
def join? : List Piece → Option (List Char)
  | [] => some []
  | .char c :: rest => (join? rest).map (c :: ·)
  | .half high :: .half low :: rest =>
    if high < 0xdc00 ∧ 0xdc00 ≤ low then
      (join? rest).map (Char.ofNat (0x10000 + (high - 0xd800) * 0x400 + (low - 0xdc00)) :: ·)
    else none
  | .half _ :: _ => none

/-- The parts of a string up to its closing quote, and what follows it. -/
def pieces? : List Char → Option (List Piece × List Char)
  | [] => none
  | '"' :: rest => some ([], rest)
  | '\\' :: 'u' :: a :: b :: c :: d :: rest => do
    let unit ← hexUnit? a b c d
    let (parts, rest) ← pieces? rest
    return (pieceOf unit :: parts, rest)
  | '\\' :: letter :: rest => do
    let c ← unescape? letter
    let (parts, rest) ← pieces? rest
    return (.char c :: parts, rest)
  | c :: rest => do
    if c.toNat < 0x20 ∨ c = '\\' then none
    let (parts, rest) ← pieces? rest
    return (.char c :: parts, rest)

/-- A number, and what follows it: a minus or no sign, digits without a superfluous zero in front, a fraction with at
least one digit, and an exponent. -/
def numeral? (cs : List Char) : Option (Text.Numeral × List Char) :=
  let (negative, rest) :=
    match cs with
    | '-' :: rest => (true, rest)
    | _ => (false, cs)
  let (whole, rest) := Text.splitDigits rest
  if whole.isEmpty ∨ (whole.head? = some '0' ∧ whole.length ≠ 1) then none
  else
    let (fraction, rest) :=
      match rest with
      | '.' :: after =>
        let (digits, left) := Text.splitDigits after
        if digits.isEmpty then ([], rest) else (digits, left)
      | _ => ([], rest)
    let (exponent, rest) := Text.splitExponent rest
    some (⟨negative, whole, fraction, exponent⟩, rest)

/-- The token at the start of a text, and what follows it. -/
def token? : List Char → Option (Token × List Char)
  | '[' :: rest => some (.openArray, rest)
  | ']' :: rest => some (.closeArray, rest)
  | '\x7b' :: rest => some (.openObject, rest)
  | '\x7d' :: rest => some (.closeObject, rest)
  | ',' :: rest => some (.comma, rest)
  | ':' :: rest => some (.colon, rest)
  | 'n' :: 'u' :: 'l' :: 'l' :: rest => some (.null, rest)
  | 't' :: 'r' :: 'u' :: 'e' :: rest => some (.bool true, rest)
  | 'f' :: 'a' :: 'l' :: 's' :: 'e' :: rest => some (.bool false, rest)
  | '"' :: rest => (pieces? rest).map fun p => (.str ((join? p.1).map String.ofList), p.2)
  | cs => (numeral? cs).map fun p => (.num p.1, p.2)

/-- The tokens of a text, which may have blanks before, between and after them. A text never has more tokens than
characters, so its length serves as the bound. -/
def tokensWithin? : Nat → List Char → Option (List Token)
  | _, [] => some []
  | 0, _ :: _ => none
  | bound + 1, c :: rest =>
    if isBlank c then tokensWithin? bound rest
    else do
      let (t, rest) ← token? (c :: rest)
      let ts ← tokensWithin? bound rest
      return t :: ts

/-- The tokens of a text. -/
def tokens? (cs : List Char) : Option (List Token) :=
  tokensWithin? cs.length cs

end Bytecode.Json
