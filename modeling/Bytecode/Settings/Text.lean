import Bytecode.Json.Token
import Bytecode.Settings

/-! Settings files. Each line is blank, a comment behind a number sign, or a setting: its name, bare or quoted, an
    equals sign and `true` or `false`, with a comment behind it if need be. No setting may be given twice. -/

namespace Bytecode.Settings

/-- The lines of a text. A line feed ends a line, together with a carriage return before it. -/
def lines : List Char → List (List Char)
  | [] => [[]]
  | '\n' :: rest => [] :: lines rest
  | '\r' :: '\n' :: rest => [] :: lines rest
  | c :: rest =>
    match lines rest with
    | [] => [[c]]
    | line :: others => (c :: line) :: others

/-- Blanks between the parts of a line. -/
def isBlank (c : Char) : Bool :=
  c == ' ' || c == '\t'

def skipBlanks (cs : List Char) : List Char :=
  cs.dropWhile isBlank

/-- Whether the rest of a line holds at most a comment, which has no control characters but tabs. -/
def isEnd (cs : List Char) : Bool :=
  match skipBlanks cs with
  | [] => true
  | '#' :: comment => comment.all fun c => c == '\t' || (decide (0x20 ≤ c.toNat) && c.toNat != 0x7f)
  | _ => false

/-- The character with a code point. -/
def charOf? (n : Nat) : Option Char :=
  if n.isValidChar then some (Char.ofNat n) else none

/-- A name between double quotes behind the first of them, in which escapes are resolved, and what follows it. -/
def quotedName? : List Char → Option (List Char × List Char)
  | [] => none
  | '"' :: rest => some ([], rest)
  | '\\' :: 'u' :: a :: b :: c :: d :: rest => do
    let char ← charOf? (← Json.hexUnit? a b c d)
    let (name, rest) ← quotedName? rest
    return (char :: name, rest)
  | '\\' :: 'U' :: a :: b :: c :: d :: e :: f :: g :: h :: rest => do
    let char ← charOf? ((← Json.hexUnit? a b c d) * 0x10000 + (← Json.hexUnit? e f g h))
    let (name, rest) ← quotedName? rest
    return (char :: name, rest)
  | '\\' :: letter :: rest => do
    if letter = '/' then none
    let char ← Json.unescape? letter
    let (name, rest) ← quotedName? rest
    return (char :: name, rest)
  | c :: rest => do
    if c = '\\' then none
    let (name, rest) ← quotedName? rest
    return (c :: name, rest)

/-- The characters of bare names. -/
def isBare (c : Char) : Bool :=
  c.isAlphanum || c == '_' || c == '-'

/-- The name at the start of a line, and what follows it. -/
def name? : List Char → Option (List Char × List Char)
  | '"' :: rest => quotedName? rest
  | '\'' :: rest =>
    match rest.dropWhile (· != '\'') with
    | [] => none
    | _ :: after => some (rest.takeWhile (· != '\''), after)
  | cs => some (cs.takeWhile isBare, cs.dropWhile isBare)

/-- The truth value at the start of a text, and what follows it. -/
def flag? : List Char → Option (Bool × List Char)
  | 't' :: 'r' :: 'u' :: 'e' :: rest => some (true, rest)
  | 'f' :: 'a' :: 'l' :: 's' :: 'e' :: rest => some (false, rest)
  | _ => none

/-- The name and the value on a line with a setting. -/
def entry? (line : List Char) : Option (String × Bool) := do
  let (name, rest) ← name? (skipBlanks line)
  match skipBlanks rest with
  | '=' :: rest =>
    let (value, rest) ← flag? (skipBlanks rest)
    if isEnd rest then some (String.ofList name, value) else none
  | _ => none

/-- The names and values of the settings on lines that may also be blank or comments. -/
def entries? (lines : List (List Char)) : Option (List (String × Bool)) :=
  (lines.filter fun line => !isEnd line).mapM entry?

/-- The settings with the given names and values, each of which must be known and given once. -/
def ofEntries? (entries : List (String × Bool)) : Option Settings :=
  let names := entries.map (·.1)
  if names.all (fun name => name == "trace" || name == "profile_opcodes") && decide names.Nodup then
    some ⟨(entries.lookup "trace").getD false, (entries.lookup "profile_opcodes").getD false⟩
  else none

/-- The settings that a text spells; a byte order mark at its start is passed over. -/
def parse? (s : String) : Option Settings :=
  let cs := s.toList
  let cs := if cs.head? = some '\ufeff' then cs.tail else cs
  (entries? (lines cs)).bind ofEntries?

/-- The text of settings. -/
def text (s : Settings) : String :=
  "trace = " ++ toString s.trace ++ "\nprofile_opcodes = " ++ toString s.profileOpcodes ++ "\n"

end Bytecode.Settings
