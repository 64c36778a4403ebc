/-! Escapes in literals. A literal comes as it was spelled, and a backslash followed by `n`, `t` or an apostrophe stands
    for a line feed, a tab or the apostrophe. -/

namespace Bytecode.Text

/-- Replaces every backslash that is followed by one letter, together with that letter, from left to right. -/
def replaceEscape (letter replacement : Char) : List Char → List Char
  | [] => []
  | [c] => [c]
  | c :: d :: rest =>
    if c = '\\' ∧ d = letter then replacement :: replaceEscape letter replacement rest
    else c :: replaceEscape letter replacement (d :: rest)

/-- Resolves the escapes of a literal, one kind after the other over the whole text. -/
def unescapeChars (cs : List Char) : List Char :=
  replaceEscape '\'' '\'' (replaceEscape 't' '\t' (replaceEscape 'n' '\n' cs))

/-- Resolves the escapes of a literal. -/
def unescape (s : String) : String :=
  String.ofList (unescapeChars s.toList)

end Bytecode.Text
