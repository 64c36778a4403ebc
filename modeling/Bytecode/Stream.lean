/-! The two streams of a program: input is read line by line, output may have room for a limited number of bytes and may keep
    what is written until it is flushed. -/

namespace Bytecode

/-- The bytes of the input that have not been read. -/
structure Input where
  rest : List UInt8 := []

namespace Input

/-- The reason why a line that is not a text cannot be read. -/
def notText : String := "stream did not contain valid UTF-8"

/-- The text of a row of bytes. -/
def textOf? (bytes : List UInt8) : Option String :=
  String.fromUTF8? ⟨bytes.toArray⟩

/-- A line without the carriage return at its end. -/
def dropReturn (line : List UInt8) : List UInt8 :=
  if line.getLast? = some 13 then line.dropLast else line

/-- The bytes before the first line feed and those behind it. Without a line feed all bytes are a line that is not
ended, and nothing is left. -/
def splitLine (bytes : List UInt8) : List UInt8 × Bool × List UInt8 :=
  match bytes.dropWhile (· != 10) with
  | [] => (bytes, false, [])
  | _ :: rest => (bytes.takeWhile (· != 10), true, rest)

/-- Reads a line and drops the line feed that ends it and one carriage return before that. At the end of the input the
line is empty. A line that is not a text is passed over. -/
def readLine (i : Input) : Except String String × Input :=
  let (line, ended, rest) := splitLine i.rest
  match textOf? (if ended then dropReturn line else line) with
  | some s => (.ok s, ⟨rest⟩)
  | none => (.error notText, ⟨rest⟩)

end Input

/-- What has been written, how many bytes can still be written if they are limited, whether flushing works, and what comes of
handing on bytes that were kept until then. -/
structure Output where
  written : Array UInt8 := #[]
  room : Option Nat := none
  flushes : Bool := true
  handOn : Array UInt8 → Except String Unit := fun _ => .ok ()

namespace Output

/-- The reason why a full output takes no more bytes. -/
def full : String := "sink full"

/-- The reason why flushing does not work. -/
def noFlush : String := "flush refused"

/-- Writes as many bytes as there is room for. -/
def writeBytes (o : Output) (bytes : Array UInt8) : Except String Unit × Output :=
  match o.room with
  | none => (.ok (), { o with written := o.written ++ bytes })
  | some room =>
    if bytes.size ≤ room then
      (.ok (), { o with written := o.written ++ bytes, room := some (room - bytes.size) })
    else (.error full, { o with written := o.written ++ bytes.extract 0 room, room := some 0 })

/-- Writes a text. -/
def write (o : Output) (text : String) : Except String Unit × Output :=
  o.writeBytes text.toUTF8.data

/-- Hands on what has been written. -/
def flush (o : Output) : Except String Unit :=
  if o.flushes then o.handOn o.written else .error noFlush

end Output

end Bytecode
