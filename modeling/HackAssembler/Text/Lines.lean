-- SUMMARY: The lines of a text, and of a file.

/-!
# Lines of a text

A line ends at a line feed, together with one carriage return directly in front of
it. Text behind the last line feed is a line of its own unless it is empty, and a
carriage return at its end belongs to it.

A file holds bytes. It is cut at its line feeds before anything is known of its text, and
each of its lines is read as text on its own.
-/

namespace HackAssembler.Text

/-- An ended line without the carriage return in front of its line feed. -/
def dropReturn (line : List Char) : List Char :=
  if line.getLast? = some '\r' then line.dropLast else line

/-- The lines of a text, without what ends them. -/
def lines (s : String) : List String :=
  let pieces := s.toList.splitOn '\n'
  let ended := pieces.dropLast.map dropReturn
  let rest := (pieces.getLast?.filter (!·.isEmpty)).toList
  (ended ++ rest).map String.ofList

/-- The characters that bytes stand for. -/
def decode? (bytes : List UInt8) : Option (List Char) :=
  (String.fromUTF8? bytes.toByteArray).map String.toList

/-- The byte of a line feed. -/
def lineFeed : UInt8 := 0x0A

/-- The lines of a file, without what ends them, if all of them are text. -/
def readLines? (content : ByteArray) : Option (List String) := do
  let pieces ← (content.data.toList.splitOn lineFeed).mapM decode?
  let ended := pieces.dropLast.map dropReturn
  let rest := (pieces.getLast?.filter (!·.isEmpty)).toList
  return (ended ++ rest).map String.ofList

example : lines "a\r\nb\n\nc\r" = ["a", "b", "", "c\r"] := by decide

end HackAssembler.Text
