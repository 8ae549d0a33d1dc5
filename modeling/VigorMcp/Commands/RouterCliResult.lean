import VigorMcp.Js.Text

/-!
# Router replies that report a failure

`isRouterCliFailure` looks at the lines of a reply, cut at every CR, LF and
CRLF, that start with `%` and one of the failure words.
-/

namespace VigorMcp

/-- A word character of `\b`. -/
def isWordUnit (u : UInt16) : Bool :=
  (48 ≤ u && u ≤ 57) || (65 ≤ u && u ≤ 90) || (97 ≤ u && u ≤ 122) || u == 95

/-- What follows `word`, in any case, at the head of `s` and ends at a word boundary. -/
def startsWithWord (word s : JStr) : Bool :=
  (word.map foldUnit).isPrefixOf (s.map foldUnit) &&
    match s.drop word.length with
    | [] => true
    | u :: _ => !isWordUnit u

/-- `/^%%?\s*word\b/i`, or with `double = false` `/^%\s*word\b/i`. -/
def percentWord (double : Bool) (word : JStr) : JStr → Bool
  | 37 :: 37 :: s => double && startsWithWord word (s.dropWhile isSpace)
  | 37 :: s => startsWithWord word (s.dropWhile isSpace)
  | _ => false

/-- `output.replace(/\r\n/g, '\n').replace(/\r/g, '\n')`. -/
def normalizeLines (output : JStr) : JStr :=
  Scan.replaceAll (js "\r") (js "\n") (Scan.replaceAll (js "\r\n") (js "\n") output)

def isFailureLine (line : JStr) : Bool :=
  let t := trim line
  startsWith t (js "%") &&
    (percentWord true (js "Invalid") t || percentWord true (js "Unknown") t ||
      percentWord true (js "Incomplete") t || percentWord true (js "Error") t ||
      percentWord true (js "Command not found") t || percentWord false (js "Invalid command") t ||
      percentWord false (js "input") t)

def isRouterCliFailure (output : JStr) : Bool :=
  (Scan.splitOn (js "\n") (normalizeLines output)).any isFailureLine

end VigorMcp
