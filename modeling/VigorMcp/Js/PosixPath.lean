import VigorMcp.Js.Text

/-!
# POSIX paths

`node:path` on POSIX, under its own names: a path is a string, its segments stand
between slashes, and `normalizeString` drops empty and `.` segments and lets `..`
take back the segment before it. `resolve` is given an absolute directory first,
so the working directory does not matter.
-/

namespace VigorMcp

namespace PosixPath

def slash : UInt16 := 47

def isAbsolute (path : JStr) : Bool := path.head? == some slash

/-- One more segment; `..` at the top stays only where the path may leave it. -/
def pushSegment (allowAboveRoot : Bool) (segments : List JStr) (segment : JStr) : List JStr :=
  if segment = [] ∨ segment = js "." then segments
  else if segment = js ".." then
    match segments.getLast? with
    | some last =>
      if last ≠ js ".." then segments.dropLast
      else if allowAboveRoot then segments ++ [js ".."]
      else segments
    | none => if allowAboveRoot then [js ".."] else []
  else segments ++ [segment]

def normalizeString (path : JStr) (allowAboveRoot : Bool) : JStr :=
  join [slash] ((path.splitOn slash).foldl (pushSegment allowAboveRoot) [])

def normalize (path : JStr) : JStr :=
  if path = [] then js "."
  else
    let absolute := isAbsolute path
    let trailing := path.getLast? == some slash
    let normalized := normalizeString path (!absolute)
    if normalized = [] then
      if absolute then js "/" else if trailing then js "./" else js "."
    else
      let normalized := if trailing then normalized ++ [slash] else normalized
      if absolute then slash :: normalized else normalized

/-- `path.join(a, b)`. -/
def join (a b : JStr) : JStr :=
  match [a, b].filter (· ≠ []) with
  | [] => js "."
  | parts => normalize (VigorMcp.join [slash] parts)

/-- `path.resolve(directory, path)` for an absolute directory. -/
def resolve (directory path : JStr) : JStr :=
  if isAbsolute path then slash :: normalizeString path false
  else slash :: normalizeString (directory ++ [slash] ++ path) false

/-- What is before the last segment; slashes at the end are not looked at, nor is one at the front. -/
def dirname (path : JStr) : JStr :=
  if path = [] then js "."
  else
    let before := (path.tail.rdropWhile (· == slash)).rdropWhile (· != slash)
    if before = [] then if isAbsolute path then js "/" else js "."
    else if isAbsolute path ∧ before.length = 1 then js "//"
    else slice path before.length

end PosixPath

end VigorMcp
