import TickScript.Text.Basic

/-!
# File paths

Slash-separated paths. A clean path has no empty element, no `.` and no `..` except in front of a
relative path; the empty path is `.`.
-/

namespace TickScript.Path

open TickScript.Text

/-- The separator of elements. -/
def slash : UInt8 := 0x2F

/-- Whether a path starts at the root. -/
def isAbsolute (p : Text) : Bool := p.head? == some slash

/-- The elements of a clean path, last first, after one more element. -/
def pushElement (absolute : Bool) (done : List Text) (element : Text) : List Text :=
  if element.isEmpty || element == [0x2E] then done
  else if element == [0x2E, 0x2E] then
    match done with
    | [] => if absolute then [] else [element]
    | top :: below => if top == [0x2E, 0x2E] then element :: done else below
  else element :: done

/-- The shortest path of the same meaning. -/
def clean (p : Text) : Text :=
  let absolute := isAbsolute p
  let elements := ((splitOn slash p).foldl (pushElement absolute) []).reverse
  let body := Text.join [slash] elements
  if absolute then slash :: body
  else if body.isEmpty then [0x2E]
  else body

/-- The elements joined to one clean path; empty elements do not count. -/
def join (elements : List Text) : Text :=
  match elements.filter fun e => !e.isEmpty with
  | [] => []
  | used => clean (Text.join [slash] used)

/-- What precedes the last separator, and the rest. -/
def splitLast (p : Text) : Text × Text :=
  let file := (p.reverse.takeWhile (· != slash)).reverse
  (p.take (p.length - file.length), file)

/-- The directory of a path. -/
def directory (p : Text) : Text := clean (splitLast p).1

/-- The last element of a path. -/
def base (p : Text) : Text :=
  if p.isEmpty then [0x2E]
  else
    let stripped := (p.reverse.dropWhile (· == slash)).reverse
    if stripped.isEmpty then [slash] else (splitLast stripped).2

/-- The part of the last element from its last point on. -/
def fileExtension (p : Text) : Text :=
  let file := (splitLast p).2
  if file.contains 0x2E then 0x2E :: (file.reverse.takeWhile (· != 0x2E)).reverse else []

/-- The clean absolute form of a path, seen from a working directory. -/
def absolute (cwd p : Text) : Text := if isAbsolute p then clean p else join [cwd, p]

end TickScript.Path
