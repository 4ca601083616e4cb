/-!
# TileMind.Project.Path

Paths with slashes between their parts. Everything here is about the text of a path; no file is
looked at.
-/

namespace TileMind
namespace Path

def isAbsolute (p : String) : Bool := p.startsWith "/"

/-- Takes one part more: nothing and a dot stay where they are, two dots go up. -/
def step (rooted : Bool) (parts : List String) (part : String) : List String :=
  if part = "" || part = "." then parts
  else if part = ".." then
    match parts.getLast? with
    | none => if rooted then [] else [".."]
    | some last => if last = ".." then parts ++ [".."] else parts.dropLast
  else parts ++ [part]

/-- The parts of a path without detours. -/
def parts (p : String) : List String := (p.splitOn "/").foldl (step (isAbsolute p)) []

/-- The shortest path that means the same by its text alone. -/
def clean (p : String) : String :=
  let body := "/".intercalate (parts p)
  if isAbsolute p then "/" ++ body else if body = "" then "." else body

/-- One path below another; empty ones do not count. -/
def join (a b : String) : String :=
  match [a, b].filter (· ≠ "") with
  | [] => ""
  | ps => clean ("/".intercalate ps)

def parent (p : String) : String :=
  clean ("/".intercalate ((p.splitOn "/").dropLast) ++ if p.contains '/' then "/" else "")

/-- The last part from its last dot on. -/
def extension (p : String) : String :=
  let last := ((p.splitOn "/").getLastD "").toList
  if last.contains '.' then
    String.ofList ('.' :: (last.reverse.takeWhile (· ≠ '.')).reverse)
  else ""

/-- The path from the root, for a path seen from `here`. -/
def absolute (here p : String) : String := if isAbsolute p then clean p else join here p

/-- The parts of an absolute path as the directory they lead to. -/
def ofParts (ps : List String) : String := "/" ++ "/".intercalate ps

/-- An absolute path and the directories above it, up to the root. -/
def ancestors (p : String) : List String :=
  let ps := parts p
  (List.range (ps.length + 1)).map fun n => ofParts (ps.take (ps.length - n))

/-- Whether a change of a file affects a project. -/
def isProjectFile (p : String) : Bool :=
  [".toml", ".yaml", ".yml", ".tengo"].contains (extension p).toLower

end Path
end TileMind
