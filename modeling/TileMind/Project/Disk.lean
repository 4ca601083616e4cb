import TileMind.Project.Path

/-!
# TileMind.Project.Disk

What a project asks of the file system. A `Disk` computation is a plan: it reads, probes and writes
files and goes on with the answers. `Disk.run` carries a plan out on a tree of files in memory; what
holds for every plan and every answer holds for a real file system too.
-/

namespace TileMind

/-- Why a file cannot be used. -/
inductive FileError where
  | missing
  | notDirectory
  | isDirectory
  | other (text : String)
deriving DecidableEq, Repr

namespace FileError

def text : FileError → String
  | .missing => "no such file or directory"
  | .notDirectory => "not a directory"
  | .isDirectory => "is a directory"
  | .other text => text

/-- The error of reading a file. A directory can be opened, but not read. -/
def readMessage (e : FileError) (path : String) : String :=
  (if e = .isDirectory then "read " else "open ") ++ path ++ ": " ++ e.text

/-- The error of writing a file. -/
def writeMessage (e : FileError) (path : String) : String := "open " ++ path ++ ": " ++ e.text

end FileError

/-- A plan that uses files. -/
inductive Disk (α : Type) where
  | done (a : α)
  | read (path : String) (next : Except FileError (List UInt8) → Disk α)
  | probe (path : String) (next : Bool → Disk α)
  | write (path : String) (bytes : List UInt8) (next : Option FileError → Disk α)

namespace Disk

variable {α β : Type}

/-- Goes on with the result of a plan. -/
def bind : Disk α → (α → Disk β) → Disk β
  | .done a, f => f a
  | .read path next, f => .read path fun r => (next r).bind f
  | .probe path next, f => .probe path fun r => (next r).bind f
  | .write path bytes next, f => .write path bytes fun r => (next r).bind f

instance : Monad Disk where
  pure := .done
  bind := bind

def readFile (path : String) : Disk (Except FileError (List UInt8)) := .read path .done

/-- Whether there is a file or a directory. -/
def hasFile (path : String) : Disk Bool := .probe path .done

def writeFile (path : String) (bytes : List UInt8) : Disk (Option FileError) :=
  .write path bytes .done

end Disk

/-- Files in memory by their absolute paths; `here` is the directory that other paths start from. A
directory is there if it is named, or if something is in it. -/
structure Files where
  here : String := "/"
  directories : List String := []
  files : List (String × List UInt8) := []
deriving Repr, Inhabited

namespace Files

def isFile (fs : Files) (path : String) : Bool := (fs.files.lookup path).isSome

def isDirectory (fs : Files) (path : String) : Bool :=
  path = "" || fs.directories.contains path ||
    (fs.directories ++ fs.files.map Prod.fst).any fun p => (path ++ "/").isPrefixOf p

/-- One part of a path further, from a place that is there. -/
def enter (fs : Files) (place part : String) : Except FileError String :=
  if fs.isDirectory place then
    if part = "" || part = "." then .ok place
    else if part = ".." then .ok ("/".intercalate ((place.splitOn "/").dropLast))
    else .ok (place ++ "/" ++ part)
  else if fs.isFile place then .error .notDirectory
  else .error .missing

/-- The place a path leads to. All but its last part must be there. -/
def locate (fs : Files) (path : String) : Except FileError String :=
  if path = "" then .error .missing
  else
    let full := if Path.isAbsolute path then path else fs.here ++ "/" ++ path
    ((full.splitOn "/").drop 1).foldlM fs.enter ""

def read (fs : Files) (path : String) : Except FileError (List UInt8) :=
  (fs.locate path).bind fun place =>
    match fs.files.lookup place with
    | some bytes => .ok bytes
    | none => .error (if fs.isDirectory place then .isDirectory else .missing)

def contains (fs : Files) (path : String) : Bool :=
  match fs.locate path with
  | .ok place => fs.isFile place || fs.isDirectory place
  | .error _ => false

/-- Puts a file at a place, in the stead of one that is there. -/
def put (fs : Files) (place : String) (bytes : List UInt8) : Files :=
  { fs with files := (place, bytes) :: fs.files.filter fun f => f.1 ≠ place }

def write (fs : Files) (path : String) (bytes : List UInt8) : Except FileError Files :=
  (fs.locate path).bind fun place =>
    if fs.isDirectory place then .error .isDirectory else .ok (fs.put place bytes)

end Files

/-- Carries a plan out on files in memory. -/
def Disk.run {α : Type} : Disk α → Files → α × Files
  | .done a, fs => (a, fs)
  | .read path next, fs => (next (fs.read path)).run fs
  | .probe path next, fs => (next (fs.contains path)).run fs
  | .write path bytes next, fs =>
    match fs.write path bytes with
    | .ok fs => (next none).run fs
    | .error e => (next (some e)).run fs

end TileMind
