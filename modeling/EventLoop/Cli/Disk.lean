/-
  A host in memory: the files below a working directory, and what was written to the two outputs. Of
  what lies above the working directory no more is known than that it is there.
-/
import EventLoop.Assoc
import EventLoop.Cli.Command

namespace EventLoop.Cli

/-! ## Places -/

/-- Where a path leads. -/
inductive Spot where
  /-- To the working directory or below it, by these parts, last one first. -/
  | below (way : List String)
  /-- Above the working directory. -/
  | above
  /-- Down again by another way. -/
  | elsewhere
  deriving DecidableEq, Repr, Inhabited

namespace Spot

/-- The place at which a path starts. -/
def start (path : String) : Spot := if (Path.root path).isEmpty then .below [] else .above

/-- Goes on by a part of a path. -/
def enter (spot : Spot) (part : String) : Spot :=
  match spot, decide (part = "..") with
  | .below (_ :: way), true => .below way
  | .below [], true | .above, true => .above
  | .below way, false => .below (part :: way)
  | .above, false | .elsewhere, _ => .elsewhere

end Spot

/-! ## Files -/

/-- The files, by their paths from the working directory, and what was written to the outputs. -/
structure Disk where
  files : List (String × String) := []
  out : String := ""
  err : String := ""
  deriving Inhabited

namespace Disk

/-- The longest name of a file, in bytes. -/
def maxNameBytes : Nat := 255

/-- The longest path, in bytes. -/
def maxPathBytes : Nat := 4095

/-- What is at a place. A directory is known by the files below it. -/
def look (d : Disk) : Spot → Found
  | .above => .directory
  | .elsewhere => .nothing
  | .below way =>
    let parts := way.reverse
    match d.files.find? fun f => Path.parts f.1 = parts with
    | some f => .text f.2
    | none =>
      if parts.isEmpty || d.files.any (fun f => parts.isPrefixOf (Path.parts f.1)) then .directory
      else .nothing

/-- Goes on by the parts of a path, as long as there are directories to go through. If there are
not, what stands in the way is given instead. -/
def walk (d : Disk) (spot : Spot) : List String → Except Found Spot
  | [] => .ok spot
  | part :: rest =>
    if d.look spot ≠ .directory then .error .nothing
    else if part.utf8ByteSize > maxNameBytes then .error .nameTooLong
    else d.walk (spot.enter part) rest

/-- Goes to a path from the working directory. -/
def find (d : Disk) (path : String) : Except Found Spot :=
  if path.utf8ByteSize > maxPathBytes then .error .nameTooLong
  else d.walk (Spot.start path) (Path.parts path)

/-- What is found at a path. -/
def read (d : Disk) (path : String) : Found :=
  match d.find path with
  | .ok spot => d.look spot
  | .error found => found

/-- Writes a file, or says why it cannot be written. -/
def write (d : Disk) (path text : String) : Option Crash × Disk :=
  match d.find path with
  | .error .nameTooLong => (some .nameTooLong, d)
  | .error _ => (some .noDirectory, d)
  | .ok spot =>
    match d.look spot, spot with
    | .directory, _ => (some .isDirectory, d)
    | _, .below way =>
      let name := "/".intercalate way.reverse
      (none, { d with files := Assoc.insert d.files name text })
    | _, _ => (some .noDirectory, d)

/-- A disk as a host. Nothing is waited for. -/
def host : Host (StateM Disk) where
  read path := do return (← get).read path
  write path text := modifyGet fun d => d.write path text
  print line := modify fun d => { d with out := d.out ++ line ++ "\n" }
  warn line := modify fun d => { d with err := d.err ++ line ++ "\n" }
  wait _ := pure ()

end Disk

end EventLoop.Cli
