/-
  Paths of files as they are shown: without empty parts and without parts that stay where they are.
-/

namespace EventLoop.Cli.Path

/-- The parts of a path that lead somewhere. -/
def parts (path : String) : List String :=
  ((path.toList.splitOn '/').map String.ofList).filter fun part => part ≠ "" && part ≠ "."

/-- The slashes at the start of an absolute path. Two of them are kept, and more count as one. -/
def root (path : String) : String :=
  match path.toList with
  | '/' :: '/' :: '/' :: _ => "/"
  | '/' :: '/' :: _ => "//"
  | '/' :: _ => "/"
  | _ => ""

/-- The shortest form of a path. -/
def normalize (path : String) : String :=
  let s := root path ++ "/".intercalate (parts path)
  if s.isEmpty then "." else s

/-- The path of the step file that belongs to a program. -/
def stepFile (path : String) : String := normalize path ++ ".steps.json"

end EventLoop.Cli.Path
