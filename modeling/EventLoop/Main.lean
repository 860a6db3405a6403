/-
  The command line program.
-/
import EventLoop.Cli.Command

namespace EventLoop.Main

open Cli

/-- The code of the failure to go through something that is no directory. -/
def notDirectoryCode : UInt32 := 20

/-- The code of the failure to use a name that is too long. -/
def nameTooLongCode : UInt32 := 36

/-- What is found at a path of the file system. -/
def readFile (path : String) : IO Found := do
  try
    match String.fromUTF8? (← IO.FS.readBinFile path) with
    | some s => return .text s
    | none => throw (IO.userError "the file is no UTF-8 text")
  catch e =>
    match e with
    | .noFileOrDirectory .. => return .nothing
    | .inappropriateType _ code _ => return if code = notDirectoryCode then .nothing else .directory
    | .invalidArgument _ code _ => if code = nameTooLongCode then return .nameTooLong else throw e
    | e => throw e

/-- The machine that the program runs on. -/
def host : Host IO where
  read := readFile
  write path text := do
    IO.FS.writeFile path text
    return none
  print := IO.println
  warn := IO.eprintln
  wait ms := if ms ≤ 0 then pure () else IO.sleep ms.toUInt32

/-- Ends the program: says why it broke off, and gives its code. -/
def finish : Exit → IO UInt32
  | .success => return 0
  | .failure => return 1
  | .usage => return 2
  | .crash c => do
    IO.eprintln ("Error: " ++ c.message)
    return 1

end EventLoop.Main

/-- Carries out the command line. -/
def main (args : List String) : IO UInt32 := do
  EventLoop.Main.finish (← EventLoop.Cli.run EventLoop.Main.host args)
