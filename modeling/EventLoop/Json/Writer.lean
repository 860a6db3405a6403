/-
  The text of JSON data, on one line or indented.
-/
import EventLoop.Json.Basic

namespace EventLoop.Json

/-- How JSON is laid out: the text at a line break, by the depth of what follows it, and the text
after the key of a field. -/
structure Style where
  lineBreak : Nat → String
  colon : String

/-- Everything on one line, without spaces. -/
def Style.compact : Style := ⟨fun _ => "", ":"⟩

/-- One item to a line, indented by two spaces for each level. -/
def Style.indented : Style := ⟨fun depth => "\n" ++ "".pushn ' ' (2 * depth), ": "⟩

/-- The text of a double. -/
def floatText (x : Float) : String :=
  match Binary64.view x with
  | .nan => "NaN"
  | .infinite negative => if negative then "-Infinity" else "Infinity"
  | .finite .. => Binary64.text x

mutual

/-- The pieces of the text of a value at the given depth. -/
def pieces (style : Style) (depth : Nat) : Json → List String
  | .null => ["null"]
  | .bool b => [if b then "true" else "false"]
  | .int n => [toString n]
  | .float x => [floatText x]
  | .str s => [Text.Quoted.data false s]
  | .arr [] => ["[]"]
  | .arr (x :: xs) =>
    "[" :: style.lineBreak (depth + 1) ::
      (pieces style (depth + 1) x ++ itemPieces style (depth + 1) xs ++
        [style.lineBreak depth, "]"])
  | .obj [] => ["\x7b\x7d"]
  | .obj ((k, x) :: xs) =>
    "\x7b" :: style.lineBreak (depth + 1) :: Text.Quoted.data false k :: style.colon ::
      (pieces style (depth + 1) x ++ fieldPieces style (depth + 1) xs ++
        [style.lineBreak depth, "\x7d"])

/-- The pieces of the items after the first one. -/
def itemPieces (style : Style) (depth : Nat) : List Json → List String
  | [] => []
  | x :: xs => "," :: style.lineBreak depth :: (pieces style depth x ++ itemPieces style depth xs)

/-- The pieces of the fields after the first one. -/
def fieldPieces (style : Style) (depth : Nat) : List (String × Json) → List String
  | [] => []
  | (k, x) :: xs =>
    "," :: style.lineBreak depth :: Text.Quoted.data false k :: style.colon ::
      (pieces style depth x ++ fieldPieces style depth xs)

end

/-- The text of a value. -/
def render (style : Style) (j : Json) : String := String.join (pieces style 0 j)

end EventLoop.Json
