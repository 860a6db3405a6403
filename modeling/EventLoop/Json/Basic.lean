/-
  JSON data: the values, their comparison, and the form in which messages show them.
-/
import EventLoop.Number.Basic
import EventLoop.Text.Quoted

namespace EventLoop

/-- A JSON value. Integers of any size and doubles are kept apart, and an object keeps its fields in
order. -/
inductive Json where
  | null
  | bool (b : Bool)
  | int (n : Int)
  | float (x : Float)
  | str (s : String)
  | arr (items : List Json)
  | obj (fields : List (String × Json))
  deriving Inhabited, Repr

namespace Json

/-- The value under `key`; the null value if there is none. -/
def field (fields : List (String × Json)) (key : String) : Json :=
  (fields.lookup key).getD .null

/-- The text that a value is, if it is one. -/
def text? : Json → Option String
  | .str s => some s
  | _ => none

/-- The number that a value stands for in comparisons; a truth value counts as one or zero. -/
def number? : Json → Option Number
  | .bool b => some (.int (if b then 1 else 0))
  | .int n => some (.int n)
  | .float x => some (.float x)
  | _ => none

mutual

/-- Whether two values are the same. Numbers are compared by value, and the order of the fields of
an object does not count. -/
def same : Json → Json → Bool
  | .null, .null => true
  | .str s, .str t => s == t
  | .arr xs, .arr ys => sameItems xs ys
  | .obj xs, .obj ys => xs.length == ys.length && sameFields xs ys
  | a, b => match a.number?, b.number? with
    | some m, some n => m.equals n
    | _, _ => false

/-- Whether two lists of values agree item by item. -/
def sameItems : List Json → List Json → Bool
  | [], [] => true
  | x :: xs, y :: ys => same x y && sameItems xs ys
  | _, _ => false

/-- Whether every field has a counterpart with the same value. -/
def sameFields : List (String × Json) → List (String × Json) → Bool
  | [], _ => true
  | (k, x) :: xs, ys => (ys.lookup k).any (fun y => same x y) && sameFields xs ys

end

mutual

/-- The value as a message shows it. -/
def shown : Json → String
  | .null => "None"
  | .bool b => if b then "True" else "False"
  | .int n => toString n
  | .float x => Binary64.text x
  | .str s => Text.Quoted.shown s
  | .arr items => "[" ++ ", ".intercalate (shownItems items) ++ "]"
  | .obj fields => "\x7b" ++ ", ".intercalate (shownFields fields) ++ "\x7d"

/-- The items of an array as a message shows them. -/
def shownItems : List Json → List String
  | [] => []
  | x :: xs => shown x :: shownItems xs

/-- The fields of an object as a message shows them. -/
def shownFields : List (String × Json) → List String
  | [] => []
  | (k, x) :: xs => (Text.Quoted.shown k ++ ": " ++ shown x) :: shownFields xs

end

/-- The value inside a message: a text as it is, all else as it is shown. -/
def plain : Json → String
  | .str s => s
  | j => j.shown

end Json

end EventLoop
