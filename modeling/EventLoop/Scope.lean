/-
  Bindings in nested scopes. Every scope has a table of its own bindings; a name is looked up in
  the tables of the scope from the inside out. A name that is not bound has no value, and an
  assignment to it binds it in the innermost table.
-/
import EventLoop.Assoc
import EventLoop.Value.Basic

namespace EventLoop

/-- The bindings of one table, in the order in which they were made. -/
abbrev Bindings := List (String × Value)

/-- All tables of bindings. Table zero is that of the global scope. -/
structure Tables where
  entries : Array Bindings := #[[]]
  deriving Inhabited

/-- The scope that every other one is nested in. -/
def Scope.global : Scope := [0]

namespace Tables

/-- The bindings of a table. -/
def bindings (t : Tables) (id : Nat) : Bindings := (t.entries[id]?).getD []

/-- Whether a table binds a name. -/
def binds (t : Tables) (id : Nat) (name : String) : Bool := Assoc.contains (t.bindings id) name

/-- A new table with the given bindings: all tables, and the scope nested in `outer` with it. -/
def nest (t : Tables) (outer : Scope) (bindings : Bindings) : Tables × Scope :=
  let id := t.entries.size
  ({ entries := t.entries.push bindings }, id :: outer)

/-- The nearest table of a scope that binds a name. -/
def owner? (t : Tables) (scope : Scope) (name : String) : Option Nat :=
  scope.find? fun id => t.binds id name

/-- The value of a name in a scope. -/
def get? (t : Tables) (scope : Scope) (name : String) : Option Value :=
  scope.findSome? fun id => (t.bindings id).lookup name

/-- Whether a name is bound in a scope. -/
def has (t : Tables) (scope : Scope) (name : String) : Bool := (t.owner? scope name).isSome

/-- Sets a name in one table. -/
def write (t : Tables) (id : Nat) (name : String) (value : Value) : Tables :=
  { entries := t.entries.modify id fun b => Assoc.insert b name value }

/-- Binds a name in the innermost table of a scope. -/
def declare (t : Tables) (scope : Scope) (name : String) (value : Value) : Tables :=
  t.write (scope.headD 0) name value

/-- Changes the nearest binding of a name, or makes one in the innermost table. -/
def assign (t : Tables) (scope : Scope) (name : String) (value : Value) : Tables :=
  t.write ((t.owner? scope name).getD (scope.headD 0)) name value

end Tables

end EventLoop
