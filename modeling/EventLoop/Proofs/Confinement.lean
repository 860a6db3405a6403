/-
  Declarations do not leak into other scopes.

  A name is bound in the innermost table of the scope in which code runs.  A block, a loop and a
  called function run in a new table, so the tables that were there before get no name from them,
  and no table ever loses one.  Whatever code changes in an outer table is the value of a name that
  was bound there before.

  Each result is about one table at a time: the names of that table are a property of the state that
  code keeps in every scope of which it is not the innermost table (`EventLoop.Proofs.Upkeep`).
-/
import EventLoop.Generator
import EventLoop.Proofs.Upkeep

namespace EventLoop

open Script

/-! ## The names of a table -/

namespace Assoc

variable {α : Type}

/-- A key that is not there comes last. -/
theorem keys_insert (l : List (String × α)) (key : String) (a : α) :
    (insert l key a).map Prod.fst = l.map Prod.fst ++ if contains l key then [] else [key] := by
  induction l with
  | nil => rfl
  | cons p rest ih =>
    obtain ⟨k, v⟩ := p
    rw [insert]
    by_cases hk : k = key
    · simp [contains, hk]
    · have hrest : contains ((k, v) :: rest) key = contains rest key := by
        simp [contains, List.lookup_cons, beq_eq_false_iff_ne.2 (Ne.symm hk)]
      simp [hk, hrest, ih]

end Assoc

namespace Tables

/-- The names that a table binds, in the order in which they were bound. -/
def names (t : Tables) (id : Nat) : List String := (t.bindings id).map Prod.fst

theorem bindings_write_of_ne (t : Tables) {id other : Nat} (h : other ≠ id) (name : String)
    (v : Value) : (t.write other name v).bindings id = t.bindings id := by
  simp [write, bindings, Array.getElem?_modify, h]

theorem bindings_write_self (t : Tables) {id : Nat} (h : id < t.entries.size) (name : String)
    (v : Value) : (t.write id name v).bindings id = Assoc.insert (t.bindings id) name v := by
  simp [write, bindings, Array.getElem_modify_self, h]

theorem size_write (t : Tables) (id : Nat) (name : String) (v : Value) :
    (t.write id name v).entries.size = t.entries.size := by
  simp [write]

theorem bindings_nest (t : Tables) {id : Nat} (h : id < t.entries.size) (outer : Scope)
    (bindings : Bindings) : (t.nest outer bindings).1.bindings id = t.bindings id := by
  simp [nest, Tables.bindings, Array.getElem?_push_lt h, h]

theorem size_nest (t : Tables) (outer : Scope) (bindings : Bindings) :
    (t.nest outer bindings).1.entries.size = t.entries.size + 1 := by
  simp [nest]

theorem names_write (t : Tables) {id : Nat} (h : id < t.entries.size) (other : Nat)
    (name : String) (v : Value) : t.names id <+: (t.write other name v).names id := by
  by_cases hid : other = id
  · subst hid
    rw [names, names, bindings_write_self t h, Assoc.keys_insert]
    exact List.prefix_append _ _
  · simp [names, bindings_write_of_ne t hid]

end Tables

/-! ## What code does to the names -/

namespace Machine

/-- Every table of `m` is there in `m'` and binds the same names. -/
def Confined (m m' : Machine) : Prop :=
  ∀ id < m.tables.entries.size,
    id < m'.tables.entries.size ∧ m'.tables.names id = m.tables.names id

/-- Every table of `m` is there in `m'` and has lost no name, and none has a new name, apart from the
    innermost table of the scope. -/
structure Declares (m m' : Machine) : Prop where
  kept : ∀ id < m.tables.entries.size,
    id < m'.tables.entries.size ∧ m.tables.names id <+: m'.tables.names id
  elsewhere : ∀ id < m.tables.entries.size, id ≠ m.scope.headD 0 →
    id < m'.tables.entries.size ∧ m'.tables.names id = m.tables.names id

end Machine

namespace Run

variable {α : Type}

theorem names_upheld (id : Nat) (l : List String) : Upheld (fun _ => True) (fun _ => True)
      (fun m => id < m.tables.entries.size ∧ l <+: m.tables.names id) := by
  refine .of_tables (Q := fun t => id < t.entries.size ∧ l <+: t.names id) ?_ ?_
    (fun _ _ => trivial) (fun h => h) fun h => h
  · intro t scope other name v _ ht _
    rw [Tables.size_write]
    exact ⟨ht.1, ht.2.trans (t.names_write ht.1 other name v)⟩
  · intro t scope bindings ht
    rw [Tables.size_nest, Tables.names, t.bindings_nest ht.1]
    exact ⟨Nat.lt_succ_of_lt ht.1, ht.2⟩

/-- In a scope of which it is not the innermost table, a table gets no name either. -/
theorem outer_names_upheld (id : Nat) (l : List String) :
    Upheld (fun scope => scope.headD 0 ≠ id) (fun _ => True)
      (fun m => id < m.tables.entries.size ∧ m.tables.names id = l) := by
  refine .of_tables (Q := fun t => id < t.entries.size ∧ t.names id = l) ?_ ?_ ?_
    (fun _ => trivial) fun _ => trivial
  · intro t scope other name v hscope ht hother
    rw [Tables.size_write]
    refine ⟨ht.1, ?_⟩
    by_cases hid : other = id
    · -- the table is written to, so it binds the name already
      subst hid
      have hbinds : Assoc.contains (t.bindings other) name = true :=
        (hother.resolve_left (Ne.symm hscope)).2
      rw [Tables.names, t.bindings_write_self ht.1, Assoc.keys_insert, if_pos hbinds,
        List.append_nil]
      exact ht.2
    · rw [Tables.names, t.bindings_write_of_ne hid]
      exact ht.2
  · intro t scope bindings ht
    rw [Tables.size_nest, Tables.names, t.bindings_nest ht.1]
    exact ⟨Nat.lt_succ_of_lt ht.1, ht.2⟩
  · intro t scope _ ht
    exact Nat.ne_of_gt ht.1

theorem Upholds.declares {act : Run α} (hkept : ∀ id l, Upholds (fun _ => True)
      (fun m => id < m.tables.entries.size ∧ l <+: m.tables.names id) act)
    (hother : ∀ id l, Upholds (fun scope => scope.headD 0 ≠ id)
      (fun m => id < m.tables.entries.size ∧ m.tables.names id = l) act)
    (m : Machine) : m.Declares (final (act m)) where
  kept id hid := (hkept id _ m trivial ⟨hid, List.prefix_rfl⟩).1
  elsewhere id hid hne := (hother id _ m (Ne.symm hne) ⟨hid, rfl⟩).1

theorem nested_confined {act : Run α} (hact : ∀ id l, Upholds (fun scope => scope.headD 0 ≠ id)
      (fun m => id < m.tables.entries.size ∧ m.tables.names id = l) act)
    (m : Machine) : m.Confined (final (nested act m)) := by
  intro id hid
  exact (nested_keeps (outer_names_upheld id _) (hact id _) trivial ⟨hid, rfl⟩).1

theorem invoke_confined (depth : Nat) (f : Function) (args : List Value) (label : String)
    (line : Nat) (m : Machine) : m.Confined (final (invoke depth f args label line m)) := by
  intro id hid
  exact (invoke_keeps (outer_names_upheld id _) (fun _ => trivial) depth f args label line m
    ⟨hid, rfl⟩).1

theorem block_confined (depth : Nat) (b : Block) (m : Machine) :
    m.Confined (final (execBlock (invoke depth) b m)) := by
  cases b with
  | mk stmts line =>
    refine nested_confined (fun id l => ?_) m
    have h := outer_names_upheld id l
    exact execAll_upholds h (invoke_upholds h (fun _ => trivial) depth) stmts

theorem loop_confined (depth : Nat) (init : LoopInit) (condition update : Option Expr)
    (body : Block) (line : Nat) (m : Machine) :
    m.Confined (final (exec (invoke depth) (.loop init condition update body line) m)) := by
  refine nested_confined (fun id l => ?_) m
  have h := outer_names_upheld id l
  have hcall := invoke_upholds h (fun _ => trivial) depth
  exact (execInit_upholds h hcall init).bind fun _ =>
    rounds_upholds h hcall init condition update body line maxLoopRounds

theorem eval_declares (depth : Nat) (consumed : Bool) (e : Expr) (m : Machine) :
    m.Declares (final (eval (invoke depth) consumed e m)) := by
  refine Upholds.declares (fun id l => ?_) (fun id l => ?_) m
  · have h := names_upheld id l
    exact eval_upholds h (invoke_upholds h (fun _ => trivial) depth) consumed e
  · have h := outer_names_upheld id l
    exact eval_upholds h (invoke_upholds h (fun _ => trivial) depth) consumed e

theorem exec_declares (depth : Nat) (s : Stmt) (m : Machine) :
    m.Declares (final (exec (invoke depth) s m)) := by
  refine Upholds.declares (fun id l => ?_) (fun id l => ?_) m
  · have h := names_upheld id l
    exact exec_upholds h (invoke_upholds h (fun _ => trivial) depth) s
  · have h := outer_names_upheld id l
    exact exec_upholds h (invoke_upholds h (fun _ => trivial) depth) s

/-- Code binds names in the innermost table of its scope only, and unbinds none; a block, a loop and
    a called function bind none in any table that was there before.  This holds of the state in which
    the code ends, also when it fails. -/
theorem declarations_confined (m : Machine) (depth : Nat) :
    (∀ consumed e, m.Declares (final (eval (invoke depth) consumed e m))) ∧
    (∀ s, m.Declares (final (exec (invoke depth) s m))) ∧
    (∀ node, m.Declares (final (evaluateNode node m))) ∧
    (∀ node, m.Declares (final (executeNode node m))) ∧
    (∀ b, m.Confined (final (execBlock (invoke depth) b m))) ∧
    (∀ init condition update body line,
      m.Confined (final (exec (invoke depth) (.loop init condition update body line) m))) ∧
    ∀ f args label line, m.Confined (final (invoke depth f args label line m)) := by
  have hrefl : m.Declares m :=
    ⟨fun _ hid => ⟨hid, List.prefix_rfl⟩, fun _ hid _ => ⟨hid, rfl⟩⟩
  refine ⟨fun consumed e => eval_declares depth consumed e m, fun s => exec_declares depth s m,
    fun node => ?_, fun node => ?_, fun b => block_confined depth b m,
    fun init condition update body line => loop_confined depth init condition update body line m,
    fun f args label line => invoke_confined depth f args label line m⟩
  · cases node with
    | expr e => exact eval_declares m.callBudget false e m
    | stmt s => exact hrefl
  · cases node with
    | expr e => exact hrefl
    | stmt s => exact exec_declares m.callBudget s m

end Run

end EventLoop
