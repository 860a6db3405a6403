/-
  What an assignment changes for the scopes of a tree.

  A scope is the list of its tables from the inside out, so scopes that are nested in one another
  share tables.  An assignment writes to one table: the nearest one that binds the name, or the
  innermost one.  The name then has the new value in exactly those scopes in which that table is the
  nearest one that binds it, and nothing else changes in any scope.
-/
import EventLoop.Proofs.Confinement

namespace EventLoop

namespace Tables

variable {t : Tables} {scope : Scope} {scopes : List Scope} {name : String} {b : Nat}

/-- A table of a scope is the nearest one that binds a name. -/
def Nearest (t : Tables) (scope : Scope) (name : String) (b : Nat) : Prop :=
  ∃ inner outer, scope = inner ++ b :: outer ∧ t.binds b name = true ∧
    ∀ i ∈ inner, t.binds i name = false

/-- The table that an assignment in a scope is meant for: the nearest one that binds the name, or
    the innermost one if none does. -/
def Target (t : Tables) (scope : Scope) (name : String) (b : Nat) : Prop :=
  t.Nearest scope name b ∨ (∀ i ∈ scope, t.binds i name = false) ∧ scope.head? = some b

/-- Tables with the scopes of a tree, which starts with the global scope and is changed by nesting a
    new scope in one of its scopes, by declarations and by assignments. -/
inductive Tree : Tables → List Scope → Prop
  | root : Tree {} [Scope.global]
  | child {t : Tables} {scopes : List Scope} {scope : Scope} (h : Tree t scopes)
      (hscope : scope ∈ scopes) : Tree (t.nest scope []).1 ((t.nest scope []).2 :: scopes)
  | declare {t : Tables} {scopes : List Scope} {scope : Scope} (h : Tree t scopes)
      (hscope : scope ∈ scopes) (name : String) (v : Value) : Tree (t.declare scope name v) scopes
  | assign {t : Tables} {scopes : List Scope} {scope : Scope} (h : Tree t scopes)
      (hscope : scope ∈ scopes) (name : String) (v : Value) : Tree (t.assign scope name v) scopes

/-- Every scope of a tree has an innermost table, and all its tables exist. -/
theorem Tree.bounded (h : Tree t scopes) :
    ∀ scope ∈ scopes, scope ≠ [] ∧ ∀ i ∈ scope, i < t.entries.size := by
  induction h with
  | root => simp [Scope.global]
  | @child t scopes scope _ hscope ih =>
    have hgrown (s : Scope) (hs : ∀ i ∈ s, i < t.entries.size) (i : Nat) (hi : i ∈ s) :
        i < (t.nest scope []).1.entries.size := by
      rw [size_nest]
      exact Nat.lt_succ_of_lt (hs i hi)
    refine List.forall_mem_cons.2 ⟨⟨List.cons_ne_nil _ _, List.forall_mem_cons.2 ⟨?_, ?_⟩⟩, ?_⟩
    · simp [nest]
    · exact hgrown scope (ih scope hscope).2
    · exact fun s hs => ⟨(ih s hs).1, hgrown s (ih s hs).2⟩
  | declare _ _ name v ih | assign _ _ name v ih =>
    intro s hs
    refine ⟨(ih s hs).1, fun i hi => ?_⟩
    exact (size_write _ _ name v).symm ▸ (ih s hs).2 i hi

theorem has_eq_isSome (t : Tables) (scope : Scope) (name : String) :
    t.has scope name = (t.get? scope name).isSome := by
  induction scope with
  | nil => rfl
  | cons i scope ih =>
    rw [has, owner?, List.find?_cons, get?, List.findSome?_cons, binds, Assoc.contains]
    cases (t.bindings i).lookup name with
    | none => exact ih
    | some v => rfl

theorem nearest_iff : t.Nearest scope name b ↔ t.owner? scope name = some b := by
  rw [owner?, List.find?_eq_some_iff_append]
  simp only [Nearest, Bool.not_eq_true']
  exact ⟨fun ⟨inner, outer, hs, hb, hi⟩ => ⟨hb, inner, outer, hs, hi⟩,
    fun ⟨hb, inner, outer, hs, hi⟩ => ⟨inner, outer, hs, hb, hi⟩⟩

theorem target_iff (hscope : scope ≠ []) :
    t.Target scope name b ↔ b = (t.owner? scope name).getD (scope.headD 0) := by
  obtain ⟨i, outer, rfl⟩ := List.exists_cons_of_ne_nil hscope
  have hnone : (∀ j ∈ i :: outer, t.binds j name = false) ↔ t.owner? (i :: outer) name = none := by
    rw [owner?, List.find?_eq_none]
    simp only [Bool.not_eq_true]
  rw [Target, nearest_iff, hnone]
  cases t.owner? (i :: outer) name with
  | none => simp [eq_comm]
  | some c => simp [eq_comm]

theorem lookup_write (hb : b < t.entries.size) (v : Value) (i : Nat) (x : String) :
    ((t.write b name v).bindings i).lookup x =
      if i = b ∧ x = name then some v else (t.bindings i).lookup x := by
  by_cases hi : i = b
  · subst hi
    simp [bindings_write_self t hb, Assoc.lookup_insert]
  · simp [bindings_write_of_ne t (Ne.symm hi), hi]

/-- The name that is written to has the new value where the table is the nearest one that binds
    it. -/
theorem get?_write (hb : b < t.entries.size) (v : Value) (scope : Scope) :
    ((t.write b name v).Nearest scope name b → (t.write b name v).get? scope name = some v) ∧
    (¬ (t.write b name v).Nearest scope name b →
      (t.write b name v).get? scope name = t.get? scope name) := by
  simp only [nearest_iff]
  -- from the inside out, up to the table that is written to or one that binds the name already
  induction scope with
  | nil => simp [owner?, get?]
  | cons i scope ih =>
    simp only [owner?, get?, List.find?_cons, List.findSome?_cons, binds, Assoc.contains,
      lookup_write hb] at ih ⊢
    by_cases hi : i = b
    · simp [hi]
    · cases hv : (t.bindings i).lookup name with
      | none => simpa [hi, hv] using ih
      | some w => simp [hi]

theorem get?_write_other (hb : b < t.entries.size) (v : Value) (scope : Scope) {x : String}
    (hx : x ≠ name) : (t.write b name v).get? scope x = t.get? scope x := by
  simp [get?, lookup_write hb, hx]

/-- What scopes see of a value that is given to a name in the table `b`: it is the value of the name
    where `b` is the nearest table that binds it, and else every name is bound as before. -/
def Reaches (t t' : Tables) (scopes : List Scope) (name : String) (v : Value) (b : Nat) : Prop :=
  ∀ scope ∈ scopes, ∀ x,
    (x = name ∧ t'.Nearest scope name b → t'.get? scope x = some v ∧ t'.has scope x = true) ∧
    (¬ (x = name ∧ t'.Nearest scope name b) →
      t'.get? scope x = t.get? scope x ∧ t'.has scope x = t.has scope x)

/-- An assignment in a scope of a tree is meant for one table, and reaches exactly the scopes in
    which that is now the nearest table that binds the name. -/
theorem assignment_reaches_sharers (h : Tree t scopes) (hscope : scope ∈ scopes) (name : String)
    (v : Value) :
    ∃ b, (∀ c, t.Target scope name c ↔ c = b) ∧
      t.Reaches (t.assign scope name v) scopes name v b := by
  obtain ⟨hne, hbound⟩ := h.bounded scope hscope
  refine ⟨_, fun c => target_iff hne, fun other _ x => ?_⟩
  -- the table exists, so it is really written to
  have hb : (t.owner? scope name).getD (scope.headD 0) < t.entries.size := by
    obtain ⟨i, outer, rfl⟩ := List.exists_cons_of_ne_nil hne
    cases howner : t.owner? (i :: outer) name with
    | none => exact hbound i List.mem_cons_self
    | some c => exact hbound c (List.mem_of_find?_eq_some howner)
  simp only [has_eq_isSome]
  rw [assign]
  obtain ⟨hreached, hkept⟩ := @get?_write t name _ hb v other
  constructor
  · rintro ⟨rfl, hnearest⟩
    rw [hreached hnearest]
    exact ⟨rfl, rfl⟩
  · intro hother
    have hx : (t.write ((t.owner? scope name).getD (scope.headD 0)) name v).get? other x =
        t.get? other x := by
      by_cases hx : x = name
      · subst hx
        exact hkept fun hnearest => hother ⟨rfl, hnearest⟩
      · exact get?_write_other hb v other hx
    rw [hx]
    exact ⟨rfl, rfl⟩

/-- Of two scopes nested in the global one, the first shares the binding of a name with it, and the
    other has a binding of its own, which an assignment in the first one does not reach. -/
theorem assignment_reaches_sharers_shadowed :
    ∃ t, Tree t [[2, 0], [1, 0], [0]] ∧
      (t.assign [1, 0] "x" (.int 9)).get? [0] "x" = some (.int 9) ∧
      (t.assign [1, 0] "x" (.int 9)).get? [2, 0] "x" = some (.int 5) ∧
      ∃ b, (∀ c, t.Target [1, 0] "x" c ↔ c = b) ∧
        t.Reaches (t.assign [1, 0] "x" (.int 9)) [[2, 0], [1, 0], [0]] "x" (.int 9) b := by
  have hone : Tree _ [[1, 0], [0]] := .child .root (List.mem_singleton_self [0])
  have htwo : Tree _ [[2, 0], [1, 0], [0]] := hone.child (by decide : [0] ∈ _)
  have htree := (htwo.declare (by decide : [0] ∈ _) "x" (.int 1)).declare
    (by decide : [2, 0] ∈ _) "x" (.int 5)
  exact ⟨_, htree, rfl, rfl, assignment_reaches_sharers htree (by decide) "x" (.int 9)⟩

end Tables

end EventLoop
