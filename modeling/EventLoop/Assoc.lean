/-
  Association lists in order of insertion: a key that is set again keeps its place.
-/
namespace EventLoop.Assoc

/-- Sets `key` to `value`: in its old place if it has one, else at the end. -/
def insert {α : Type} : List (String × α) → String → α → List (String × α)
  | [], key, value => [(key, value)]
  | (k, v) :: rest, key, value =>
    if k == key then (key, value) :: rest else (k, v) :: insert rest key value

/-- Whether `key` has a value. -/
def contains {α : Type} (l : List (String × α)) (key : String) : Bool := (l.lookup key).isSome

theorem mem_insert {α : Type} {l : List (String × α)} {key : String} {a : α} {p : String × α}
    (h : p ∈ insert l key a) : p = (key, a) ∨ p ∈ l := by
  induction l with
  | nil => exact .inl (List.mem_singleton.1 h)
  | cons q rest ih =>
    rw [insert] at h
    split at h
    · exact (List.mem_cons.1 h).imp id (List.mem_cons_of_mem q)
    · rcases List.mem_cons.1 h with rfl | h
      · exact .inr List.mem_cons_self
      · exact (ih h).imp id (List.mem_cons_of_mem q)

theorem lookup_cons {α : Type} (k x : String) (a : α) (l : List (String × α)) :
    ((k, a) :: l).lookup x = if x = k then some a else l.lookup x := by
  by_cases h : x = k
  · simp [h]
  · simp [List.lookup_cons, beq_eq_false_iff_ne.2 h, h]

/-- A key that is set has its value, and all others keep theirs. -/
theorem lookup_insert {α : Type} (l : List (String × α)) (key x : String) (a : α) :
    (insert l key a).lookup x = if x = key then some a else l.lookup x := by
  induction l with
  | nil => rw [insert, lookup_cons]
  | cons p rest ih =>
    obtain ⟨k, b⟩ := p
    by_cases hk : k = key
    · subst hk
      simp only [insert, beq_self_eq_true, if_true, lookup_cons]
      split <;> rfl
    · simp only [insert, beq_eq_false_iff_ne.2 hk, Bool.false_eq_true, if_false, lookup_cons, ih]
      by_cases hx : x = k
      · simp [hx, hk]
      · simp [hx]

end EventLoop.Assoc
