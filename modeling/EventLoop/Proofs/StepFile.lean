/-
  Steps that are written to a file come back from it.

  As JSON data, a step is an object.  `Step.Described` says which data describe a step and
  `Step.Flaw` what is wrong with all others; `Step.objects_round_trip` is the whole of what reading
  and writing do to data: a step comes back as it is, and data comes back without what steps do not
  carry.

  `Step.Legible` says what a step needs to come back from a text: a kind that can be shown, a
  duration in whole milliseconds, and nothing else than legible data.  A list of such steps is
  legible as JSON, so its text is read as the list of objects that was written, and these objects as
  the steps.
-/
import EventLoop.Proofs.JsonText
import EventLoop.Step.Json

namespace EventLoop

open Script (readable)

/-! ## Kinds and durations -/

/-- A duration in whole milliseconds, or a truth value that counts as one. -/
def Duration.Whole : Duration → Prop
  | .ms n => 0 ≤ n
  | .flag _ => True
  | .real _ => False

/-- Data that gives a duration: a whole number from zero upwards, or a truth value. -/
def Json.IsDuration : Json → Prop
  | .int n => 0 ≤ n
  | .bool _ => True
  | _ => False

theorem Duration.ofJson?_toJson {d : Duration} (h : d.Whole) : ofJson? d.toJson = some d := by
  cases d with
  | ms n => exact if_pos h
  | flag b => rfl
  | real x => cases h

theorem Duration.ofJson?_cases (j : Json) :
    (j.IsDuration ∧ ∃ d, ofJson? j = some d ∧ d.toJson = j) ∨ ¬ j.IsDuration ∧ ofJson? j = none := by
  cases j with
  | int n =>
    by_cases hn : 0 ≤ n
    · exact .inl ⟨hn, .ms n, if_pos hn, rfl⟩
    · exact .inr ⟨hn, if_neg hn⟩
  | bool b => exact .inl ⟨trivial, .flag b, rfl, rfl⟩
  | _ => exact .inr ⟨id, rfl⟩

namespace Step

variable {fields : List (String × Json)} {kind : StepKind} {j : Json} {e : StepError}

/-- An object that names a kind that can be shown. -/
def Typed (fields : List (String × Json)) (kind : StepKind) : Prop :=
  kind ∈ StepKind.all ∧ fields.lookup "type" = some (.str kind.name)

theorem ofName?_name (h : kind ∈ StepKind.all) : StepKind.ofName? kind.name = some kind := by
  have hall : ∀ k ∈ StepKind.all, StepKind.ofName? k.name = some k := by decide
  exact hall kind h

theorem kindOfJson?_eq_some_iff :
    kindOfJson? (Json.field fields "type") = some kind ↔ Typed fields kind := by
  constructor
  · intro h
    cases hlookup : fields.lookup "type" with
    | none => simp [Json.field, hlookup, kindOfJson?] at h
    | some j =>
      rw [Json.field, hlookup] at h
      cases j with
      | str name =>
        have h : StepKind.all.find? (·.name == name) = some kind := h
        have hname : kind.name = name := by simpa using List.find?_some h
        exact ⟨List.mem_of_find?_eq_some h, by rw [hlookup, hname]⟩
      | _ => cases h
  · rintro ⟨hmem, htype⟩
    rw [Json.field, htype]
    exact ofName?_name hmem

/-! ## Objects -/

/-- Leaving out the nulls of an object leaves them out of what it has under each key. -/
theorem lookup_filter (h : (fields.map Prod.fst).Nodup) (key : String) :
    (fields.filter fun f => !isAbsent f.2).lookup key = (fields.lookup key).filter (!isAbsent ·) := by
  induction fields with
  | nil => rfl
  | cons f fields ih =>
    obtain ⟨k, x⟩ := f
    rw [List.map_cons, List.nodup_cons] at h
    have hrest := ih h.2
    by_cases hkey : key = k
    · -- the key stands nowhere else, so a null that is left out uncovers nothing
      have hnone : fields.lookup key = none := by
        rw [List.lookup_eq_none_iff]
        rintro ⟨k', x'⟩ hmem
        exact bne_iff_ne.2 fun hk => h.1 (List.mem_map.2 ⟨_, hmem, hk.symm.trans hkey⟩)
      rw [hnone] at hrest
      cases hx : isAbsent x <;> simp [Option.filter, hx, ← hkey, hrest]
    · cases hx : isAbsent x <;> simp [Assoc.lookup_cons, hx, hkey, hrest]

theorem payload_keys (s : Step) :
    s.payload.map Prod.fst = ["line", "name", "message", "item_id", "delay"] := rfl

theorem toFields_keys_nodup (s : Step) : (s.toFields.map Prod.fst).Nodup := by
  have hkeys : (["type", "duration"] ++ s.payload.map Prod.fst).Nodup := by
    rw [payload_keys]
    decide
  have hsub : (s.toFields.map Prod.fst).Sublist
      (["type", "duration"] ++ s.payload.map Prod.fst) := by
    rw [toFields, List.map_append]
    exact (List.Sublist.refl _).append (List.filter_sublist.map _)
  exact hsub.nodup hkeys

theorem lookup_toFields (s : Step) (key : String) :
    s.toFields.lookup key =
      if key = "type" then some (.str s.kind.name)
      else if key = "duration" then some s.duration.toJson
      else (s.payload.lookup key).filter (!isAbsent ·) := by
  have hnodup : (s.payload.map Prod.fst).Nodup := by
    rw [payload_keys]
    decide
  rw [← lookup_filter hnodup key, toFields, List.cons_append, List.cons_append, List.nil_append,
    Assoc.lookup_cons, Assoc.lookup_cons]

theorem ofJson_toJson {s : Step} (hkind : s.kind ∈ StepKind.all) (hduration : s.duration.Whole) :
    ofJson s.toJson = .ok s := by
  have htyped : kindOfJson? (Json.field s.toFields "type") = some s.kind :=
    kindOfJson?_eq_some_iff.2 ⟨hkind, rfl⟩
  have hms : Duration.ofJson? ((s.toFields.lookup "duration").getD (.int 100)) =
      some s.duration := Duration.ofJson?_toJson hduration
  have hfield (x : Json) : ((some x).filter (!isAbsent ·)).getD .null = x := by
    cases x <;> rfl
  simp only [ofJson, toJson, ofFields, htyped, hms]
  simp [Json.field, lookup_toFields, payload, Assoc.lookup_cons, hfield]

/-- Data that describes a step: an object that names a kind, and whose duration is one, if it has
    any. -/
def Described (j : Json) : Prop :=
  ∃ fields kind, j = .obj fields ∧ Typed fields kind ∧
    ∀ d ∈ fields.lookup "duration", d.IsDuration

/-- What is wrong with data that describes no step.  The kind is looked at before the duration. -/
inductive Flaw : Json → StepError → Prop
  | notObject {j : Json} (h : ∀ fields, j ≠ .obj fields) : Flaw j .notObject
  | type {fields : List (String × Json)} (h : ∀ kind, ¬ Typed fields kind) :
      Flaw (.obj fields) (.unknownType (Json.field fields "type"))
  | duration {fields : List (String × Json)} {kind : StepKind} {d : Json}
      (hkind : Typed fields kind) (hd : fields.lookup "duration" = some d) (h : ¬ d.IsDuration) :
      Flaw (.obj fields) (.invalidDuration d)

/-- What an object has under a key, without its unknown fields and the nulls of its payload, and
    with a duration if it has none. -/
def trimmed (fields : List (String × Json)) (key : String) : Option Json :=
  if key = "type" then fields.lookup key
  else if key = "duration" then some ((fields.lookup key).getD (.int 100))
  else if key ∈ ["line", "name", "message", "item_id", "delay"] then
    (fields.lookup key).filter (!isAbsent ·)
  else none

/-- The data `j'` is the object `j`, trimmed. -/
def Trims (j j' : Json) : Prop :=
  ∃ fields fields', j = .obj fields ∧ j' = .obj fields' ∧ (fields'.map Prod.fst).Nodup ∧
    ∀ key, fields'.lookup key = trimmed fields key

theorem described_or_flaw (j : Json) : Described j ∨ ∃ e, Flaw j e := by
  cases j with
  | obj fields =>
    by_cases hkind : ∃ kind, Typed fields kind
    · obtain ⟨kind, hkind⟩ := hkind
      by_cases h : ∀ d ∈ fields.lookup "duration", d.IsDuration
      · exact .inl ⟨fields, kind, rfl, hkind, h⟩
      · obtain ⟨d, hd, h⟩ : ∃ d, fields.lookup "duration" = some d ∧ ¬ d.IsDuration := by
          simpa using h
        exact .inr ⟨_, .duration hkind hd h⟩
    · exact .inr ⟨_, .type fun kind h => hkind ⟨kind, h⟩⟩
  | _ => exact .inr ⟨_, .notObject (by simp)⟩

theorem Flaw.ofJson_eq (h : Flaw j e) : ofJson j = .error e := by
  cases h with
  | notObject h =>
    cases j with
    | obj fields => exact absurd rfl (h fields)
    | _ => rfl
  | @type fields h =>
    have hnone : kindOfJson? (Json.field fields "type") = none :=
      Option.eq_none_iff_forall_ne_some.2 fun kind hk => h kind (kindOfJson?_eq_some_iff.1 hk)
    simp only [ofJson, ofFields, hnone]
  | @duration fields kind d hkind hd h =>
    have hnone : Duration.ofJson? d = none :=
      (Duration.ofJson?_cases d).elim (fun hd => absurd hd.1 h) And.right
    simp only [ofJson, ofFields, kindOfJson?_eq_some_iff.2 hkind, hd, Option.getD_some, hnone]

theorem Described.ofJson_eq (h : Described j) : ∃ s, ofJson j = .ok s ∧ Trims j s.toJson := by
  obtain ⟨fields, kind, rfl, hkind, hduration⟩ := h
  have hd : ((fields.lookup "duration").getD (.int 100)).IsDuration := by
    cases hlookup : fields.lookup "duration" with
    | none => exact (by decide : (0 : Int) ≤ 100)
    | some d => exact hduration d hlookup
  obtain ⟨d, hd, hjson⟩ := ((Duration.ofJson?_cases _).resolve_right fun h => h.1 hd).2
  simp only [ofJson, ofFields, kindOfJson?_eq_some_iff.2 hkind, hd]
  refine ⟨_, rfl, fields, _, rfl, rfl, toFields_keys_nodup _, fun key => ?_⟩
  have hkept (x : Option Json) :
      (some (x.getD .null)).filter (!isAbsent ·) = x.filter (!isAbsent ·) := by
    cases x <;> rfl
  rw [lookup_toFields, trimmed]
  split
  next h => rw [h, hkind.2]
  split
  next h => rw [h, hjson]
  split
  next h =>
    simp only [List.mem_cons, List.not_mem_nil, or_false] at h
    rcases h with rfl | rfl | rfl | rfl | rfl <;> exact hkept _
  next h =>
    simp only [List.mem_cons, List.not_mem_nil, or_false, not_or] at h
    simp [payload, Assoc.lookup_cons, h]

/-! ## Lists -/

theorem listOfJson_cons (j : Json) (items : List Json) :
    listOfJson (.arr (j :: items)) = do
      let s ← ofJson j
      return s :: (← listOfJson (.arr items)) :=
  List.mapM_cons

theorem listOfJson_eq_ok {items : List Json} (h : ∀ j ∈ items, Described j) :
    ∃ steps, listOfJson (.arr items) = .ok steps ∧
      List.Forall₂ Trims items (steps.map toJson) := by
  induction items with
  | nil => exact ⟨[], rfl, .nil⟩
  | cons j items ih =>
    rw [List.forall_mem_cons] at h
    obtain ⟨s, hs, htrims⟩ := h.1.ofJson_eq
    obtain ⟨steps, hsteps, hall⟩ := ih h.2
    refine ⟨s :: steps, ?_, .cons htrims hall⟩
    rw [listOfJson_cons, hs, hsteps]
    rfl

/-- Why data is refused: it is no list, or the first of its items that describes no step has a
    flaw. -/
inductive Refused : Json → StepError → Prop
  | notList {o : Json} (h : ∀ items, o ≠ .arr items) : Refused o .notList
  | item {front : List Json} {j : Json} {e : StepError} (hfront : ∀ i ∈ front, Described i)
      (hj : Flaw j e) (after : List Json) : Refused (.arr (front ++ j :: after)) e

theorem Refused.listOfJson_eq {o : Json} (h : Refused o e) : listOfJson o = .error e := by
  cases h with
  | notList h =>
    cases o with
    | arr items => exact absurd rfl (h items)
    | _ => rfl
  | @item front j e hfront hj after =>
    induction front with
    | nil =>
      rw [List.nil_append, listOfJson_cons, hj.ofJson_eq]
      rfl
    | cons i front ih =>
      rw [List.forall_mem_cons] at hfront
      obtain ⟨s, hs, -⟩ := hfront.1.ofJson_eq
      rw [List.cons_append, listOfJson_cons, hs, ih hfront.2]
      rfl

theorem described_or_refused (o : Json) :
    (∃ items, o = .arr items ∧ ∀ j ∈ items, Described j) ∨ ∃ e, Refused o e := by
  cases o with
  | arr items =>
    induction items with
    | nil => exact .inl ⟨[], rfl, by simp⟩
    | cons j items ih =>
      rcases described_or_flaw j with hj | ⟨e, hj⟩
      · rcases ih with ⟨_, ⟨⟩, hall⟩ | ⟨e, hrefused⟩
        · exact .inl ⟨_, rfl, List.forall_mem_cons.2 ⟨hj, hall⟩⟩
        · cases hrefused with
          | notList h => exact absurd rfl (h items)
          | item hfront hi after =>
            exact .inr ⟨e, .item (List.forall_mem_cons.2 ⟨hj, hfront⟩) hi after⟩
      · exact .inr ⟨e, @Refused.item [] j e (by simp) hj items⟩
  | _ => exact .inr ⟨_, .notList (by simp)⟩

theorem listOfJson_listToJson {steps : List Step}
    (h : ∀ s ∈ steps, s.kind ∈ StepKind.all ∧ s.duration.Whole) :
    listOfJson (listToJson steps) = .ok steps := by
  induction steps with
  | nil => rfl
  | cons s steps ih =>
    rw [List.forall_mem_cons] at h
    have hrest : listOfJson (.arr (steps.map toJson)) = .ok steps := ih h.2
    rw [listToJson, List.map_cons, listOfJson_cons, ofJson_toJson h.1.1 h.1.2, hrest]
    rfl

/-- Steps come back from the objects that are made of them.  Data is read as steps exactly if it is
    a list of objects that each name a kind and have a duration, or none; then the objects that are
    made of these steps are those of the list, trimmed.  Any other data is refused: for being no
    list, or for the first item that describes no step. -/
theorem objects_round_trip (steps : List Step) (o : Json) :
    ((∀ s ∈ steps, s.kind ∈ StepKind.all ∧ s.duration.Whole) →
      listOfJson (listToJson steps) = .ok steps) ∧
    ((∃ read, listOfJson o = .ok read) ↔ ∃ items, o = .arr items ∧ ∀ j ∈ items, Described j) ∧
    (∀ read, listOfJson o = .ok read → ∃ items items', o = .arr items ∧
      listToJson read = .arr items' ∧ List.Forall₂ Trims items items') ∧
    ∀ e, listOfJson o = .error e ↔ Refused o e := by
  refine ⟨listOfJson_listToJson, ?_⟩
  rcases described_or_refused o with ⟨items, rfl, hall⟩ | ⟨e, hrefused⟩
  · obtain ⟨read, hread, htrims⟩ := listOfJson_eq_ok hall
    rw [hread]
    refine ⟨⟨fun _ => ⟨items, rfl, hall⟩, fun _ => ⟨read, rfl⟩⟩, ?_, fun e => ⟨by simp, fun h => ?_⟩⟩
    · rintro _ ⟨⟩
      exact ⟨items, _, rfl, rfl, htrims⟩
    · cases hread.symm.trans h.listOfJson_eq
  · have hread := hrefused.listOfJson_eq
    rw [hread]
    refine ⟨⟨by simp, ?_⟩, by simp, fun e' => ⟨?_, fun h => hread.symm.trans h.listOfJson_eq⟩⟩
    · rintro ⟨items, rfl, hall⟩
      obtain ⟨read, hok, -⟩ := listOfJson_eq_ok hall
      cases hread.symm.trans hok
    · rintro ⟨⟩
      exact hrefused

/-! ## Steps in a file -/

/-- A step that is read back as it is written. -/
structure Legible (s : Step) : Prop where
  kind : s.kind ∈ StepKind.all
  duration : ∃ n : Nat, s.duration = .ms n ∧ readable n = true
  payload : ∀ f ∈ s.payload, f.2.Legible

theorem Legible.whole {s : Step} (h : s.Legible) : s.duration.Whole := by
  obtain ⟨n, hduration, -⟩ := h.duration
  rw [hduration]
  exact Int.natCast_nonneg n

theorem Legible.toJson {s : Step} (h : s.Legible) : s.toJson.Legible := by
  obtain ⟨n, hduration, hn⟩ := h.duration
  refine .obj s.toFields_keys_nodup fun f hf => ?_
  simp only [toFields, List.mem_append, List.mem_cons, List.not_mem_nil, or_false,
    List.mem_filter] at hf
  rcases hf with (rfl | rfl) | ⟨hf, -⟩
  · exact .str _
  · rw [hduration]
    exact .int hn
  · exact h.payload f hf

theorem listToJson_legible {steps : List Step} (h : ∀ s ∈ steps, s.Legible) :
    (listToJson steps).Legible := by
  refine .arr fun j hj => ?_
  obtain ⟨s, hs, rfl⟩ := List.mem_map.1 hj
  exact (h s hs).toJson

end Step

end EventLoop
