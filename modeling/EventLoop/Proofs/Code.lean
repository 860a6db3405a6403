/-
  The code that a state holds, the scopes it runs in, and the steps that it has emitted.

  `Machine.Sound` says that all code in a state is on lines with a given property and in scopes that
  end in the global one, where every registered function is bound.  `Machine.Shown` says that every
  step emitted so far is legible, and that the numbers given to timers and microtasks stay small.
  `Run.Safe` says of an action that it leaves a sound state behind, what holds of its result and of
  the steps if it succeeds, that it does not depend on the registry, and that it has a trace.

  A number that is given to a timer or shown for a microtask comes with steps, so the limit on steps
  bounds it.  The delay of a timer has no such bound.  But a timer is registered only if the time at
  which it is due can be written, and the delay is part of that time.
-/
import EventLoop.Proofs.Lines
import EventLoop.Proofs.Making
import EventLoop.Proofs.ScopeTree
import EventLoop.Proofs.Queue
import EventLoop.Proofs.StepFile

namespace EventLoop

open Script

variable {α β : Type} {Q : α → Prop} {a : α} {n : Nat} {xs : Array α}

/-! ## Legible steps -/

theorem Script.readable_of_le {k : Nat} (h : readable k = true) (hle : n ≤ k) :
    readable n = true := by
  rw [readable, decide_eq_true_eq] at h ⊢
  exact Nat.lt_of_le_of_lt hle h

namespace Step

variable {kind : StepKind}

theorem readable_small (h : n ≤ 60000) : readable n = true := by
  -- for any exponent, so that the power is not computed
  have hpow (k : Nat) (hk : 5 ≤ k) : Nat.pow 10 5 ≤ Nat.pow 10 k :=
    Nat.pow_le_pow_right (by decide) hk
  have hlimit := hpow Number.maxDigits (by decide)
  rw [readable, decide_eq_true_eq]
  exact Nat.lt_of_le_of_lt h (Nat.lt_of_lt_of_le (by decide) hlimit)

theorem Legible.mk_ms {ms : Nat} {line name message itemId delay : Json}
    (hkind : kind ∈ StepKind.all) (hms : ms ≤ 60000) (hline : line.Legible) (hname : name.Legible)
    (hmessage : message.Legible) (hitem : itemId.Legible) (hdelay : delay.Legible) :
    Legible { kind, duration := .ms ms, line, name, message, itemId, delay } := by
  refine ⟨hkind, ⟨ms, rfl, readable_small hms⟩, ?_⟩
  simp only [Step.payload, List.forall_mem_cons]
  exact ⟨hline, hname, hmessage, hitem, hdelay, by simp⟩

variable {line id delay : Nat}

theorem highlight_legible (h : readable line = true) : (highlight line).Legible :=
  .mk_ms (by decide) (by decide : 400 ≤ 60000) (.int h) .null .null .null .null

theorem glance_legible (h : readable line = true) : (glance line).Legible :=
  .mk_ms (by decide) (by decide : 300 ≤ 60000) (.int h) .null .null .null .null

theorem push_legible (name : String) : (push name).Legible :=
  .mk_ms (by decide) (by decide : 300 ≤ 60000) .null (.str name) .null .null .null

theorem pop_legible : pop.Legible :=
  .mk_ms (by decide) (by decide : 300 ≤ 60000) .null .null .null .null .null

theorem console_legible (message : String) : (console message).Legible :=
  .mk_ms (by decide) (by decide : 200 ≤ 60000) .null .null (.str message) .null .null

theorem webapiAdd_legible (hid : readable id = true) (hdelay : readable delay = true)
    (name : String) : (webapiAdd id name delay).Legible :=
  .mk_ms (by decide) (by decide : 300 ≤ 60000) .null (.str name) .null (.int hid) (.int hdelay)

theorem enqueue_legible (hkind : kind ∈ StepKind.all) (hid : readable id = true) (name : String) :
    (enqueue kind id name).Legible :=
  .mk_ms hkind (by decide : 300 ≤ 60000) .null (.str name) .null (.int hid) .null

theorem dequeue_legible (hkind : kind ∈ StepKind.all) (hid : readable id = true) :
    (dequeue kind id).Legible :=
  .mk_ms hkind (by decide : 200 ≤ 60000) .null .null .null (.int hid) .null

/-- The steps that show how a callback leaves the Web APIs and passes through a queue. -/
theorem passage_legible {leave enter exit : StepKind} (hleave : leave ∈ StepKind.all)
    (henter : enter ∈ StepKind.all) (hexit : exit ∈ StepKind.all) (hid : readable id = true)
    (name : String) : ∀ s ∈ [dequeue leave id, enqueue enter id name, dequeue exit id],
      s.Legible := by
  simp only [List.forall_mem_cons]
  exact ⟨dequeue_legible hleave hid, enqueue_legible henter hid name, dequeue_legible hexit hid,
    by simp⟩

end Step

/-! ## Code in a state -/

/-- Where code may be: the lines it is on, and the places where its expressions stand. -/
structure Region where
  line : Nat → Prop
  site : Position → Expr → Prop

instance : CoeFun Region fun _ => Nat → Prop := ⟨Region.line⟩

/-- Nothing is asked of code. -/
def Region.all : Region := ⟨fun _ => True, fun _ _ => True⟩

variable {P : Region}

namespace Script

/-- The nodes directly below a node, with their places.  What names a method belongs to its call. -/
def Node.parts : Node → List (Position × Node)
  | .expr (.await e _) => [(.operand, .expr e)]
  | .expr (.call (.member target ..) args _) =>
    (.receiver, .expr target) :: (nodes args).map (Prod.mk .elsewhere)
  | n => n.children.map (Prod.mk .elsewhere)

/-- From a node at some place there is a way down to another one, and to the place of that. -/
inductive Node.Reaches : Position → Node → Position → Node → Prop
  | refl (place : Position) (n : Node) : Reaches place n place n
  | part {place place1 place2 : Position} {n n1 n2 : Node} (hpart : (place1, n1) ∈ n.parts)
      (h : Reaches place1 n1 place2 n2) : Reaches place n place2 n2

/-- An expression stands somewhere in a program. -/
def Program.HasSite (p : Program) (place : Position) (e : Expr) : Prop :=
  ∃ n ∈ nodes p.body, Node.Reaches .elsewhere n place (.expr e)

/-- All nodes from a node downwards are in the region. -/
def Node.Within (P : Region) (place : Position) (n : Node) : Prop :=
  ∀ ⦃place' n'⦄, n.Reaches place place' n' → P n'.line ∧ ∀ e, n' = .expr e → P.site place' e

/-- All nodes of a piece of a program that stands at a place are in the region. -/
abbrev CodeAt [HasNodes α] (P : Region) (place : Position) (a : α) : Prop :=
  Each (Node.Within P place) a

/-- All nodes of a piece of a program that nothing consumes are in the region. -/
abbrev CodeIn [HasNodes α] (P : Region) (a : α) : Prop := CodeAt P .elsewhere a

theorem Node.All.part {Q : Node → Prop} {n c : Node} {place : Position} (h : n.All Q)
    (hpart : (place, c) ∈ n.parts) : c.All Q := by
  obtain ⟨-, hbelow⟩ := h
  unfold parts at hpart
  split at hpart
  · simp only [List.mem_singleton, Prod.mk.injEq] at hpart
    exact hbelow c (by simp [children, nodes, hpart.2])
  · rename_i target name memberLine args line
    rcases List.mem_cons.1 hpart with hpart | hpart
    · -- the target is two nodes below the call
      obtain ⟨-, hbelow⟩ := hbelow (.expr (.member target name memberLine)) List.mem_cons_self
      cases hpart
      exact hbelow _ List.mem_cons_self
    · obtain ⟨n, hn, hpart⟩ := List.mem_map.1 hpart
      cases hpart
      exact hbelow c (List.mem_append_right _ hn)
  · obtain ⟨n, hn, hpart⟩ := List.mem_map.1 hpart
    cases hpart
    exact hbelow c hn

theorem Node.All.reaches {Q : Node → Prop} {n n' : Node} {place place' : Position}
    (h : n.Reaches place place' n') (hn : n.All Q) : n'.All Q := by
  induction h with
  | refl => exact hn
  | part hpart _ ih => exact ih (hn.part hpart)

section

variable {e f : Expr} {place : Position} {es : List Expr} {l : Nat}

theorem Each.line (h : CodeAt P place e) : P e.line :=
  (h _ List.mem_cons_self (.refl place _)).1

theorem Each.site (h : CodeAt P place e) : P.site place e :=
  (h _ List.mem_cons_self (.refl place _)).2 e rfl

theorem Each.part (h : CodeAt P place e) {n : Node} {place' : Position}
    (hpart : (place', n) ∈ (Node.expr e).parts) : n.Within P place' :=
  fun _ _ hreaches => h _ List.mem_cons_self (.part hpart hreaches)

theorem Each.plain (h : CodeAt P place e)
    (hparts : (Node.expr e).parts = (Node.expr e).children.map (Prod.mk .elsewhere)) :
    ∀ n ∈ (Node.expr e).children, n.Within P .elsewhere :=
  fun _ hn => h.part (hparts ▸ List.mem_map_of_mem hn)

theorem Each.operand (h : CodeAt P place (Expr.await e l)) : CodeAt P .operand e :=
  List.forall_mem_singleton.2 (h.part List.mem_cons_self)

theorem Each.receiver {name : String} {memberLine : Nat}
    (h : CodeAt P place (Expr.call (.member e name memberLine) es l)) : CodeAt P .receiver e :=
  List.forall_mem_singleton.2 (h.part List.mem_cons_self)

theorem Each.args (h : CodeAt P place (Expr.call f es l)) : CodeIn P es := by
  intro n hn
  refine h.part ?_
  cases f <;> simp [Node.parts, Node.children, hn]

theorem Each.callee (h : CodeAt P place (Expr.call f es l))
    (hmember : ∀ e name memberLine, f ≠ .member e name memberLine) : CodeIn P f := by
  refine List.forall_mem_singleton.2 (h.part ?_)
  cases f with
  | member e name memberLine => exact absurd rfl (hmember e name memberLine)
  | _ => simp [Node.parts, Node.children, nodes]

theorem Each.stmt {s : Stmt} (h : CodeIn P s) :
    P s.line ∧ ∀ n ∈ (Node.stmt s).children, n.Within P .elsewhere :=
  ⟨(h _ List.mem_cons_self (.refl _ _)).1, fun _ hn _ _ hreaches =>
    h _ List.mem_cons_self (.part (List.mem_map_of_mem hn) hreaches)⟩

theorem codeIn_stmt {s : Stmt} (here : P s.line)
    (below : ∀ n ∈ (Node.stmt s).children, n.Within P .elsewhere) : CodeIn P s := by
  refine List.forall_mem_singleton.2 fun _ _ hreaches => ?_
  cases hreaches with
  | refl => exact ⟨here, by simp⟩
  | part hpart hreaches =>
    obtain ⟨n, hn, hpart⟩ := List.mem_map.1 hpart
    cases hpart
    exact below _ hn hreaches

end

end Script

/-- The code of a function is on lines with the property, as the function itself is, and its scope
    ends in the global one. -/
structure Function.Sound (P : Region) (f : Function) : Prop where
  body : CodeIn P f.body
  line : P f.line
  scope : Scope.global <:+ f.scope

/-- A value is sound unless it is a function that is not. -/
def Value.Sound (P : Region) : Value → Prop
  | .function f => f.Sound P
  | _ => True

/-- The code that a reaction holds is on lines with the property. -/
def Reaction.CodeIn (P : Region) : Reaction → Prop
  | .resume _ => True
  | .link _ callback _ => Script.CodeIn P callback

structure Waiter.Sound (P : Region) (w : Waiter) : Prop where
  reaction : w.reaction.CodeIn P
  scope : Scope.global <:+ w.scope

structure Promise.Sound (P : Region) (p : Promise) : Prop where
  value : p.value.Sound P
  waiters : ∀ w ∈ p.waiters, w.Sound P

structure Microtask.Sound (P : Region) (t : Microtask) : Prop where
  reaction : ∀ r ∈ t.reaction, r.CodeIn P
  value : t.value.Sound P
  scope : Scope.global <:+ t.scope

structure Continuation.Sound (P : Region) (k : Continuation) : Prop where
  statements : CodeIn P k.statements
  scope : Scope.global <:+ k.scope
  function : Scope.global <:+ k.function.scope

structure Callback.Sound (P : Region) (cb : Callback) : Prop where
  callback : CodeIn P cb.callback
  scope : Scope.global <:+ cb.scope

/-- The functions of a registry were made in the global scope, and their names are bound there. -/
def Tables.Lists (t : Tables) (registry : List (String × Function)) : Prop :=
  ∀ p ∈ registry, t.binds 0 p.1 = true ∧ Scope.global <:+ p.2.scope

/-- All code in a state is on lines with the property, every scope in it ends in the global one, and
    `C` holds of the current scope. -/
structure Machine.Sound (P : Region) (C : Scope → Prop) (m : Machine) : Prop where
  bindings : ∀ b ∈ m.tables.entries, ∀ p ∈ b, p.2.Sound P
  arrays : ∀ a ∈ m.arrays, ∀ v ∈ a, v.Sound P
  promises : ∀ p ∈ m.promises, p.Sound P
  continuations : ∀ k ∈ m.continuations, k.Sound P
  microtasks : ∀ t ∈ m.microtasks, t.Sound P
  callbacks : ∀ cb ∈ m.callbacks, cb.Sound P
  frames : ∀ frame ∈ m.frames, Scope.global <:+ frame.function.scope
  global : 0 < m.tables.entries.size
  registry : m.tables.Lists m.registry
  scope : Scope.global <:+ m.scope
  place : C m.scope

/-- Holds of anything. -/
abbrev Any {α : Type} (_ : α) : Prop := True

/-- All that a state has shown is legible, as is what it may show next. -/
structure Machine.Shown (P : Region) (m : Machine) : Prop where
  /-- A line with the property can be written. -/
  lines : ∀ n, P n → readable n = true
  ids : ∀ cb ∈ m.callbacks, readable cb.id = true
  steps : ∀ s ∈ m.steps.toList, s.Legible
  numbered : m.Numbered
  /-- Every timer and every microtask that was taken has steps of its own. -/
  timerCount : m.timerCount ≤ m.steps.size
  cursor : m.cursor ≤ m.steps.size
  room : m.Room 0
  limit : readable (m.steps.limit + 1) = true

/-! ## Tables and lists -/

theorem forall_mem_modify {i : Nat} {f : α → α} (h : ∀ a ∈ xs, Q a) (hf : ∀ a, Q a → Q (f a)) :
    ∀ a ∈ xs.modify i f, Q a := by
  intro a ha
  obtain ⟨j, hj⟩ := Array.mem_iff_getElem?.1 ha
  rw [Array.getElem?_modify] at hj
  split at hj
  · obtain ⟨b, hb, rfl⟩ := Option.map_eq_some_iff.1 hj
    exact hf b (h b (Array.mem_of_getElem? hb))
  · exact h a (Array.mem_of_getElem? hj)

theorem forall_mem_push {b : α} (h : ∀ a ∈ xs, Q a) (hb : Q b) : ∀ a ∈ xs.push b, Q a := by
  intro a ha
  rcases Array.mem_push.1 ha with ha | rfl
  · exact h a ha
  · exact hb

theorem getD_of_forall_mem {d : α} (h : ∀ a ∈ xs, Q a) (hd : Q d) (i : Nat) :
    Q (xs[i]?.getD d) := by
  cases hi : xs[i]? with
  | none => exact hd
  | some a => exact h a (Array.mem_of_getElem? hi)

theorem forall_mem_insert {l : List (String × α)} {key : String} (h : ∀ p ∈ l, Q p.2) (ha : Q a) :
    ∀ p ∈ Assoc.insert l key a, Q p.2 := by
  intro p hp
  rcases Assoc.mem_insert hp with rfl | hp
  · exact ha
  · exact h p hp

theorem mem_of_lookup {l : List (String × α)} {key : String} (h : l.lookup key = some a) :
    (key, a) ∈ l := by
  obtain ⟨l1, l2, rfl, -⟩ := List.lookup_eq_some_iff.1 h
  simp

namespace Tables.Lists

variable {t : Tables} {registry : List (String × Function)} {x : String}

theorem write (h : t.Lists registry) (hglobal : 0 < t.entries.size) (id : Nat) (v : Value) :
    (t.write id x v).Lists registry := by
  refine fun p hp => ⟨?_, (h p hp).2⟩
  have hbinds := (h p hp).1
  by_cases hid : id = 0
  · subst hid
    rw [binds, bindings_write_self t hglobal, Assoc.contains, Assoc.lookup_insert]
    split
    · rfl
    · exact hbinds
  · rwa [binds, bindings_write_of_ne t hid]

theorem nest (h : t.Lists registry) (hglobal : 0 < t.entries.size) (outer : Scope)
    (bindings : Bindings) : (t.nest outer bindings).1.Lists registry := by
  intro p hp
  rw [binds, bindings_nest t hglobal]
  exact h p hp

theorem lookup_eq_none (h : t.Lists registry) {scope : Scope} (hscope : Scope.global <:+ scope)
    (hx : t.get? scope x = none) : registry.lookup x = none := by
  cases hf : registry.lookup x with
  | none => rfl
  | some f =>
    have hbinds := (h _ (mem_of_lookup hf)).1
    have hnone := List.findSome?_eq_none_iff.1 hx 0 (hscope.subset (List.mem_singleton_self 0))
    rw [binds, Assoc.contains, hnone] at hbinds
    cases hbinds

end Tables.Lists

namespace Machine

variable {m : Machine} {v : Value} {l : List Step}

theorem Shown.emitted (h : m.Shown P) (hl : ∀ s ∈ l, s.Legible) (hroom : m.Room l.length) :
    (m.emitted l).Shown P where
  __ := h
  steps s hs := by
    rw [toList_emitted, List.mem_append] at hs
    rcases hs with hs | hs
    · exact h.steps s hs
    · exact hl s hs
  timerCount := by
    rw [size_emitted]
    exact Nat.le_trans h.timerCount (Nat.le_add_right _ _)
  cursor := by
    rw [size_emitted]
    exact Nat.le_trans h.cursor (Nat.le_add_right _ _)
  room := by
    rw [Room, size_emitted]
    exact hroom

namespace Sound

section

variable (h : m.Sound P C)

include h

theorem relist {registry : List (String × Function)} (hlists : m.tables.Lists registry) :
    { m with registry }.Sound P C where
  __ := h
  registry := hlists

theorem get? {scope : Scope} {x : String} (hv : m.tables.get? scope x = some v) : v.Sound P := by
  obtain ⟨id, -, hid⟩ := List.exists_of_findSome?_eq_some hv
  exact getD_of_forall_mem (Q := fun b => ∀ p ∈ b, p.2.Sound P) h.bindings (by simp) id _
    (mem_of_lookup hid)

theorem write (hv : v.Sound P) (id : Nat) (x : String) :
    { m with tables := m.tables.write id x v }.Sound P C where
  __ := h
  bindings := forall_mem_modify h.bindings fun _ hb => forall_mem_insert (Q := Value.Sound P) hb hv
  global := (m.tables.size_write id x v).symm ▸ h.global
  registry := h.registry.write h.global id v

theorem nest {bindings : Bindings} (hb : ∀ p ∈ bindings, p.2.Sound P)
    (outer : Scope) : { m with tables := (m.tables.nest outer bindings).1 }.Sound P C where
  __ := h
  bindings := forall_mem_push h.bindings hb
  global := (m.tables.size_nest outer bindings).symm ▸ Nat.succ_pos _
  registry := h.registry.nest h.global outer bindings

end

end Sound

end Machine

/-! ## Safe actions -/

namespace Run

/-- A result with another registry in its state. -/
def relisted (registry : List (String × Function)) :
    EStateM.Result Fault Machine α → EStateM.Result Fault Machine α
  | .ok a m => .ok a { m with registry }
  | .error fault m => .error fault { m with registry }

/-- What is shown of an action: whether its steps are legible, and whether its calls are traced. -/
structure Level where
  legible : Prop
  traced : Prop

instance : CoeSort Level Prop := ⟨Level.legible⟩

/-- An action that leaves a sound state sound, whether it succeeds or fails, and does the same with
    whatever registry the state has.  If it succeeds it gives a result of the given kind.  As far as
    `L` says, its steps are legible then, and it has a trace of calls in the region. -/
structure Safe (P : Region) (C : Scope → Prop) (L : Level) (R : α → Prop) (act : Run α) :
    Prop where
  sound : ∀ {m}, m.Sound P C → (final (act m)).Sound P C
  ok : ∀ {m a m'}, m.Sound P C → act m = .ok a m' → R a ∧ (L → m.Shown P → m'.Shown P)
  blind : ∀ {m registry}, m.Sound P C → m.tables.Lists registry →
    ∃ registry', act { m with registry } = relisted registry' (act m)
  traced : L.traced → ∀ {m}, m.Sound P C →
    ∃ visits makings, Trace P.site m (act m) visits makings

variable {m m' : Machine} {callback : Option Expr} {values : List Value} {C : Scope → Prop}
  {L : Level}

namespace Safe

variable {R : α → Prop} {S : β → Prop} {act : Run α}

theorem sound_of_ok (h : Safe P C L R act) (hm : m.Sound P C) (hact : act m = .ok a m') :
    m'.Sound P C := by
  have hend := h.sound hm
  rwa [hact] at hend

theorem pure (h : R a) : Safe P C L R (pure a) where
  sound hm := hm
  ok _ hact := by
    cases hact
    exact ⟨h, fun _ => id⟩
  blind _ _ := ⟨_, rfl⟩
  traced _ _ _ := ⟨[], [], .of_watched rfl⟩

theorem throw (fault : Fault) : Safe P C L R (throw fault) where
  sound hm := hm
  ok _ hact := by cases hact
  blind _ _ := ⟨_, rfl⟩
  traced _ _ _ := ⟨[], [], .of_watched rfl⟩

theorem lift {r : Except Fault α} (h : ∀ a, r = .ok a → R a) : Safe P C L R (lift r) := by
  cases r with
  | error fault => exact throw fault
  | ok a => exact pure (h a rfl)

/-- Safe actions compose, the second one from what the first one gives. -/
theorem bind {f : α → Run β} (h : Safe P C L R act) (hf : ∀ a, R a → Safe P C L S (f a)) :
    Safe P C L S (act >>= f) where
  sound {m} hm := by
    have hend := h.sound hm
    rw [bind_apply]
    cases hact : act m with
    | error fault m1 =>
      rw [hact] at hend
      exact hend
    | ok a m1 => exact (hf a (h.ok hm hact).1).sound (h.sound_of_ok hm hact)
  ok hm hact := by
    obtain ⟨a, m1, ha, hb⟩ := bind_eq_ok hact
    obtain ⟨hR, hshown⟩ := h.ok hm ha
    obtain ⟨hS, hshown'⟩ := (hf a hR).ok (h.sound_of_ok hm ha) hb
    exact ⟨hS, fun hL hm => hshown' hL (hshown hL hm)⟩
  blind {m registry} hm hlists := by
    obtain ⟨registry1, h1⟩ := h.blind hm hlists
    rw [bind_apply, bind_apply, h1]
    cases hact : act m with
    | error fault m1 => exact ⟨registry1, rfl⟩
    | ok a m1 =>
      -- the second action starts with a registry that is listed, as the first one is safe
      rw [hact] at h1
      have hm1 := h.sound_of_ok (hm.relist hlists) h1
      exact (hf a (h.ok hm hact).1).blind (h.sound_of_ok hm hact) hm1.registry
  traced hL {m} hm := by
    obtain ⟨visits, makings, htrace⟩ := h.traced hL hm
    rw [bind_apply]
    cases hact : act m with
    | error fault m1 =>
      rw [hact] at htrace
      exact ⟨visits, makings, htrace.sites, htrace.traces, htrace.accounts⟩
    | ok a m1 =>
      rw [hact] at htrace
      obtain ⟨visits', makings', htrace'⟩ :=
        (hf a (h.ok hm hact).1).traced hL (h.sound_of_ok hm hact)
      exact ⟨_, _, htrace.append htrace'⟩

theorem lift_bind {r : Except Fault α} {f : α → Run β} (h : ∀ a, Safe P C L S (f a)) :
    Safe P C L S (Run.lift r >>= f) :=
  bind (R := Any) (lift fun _ _ => trivial) fun a _ => h a

theorem map (f : α → β) (h : Safe P C L R act) (hf : ∀ a, R a → S (f a)) :
    Safe P C L S (f <$> act) := by
  rw [← bind_pure_comp]
  exact h.bind fun a ha => pure (hf a ha)

theorem ite {p : Prop} [Decidable p] {act' : Run α} (h : Safe P C L R act)
    (h' : Safe P C L R act') : Safe P C L R (if p then act else act') := by
  split
  · exact h
  · exact h'

/-- What follows a look at the state, if it does not depend on the registry. -/
theorem look {k : Machine → Run α} (hblind : ∀ m registry, k { m with registry } = k m)
    (h : ∀ m, m.Sound P C → Safe P C { L with legible := L ∧ m.Shown P } R (k m)) :
    Safe P C L R (get >>= k) where
  sound hm := (h _ hm).sound hm
  ok hm hact := by
    obtain ⟨hR, hshown⟩ := (h _ hm).ok hm hact
    exact ⟨hR, fun hL hm => hshown ⟨hL, hm⟩ hm⟩
  blind {m registry} hm hlists := by
    have hk : (get >>= k) { m with registry } = k m { m with registry } :=
      congrFun (hblind m registry) _
    rw [hk]
    exact (h m hm).blind hm hlists
  traced hL _ hm := (h _ hm).traced hL hm

theorem imp {L' : Level} (h : Safe P C L R act) (hL : L' → L) (htraced : L'.traced → L.traced) :
    Safe P C L' R act where
  __ := h
  ok hm hact := (h.ok hm hact).imp id fun hshown hL' => hshown (hL hL')
  traced hL' := h.traced (htraced hL')

theorem get_bind {k : Machine → Run α} (hblind : ∀ m registry, k { m with registry } = k m)
    (h : ∀ m, m.Sound P C → Safe P C L R (k m)) : Safe P C L R (get >>= k) :=
  look hblind fun m hm => (h m hm).imp And.left id

theorem modifyGet {f : Machine → α × Machine}
    (hblind : ∀ m registry, f { m with registry } = ((f m).1, { (f m).2 with registry }))
    (hshown : L → ∀ m, m.Shown P → (f m).2.Shown P) (hstill : ∀ m, (f m).2.watched = m.watched)
    (h : ∀ m, m.Sound P C → (f m).2.Sound P C ∧ R (f m).1) :
    Safe P C L R (modifyGet f : Run α) where
  sound hm := (h _ hm).1
  ok hm hact := by
    cases hact
    exact ⟨(h _ hm).2, fun hL => hshown hL _⟩
  blind {m registry} _ _ := ⟨registry, by rw [modifyGet_apply, hblind]; rfl⟩
  traced _ {m} _ := ⟨[], [], .of_watched (hstill m)⟩

theorem modify {f : Machine → Machine}
    (hblind : ∀ m registry, f { m with registry } = { f m with registry })
    (hshown : L → ∀ m, m.Shown P → (f m).Shown P) (hstill : ∀ m, (f m).watched = m.watched)
    (h : ∀ m, m.Sound P C → (f m).Sound P C) : Safe P C L Any (modify f : Run PUnit) :=
  modifyGet (fun m registry => by rw [hblind]) hshown hstill fun m hm => ⟨h m hm, trivial⟩

theorem note (level : Nat) (s : String) : Safe P C L Any (note level s) :=
  modify (fun _ _ => rfl) (fun _ _ h => { h with }) (note_still level rfl) fun _ hm => { hm with }

theorem note_bind {f : Unit → Run α} (level : Nat) (s : String) (h : Safe P C L R (f ())) :
    Safe P C L R (Run.note level s >>= f) :=
  (note level s).bind fun _ _ => h

theorem untraced (h : Safe P C L R act) : Safe P C { L with traced := False } R act :=
  h.imp id False.elim

/-- Any line, if nothing is traced. -/
theorem write (level : Nat) (line : Log.Line) :
    Safe P C { L with traced := False } Any (Run.note level line) where
  sound hm := { hm with }
  ok _ hact := by
    cases hact
    exact ⟨trivial, fun _ h => { h with }⟩
  blind _ _ := ⟨_, rfl⟩
  traced := False.elim

/-- What follows the entry of a call that makes no promise. -/
theorem enter_bind {f : Unit → Run α} {place : Position} {callee : Expr} {args : List Expr}
    {line : Nat} (hsite : P.site place (.call callee args line))
    (hshape : ∀ maker, CallShape.ofCallee callee ≠ .promise maker) (h : Safe P C L R (f ())) :
    Safe P C L R (Run.note 3 (.entered callee args line) >>= f) := by
  have hparts := (write (P := P) (C := C) (L := L) 3 (.entered callee args line)).bind
    fun _ _ => h.untraced
  refine { hparts with traced := fun hL {m} hm => ?_ }
  have hmakes : Visit.makes ⟨place, callee, args, line⟩ = false := by
    unfold Visit.makes
    split
    next maker hmaker => exact absurd hmaker (hshape maker)
    next => rfl
  have hm1 : (m.logged (m.log.write 3 (.entered callee args line))).Sound P C := { hm with }
  obtain ⟨visits, makings, htrace⟩ := h.traced hL hm1
  exact ⟨_, makings, .enter (v := ⟨place, callee, args, line⟩) hsite hmakes htrace⟩

/-- An action that is run in one place, after which the state is in another. -/
theorem within {D : Scope → Prop} (move : Machine → Machine) (scope : Machine → Scope)
    (frames : Machine → List Frame)
    (hblind : ∀ m registry, move { m with registry } = { move m with registry } ∧
      scope { m with registry } = scope m ∧ frames { m with registry } = frames m)
    (hshown : ∀ m, m.Shown P → (move m).Shown P) (hstill : ∀ m, (move m).watched = m.watched)
    (hmove : ∀ m, m.Sound P C → (move m).Sound P D)
    (hback : ∀ m, m.Sound P C → Scope.global <:+ scope m ∧ C (scope m) ∧
      ∀ frame ∈ frames m, Scope.global <:+ frame.function.scope)
    (h : Safe P D L R act) :
    Safe P C L R fun m => Run.restoring (scope m) (frames m) act (move m) where
  sound {m} hm := by
    have hend := h.sound (hmove m hm)
    obtain ⟨hscope, hplace, hframes⟩ := hback m hm
    dsimp only [Run.restoring]
    cases hact : act (move m) with
    | ok a m1 =>
      rw [hact] at hend
      exact { hend with frames := hframes, scope := hscope, place := hplace }
    | error fault m1 =>
      rw [hact] at hend
      exact { hend with frames := hframes, scope := hscope, place := hplace }
  ok {m a m'} hm hact := by
    dsimp only [Run.restoring] at hact
    cases hmid : act (move m) with
    | error fault m1 =>
      rw [hmid] at hact
      cases hact
    | ok a1 m1 =>
      rw [hmid] at hact
      cases hact
      obtain ⟨hR, hkept⟩ := h.ok (hmove m hm) hmid
      exact ⟨hR, fun hL hm => { hkept hL (hshown m hm) with }⟩
  blind {m registry} hm hlists := by
    obtain ⟨hmoved, hscope, hframes⟩ := hblind m registry
    -- the other registry is listed in the moved state as well, since that is sound with it
    have hother := hmove _ (hm.relist hlists)
    rw [hmoved] at hother
    obtain ⟨registry', h'⟩ := h.blind (hmove m hm) hother.registry
    dsimp only [Run.restoring]
    rw [hmoved, hscope, hframes, h']
    exact ⟨registry', by cases act (move m) <;> rfl⟩
  traced hL {m} hm := by
    obtain ⟨visits, makings, htrace⟩ := h.traced hL (hmove m hm)
    have hmoved : Trace P.site m (.ok () (move m)) [] [] := .of_watched (hstill m)
    refine ⟨visits, makings, hmoved.append ?_⟩
    dsimp only [Run.restoring]
    cases hact : act (move m) with
    | ok a m1 =>
      rw [hact] at htrace
      exact { htrace with traces := { htrace.traces with } }
    | error fault m1 =>
      rw [hact] at htrace
      exact { htrace with traces := { htrace.traces with } }

end Safe

variable {R : α → Prop} {act : Run α} {v : Value}

/-! ## Steps -/

theorem emit_safe {s : Step} (hs : L → (∀ n, P n → readable n = true) → s.Legible) :
    Safe P C L Any (emit s) where
  sound {m} hm := by
    rcases emit_cases s m with ⟨-, log, hok⟩ | ⟨-, herror⟩
    · rw [hok]
      exact { hm with }
    · rw [herror]
      exact hm
  ok {m a m'} hm hact := by
    rcases emit_cases s m with ⟨hroom, log, hok⟩ | ⟨-, herror⟩
    · rw [hok] at hact
      cases hact
      refine ⟨trivial, fun hL hm => ?_⟩
      have hemitted := hm.emitted (List.forall_mem_singleton.2 (hs hL hm.lines)) hroom
      exact { hemitted with }
    · rw [herror] at hact
      cases hact
  blind {m registry} _ _ := by
    refine ⟨registry, ?_⟩
    cases hfull : m.steps.isFull with
    | true => simp [emit, hfull, relisted]
    | false => simp [emit, hfull, relisted, Machine.logged]
  traced _ {m} _ := ⟨[], [], .of_watched (emit_still s m)⟩

theorem emitAll_safe {l : List Step}
    (hl : L → (∀ n, P n → readable n = true) → ∀ s ∈ l, s.Legible) :
    Safe P C L Any (emitAll l) := by
  induction l with
  | nil => exact .pure trivial
  | cons s l ih =>
    refine (emit_safe fun hL hlines => hl hL hlines s List.mem_cons_self).bind fun _ _ => ?_
    exact ih fun hL hlines s' hs' => hl hL hlines s' (List.mem_cons_of_mem s hs')

theorem warn_safe (text : String) : Safe P C L Any (warn text) :=
  Safe.bind (.modify (fun _ _ => rfl) (fun _ _ h => { h with }) (fun _ => rfl) fun _ hm => { hm with })
    fun _ _ => .note _ _

/-! ## Values and bindings -/

theorem apply_sound {arrays : Value.Arrays} {op : BinaryOp} {a b : Value}
    (h : Value.apply arrays op a b = .ok v) : v.Sound P := by
  -- what an operator gives is never a function
  cases op <;> simp only [Value.apply, Value.plus, Value.ordered, bind, Except.bind] at h <;>
    repeat' split at h
  all_goals
    cases h
    try trivial

theorem textOf_safe (v : Value) : Safe P C L Any (textOf v) :=
  .get_bind (fun _ _ => rfl) fun _ _ => .lift fun _ _ => trivial

theorem tell_safe (msg : Message) : Safe P C L Any (tell msg) :=
  .get_bind (fun _ _ => by cases msg <;> rfl) fun _ _ => .lift_bind fun _ => .note _ _

theorem applyOp_safe (op : BinaryOp) (a b : Value) : Safe P C L (Value.Sound P) (applyOp op a b) :=
  .get_bind (fun _ _ => rfl) fun _ _ => .lift fun _ h => apply_sound h

theorem newArray_safe {items : List Value} (h : ∀ v ∈ items, v.Sound P) :
    Safe P C L (Value.Sound P) (newArray items) := by
  refine .modifyGet (fun _ _ => rfl) (fun _ _ h => { h with }) (fun _ => rfl) fun m hm => ⟨?_, trivial⟩
  exact { hm with arrays := forall_mem_push hm.arrays fun v hv => h v (List.mem_toArray.1 hv) }

theorem itemsOf_safe (id : Nat) : Safe P C L (fun items => ∀ v ∈ items, v.Sound P) (itemsOf id) :=
  .get_bind (fun _ _ => rfl) fun _ hm => .pure (getD_of_forall_mem
    (Q := fun items : Array Value => ∀ v ∈ items, v.Sound P) hm.arrays (by simp) id)

theorem pushItems_safe (id : Nat) {items : List Value} (h : ∀ v ∈ items, v.Sound P) :
    Safe P C L Any (pushItems id items) := by
  have hitems (a : Array Value) (ha : ∀ v ∈ a, v.Sound P) :
      ∀ v ∈ a ++ items.toArray, v.Sound P := by
    intro v hv
    rcases Array.mem_append.1 hv with hv | hv
    · exact ha v hv
    · exact h v (List.mem_toArray.1 hv)
  refine Safe.bind (.modify (fun _ _ => rfl) (fun _ _ h => { h with }) (fun _ => rfl) fun m hm => ?_)
    fun _ _ => (itemsOf_safe id).bind fun _ _ => .pure trivial
  exact { hm with arrays := forall_mem_modify hm.arrays hitems }

theorem newPromise_safe (state : PromiseState) (hv : v.Sound P) :
    Safe P C L Any (newPromise state v) :=
  .modifyGet (fun _ _ => rfl) (fun _ _ h => { h with }) (fun _ => rfl) fun _ hm =>
    ⟨{ hm with promises := forall_mem_push hm.promises ⟨hv, by simp⟩ }, trivial⟩

theorem promiseOf_safe (id : Nat) : Safe P C L (Promise.Sound P) (promiseOf id) := by
  refine .get_bind (fun _ _ => rfl) fun m hm => .pure ?_
  refine getD_of_forall_mem hm.promises ?_ id
  exact ⟨trivial, by simp⟩

theorem stateOf_safe (v : Value) : Safe P C L Any (stateOf v) := by
  cases v with
  | promise id => exact (promiseOf_safe id).bind fun _ _ => .pure trivial
  | _ => exact .pure trivial

theorem settledValue_safe (hv : v.Sound P) : Safe P C L (Value.Sound P) (settledValue v) := by
  cases v with
  | promise id => exact (promiseOf_safe id).bind fun _ hp => .pure hp.value
  | _ => exact .pure hv

theorem newFunction_safe (name : String) (params : List String) {body : Body} (isAsync : Bool)
    {line : Nat} {scope : Scope} (hbody : CodeIn P body) (hline : P line)
    (hscope : Scope.global <:+ scope) :
    Safe P C L (Function.Sound P) (newFunction name params body isAsync line scope) :=
  .modifyGet (fun _ _ => rfl) (fun _ _ h => { h with }) (fun _ => rfl) fun _ hm =>
    ⟨{ hm with }, hbody, hline, hscope⟩

/-- What a name has that is not bound: the registry has nothing for it. -/
theorem lookup_apply (hm : m.Sound P C) (x : String) :
    lookup x m = .ok (((m.tables.get? m.scope x).or (constant? x)).getD .undefined) m := by
  cases hv : m.tables.get? m.scope x with
  | some v => simp [lookup, hv]
  | none =>
    -- what is registered is bound in the global scope, in which this one ends
    simp [lookup, hv, hm.registry.lookup_eq_none hm.scope hv]

theorem lookup_safe (x : String) : Safe P C L (Value.Sound P) (lookup x) where
  sound hm := by
    rw [lookup_apply hm]
    exact hm
  ok {m a m'} hm hact := by
    rw [lookup_apply hm] at hact
    cases hact
    refine ⟨?_, fun _ => id⟩
    cases hv : m.tables.get? m.scope x with
    | some v => exact hm.get? hv
    | none =>
      simp only [Option.none_or, constant?]
      repeat' split
      all_goals trivial
  blind {m registry} hm hlists := by
    rw [lookup_apply (hm.relist hlists), lookup_apply hm]
    exact ⟨registry, rfl⟩
  traced _ {m} _ := ⟨[], [], .of_watched (Still.of_reads (reads_lookup x) m)⟩

theorem isBound_apply (hm : m.Sound P C) (x : String) :
    isBound x m = .ok (m.tables.has m.scope x || (constant? x).isSome) m := by
  cases hv : m.tables.has m.scope x with
  | true => simp [isBound, hv]
  | false =>
    have hnone : m.tables.get? m.scope x = none := by
      rw [← Option.not_isSome_iff_eq_none, ← Tables.has_eq_isSome, hv]
      exact Bool.false_ne_true
    simp [isBound, hv, Assoc.contains, hm.registry.lookup_eq_none hm.scope hnone]

theorem isBound_safe (x : String) : Safe P C L Any (isBound x) where
  sound hm := by
    rw [isBound_apply hm]
    exact hm
  ok hm hact := by
    rw [isBound_apply hm] at hact
    cases hact
    exact ⟨trivial, fun _ => id⟩
  blind {m registry} hm hlists := by
    rw [isBound_apply (hm.relist hlists), isBound_apply hm]
    exact ⟨registry, rfl⟩
  traced _ {m} _ := ⟨[], [], .of_watched (Still.of_reads (reads_isBound x) m)⟩

theorem declare_safe (x : String) (hv : v.Sound P) : Safe P C L Any (declare x v) :=
  .modify (fun _ _ => rfl) (fun _ _ h => { h with }) (fun _ => rfl) fun _ hm => hm.write hv _ x

theorem assign_safe (x : String) (hv : v.Sound P) : Safe P C L Any (assign x v) :=
  .modify (fun _ _ => rfl) (fun _ _ h => { h with }) (fun _ => rfl) fun _ hm => hm.write hv _ x

theorem assigned_safe (op : AssignOp) (x : String) (hv : v.Sound P) :
    Safe P C L (Value.Sound P) (assigned op x v) := by
  unfold assigned
  cases op.operator? with
  | none => exact .pure hv
  | some op => exact (lookup_safe x).bind fun a _ => applyOp_safe op a v

theorem declareVariable_safe (x : String) (hv : v.Sound P) :
    Safe P C L Any (declareVariable x v) :=
  (declare_safe x hv).bind fun _ _ => tell_safe _

theorem sound_defined {name : String} {f : Function} (hm : m.Sound P C) (hf : f.Sound P) :
    (m.defined name f).Sound P C := by
  have hwritten := hm.write (v := .function f) hf (m.scope.headD 0) name
  refine { hwritten with registry := fun p hp => ?_ }
  dsimp only [Machine.defined] at hp
  split at hp
  next hscope =>
    rcases Assoc.mem_insert hp with rfl | hp
    · refine ⟨?_, hf.scope⟩
      show (m.tables.write (m.scope.headD 0) name (.function f)).binds 0 name = true
      rw [eq_of_beq hscope, Tables.binds, Assoc.contains]
      show ((Tables.bindings (m.tables.write 0 _ _) 0).lookup name).isSome = true
      rw [Tables.bindings_write_self _ hm.global, Assoc.lookup_insert, if_pos rfl]
      rfl
    · exact hwritten.registry p hp
  next => exact hwritten.registry p hp

theorem bindFunction_safe (name : String) (params : List String) {body : Block} (isAsync : Bool)
    {line : Nat} (hbody : CodeIn P body) (hline : P line) :
    Safe P C L Any (bindFunction name params body isAsync line) where
  sound {m} hm := by
    rw [bindFunction_apply]
    refine sound_defined { hm with } ?_
    exact ⟨hbody, hline, hm.scope⟩
  ok hm hact := by
    rw [bindFunction_apply] at hact
    cases hact
    exact ⟨trivial, fun _ h => { h with }⟩
  blind _ _ := by
    rw [bindFunction_apply, bindFunction_apply]
    exact ⟨_, rfl⟩
  traced _ {m} _ := ⟨[], [], .of_watched (by rw [bindFunction_apply]; rfl)⟩

theorem hoist_safe {stmts : List Stmt} (h : CodeIn P stmts) :
    Safe P C L Any (hoist stmts) := by
  induction stmts with
  | nil => exact .pure trivial
  | cons s rest ih =>
    obtain ⟨hs, hrest⟩ := each_cons.1 h
    cases s with
    | function name params body isAsync line =>
      exact (bindFunction_safe name params isAsync hs.stmt.2 hs.stmt.1).bind fun _ _ => ih hrest
    | _ => exact ih hrest

/-! ## Scopes -/

theorem newScope_safe (outer : Scope) {bindings : Bindings} (h : ∀ p ∈ bindings, p.2.Sound P) :
    Safe P C L (fun scope => ∃ id, id ≠ 0 ∧ scope = id :: outer) (newScope outer bindings) :=
  .modifyGet (fun _ _ => rfl) (fun _ _ h => { h with }) (fun _ => rfl) fun _ hm =>
    ⟨hm.nest h outer, _, Nat.ne_of_gt hm.global, rfl⟩

section

variable {D : Scope → Prop} {scope : Scope} (hscope : Scope.global <:+ scope) (hplace : D scope)

include hscope hplace

theorem inScope_safe (h : Safe P D L R act) : Safe P C L R (inScope scope act) := by
  refine h.within _ _ _ (fun _ _ => ⟨rfl, rfl, rfl⟩) (fun _ h => { h with }) (fun _ => rfl)
    (fun m hm => ?_)
    fun _ hm => ⟨hm.scope, hm.place, hm.frames⟩
  exact { hm with scope := hscope, place := hplace }

theorem inFrame_safe (frame : Frame) (hframe : Scope.global <:+ frame.function.scope)
    (h : Safe P D L R act) : Safe P C L R (inFrame scope frame act) := by
  refine h.within _ _ _ (fun _ _ => ⟨rfl, rfl, rfl⟩) (fun _ h => { h with }) (fun _ => rfl)
    (fun m hm => ?_)
    fun _ hm => ⟨hm.scope, hm.place, hm.frames⟩
  exact { hm with
    frames := List.forall_mem_cons.2 ⟨hframe, hm.frames⟩
    scope := hscope
    place := hplace }

end

/-- A scope that was made for a purpose is not the global one. -/
theorem nested_safe (h : Safe P (· ≠ Scope.global) L R act) : Safe P C L R (nested act) := by
  refine .get_bind (fun _ _ => rfl) fun m hm => (newScope_safe m.scope (by simp)).bind ?_
  rintro _ ⟨id, hid, rfl⟩
  refine inScope_safe (hm.scope.trans (List.suffix_cons id _)) ?_ h
  exact fun h => hid (List.cons.inj h).1

/-- Only a scope inside the global one is renewed. -/
theorem renewScope_safe : Safe P (· ≠ Scope.global) L Any renewScope := by
  refine .get_bind (fun _ _ => rfl) fun m hm => ?_
  have hbindings : ∀ p ∈ m.tables.bindings (m.scope.headD 0), p.2.Sound P :=
    getD_of_forall_mem (Q := fun b : Bindings => ∀ p ∈ b, p.2.Sound P) hm.bindings (by simp) _
  have htail : Scope.global <:+ m.scope.tail := by
    obtain ⟨inner, hscope⟩ := hm.scope
    cases inner with
    | nil => exact absurd hscope.symm hm.place
    | cons id inner => exact ⟨inner, by rw [← hscope]; rfl⟩
  refine (newScope_safe m.scope.tail hbindings).bind ?_
  rintro _ ⟨id, hid, rfl⟩
  refine .modify (fun _ _ => rfl) (fun _ _ h => { h with }) (fun _ => rfl) fun m' hm' => ?_
  exact { hm' with
    scope := htail.trans (List.suffix_cons id _)
    place := fun h => hid (List.cons.inj h).1 }

theorem asyncFrame?_safe :
    Safe P C L (fun o => ∀ frame ∈ o, Scope.global <:+ frame.function.scope) asyncFrame? := by
  refine .get_bind (fun _ _ => rfl) fun m hm => .pure fun frame hframe => ?_
  exact hm.frames frame (List.mem_of_mem_head? (Option.mem_filter_iff.1 hframe).1)

/-! ## Microtasks and promises -/

theorem enqueue_safe (name : String) {scope : Scope} {reaction : Option Reaction}
    (state : PromiseState) (hscope : Scope.global <:+ scope)
    (hreaction : ∀ r ∈ reaction, r.CodeIn P) (hv : v.Sound P) (hmark : L.traced → reaction ≠ none) :
    Safe P C L Any (enqueue name scope reaction state v) where
  sound hm := { hm with microtasks := forall_mem_push hm.microtasks ⟨hreaction, hv, hscope⟩ }
  ok hm hact := by
    cases hact
    refine ⟨trivial, fun _ h => ?_⟩
    exact { h with numbered := h.numbered.queued name scope reaction state v }
  blind _ _ := ⟨_, rfl⟩
  traced hL {m} _ := by
    obtain ⟨l, hwatched, hlength⟩ := enqueue_watched name scope reaction state v m
    rw [if_neg (hmark hL), List.length_eq_zero_iff] at hlength
    rw [hlength, List.append_nil] at hwatched
    exact ⟨[], [], .of_watched hwatched⟩

theorem enqueueWaiter_safe {w : Waiter} (state : PromiseState) (hw : w.Sound P) (hv : v.Sound P) :
    Safe P C L Any (enqueue w.name w.scope (some w.reaction) state v) := by
  refine enqueue_safe _ _ hw.scope ?_ hv (by simp)
  rintro r ⟨⟩
  exact hw.reaction

theorem parkOn_safe (id : Nat) {w : Waiter} (hw : w.Sound P) :
    Safe P C L Any (parkOn id w) := by
  refine .modify (fun _ _ => rfl) (fun _ _ h => { h with }) (fun _ => rfl) fun m hm => ?_
  have hwaiters (p : Promise) (hp : p.Sound P) :
      Promise.Sound P { p with waiters := p.waiters ++ [w] } := by
    refine ⟨hp.value, fun w' hw' => ?_⟩
    rcases List.mem_append.1 hw' with hw' | hw'
    · exact hp.waiters w' hw'
    · rw [List.mem_singleton.1 hw']
      exact hw
  exact { hm with promises := forall_mem_modify hm.promises hwaiters }

theorem react_safe {w : Waiter} (state : PromiseState) (subject : String)
    (hw : w.Sound P) (hv : v.Sound P) :
    Safe P C L Any (react w v state subject) := by
  cases v with
  | promise id =>
    refine (promiseOf_safe id).bind fun p hp => .ite ?_ ?_
    · exact (parkOn_safe id hw).bind fun _ _ => .note _ _
    · exact enqueueWaiter_safe state hw hp.value
  | _ => exact enqueueWaiter_safe state hw hv

theorem settleOne_safe (id : Nat) (state : PromiseState) (hv : v.Sound P) :
    Safe P C L (fun ws => ∀ w ∈ ws, w.Sound P) (settleOne id state v) := by
  refine (promiseOf_safe id).bind fun p hp => ?_
  refine Safe.bind (.modify (fun _ _ => rfl) (fun _ _ h => { h with }) (fun _ => rfl) fun m hm => ?_)
    fun _ _ => .pure hp.waiters
  have hsettled (p : Promise) (_ : p.Sound P) : Promise.Sound P { state, value := v } :=
    ⟨hv, by simp⟩
  exact { hm with promises := forall_mem_modify hm.promises hsettled }

theorem release_safe (state : PromiseState) (hv : v.Sound P) (fuel : Nat) {ws : List Waiter}
    (hws : ∀ w ∈ ws, w.Sound P) : Safe P C L Any (release state v fuel ws) := by
  induction fuel generalizing ws with
  | zero => exact .pure trivial
  | succ fuel ih =>
    cases ws with
    | nil => exact .pure trivial
    | cons w rest =>
      rw [List.forall_mem_cons] at hws
      have hqueue : Safe P C L Any (do
          enqueue w.name w.scope (some w.reaction) state v
          release state v fuel rest) :=
        (enqueueWaiter_safe state hws.1 hv).bind fun _ _ => ih hws.2
      rw [release]
      split
      · exact hqueue
      · refine .ite hqueue ((settleOne_safe _ state hv).bind fun more hmore => ih ?_)
        exact List.forall_mem_append.2 ⟨hmore, hws.2⟩

theorem settle_safe (id : Nat) (state : PromiseState) (hv : v.Sound P) :
    Safe P C L Any (settle id state v) :=
  .get_bind (fun _ _ => rfl) fun _ _ => (settleOne_safe id state hv).bind fun _ hws =>
    release_safe state hv _ hws

theorem newContinuation_safe {frame : Frame} (target : Target)
    (hframe : Scope.global <:+ frame.function.scope) :
    Safe P C L Any (newContinuation frame target) := by
  refine .modifyGet (fun _ _ => rfl) (fun _ _ h => { h with }) (fun _ => rfl) fun m hm => ⟨?_, trivial⟩
  exact { hm with continuations := forall_mem_push hm.continuations ⟨each_nil, hm.scope, hframe⟩ }

theorem defer_safe (k : Nat) {stmts : List Stmt} (h : CodeIn P stmts) :
    Safe P C L Any (defer k stmts) := by
  have hlonger (k : Continuation) (hk : k.Sound P) :
      Continuation.Sound P { k with statements := k.statements ++ stmts } :=
    { hk with statements := each_append.2 ⟨hk.statements, h⟩ }
  exact .modify (fun _ _ => rfl) (fun _ _ h => { h with }) (fun _ => rfl) fun m hm =>
    { hm with continuations := forall_mem_modify hm.continuations hlonger }

theorem suspend_safe {frame : Frame} (target : Target)
    (hframe : Scope.global <:+ frame.function.scope) (hv : v.Sound P) :
    Safe P C L Any (suspend frame v target) := by
  refine (newContinuation_safe target hframe).bind fun k _ => ?_
  refine .get_bind (fun _ _ => rfl) fun m hm => ?_
  refine (stateOf_safe v).bind fun state _ => ?_
  exact (react_safe (w := ⟨_, m.scope, .resume k⟩) state _ ⟨trivial, hm.scope⟩ hv).bind
    fun _ _ => .pure trivial

/-! ## Calls that the language answers -/

variable {line : Nat}

theorem unrecognized_safe (callee : Expr) (hline : P line) :
    Safe P C L (Value.Sound P) (unrecognized callee line) :=
  (emit_safe fun _ hlines => Step.glance_legible (hlines line hline)).bind fun _ _ =>
    .note_bind _ _ (.pure trivial)

/-- The steps of a call that shows its line, a frame, and something else inside. -/
theorem builtin_legible {label : String} {l : List Step} (hline : readable line = true)
    (hl : ∀ s ∈ l, s.Legible) :
    ∀ s ∈ Step.highlight line :: Step.push label :: (l ++ [Step.pop]), s.Legible := by
  simp only [List.forall_mem_cons, List.forall_mem_append]
  exact ⟨Step.highlight_legible hline, Step.push_legible label, hl, Step.pop_legible, by simp⟩

theorem consoleLine_safe (method message : String) (hline : P line) :
    Safe P C L (Value.Sound P) (consoleLine method message line) := by
  refine (emitAll_safe fun _ hlines => ?_).bind fun _ _ => .note_bind _ _ (.pure trivial)
  exact builtin_legible (l := [.console message]) (hlines line hline)
    (by simpa using Step.console_legible message)

theorem addCallback_ok {kind : TimerKind} {delay : Nat} {cb : Callback}
    (h : addCallback kind callback delay line m = .ok cb m') :
    m.Room 4 ∧ cb.id = m.timerCount + 1 ∧ cb.due = m.clock + delay ∧
      ∃ log, m' = (m.registered kind callback delay line).logged log := by
  rcases emitAll_cases (.highlight line) [.push (timerLabel kind delay),
    .webapiAdd (m.timerCount + 1) kind.api delay, .pop]
    { m with timerCount := m.timerCount + 1 } with ⟨hroom, log, hok⟩ | ⟨log, part, -, herror⟩
  · simp only [addCallback, bind_apply, modifyGet_apply, hok, get_apply, set_apply,
      pure_apply] at h
    cases h
    exact ⟨hroom, rfl, rfl, log, rfl⟩
  · simp only [addCallback, bind_apply, modifyGet_apply, herror] at h
    cases h

theorem shown_registered {kind : TimerKind} {delay : Nat} (hm : m.Shown P)
    (hdelay : readable delay = true) (hline : P line) (hroom : m.Room 4) :
    (m.registered kind callback delay line).Shown P := by
  have hid : readable (m.timerCount + 1) = true := by
    have hcount := hm.timerCount
    have hsize : m.steps.size + 0 ≤ m.steps.limit := hm.room
    exact readable_of_le hm.limit (by omega)
  have hshown := hm.emitted (l := [.highlight line, .push (timerLabel kind delay),
    .webapiAdd (m.timerCount + 1) kind.api delay, .pop])
    (builtin_legible (l := [.webapiAdd (m.timerCount + 1) kind.api delay]) (hm.lines line hline)
      (by simpa using Step.webapiAdd_legible hid hdelay kind.api)) hroom
  exact { hshown with
    ids := by
      refine List.forall_mem_append.2 ⟨hm.ids, fun cb hcb => ?_⟩
      rw [List.mem_singleton.1 hcb]
      exact hid
    timerCount := by
      show m.timerCount + 1 ≤ (m.emitted _).steps.size
      rw [Machine.size_emitted]
      exact Nat.add_le_add hm.timerCount (Nat.succ_le_succ (Nat.zero_le 3)) }

theorem lift_ok {r : Except Fault α} (h : lift r m = .ok a m') : r = .ok a ∧ m' = m := by
  cases r with
  | error fault => cases h
  | ok a' =>
    cases h
    exact ⟨rfl, rfl⟩

theorem readable_of_intText {text : String} (h : Number.intText n = .ok text) :
    readable n = true := by
  rw [Number.intText] at h
  split at h
  next hn =>
    rw [readable, decide_eq_true_eq]
    exact hn
  next => cases h

theorem tell_registered_ok {cb : Callback} (h : tell (.registered cb) m = .ok () m') :
    readable cb.due = true ∧ ∃ log, m' = m.logged log := by
  rw [tell, bind_apply, get_apply] at h
  obtain ⟨text, m1, htext, hnote⟩ := bind_eq_ok h
  obtain ⟨hdue, rfl⟩ := lift_ok htext
  rw [note_apply] at hnote
  injection hnote with _ hm'
  exact ⟨readable_of_intText hdue, _, hm'.symm⟩

theorem addCallback_safe (kind : TimerKind) (delay line : Nat) (hcallback : CodeIn P callback) :
    Safe P C { L with legible := False } Any (addCallback kind callback delay line) := by
  refine Safe.bind (R := Any) (.modifyGet (fun _ _ => rfl) False.elim (fun _ => rfl)
    fun m hm => ⟨{ hm with }, trivial⟩)
    fun id _ => (emitAll_safe False.elim).bind fun _ _ => ?_
  refine Safe.modifyGet (f := fun m =>
    let cb : Callback := { id, kind, callback, delay, due := m.clock + delay, scope := m.scope }
    (cb, { m with callbacks := m.callbacks ++ [cb] })) (fun _ _ => rfl) False.elim
    (fun _ => rfl) fun m hm => ⟨?_, trivial⟩
  refine { hm with callbacks := List.forall_mem_append.2 ⟨hm.callbacks, fun cb hcb => ?_⟩ }
  rw [List.mem_singleton.1 hcb]
  exact ⟨hcallback, hm.scope⟩

/-- The delay of a timer that is registered can be written, since the time at which the timer is due
    can. -/
theorem registerTimer_safe (kind : TimerKind) {args : List Expr} (hargs : CodeIn P args)
    (hline : P line) : Safe P C L (Value.Sound P) (registerTimer kind args line) := by
  refine .lift_bind fun delay => ?_
  have hparts : Safe P C { L with legible := False } (Value.Sound P) (do
      let cb ← addCallback kind args.head? delay line
      tell (.registered cb)
      return .int cb.id) :=
    (addCallback_safe kind delay line hargs.head?).bind fun cb _ =>
      (tell_safe _).bind fun _ _ => .pure trivial
  refine { hparts with ok := fun {m v m'} hm hact => ⟨(hparts.ok hm hact).1, fun _ hshown => ?_⟩ }
  obtain ⟨cb, m1, hcb, hact⟩ := bind_eq_ok hact
  obtain ⟨_, m2, hnote, hact⟩ := bind_eq_ok hact
  obtain ⟨hroom, -, hdue, log, rfl⟩ := addCallback_ok hcb
  obtain ⟨hreadable, log', rfl⟩ := tell_registered_ok hnote
  rw [pure_apply] at hact
  injection hact with hv hm'
  have hdelay : readable delay = true := by
    rw [hdue] at hreadable
    exact readable_of_le hreadable (Nat.le_add_left _ _)
  have hend : (m.registered kind args.head? delay line).Shown P :=
    shown_registered hshown hdelay hline hroom
  rw [← hm']
  exact { hend with }

theorem shown_dropped (hm : m.Shown P) (id : Nat) : (m.dropped id).Shown P :=
  { hm with ids := fun cb hcb => hm.ids cb (List.mem_of_mem_filter hcb) }

theorem sound_dropped (hm : m.Sound P C) (id : Nat) : (m.dropped id).Sound P C :=
  { hm with callbacks := fun cb hcb => hm.callbacks cb (List.mem_of_mem_filter hcb) }

theorem dropCallback_safe (name : String) (v : Value) :
    Safe P C L Any (dropCallback name v) := by
  refine .look (fun _ _ => rfl) fun m hm => ?_
  split
  next cb hfind =>
    refine Safe.bind (.modify (fun _ _ => rfl) (fun _ _ hm => shown_dropped hm cb.id)
      (fun _ => rfl) fun _ hm => sound_dropped hm cb.id) fun _ _ => ?_
    refine (emit_safe fun hL _ => ?_).bind fun _ _ => .note _ _
    exact Step.dequeue_legible (by decide) (hL.2.ids cb (List.mem_of_find?_eq_some hfind))
  next => exact .pure trivial

theorem clearTimer_safe (name : String) (args : List Expr) (v : Value) (hline : P line) :
    Safe P C L (Value.Sound P) (clearTimer name args line v) := by
  refine (emit_safe fun _ hlines => Step.highlight_legible (hlines line hline)).bind fun _ _ => ?_
  refine .lift_bind fun label => ?_
  refine (emit_safe fun _ _ => Step.push_legible label).bind fun _ _ => ?_
  refine (dropCallback_safe name v).bind fun _ _ => ?_
  exact (emit_safe fun _ _ => Step.pop_legible).bind fun _ _ => .pure trivial

theorem rejection?_safe : Safe P C L (fun o => ∀ v ∈ o, v.Sound P) (rejection? values) := by
  induction values with
  | nil => exact .pure (by simp)
  | cons v rest ih =>
    cases v with
    | promise id =>
      refine (promiseOf_safe id).bind fun p hp => .ite (.pure ?_) ih
      rintro v ⟨⟩
      exact hp.value
    | _ => exact ih

theorem settledValues_safe (h : ∀ v ∈ values, v.Sound P) :
    Safe P C L (fun vs => ∀ v ∈ vs, v.Sound P) (values.mapM settledValue) := by
  induction values with
  | nil => exact .pure (by simp)
  | cons v rest ih =>
    rw [List.forall_mem_cons] at h
    rw [List.mapM_cons]
    refine (settledValue_safe h.1).bind fun v hv => (ih h.2).bind fun vs hvs => .pure ?_
    exact List.forall_mem_cons.2 ⟨hv, hvs⟩

theorem combine_safe (v : Value) : Safe P C L Any (combine v) := by
  cases v with
  | array id =>
    refine (itemsOf_safe id).bind fun items hitems => rejection?_safe.bind fun rejected hr => ?_
    cases rejected with
    | some v => exact newPromise_safe _ (hr v rfl)
    | none =>
      refine (settledValues_safe fun v hv => hitems v (Array.mem_toList_iff.1 hv)).bind ?_
      exact fun vs hvs => (newArray_safe hvs).bind fun _ hv => newPromise_safe _ hv
  | _ => exact (newArray_safe (by simp)).bind fun _ hv => newPromise_safe _ hv

theorem made_safe (maker : Maker) (hv : v.Sound P) : Safe P C L Any (made maker v) := by
  cases maker with
  | reject => exact newPromise_safe _ hv
  | all => exact combine_safe v
  | resolve =>
    cases v with
    | promise id => exact .pure trivial
    | _ => exact newPromise_safe _ hv

/-- All but the trace, which takes the whole call. -/
theorem makePromise_safe (maker : Maker) (consumed : Bool) (h : ∀ v ∈ values, v.Sound P)
    (hline : P line) : Safe P C { L with traced := False } (Value.Sound P)
      (makePromise maker consumed values line) := by
  have hfirst : (values.headD .undefined).Sound P := by
    cases values with
    | nil => trivial
    | cons v rest => exact h v List.mem_cons_self
  refine (emitAll_safe fun _ hlines => ?_).bind fun _ _ => ?_
  · exact builtin_legible (l := []) (hlines line hline) (by simp)
  refine (made_safe maker hfirst).bind fun id _ => (promiseOf_safe id).bind fun p hp => ?_
  refine Safe.bind (.modify (fun _ _ => rfl) (fun _ _ h => { h with }) (fun _ => rfl)
    fun m hm => { hm with }) fun _ _ => ?_
  have hmark (name : String) : Safe P C { L with traced := False } Any
      (do enqueue name (← get).scope none p.state p.value : Run Unit) :=
    .get_bind (fun _ _ => rfl) fun _ hm =>
      enqueue_safe _ _ hm.scope (by simp) hp.value False.elim
  refine .ite ?_ (.pure trivial)
  exact (hmark _).bind fun _ _ => .pure trivial

/-- A call that makes a promise is entered before its arguments are evaluated. -/
theorem promiseCall_safe {place : Position} {callee : Expr} {maker : Maker} {args : List Expr}
    {act : Run (List Value)} (hshape : CallShape.ofCallee callee = .promise maker)
    (hsite : P.site place (.call callee args line)) (hline : P line)
    (h : Safe P C L (fun vs => ∀ v ∈ vs, v.Sound P) act) :
    Safe P C L (Value.Sound P) (do
      note 3 (.entered callee args line)
      let vs ← act
      makePromise maker place.consumes vs line) := by
  have hparts := (Safe.write (P := P) (C := C) (L := L) 3 (.entered callee args line)).bind
    fun _ _ => h.untraced.bind fun _ hvs => makePromise_safe maker place.consumes hvs hline
  refine { hparts with traced := fun hL {m} hm => ?_ }
  have hm1 : (m.logged (m.log.write 3 (.entered callee args line))).Sound P C := { hm with }
  obtain ⟨visits, makings, htrace⟩ := h.traced hL hm1
  have hfail {r : EStateM.Result Fault Machine (List Value)} {fault : Fault} {m' : Machine}
      (hend : m'.watched = (final r).watched)
      (h : Trace P.site (m.logged (m.log.write 3 (.entered callee args line))) r visits makings) :
      ∃ visits makings,
        Trace P.site m (.error fault m' : EStateM.Result Fault Machine Value) visits makings :=
    ⟨_, makings, .fail (v := ⟨place, callee, args, line⟩) hsite hend h⟩
  rw [bind_apply, note_apply]
  dsimp only
  rw [bind_apply]
  cases hargs : act (m.logged (m.log.write 3 (.entered callee args line))) with
  | error fault m1 =>
    rw [hargs] at htrace
    exact hfail rfl htrace
  | ok vs m1 =>
    rw [hargs] at htrace
    dsimp only
    rcases makePromise_marks maker place.consumes vs line m1 with
      ⟨fault, m2, hmake, hwatched⟩ | ⟨id, m2, _, hmake, -⟩
    · rw [hmake]
      exact hfail (r := .ok vs m1) hwatched htrace
    · rw [hmake]
      exact ⟨_, _, .make (c := ⟨⟨place, callee, args, line⟩, maker, hshape, vs, id, m1, m2, hmake⟩)
        hsite htrace⟩

theorem receiverState_safe (callee : Expr) (v : Value) :
    Safe P C L Any (receiverState callee v) := by
  rw [receiverState]
  split
  · exact .get_bind (fun _ _ => rfl) fun _ _ => .pure trivial
  · exact stateOf_safe v

theorem attach_safe (name : String) (l : Link) (state : PromiseState)
    (hcallback : CodeIn P callback) (hv : v.Sound P) :
    Safe P C L Any (attach name l callback state v) := by
  refine .get_bind (fun _ _ => rfl) fun m hm => ?_
  refine (newPromise_safe (v := .undefined) .pending trivial).bind fun derived _ => ?_
  exact (react_safe (w := ⟨name, m.scope, .link l callback derived⟩) state _ ⟨hcallback, hm.scope⟩
    hv).bind fun _ _ => .pure trivial

theorem addLink_safe (l : Link) (callee : Expr) (hcallback : CodeIn P callback) (hv : v.Sound P)
    (hline : P line) : Safe P C L (Value.Sound P) (addLink l callee callback v line) := by
  refine (receiverState_safe callee v).bind fun state _ => .ite ?_ ?_
  · exact .note_bind _ _ (.pure hv)
  · refine (emitAll_safe fun _ hlines => ?_).bind fun _ _ => ?_
    · exact builtin_legible (l := []) (hlines line hline) (by simp)
    · exact (attach_safe _ l state hcallback hv).bind fun _ _ => .pure trivial

theorem callMethod_safe (callee : Expr) (method : String) (v : Value) {args : List Value}
    (h : ∀ v ∈ args, v.Sound P) (hline : P line) :
    Safe P C L (Value.Sound P) (callMethod callee method v args line) := by
  cases v with
  | array id =>
    refine .ite ?_ (unrecognized_safe callee hline)
    refine (pushItems_safe id h).bind fun _ _ => ?_
    exact (emit_safe fun _ hlines => Step.glance_legible (hlines line hline)).bind fun _ _ =>
      .pure trivial
  | _ => exact unrecognized_safe callee hline

end Run

end EventLoop
