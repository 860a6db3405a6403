/-
  The registry of declared functions decides nothing.

  A function is registered when it is declared in the global scope, where its name is bound at the
  same time and stays bound.  Code runs in scopes that end in the global one: the scopes that
  functions, continuations, microtasks and callbacks captured, and those that are nested in them.
  So a name that is registered is always found before the registry is asked for it.  `Run.Safe`
  carries this through every action; here it is read off for sequences of operations.
-/
import EventLoop.Proofs.Legibility

namespace EventLoop

open Script

namespace Machine

/-- The values that a state holds. -/
inductive Holds (m : Machine) : Value → Prop
  | binding {b : Bindings} {p : String × Value} (hb : b ∈ m.tables.entries) (hp : p ∈ b) :
      m.Holds p.2
  | item {items : Array Value} {v : Value} (ha : items ∈ m.arrays) (hv : v ∈ items) : m.Holds v
  | settlement {p : Promise} (hp : p ∈ m.promises) : m.Holds p.value
  | reaction {t : Microtask} (ht : t ∈ m.microtasks) : m.Holds t.value

/-- The scopes that a state holds: the current one, and those that something captured. -/
inductive HoldsScope (m : Machine) : Scope → Prop
  | current : m.HoldsScope m.scope
  | function {f : Function} (hf : m.Holds (.function f)) : m.HoldsScope f.scope
  | registered {p : String × Function} (hp : p ∈ m.registry) : m.HoldsScope p.2.scope
  | active {frame : Frame} (hframe : frame ∈ m.frames) : m.HoldsScope frame.function.scope
  | suspended {k : Continuation} (hk : k ∈ m.continuations) : m.HoldsScope k.function.scope
  | continuation {k : Continuation} (hk : k ∈ m.continuations) : m.HoldsScope k.scope
  | waiter {p : Promise} {w : Waiter} (hp : p ∈ m.promises) (hw : w ∈ p.waiters) :
      m.HoldsScope w.scope
  | microtask {t : Microtask} (ht : t ∈ m.microtasks) : m.HoldsScope t.scope
  | callback {cb : Callback} (hcb : cb ∈ m.callbacks) : m.HoldsScope cb.scope

namespace Sound

variable {P : Region} {C : Scope → Prop} {m : Machine} {v : Value} {scope : Scope}

theorem of_holds (h : m.Sound P C) (hv : m.Holds v) : v.Sound P := by
  cases hv with
  | binding hb hp => exact h.bindings _ hb _ hp
  | item ha hv => exact h.arrays _ ha _ hv
  | settlement hp => exact (h.promises _ hp).value
  | reaction ht => exact (h.microtasks _ ht).value

theorem suffix_of_holdsScope (h : m.Sound P C) (hscope : m.HoldsScope scope) :
    Scope.global <:+ scope := by
  cases hscope with
  | current => exact h.scope
  | function hf => exact Function.Sound.scope (h.of_holds hf)
  | registered hp => exact (h.registry _ hp).2
  | active hframe => exact h.frames _ hframe
  | suspended hk => exact (h.continuations _ hk).function
  | continuation hk => exact (h.continuations _ hk).scope
  | waiter hp hw => exact ((h.promises _ hp).waiters _ hw).scope
  | microtask ht => exact (h.microtasks _ ht).scope
  | callback hcb => exact (h.callbacks _ hcb).scope

end Sound

end Machine

/-! ## Operations -/

section

open Run

/-- Nothing is asked here of the lines that code is on. -/
theorem Operation.act_safe (op : Operation) : Safe .all Any ⟨False, False⟩ Any op.act := by
  have hcode {α : Type} [HasNodes α] (a : α) : CodeIn .all a :=
    fun _ _ _ _ _ => ⟨trivial, fun _ _ => trivial⟩
  cases op with
  | generate source => exact generate_safe fun p _ => hcode p.body
  | run p => exact discard_safe (runProgram_safe (hcode p.body))
  | evaluate node =>
    cases node with
    | expr e =>
      exact discard_safe (withCalls_safe fun _ hcall => eval_safe hcall .elsewhere e (hcode e))
    | stmt s => exact discard_safe (R := Any) (.throw _)
  | execute node =>
    cases node with
    | stmt s => exact discard_safe (withCalls_safe fun _ hcall => exec_safe hcall s (hcode s))
    | expr e => exact discard_safe (R := Any) (.throw _)
  | microtasks => exact drainMicrotasks_safe
  | frames => exact drainFrames_safe
  | timers => exact drainTimers_safe

theorem Machine.sound_operations (ops : List Operation) {m : Machine} (hm : m.Sound .all Any) :
    (ops.foldl Machine.after m).Sound .all Any := by
  induction ops generalizing m with
  | nil => exact hm
  | cons op ops ih =>
    have hnext := op.act_safe.sound hm
    refine ih ?_
    -- a failed operation leaves the state in which it failed
    rw [Machine.after]
    cases hact : op.act m with
    | ok a m' =>
      rw [hact] at hnext
      exact hnext
    | error fault m' =>
      rw [hact] at hnext
      exact hnext

/-- After any operations, what is registered is bound in the global scope, and every scope that the
    state holds ends in the global one.  In such a scope a name has its nearest binding, else the
    value of a constant, else none, and whatever is done next is the same without the registry. -/
theorem registry_decides_nothing (limit : Nat) (log : Log) (ops : List Operation) :
    let m := ops.foldl Machine.after (Machine.start limit log)
    (∀ p ∈ m.registry, m.tables.binds 0 p.1 = true) ∧
    (∀ scope, m.HoldsScope scope → Scope.global <:+ scope ∧ ∀ x, lookup x { m with scope } =
      .ok (((m.tables.get? scope x).or (constant? x)).getD .undefined) { m with scope }) ∧
    ∀ op : Operation, ∃ registry,
      op.act { m with registry := [] } = relisted registry (op.act m) := by
  intro m
  have hm : m.Sound .all Any := Machine.sound_operations ops (Machine.sound_start limit log)
  refine ⟨fun p hp => (hm.registry p hp).1, fun scope hscope => ?_, fun op => ?_⟩
  · have hglobal := hm.suffix_of_holdsScope hscope
    have hthere : Machine.Sound .all Any { m with scope } := { hm with scope := hglobal }
    exact ⟨hglobal, lookup_apply hthere⟩
  · -- an empty registry is listed in any tables
    exact op.act_safe.blind hm fun p hp => absurd hp List.not_mem_nil

end

end EventLoop
