/-
  Evaluation puts its context back.

  Code runs in a context: a scope, and the calls that are active.  Blocks, loops and calls change it
  on their way in, and may be left at any point, by a value, a return, a suspension or a fault.
  Whatever the end, the context is then the one from before (`context_restored`).

  A call puts its frame on top of the active ones and its end sets them back.  That a body keeps the
  context of its own call shows that this takes away the one frame that was put there, and hides
  nothing else.
-/
import EventLoop.Generator
import EventLoop.Proofs.Execution

namespace EventLoop

open Script

variable {α : Type} {tame : Bool} {depth : Nat}

namespace Machine

/-- Both states have the same scope and the same active calls. -/
def SameContext (m m' : Machine) : Prop := m'.scope = m.scope ∧ m'.frames = m.frames

theorem SameContext.refl (m : Machine) : m.SameContext m := ⟨rfl, rfl⟩

theorem SameContext.symm {m m' : Machine} (h : m.SameContext m') : m'.SameContext m :=
  ⟨h.1.symm, h.2.symm⟩

theorem SameContext.trans {m m1 m2 : Machine} (h1 : m.SameContext m1) (h2 : m1.SameContext m2) :
    m.SameContext m2 := ⟨h2.1.trans h1.1, h2.2.trans h1.2⟩

theorem Leads.sameContext {m : Machine} {e : α → Ending} {r : EStateM.Result Fault Machine α}
    (h : m.Leads tame depth e r) : m.SameContext (Run.final r) := by
  cases h with
  | ok hw => exact hw.context
  | error hw => exact hw.context

theorem Leads.sameContext_of_ok {m m' : Machine} {e : α → Ending}
    {r : EStateM.Result Fault Machine α} {a : α} (h : m.Leads tame depth e r) (hr : r = .ok a m') :
    m.SameContext m' := (h.walk_of_ok hr).context

end Machine

namespace Run

/-- An action that ends in the context in which it started, on every exit. -/
def KeepsContext (act : Run α) : Prop := ∀ m : Machine, m.SameContext (final (act m))

/-- Nothing is asked of the code of a call here, so its walk need not be tame. -/
theorem invoke_wanders (depth : Nat) : CallsWalk false depth (invoke depth) := invoke_walks depth

theorem eval_keepsContext (depth : Nat) (consumed : Bool) (e : Expr) :
    KeepsContext (eval (invoke depth) consumed e) :=
  fun m => (eval_walks (invoke_wanders depth) consumed e m).sameContext

theorem exec_keepsContext (depth : Nat) (s : Stmt) : KeepsContext (exec (invoke depth) s) :=
  fun m => (exec_leads (invoke_wanders depth) s m nofun).sameContext

theorem execAll_keepsContext (depth : Nat) (stmts : List Stmt) :
    KeepsContext (execAll (invoke depth) stmts) :=
  fun m => (execAll_leads (invoke_wanders depth) stmts m nofun).sameContext

theorem runBody_keepsContext (depth : Nat) (body : Body) :
    KeepsContext (runBody (invoke depth) body) :=
  fun m => (runBody_leads (invoke_wanders depth) body m nofun).sameContext

theorem invoke_keepsContext (depth : Nat) (f : Function) (args : List Value) (label : String)
    (line : Nat) : KeepsContext (invoke depth f args label line) :=
  fun m => (invoke_wanders depth f args label line m).sameContext

/-- What is evaluated or executed puts its context back on every exit.  This holds for every node,
    also one of the wrong kind, for the statements of a body and the body of a call, for calls of
    functions from any depth, and for the callbacks of timers and animation frames. -/
theorem context_restored :
    (∀ node, KeepsContext (evaluateNode node)) ∧
    (∀ node, KeepsContext (executeNode node)) ∧
    (∀ depth consumed e, KeepsContext (eval (invoke depth) consumed e)) ∧
    (∀ depth s, KeepsContext (exec (invoke depth) s)) ∧
    (∀ depth stmts, KeepsContext (execAll (invoke depth) stmts)) ∧
    (∀ depth body, KeepsContext (runBody (invoke depth) body)) ∧
    (∀ depth f args label line, KeepsContext (invoke depth f args label line)) ∧
    (∀ cb, KeepsContext (runCallback cb)) := by
  refine ⟨fun node => ?_, fun node => ?_, eval_keepsContext, exec_keepsContext,
    execAll_keepsContext, runBody_keepsContext, invoke_keepsContext, fun cb m => ?_⟩
  · cases node with
    | expr e => exact fun m => eval_keepsContext m.callBudget false e m
    | stmt s => exact fun _ => ⟨rfl, rfl⟩
  · cases node with
    | expr e => exact fun _ => ⟨rfl, rfl⟩
    | stmt s => exact fun m => exec_keepsContext m.callBudget s m
  · have hroams : Roams false (runCallback cb) := roams_callbacks.runCallback cb
    exact (hroams m).sameContext

end Run

end EventLoop
