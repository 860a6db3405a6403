/-
  Every program that can be read is known to the evaluator.

  Three faults say that code is not known: a node that is no statement is executed, a node that is
  no expression is evaluated, or an operator is applied that has no application.  They do arise: the
  first two for every node of the wrong kind, and the last for the operators that may skip an
  operand.  What is shown here is that no program leads to them.  This holds for its statements and
  for whatever the run assembles from them, such as the rest of a suspended function.
-/
import EventLoop.Proofs.Composition

namespace EventLoop

open Script

variable {α β : Type}

namespace Run

/-- An action that never fails because code is not known. -/
def Supported (act : Run α) : Prop :=
  ∀ (m m' : Machine) (fault : Fault), act m = .error fault m' → fault.isUnsupported = false

namespace Supported

theorem bind {act : Run α} {f : α → Run β} (h : Supported act) (hf : ∀ a, Supported (f a)) :
    Supported (act >>= f) := by
  intro m m' fault hfault
  rw [bind_apply] at hfault
  cases hact : act m with
  | ok a m1 =>
    rw [hact] at hfault
    exact hf a m1 m' fault hfault
  | error fault' m1 =>
    rw [hact] at hfault
    cases hfault
    exact h m m' fault hact

theorem get_bind {k : Machine → Run α} (h : ∀ m, Supported (k m)) : Supported (get >>= k) :=
  fun m m' fault hfault => h m m m' fault hfault

theorem restoring {act : Run α} (scope : Scope) (frames : List Frame) (h : Supported act) :
    Supported (restoring scope frames act) := by
  intro m m' fault hfault
  rw [Run.restoring] at hfault
  cases hact : act m with
  | ok a m1 =>
    rw [hact] at hfault
    cases hfault
  | error fault' m1 =>
    rw [hact] at hfault
    cases hfault
    exact h m m1 fault hact

end Supported

theorem Quiet.supported {act : Run α} (h : Quiet act) : Supported act := by
  intro m m' fault hfault
  have hordinary := h.ordinary m m' fault hfault
  rw [Fault.isOrdinary, Bool.and_eq_true, Bool.not_eq_true'] at hordinary
  exact hordinary.1

theorem emit_supported (s : Step) : Supported (emit s) := by
  intro m m' fault hfault
  rcases emit_cases s m with ⟨_, log, h⟩ | ⟨_, h⟩
  · rw [h] at hfault
    cases hfault
  · rw [h] at hfault
    cases hfault
    rfl

theorem Composed.supported {act : Run α} (h : Composed act) : Supported act := by
  induction h with
  | quiet h => exact h.supported
  | emit s => exact emit_supported s
  | bind _ _ ih ihf => exact ih.bind ihf
  | restoring scope frames _ ih => exact ih.restoring scope frames

theorem drainTimers_supported : Supported drainTimers :=
  .get_bind fun _ => (timerTurns_composed _).supported

theorem generate_supported (source : Option String) : Supported (generate source) :=
  (runSource_composed source).supported.bind fun _ => (enter_composed _).supported.bind fun _ =>
    drainFrames_composed.supported.bind fun _ => (enter_composed _).supported.bind fun _ =>
      drainTimers_supported.bind fun _ => (enter_composed _).supported

/-- Every statement is executed, and no other node is. -/
theorem executeNode_supported_iff (node : Node) :
    Supported (executeNode node) ↔ ∃ s, node = .stmt s := by
  cases node with
  | expr e =>
    refine ⟨fun h => ?_, nofun⟩
    exact absurd (h default default (.unsupportedStatement e.nodeName) rfl) nofun
  | stmt s =>
    exact ⟨fun _ => ⟨s, rfl⟩, fun _ =>
      (withCalls_composed fun _ h => exec_composed h s).supported⟩

/-- Every expression is evaluated, and no other node is. -/
theorem evaluateNode_supported_iff (node : Node) :
    Supported (evaluateNode node) ↔ ∃ e, node = .expr e := by
  cases node with
  | expr e =>
    exact ⟨fun _ => ⟨e, rfl⟩, fun _ =>
      (withCalls_composed fun _ h => eval_composed h false e).supported⟩
  | stmt s =>
    refine ⟨fun h => ?_, nofun⟩
    exact absurd (h default default (.unsupportedExpression s.nodeName) rfl) nofun

/-- The operators that can be applied are the ones that never skip an operand.  All those of
    compound assignments are among them. -/
theorem applyOp_supported_iff (op : BinaryOp) :
    (∀ a b, Supported (applyOp op a b)) ↔ op ≠ .or ∧ op ≠ .and := by
  refine ⟨fun h => ⟨?_, ?_⟩, fun ⟨hor, hand⟩ a b => (applyOp_aloof hor hand a b).quiet.supported⟩
  · rintro rfl
    exact absurd (h .null .null default default (.unsupportedOperator "||") rfl) nofun
  · rintro rfl
    exact absurd (h .null .null default default (.unsupportedOperator "&&") rfl) nofun

end Run

/-- The report of a fault says that something is not supported only if the fault does. -/
theorem Fault.report_message {fault : Fault} (h : fault.isUnsupported = false) :
    ¬ "Unsupported".toList <+: fault.report.message.toList := by
  cases fault with
  | unsupportedStatement | unsupportedExpression | unsupportedOperator => cases h
  | _ => decide

theorem Generator.report_generate {g : Generator} {source : Option String} {r : Report}
    (h : (g.generate source).1.report? = some r) :
    ∃ fault : Fault, fault.isUnsupported = false ∧ r = fault.report := by
  rw [generate] at h
  split at h
  · cases h
    exact ⟨.generationActive, rfl, rfl⟩
  · cases hr : Run.generate source g.reset.machine with
    | ok a m =>
      rw [hr] at h
      cases h
    | error fault m =>
      rw [hr] at h
      cases h
      exact ⟨fault, Run.generate_supported source _ m fault hr, rfl⟩

/-- No program leads to code that is not known, from whatever state and with whatever limit on
    steps: not its statements, not the rest of a suspended function, not a microtask, and not the
    callbacks of animation frames and timers.  No generation reports such a fault.  Among all nodes
    the ones that are known in a place are just those of its kind. -/
theorem programs_supported :
    (∀ p : Program, Run.Supported (Run.runProgram p)) ∧
    (∀ k v, Run.Supported (Run.runRest k v)) ∧
    (∀ t, Run.Supported (Run.runMicrotask t)) ∧
    (∀ cb, Run.Supported (Run.runCallback cb)) ∧
    Run.Supported Run.drainMicrotasks ∧ Run.Supported Run.drainFrames ∧
    Run.Supported Run.drainTimers ∧
    (∀ (g : Generator) (source : Option String) (r : Report),
      (g.generate source).1.report? = some r → ¬ "Unsupported".toList <+: r.message.toList) ∧
    (∀ node, Run.Supported (Run.executeNode node) ↔ ∃ s, node = .stmt s) ∧
    (∀ node, Run.Supported (Run.evaluateNode node) ↔ ∃ e, node = .expr e) ∧
    (∀ op, (∀ a b, Run.Supported (Run.applyOp op a b)) ↔ op ≠ .or ∧ op ≠ .and) := by
  refine ⟨fun p => (Run.runProgram_composed p).supported,
    fun k v => (Run.runRest_composed k v).supported,
    fun t => (Run.runMicrotask_composed t).supported,
    fun cb => (Run.runCallback_composed cb).supported,
    Run.drainMicrotasks_composed.supported, Run.drainFrames_composed.supported,
    Run.drainTimers_supported, fun g source r hr => ?_, Run.executeNode_supported_iff,
    Run.evaluateNode_supported_iff, Run.applyOp_supported_iff⟩
  obtain ⟨fault, hfault, rfl⟩ := Generator.report_generate hr
  exact fault.report_message hfault

end EventLoop
