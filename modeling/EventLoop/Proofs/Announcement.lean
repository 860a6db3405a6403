/-
  Which calls that make a promise queue a microtask that marks it as settled.

  Whether a promise is consumed is decided by where its call stands in the program, however the call
  is come to.  So a run has a trace (`EventLoop.Proofs.Making`) of calls that stand in the program,
  each at its place, and the marks of the run are those that its calls own.

  A call can also learn its place from a slot.  A call that is consumed is put there when it is
  entered, and stays until a call that makes a promise finds itself there.  What stays for longer is
  a call that makes none, so it is never found by a later one (`Slot.answers_eq`).
-/
import EventLoop.Proofs.Legibility

namespace EventLoop

open Script Run

/-! ## The slot -/

namespace Slot

variable {ι : Type} [DecidableEq ι] (visit : ι → Visit)

/-- The answers that calls get which make a promise and look for themselves in the slot.  A call
    that is consumed puts itself there first, and a call that is found is taken out. -/
def answers : Option ι → List ι → List Bool
  | _, [] => []
  | slot, call :: rest =>
    let slot := if (visit call).place.consumes then some call else slot
    if (visit call).makes then
      if slot = some call then true :: answers none rest else false :: answers slot rest
    else answers slot rest

/-- If the slot holds no call that makes a promise, every such call is answered by its place, and
    what is left in the slot makes no promise, either. -/
theorem answers_eq (calls : List ι) (slot : Option ι)
    (hslot : ∀ call ∈ slot, (visit call).makes = false) :
    answers visit slot calls =
      ((calls.map visit).filter Visit.makes).map (·.place.consumes) := by
  induction calls generalizing slot with
  | nil => rfl
  | cons call rest ih =>
    rw [answers, List.map_cons]
    cases hmakes : (visit call).makes with
    | false =>
      -- a call that makes no promise may stay in the slot
      rw [List.filter_cons_of_neg (by simp [hmakes])]
      refine ih _ fun call' hcall' => ?_
      split at hcall'
      · cases hcall'
        exact hmakes
      · exact hslot call' hcall'
    | true =>
      rw [List.filter_cons_of_pos hmakes, List.map_cons, if_pos rfl]
      cases hplace : (visit call).place.consumes with
      | true =>
        rw [if_pos rfl, if_pos rfl]
        exact congrArg _ (ih none (by simp))
      | false =>
        have hother : slot ≠ some call := by
          rintro rfl
          exact absurd (hslot call rfl) (by simp [hmakes])
        rw [if_neg Bool.false_ne_true, if_neg hother]
        exact congrArg _ (ih slot hslot)

end Slot

/-! ## Runs -/

theorem eval_making {call : Invoke} {place : Position} {callee : Expr} {maker : Maker}
    {args : List Expr} {line : Nat} {m m' : Machine} {v : Value}
    (hshape : CallShape.ofCallee callee = .promise maker)
    (h : eval call place.consumes (.call callee args line) m = .ok v m') :
    ∃ c : Making, c.toVisit = ⟨place, callee, args, line⟩ ∧ c.after = m' ∧ v = .promise c.promise ∧
      ∃ log, evalAll call args (m.logged log) = .ok c.values c.before := by
  rw [eval, hshape] at h
  obtain ⟨_, m1, hnote, h1⟩ := bind_eq_ok h
  obtain ⟨values, m2, hargs, hmake⟩ := bind_eq_ok h1
  rcases makePromise_marks maker place.consumes values line m2 with
    ⟨_, _, hfails, _⟩ | ⟨id, m3, _, hmade, _⟩
  · cases hfails.symm.trans hmake
  · cases hmade.symm.trans hmake
    rw [note_apply] at hnote
    cases hnote
    exact ⟨⟨⟨place, callee, args, line⟩, maker, hshape, values, id, m2, m', hmake⟩, rfl, rfl, rfl,
      _, hargs⟩

/-- A run enters calls of its program, at the places where they stand. -/
theorem generate_trace (source : Option String) (limit : Nat) (log : Log) :
    ∃ visits makings,
      Trace (fun place e => ∃ p, readProgram source = .ok p ∧ p.HasSite place e)
        (Machine.start limit log) (generate source (Machine.start limit log)) visits makings := by
  let P : Region := ⟨fun _ => True, fun place e => ∃ p, readProgram source = .ok p ∧
    p.HasSite place e⟩
  have hsafe : Safe P Any ⟨False, True⟩ Any (generate source) := by
    refine generate_safe fun p hp n hn place n' hreaches => ⟨trivial, ?_⟩
    rintro e rfl
    exact ⟨p, hp, n, hn, hreaches⟩
  exact hsafe.traced trivial (Machine.sound_start limit log)

/-- Which calls mark a promise as settled.  Every evaluation of a call that makes a promise makes it
    at the place where the call is evaluated, once the arguments are evaluated.  From there on it
    queues one mark if it is not what a method is called on or what is awaited, and its promise is
    settled; else it queues none.

    In a run each call that is entered is at its place in the program, and these calls are all that
    a log of enough detail lists.  Each promise is made for one of them that is to make one, and if
    the run succeeds, one for each.  All marks are those that they queue, in this order.  A slot in
    which consumed calls are kept answers each of them with its place, so a mark that is left there
    never matches a later call, whatever tells the calls of the program apart. -/
theorem marks_of_unconsumed_calls (source : Option String) (limit : Nat) (log : Log) :
    (∀ (call : Invoke) (place : Position) (callee : Expr) (maker : Maker) (args : List Expr)
        (line : Nat) (before after : Machine) (v : Value),
      CallShape.ofCallee callee = .promise maker →
      eval call place.consumes (.call callee args line) before = .ok v after →
      ∃ c : Making, c.toVisit = ⟨place, callee, args, line⟩ ∧ c.after = after ∧
        v = .promise c.promise ∧ ∃ log, evalAll call args (before.logged log) =
          .ok c.values c.before) ∧
    (∀ c : Making, c.after.marks = c.before.marks ++ c.owned ∧ c.owned.length =
      if c.place = .elsewhere ∧ c.after.stateAt c.promise ≠ .pending then 1 else 0) ∧
    ∃ (visits : List Visit) (makings : List Making),
      let r := generate source (Machine.start limit log)
      (∀ v ∈ visits, ∃ p, readProgram source = .ok p ∧ p.HasSite v.place v.call) ∧
      (3 ≤ log.level → (final r).log.calls = log.calls ++ visits.map Visit.call) ∧
      Accounts makings visits r ∧ (final r).marks = makings.flatMap Making.owned ∧
      ∀ (ι : Type) [DecidableEq ι] (visit : ι → Visit) (calls : List ι), calls.map visit = visits →
        Slot.answers visit none calls = (visits.filter Visit.makes).map (·.place.consumes) := by
  refine ⟨fun _ _ _ _ _ _ _ _ _ => eval_making,
    fun c => ⟨congrArg Prod.fst c.owned_exact.1, c.owned_exact.2⟩, ?_⟩
  obtain ⟨visits, makings, htrace⟩ := generate_trace source limit log
  refine ⟨visits, makings, htrace.sites, fun hlevel => ?_, htrace.accounts, htrace.traces.marks, ?_⟩
  · have hcalls := htrace.traces.calls
    rwa [if_pos (show 3 ≤ (Machine.start limit log).log.level from hlevel)] at hcalls
  · rintro ι _ visit calls rfl
    exact Slot.answers_eq visit calls none (by simp)

/-- A call in the arguments of another one owns its mark, and what a method is called on owns
    none. -/
example :
    let source := "Promise.all([Promise.resolve(1), 2]); " ++
      "Promise.resolve(3).then(x => Promise.reject(x))"
    (final (generate (some source) (Machine.start 100 {}))).microtasks.toList.map (·.kind) =
      ["settle", "settle", "then", "settle"] := by
  decide +kernel

end EventLoop
