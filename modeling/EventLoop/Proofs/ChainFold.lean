/-
  A promise chain runs the callbacks that a fold over its links says.

  `chainCalls` goes through the links of a chain with a state and a value, and is told what the
  callbacks return.  Which links run is decided twice: when a link is added, by what the chain says
  in its text, and when its receiver is settled.  The fold does not see the links that are left out
  in the first place (`chainCalls_of_thins`), nor those that are passed over later
  (`chainCalls_dropWhile`), so it says the same of the links that are attached, and these have
  their turns one after the other (`Relayed.map_calls`).
-/
import EventLoop.Proofs.Launch

namespace EventLoop

open Script

/-! ## The fold -/

/-- The calls of a chain over a settlement, each as a callback with its arguments, given what the
    callbacks return one after the other.  It stops at a call whose result is not given. -/
def chainCalls : PromiseState → Value → List (Link × Option Expr) → List Value →
    List (Option Expr × List Value)
  | _, _, [], _ => []
  | .fulfilled, value, (.thenLink, callback) :: links, results
  | .rejected, value, (.catchLink, callback) :: links, results =>
    (callback, [value]) ::
      match results with
      | [] => []
      | result :: results => chainCalls .fulfilled result links results
  | state, value, (.finallyLink, callback) :: links, results =>
    (callback, []) ::
      match results with
      | [] => []
      | _ :: results => chainCalls state value links results
  | state, value, _ :: links, results => chainCalls state value links results

section

variable {l : Link} {state : PromiseState} (value : Value) (callback : Option Expr)
  (links : List (Link × Option Expr))

theorem chainCalls_of_runs (h : l.runs state = true) (result : Value) (results : List Value) :
    chainCalls state value ((l, callback) :: links) (result :: results) =
      (callback, l.arguments value) :: chainCalls (l.settlement state value result).1
        (l.settlement state value result).2 links results := by
  cases l <;> cases state <;> cases h <;> rfl

theorem chainCalls_of_runs_last (h : l.runs state = true) :
    chainCalls state value ((l, callback) :: links) [] = [(callback, l.arguments value)] := by
  cases l <;> cases state <;> cases h <;> rfl

theorem chainCalls_of_not_runs (h : l.runs state = false) (results : List Value) :
    chainCalls state value ((l, callback) :: links) results =
      chainCalls state value links results := by
  cases l <;> cases state <;> cases h <;> rfl

end

/-- A link of a chain, for the fold. -/
def LinkCall.step (k : LinkCall) : Link × Option Expr := (k.link, k.args.head?)

theorem chainCalls_of_thins {state : PromiseState} {ks as : List LinkCall} (h : Thins state ks as)
    (value : Value) (results : List Value) : chainCalls state value (ks.map LinkCall.step) results =
      chainCalls state value (as.map LinkCall.step) results := by
  induction h generalizing value results with
  | nil => rfl
  | @keep state k ks as _ ih =>
    rw [List.map_cons, List.map_cons, LinkCall.step]
    cases hruns : k.link.runs state with
    | false =>
      rw [chainState_of_not_runs hruns] at ih
      rw [chainCalls_of_not_runs _ _ _ hruns, chainCalls_of_not_runs _ _ _ hruns, ih]
    | true =>
      cases results with
      | nil => rw [chainCalls_of_runs_last _ _ _ hruns, chainCalls_of_runs_last _ _ _ hruns]
      | cons result results =>
        rw [chainCalls_of_runs _ _ _ hruns, chainCalls_of_runs _ _ _ hruns,
          Link.settlement_state hruns, ih]
  | drop hruns _ ih => rw [List.map_cons, LinkCall.step, chainCalls_of_not_runs _ _ _ hruns, ih]

/-! ## The turns of a chain -/

/-- The link that a reaction carries out. -/
def Waiter.step? (w : Waiter) : Option (Link × Option Expr) :=
  match w.reaction with
  | .link l callback _ => some (l, callback)
  | .resume _ => none

theorem Waiter.step?_of_link {w : Waiter} {l : Link} {callback : Option Expr} {derived : Nat}
    (h : w.reaction = .link l callback derived) : w.step? = some (l, callback) := by
  simp only [step?, h]

theorem filterMap_step?_strung (scope : Scope) (a : Nat) (ks : List LinkCall) :
    (strung scope a ks).filterMap (·.step?) = ks.map LinkCall.step := by
  induction ks generalizing a with
  | nil => rfl
  | cons k ks ih =>
    rw [strung, List.map_cons, ← ih]
    rfl

theorem chainCalls_dropWhile (state : PromiseState) (value : Value) (ws : List Waiter)
    (results : List Value) :
    chainCalls state value ((ws.dropWhile (!·.reaction.runs state)).filterMap (·.step?)) results =
      chainCalls state value (ws.filterMap (·.step?)) results := by
  induction ws with
  | nil => rfl
  | cons w ws ih =>
    cases hruns : w.reaction.runs state with
    | true => rw [List.dropWhile_cons_of_neg (by simp [hruns])]
    | false =>
      rw [List.dropWhile_cons_of_pos (by simp [hruns]), ih]
      cases hw : w.reaction with
      | resume k => rw [List.filterMap_cons_none (by simp only [Waiter.step?, hw])]
      | link l callback derived =>
        rw [hw] at hruns
        rw [List.filterMap_cons_some (Waiter.step?_of_link hw),
          chainCalls_of_not_runs value callback _ hruns]

/-- Links that have their turns one after the other call what the fold says. -/
theorem Relayed.map_calls {ws : List Waiter} {state : PromiseState} {value : Value} {i : Nat}
    {σs : List Serving} (h : Relayed ws state value i σs)
    (hcalls : ∀ σ ∈ σs, ∃ c, σ.call? = some c ∧ c.result.promise? = none) :
    (σs.filterMap (·.call?)).map (fun c => (c.callback, c.args)) =
      chainCalls state value (ws.filterMap (·.step?))
        ((σs.filterMap (·.call?)).map (·.result)) := by
  induction h with
  | nil => rfl
  | @turn w rest state state' value value' i i' σ σs _ hruns hconcludes _ _ _ ih =>
    obtain ⟨c, hc, hresult⟩ := hcalls σ List.mem_cons_self
    have ih := ih fun τ hτ => hcalls τ (List.mem_cons_of_mem σ hτ)
    obtain ⟨l, derived, hw, hargs, hsettlement⟩ := hconcludes.of_call hc hresult
    rw [hw] at hruns
    rw [chainCalls_dropWhile] at ih
    rw [List.filterMap_cons_some hc, List.map_cons, List.map_cons,
      List.filterMap_cons_some (Waiter.step?_of_link hw),
      chainCalls_of_runs value c.callback _ hruns, ← hsettlement, ← ih, hargs]

/-- A promise chain runs the callbacks that it should.  Take a generation that succeeds, and a
    statement of the program that is a chain over a promise made of a value, which runs after the
    statements before it.  In the turn of a link a callback is called with some arguments if
    `Serving.call?` says so, and its body runs with its parameters bound to these.  If the value is no
    promise and each link that has its turn finds a function for its callback, which returns no
    promise, then the callbacks that are called, in order and with their arguments, are those of the
    fold over all links of the chain. -/
theorem chain_runs_folded_calls {g : Generator} {source : Option String} {p : Program} {n : Nat}
    {c : WrittenChain} {line : Nat} {m0 : Machine}
    (hsucceeded : (g.generate source).1.succeeded = true) (hread : readProgram source = .ok p)
    (hstmt : p.body[n]? = some (.expr c.expr line)) (hall : c.maker ≠ .all)
    (hfirst : Run.walkFirst n source (Machine.start g.limit g.machine.log) = .ok .completed m0) :
    ∃ log vs mv m1,
      Run.withCalls (fun call => Run.evalAll call c.args) (m0.logged log) = .ok vs mv ∧
      Run.executeNode (.stmt (.expr c.expr line)) m0 = .ok .completed m1 ∧
      let servings := g.linkServings source (mv.madeBetween m1)
      let calls := servings.filterMap (·.call?)
      (∀ σ ∈ servings, ∀ r, σ.call? = some r ↔ σ.Calls r) ∧
      ((vs.headD .undefined).promise? = none →
        (∀ σ ∈ servings, ∃ r, σ.call? = some r ∧ r.result.promise? = none) →
          calls.map (fun r => (r.callback, r.args)) =
            chainCalls c.maker.state (vs.headD .undefined) (c.links.map LinkCall.step)
              (calls.map (·.result))) := by
  obtain ⟨m, log, hrun, -, -, -⟩ := Generator.generate_succeeded hsucceeded
  obtain ⟨hbounded, hcursor, hsource⟩ := Run.walkFirst_inv hread hfirst
  obtain ⟨outcome, m2, m3, later, hwalk, -, hservings, hchains⟩ := Run.servings_split hrun
  -- the chain is the next statement
  obtain ⟨hn, hget⟩ := List.getElem?_eq_some_iff.1 hstmt
  rw [hsource, List.drop_eq_getElem_cons hn, hget] at hwalk
  obtain ⟨first, m1, hexec, hrest⟩ := Run.execAll_cons_of_ok hwalk
  obtain ⟨rfl, log', vs, mv, hargs, hlaunch⟩ :=
    Run.launch hall hbounded (by rw [hcursor]; exact Nat.zero_le _) hexec
  refine ⟨log', vs, mv, m1, hargs, hexec, Generator.calls_of_succeeded hsucceeded,
    fun hvalue hcalls => ?_⟩
  obtain ⟨as, i, hthins, -, -, hafloat⟩ := hlaunch hvalue
  obtain ⟨hlater, hrelayed⟩ := hchains _ _ _ _ _ (Run.afloat_execAll hafloat (hrest rfl))
  rw [Generator.linkServings_eq hsucceeded hservings hlater] at hcalls ⊢
  rw [chainCalls_of_thins hthins, ← filterMap_step?_strung]
  exact hrelayed.map_calls hcalls

/-- The integer that an expression is. -/
def Script.Expr.int? : Expr → Option Int
  | .literal (.number (.int n)) _ => some n
  | _ => none

theorem Run.evalAll_int {call : Invoke} {args : List Expr} {n : Int}
    (h : args.map (·.int?) = [some n]) (m : Machine) : evalAll call args m = .ok [.int n] m := by
  obtain ⟨e, rfl, he⟩ := List.map_eq_singleton_iff.1 h
  unfold Expr.int? at he
  split at he
  · cases he
    rfl
  · cases he

/-- The first `then` is left out, and what `catch` returns gets past `finally`. -/
theorem chain_runs_folded_calls_recovered :
    let source :=
      some "Promise.reject(5).then(a => a).catch(e => e + 1).finally(() => 9).then(x => x)"
    let g := Generator.new 100 0
    let calls := (g.linkServings source (· < 4)).filterMap (·.call?)
    (g.generate source).1.succeeded = true ∧ calls.map (·.args.length) = [1, 0, 1] ∧
    (∀ σ ∈ g.linkServings source (· < 4), ∃ r, σ.Calls r) ∧
    ∃ c : WrittenChain, c.links.map (·.link) = [.thenLink, .catchLink, .finallyLink, .thenLink] ∧
      calls.map (fun r => (r.callback, r.args)) =
        chainCalls .rejected (.int 5) (c.links.map LinkCall.step) (calls.map (·.result)) := by
  intro source g calls
  have hsucceeded : (g.generate source).1.succeeded = true := by decide +kernel
  refine ⟨hsucceeded, by decide +kernel, ?_⟩
  have hservings : ∀ σ ∈ g.linkServings source (· < 4),
      ∃ r, σ.call? = some r ∧ r.result.promise? = none := by
    have hall : (g.linkServings source (· < 4)).all
        (·.call?.any (·.result.promise?.isNone)) = true := by decide +kernel
    simpa [List.all_eq_true, Option.any_eq_true] using hall
  obtain ⟨p, m0, hopen, h⟩ := @Run.succeeds_inv _ (Run.openSource source) (fun p m0 =>
      m0.promises.size == 0 && p.body[0]?.any fun s => (WrittenChain.ofStmt? s).any fun c =>
        c.maker == .reject && c.args.map (·.int?) == [some 5] &&
        c.links.map (·.link) == [.thenLink, .catchLink, .finallyLink, .thenLink] &&
        Run.succeeds (Run.executeNode (.stmt s)) (fun _ m1 => m1.promises.size == 4) m0)
    (.start g.limit g.machine.log) (by decide +kernel)
  simp only [Bool.and_eq_true, beq_iff_eq, Option.any_eq_true] at h
  obtain ⟨hsize, s, hs, c, hc, ⟨⟨hmaker, hargs⟩, hlinks⟩, hexec⟩ := h
  obtain ⟨line, rfl⟩ := WrittenChain.eq_expr_of_ofStmt? hc
  obtain ⟨outcome, m1, hexec, hsize1⟩ := Run.succeeds_inv hexec
  obtain ⟨log, vs, mv, m1', hvalues, hexec', hfold⟩ := chain_runs_folded_calls hsucceeded
    (Run.openSource_inv hopen).1 hs (by rw [hmaker]; decide) (Run.walkFirst_zero hopen)
  cases hexec.symm.trans hexec'
  cases (Run.evalAll_int hargs _).symm.trans hvalues
  rw [beq_iff_eq] at hsize1
  have hown : (m0.logged log).madeBetween m1 = fun d => decide (d < 4) := by
    funext d
    rw [Machine.madeBetween, between, hsize1, Machine.logged, hsize,
      decide_eq_true (Nat.zero_le d), Bool.true_and]
  rw [hown, hmaker] at hfold
  refine ⟨fun σ hσ => ?_, c, hlinks, hfold.2 rfl hservings⟩
  obtain ⟨r, hr, _⟩ := hservings σ hσ
  exact ⟨r, (hfold.1 σ hσ r).1 hr⟩

end EventLoop
