/-
  Promise chains as they are written, and how a link of one is evaluated.

  A chain is a call that makes a promise, with links behind it (`linked`).  `chainFrom` finds just
  these, up to the number of calls it looks at (`chainFrom_linked`, `linked_of_chainFrom`).  A link
  is evaluated after what it stands behind, and none of its arguments is (`eval_behind`).  It finds
  its receiver in the state that the chain says or, behind a long one, in the receiver's own
  (`receiverState_of_chain`, `receiverState_of_long`).  Then it is passed over, or its reaction is
  placed (`addLink_cases`, `attach_promise`).
-/
import EventLoop.Proofs.Action
import Mathlib.Data.List.Induction

namespace EventLoop

open Script

variable {l : Link} {state : PromiseState} {name : String} {id line : Nat} {v : Value} {e : Expr}

/-! ## Written chains -/

/-- A link as it is written: with its arguments, and the lines of the method and of the call. -/
structure LinkCall where
  link : Link
  args : List Expr
  memberLine : Nat
  line : Nat

/-- The link, written behind an expression. -/
def LinkCall.behind (k : LinkCall) (e : Expr) : Expr :=
  .call (.member e k.link.method k.memberLine) k.args k.line

/-- Links, written behind an expression one after the other. -/
def linked (e : Expr) (ks : List LinkCall) : Expr := ks.foldl (fun e k => k.behind e) e

@[simp] theorem linked_nil (e : Expr) : linked e [] = e := rfl

@[simp] theorem linked_snoc (e : Expr) (ks : List LinkCall) (k : LinkCall) :
    linked e (ks ++ [k]) = k.behind (linked e ks) := by
  simp [linked]

/-- An expression that is a call that makes a promise. -/
def Script.Expr.MakesPromise (e : Expr) : Prop :=
  ∃ callee args line maker, e = .call callee args line ∧ CallShape.ofCallee callee = .promise maker

@[simp] theorem ofCallee_member (e : Expr) (l : Link) (line : Nat) :
    CallShape.ofCallee (.member e l.method line) = .link l := by
  cases l <;> cases e <;>
    simp [CallShape.ofCallee, CallShape.ofNamedMethod, CallShape.ofMethod, Link.method]

theorem ofMethod_eq_link (h : CallShape.ofMethod name = .link l) : name = l.method := by
  simp only [CallShape.ofMethod] at h
  repeat' split at h
  all_goals cases h
  all_goals assumption

theorem method_of_ofCallee (h : CallShape.ofCallee (.member e name line) = .link l) :
    name = l.method := by
  cases e with
  | ident target _ =>
    simp only [CallShape.ofCallee, CallShape.ofNamedMethod] at h
    repeat' split at h
    all_goals first | exact ofMethod_eq_link h | cases h
  | _ => exact ofMethod_eq_link h

/-- A chain is followed down to its root, if it is not too long. -/
theorem chainFrom_linked {root : Expr} (hroot : root.MakesPromise) (ks : List LinkCall)
    (hops : Nat) (links : List Link) : chainFrom hops links (linked root ks) =
      if ks.length < hops then some ⟨root, ks.map (·.link) ++ links⟩ else none := by
  induction ks using List.reverseRecOn generalizing hops links with
  | nil =>
    obtain ⟨callee, args, line, maker, rfl, hmaker⟩ := hroot
    cases hops with
    | zero => rfl
    | succ hops => simp [chainFrom, hmaker]
  | append_singleton ks k ih =>
    cases hops with
    | zero => rfl
    | succ hops =>
      simp only [linked_snoc, LinkCall.behind, chainFrom, ofCallee_member, ih,
        List.length_append, List.length_singleton, Nat.add_lt_add_iff_right, List.map_append,
        List.map_cons, List.map_nil, List.append_assoc, List.singleton_append]

theorem linked_of_chainFrom {hops : Nat} {links : List Link} {chain : Chain}
    (h : chainFrom hops links e = some chain) :
    chain.root.MakesPromise ∧ ∃ ks, e = linked chain.root ks ∧
      chain.links = ks.map (·.link) ++ links ∧ ks.length < hops := by
  induction hops generalizing links e with
  | zero => cases h
  | succ hops ih =>
    cases e with
    | call callee args line =>
      simp only [chainFrom] at h
      split at h
      · rename_i hmaker
        cases h
        exact ⟨⟨_, args, line, _, rfl, hmaker⟩, [], rfl, rfl, Nat.succ_pos _⟩
      · rename_i l target name memberLine hlink
        obtain ⟨hroot, ks, rfl, hlinks, hlen⟩ := ih h
        refine ⟨hroot, ks ++ [⟨l, args, memberLine, line⟩], ?_, ?_, ?_⟩
        · rw [linked_snoc, LinkCall.behind, ← method_of_ofCallee hlink]
        · simp [hlinks]
        · simpa using hlen
      · cases h
    | _ => cases h

/-- A call of `Promise.resolve`, `Promise.reject` or `Promise.all`. -/
inductive Script.Expr.CallsPromise : Expr → Prop
  | mk (maker : Maker) (args : List Expr) (targetLine memberLine line : Nat) :
      CallsPromise (.call (.member (.ident "Promise" targetLine) maker.method memberLine) args line)

/-- Nothing else makes a promise: not a link behind the name `Promise`, and not a method of that
    name behind anything else. -/
theorem makesPromise_iff : e.MakesPromise ↔ e.CallsPromise := by
  constructor
  · rintro ⟨callee, args, line, maker, rfl, hmaker⟩
    unfold CallShape.ofCallee at hmaker
    split at hmaker
    all_goals try simp only [CallShape.ofName, CallShape.ofNamedMethod, CallShape.ofMethod,
      Bool.and_eq_true, decide_eq_true_eq] at hmaker
    all_goals repeat' split at hmaker
    all_goals cases hmaker
    -- the three ways to make a promise are left
    all_goals
      rename_i h
      obtain ⟨rfl, rfl⟩ := h
      first | exact .mk .resolve .. | exact .mk .reject .. | exact .mk .all ..
  · rintro ⟨maker, args, targetLine, memberLine, line⟩
    exact ⟨_, args, line, maker, rfl, by cases maker <;> rfl⟩

/-- A chain is found exactly if it is not too long.  Below the last of some links behind a call that
    makes a promise, that call is found with the links in between, first one first, if at most
    `hops` calls stand below.  Below a call whose receiver is nothing of the kind, however many links
    that receiver ends in, nothing is found. -/
theorem chainBelow_exact (hops : Nat) (callee : Expr) (args : List Expr) (line : Nat) :
    (∀ root ks, root.CallsPromise → ks ≠ [] → .call callee args line = linked root ks →
      chainBelow hops callee =
        if ks.length ≤ hops then some ⟨root, ks.dropLast.map (·.link)⟩ else none) ∧
    ((∀ root ks name memberLine, root.CallsPromise →
        callee ≠ .member (linked root ks) name memberLine) →
      chainBelow hops callee = none) := by
  constructor
  · intro root ks hroot hks hcall
    cases ks using List.reverseRecOn with
    | nil => exact absurd rfl hks
    | append_singleton ks k =>
      -- the last link is the call itself, so one link fewer stands below it
      rw [linked_snoc, LinkCall.behind] at hcall
      cases hcall
      rw [chainBelow, chainFrom_linked (makesPromise_iff.2 hroot)]
      rw [List.length_append, List.length_singleton, List.dropLast_concat, List.append_nil]
      rfl
  · intro hnone
    cases callee with
    | member target name memberLine =>
      cases hchain : chainFrom hops [] target with
      | none => exact hchain
      | some chain =>
        obtain ⟨hroot, ks, htarget, -⟩ := linked_of_chainFrom hchain
        exact absurd (congrArg (Expr.member · name memberLine) htarget)
          (hnone chain.root ks name memberLine (makesPromise_iff.1 hroot))
    | _ => rfl

/-- A promise chain as it is written: a call that makes a promise, and the links behind it. -/
structure WrittenChain where
  maker : Maker
  callee : Expr
  args : List Expr
  line : Nat
  links : List LinkCall
  shape : CallShape.ofCallee callee = .promise maker

namespace WrittenChain

/-- The call that the chain starts with. -/
def root (c : WrittenChain) : Expr := .call c.callee c.args c.line

/-- The whole chain. -/
def expr (c : WrittenChain) : Expr := linked c.root c.links

theorem root_makesPromise (c : WrittenChain) : c.root.MakesPromise :=
  ⟨c.callee, c.args, c.line, c.maker, rfl, c.shape⟩

theorem expr_eq_call (c : WrittenChain) : ∃ callee args line, c.expr = .call callee args line := by
  rw [expr]
  cases c.links using List.reverseRecOn with
  | nil => exact ⟨_, _, _, rfl⟩
  | append_singleton ks k =>
    rw [linked_snoc]
    exact ⟨_, _, _, rfl⟩

/-- The chain that an expression is. -/
def ofExpr? : Expr → Option WrittenChain
  | .call (.member target name memberLine) args line =>
    match h : CallShape.ofCallee (.member target name memberLine) with
    | .promise maker => some { maker, callee := _, args, line, links := [], shape := h }
    | .link l => (ofExpr? target).map fun c =>
      { c with links := c.links ++ [{ link := l, args, memberLine, line }] }
    | _ => none
  | _ => none

theorem expr_of_ofExpr? {c : WrittenChain} (h : ofExpr? e = some c) : c.expr = e := by
  fun_induction ofExpr? e generalizing c with
  | case1 =>
    cases h
    rfl
  | case2 target name memberLine args line l hlink ih =>
    obtain ⟨c, hc, rfl⟩ := Option.map_eq_some_iff.1 h
    rw [expr, linked_snoc, LinkCall.behind, ← method_of_ofCallee hlink]
    exact congrArg (fun e => Expr.call (.member e name memberLine) args line) (ih hc)
  | case3 => cases h
  | case4 => cases h

/-- The chain that a statement is. -/
def ofStmt? : Stmt → Option WrittenChain
  | .expr e _ => ofExpr? e
  | _ => none

theorem eq_expr_of_ofStmt? {s : Stmt} {c : WrittenChain} (h : ofStmt? s = some c) :
    ∃ line, s = .expr c.expr line := by
  cases s with
  | expr e line => exact ⟨line, by rw [expr_of_ofExpr? h]⟩
  | _ => cases h

end WrittenChain

/-! ## The state that a chain says -/

theorem chainState_snoc (state : PromiseState) (links : List Link) (l : Link) :
    chainState state (links ++ [l]) = chainState (chainState state links) [l] := by
  simp [chainState]

theorem chainState_of_not_runs (h : l.runs state = false) : chainState state [l] = state := by
  cases l <;> cases state <;> first | rfl | cases h

/-- The settlement behind a link that runs is in the state that the chain says. -/
theorem Link.settlement_state (h : l.runs state = true) (value result : Value) :
    (l.settlement state value result).1 = chainState state [l] := by
  cases l <;> cases state <;> cases h <;> rfl

theorem chainState_ne_pending (h : state ≠ .pending) (links : List Link) :
    chainState state links ≠ .pending := by
  induction links generalizing state with
  | nil => exact h
  | cons l links ih =>
    refine ih ?_
    dsimp only
    split
    · exact PromiseState.noConfusion
    · exact h

theorem chainState_pending (links : List Link) : chainState .pending links = .pending := by
  induction links with
  | nil => rfl
  | cons l links ih => simpa [chainState] using ih

/-! ## Evaluation of a link -/

/-- The number of a value that is a promise. -/
def Value.promise? : Value → Option Nat
  | .promise id => some id
  | _ => none

theorem Value.promise?_eq_some : v.promise? = some id ↔ v = .promise id := by
  cases v <;> simp [promise?]

/-- A promise by its number, as `Run.promiseOf` gives it. -/
def promiseAt (ps : Array Promise) (id : Nat) : Promise := ps[id]?.getD { state := .fulfilled }

theorem promiseAt_of_getElem? {ps : Array Promise} {p : Promise} (h : ps[id]? = some p) :
    promiseAt ps id = p := by
  rw [promiseAt, h, Option.getD_some]

theorem getElem?_of_pending {ps : Array Promise} (h : (promiseAt ps id).state = .pending) :
    ps[id]? = some (promiseAt ps id) := by
  rw [promiseAt] at h ⊢
  cases hp : ps[id]? with
  | none =>
    rw [hp] at h
    cases h
  | some p => rfl

namespace Run

variable {m m' : Machine} {callback : Option Expr} {callee : Expr}

theorem promiseOf_apply (id : Nat) (m : Machine) :
    promiseOf id m = .ok (promiseAt m.promises id) m := rfl

/-- What a link stands behind is evaluated first, as something that is consumed. -/
theorem eval_behind (call : Invoke) (consumed : Bool) (k : LinkCall) (e : Expr) (m : Machine) :
    ∃ log, eval call consumed (k.behind e) m = (do
      let receiver ← eval call true e
      addLink k.link (.member e k.link.method k.memberLine) k.args.head? receiver k.line :
        Run Value)
        (m.logged log) := by
  simp only [LinkCall.behind, eval, bind_apply, note_apply, ofCallee_member, evalTarget]
  exact ⟨_, rfl⟩

theorem receiverState_of_chain {chain : Chain} (h : chainBelow maxChainHops callee = some chain)
    (receiver : Value) (m : Machine) :
    receiverState callee receiver m = .ok (chainState m.rootState chain.links) m := by
  rw [receiverState, h]
  rfl

theorem receiverState_of_long (h : chainBelow maxChainHops callee = none) (id : Nat) (m : Machine) :
    receiverState callee (.promise id) m = .ok (promiseAt m.promises id).state m := by
  rw [receiverState, h]
  rfl

/-- A link is passed over if it does not apply in the state of its receiver.  If the receiver is
    pending, or if the link applies, it is attached. -/
theorem addLink_cases {receiver : Value} (hstate : receiverState callee receiver m = .ok state m)
    (h : addLink l callee callback receiver line m = .ok v m') :
    (state ≠ .pending ∧ l.runs state = false ∧ v = receiver ∧ ∃ log, m' = m.logged log) ∨
    ((state = .pending ∨ l.runs state = true) ∧ ∃ shown log derived, v = .promise derived ∧
      attach ("Promise." ++ l.method) l callback state receiver ((m.emitted shown).logged log) =
        .ok derived m') := by
  rw [addLink, bind_of_ok hstate] at h
  by_cases hskip : state ≠ .pending ∧ l.runs state = false
  · obtain ⟨hsettled, hruns⟩ := hskip
    simp only [ne_eq, hsettled, not_false_eq_true, decide_true, hruns, Bool.not_false,
      Bool.and_self, if_true, bind_apply, note_apply, pure_apply, EStateM.Result.ok.injEq] at h
    exact .inl ⟨hsettled, hruns, h.1.symm, _, h.2.symm⟩
  · have hkeep : (decide (state ≠ .pending) && !l.runs state) = false := by
      rw [Bool.eq_false_iff]
      simpa using hskip
    refine .inr ⟨?_, ?_⟩
    · rw [Decidable.not_and_iff_or_not, Decidable.not_not, Bool.not_eq_false] at hskip
      exact hskip
    · rw [hkeep, if_neg Bool.false_ne_true] at h
      rcases emitAll_cases (.highlight line) [.push ("Promise." ++ l.method ++ "()"), .pop] m with
        ⟨_, log, he⟩ | ⟨log, part, _, he⟩
      · rw [bind_of_ok he] at h
        obtain ⟨derived, m1, hattach, hv⟩ := bind_eq_ok h
        cases hv
        exact ⟨_, log, derived, rfl, hattach⟩
      · rw [bind_of_error he] at h
        cases h

/-- An attached link waits for a promise that is pending.  For any other one it is queued. -/
theorem attach_promise {derived : Nat}
    (h : attach name l callback state (.promise id) m = .ok derived m') :
    derived = m.promises.size ∧ ∃ log,
      let new := m.withPromise .pending .undefined
      let w : Waiter := { name, scope := m.scope, reaction := .link l callback m.promises.size }
      ((promiseAt new.promises id).state = .pending ∧ m' = (new.parked id w).logged log) ∨
      ((promiseAt new.promises id).state ≠ .pending ∧
        m' = (new.queued name m.scope (some w.reaction) state
          (promiseAt new.promises id).value).logged log) := by
  have hnew : newPromise .pending .undefined m =
      .ok m.promises.size (m.withPromise .pending .undefined) := rfl
  simp only [attach, bind_apply, get_apply, hnew, react, promiseOf_apply] at h
  split at h
  · rename_i m1 hm1
    cases h
    refine ⟨rfl, ?_⟩
    split at hm1
    · rename_i hpending
      cases hm1
      exact ⟨_, .inl ⟨hpending, rfl⟩⟩
    · rename_i hpending
      cases hm1
      exact ⟨_, .inr ⟨hpending, rfl⟩⟩
  · cases h

theorem attach_rootState {receiver : Value} {derived : Nat}
    (h : attach name l callback state receiver m = .ok derived m') :
    m'.rootState = m.rootState := by
  obtain ⟨m'', h', hplaced⟩ := attach_placed name l callback state receiver m
  rw [h'] at h
  cases h
  cases hplaced <;> rfl

theorem makePromise_promise {maker : Maker} {consumed : Bool} {vs : List Value}
    (h : makePromise maker consumed vs line m = .ok v m') :
    ∃ id, v = .promise id ∧ (promiseAt m'.promises id).state = m'.rootState := by
  rw [makePromise] at h
  obtain ⟨_, m1, _, h⟩ := bind_eq_ok h
  obtain ⟨id, m2, _, h⟩ := bind_eq_ok h
  obtain ⟨p, m3, hp, h⟩ := bind_eq_ok h
  obtain ⟨_, m4, hroot, h⟩ := bind_eq_ok h
  cases hp
  cases hroot
  split at h <;> cases h <;> exact ⟨id, rfl, rfl⟩

theorem eval_root {call : Invoke} {consumed : Bool} {root : Expr} (hroot : root.MakesPromise)
    (h : eval call consumed root m = .ok v m') :
    ∃ id, v = .promise id ∧ (promiseAt m'.promises id).state = m'.rootState := by
  obtain ⟨callee, args, line, maker, rfl, hmaker⟩ := hroot
  simp only [eval, hmaker] at h
  obtain ⟨_, m1, _, h⟩ := bind_eq_ok h
  obtain ⟨vs, m2, _, h⟩ := bind_eq_ok h
  exact makePromise_promise h

/-- The callback of a link is called if it is a function. -/
theorem callLink_inv {name : String} {scope : Scope} {l : Link} {callback : Option Expr}
    {value : Value} {r : Option Value} (h : callLink name scope l callback value m = .ok r m') :
    (r = none ∧ ∀ e ∈ callback, ∀ f m1, resolveCallback e scope m ≠ .ok (some f) m1) ∨
    ∃ e f m1 result, callback = some e ∧ r = some result ∧
      resolveCallback e scope m = .ok (some f) m1 ∧
      callBack f (l.arguments value) (callbackLabel e (name ++ " callback")) m1 =
        .ok result m' := by
  cases callback with
  | none =>
    cases h
    exact .inl ⟨rfl, nofun⟩
  | some e =>
    rw [callLink] at h
    obtain ⟨f, m1, hresolve, h⟩ := bind_eq_ok h
    cases f with
    | none =>
      obtain ⟨_, m2, _, h⟩ := bind_eq_ok h
      cases h
      refine .inl ⟨rfl, fun e' he f m2 hf => ?_⟩
      cases he
      cases hresolve.symm.trans hf
    | some f =>
      obtain ⟨result, m2, hcall, h⟩ := bind_eq_ok h
      cases h
      exact .inr ⟨e, f, m1, result, rfl, rfl, hresolve, hcall⟩

theorem runLink_state {name : String} {scope : Scope} {l : Link} {callback : Option Expr}
    {state state' : PromiseState} {value value' : Value} {m m' : Machine}
    (h : runLink name scope l callback state value m = .ok (state', value') m')
    (hruns : l.runs state = true) (hcatch : l = .catchLink →
      ∃ e ∈ callback, ∃ g m1, resolveCallback e scope m = .ok (some g) m1) :
    state' = chainState state [l] := by
  obtain ⟨r, m1, hcall, h⟩ := bind_eq_ok h
  rcases callLink_inv hcall with ⟨rfl, hnone⟩ | ⟨e, f, m2, result, _, rfl, _⟩
  · -- without a function the state is handed on, which is as foreseen but for a `catch`
    cases h
    cases l with
    | catchLink =>
      obtain ⟨e, he, g, m2, hg⟩ := hcatch rfl
      exact absurd hg (hnone e he g m2)
    | thenLink | finallyLink => rfl
  · obtain ⟨v, m3, _, h⟩ := bind_eq_ok h
    have hsettlement : l.settlement state value v = (state', value') :=
      (EStateM.Result.ok.inj h).1
    rw [← Link.settlement_state hruns value v, hsettlement]

end Run

end EventLoop
