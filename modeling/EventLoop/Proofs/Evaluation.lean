/-
  Every evaluation of an expression is a walk.

  `Leads` relates a state to the result of an action that started in it: there is a walk between
  them, whose ending is read off the result.  `Walks` is the case of an action that leads to a
  result from every state and is never suspended; expressions, built-in calls and calls of functions
  are of this kind.

  The elementary actions and the built-in calls come first, then expressions.  The proof about
  expressions follows the program text, as evaluation does, and takes the way in which functions are
  called as a parameter with a property (`CallsWalk`).
-/
import EventLoop.Machine.Reaction
import EventLoop.Proofs.Congruence
import EventLoop.Proofs.Walk

namespace EventLoop

open Script

universe u

variable {α β : Type} {tame : Bool} {depth : Nat} {act : Run α} {m : Machine} {f : α → Run β}

/-- The result of an action that started in `m` is at the end of a walk from there.  The ending of
    the walk is that of the result. -/
inductive Machine.Leads (tame : Bool) (depth : Nat) (e : α → Ending) (m : Machine) :
    EStateM.Result Fault Machine α → Prop
  | ok {a : α} {m' : Machine} (h : m.Walk tame depth (e a) m') : Leads tame depth e m (.ok a m')
  | error {fault : Fault} {m' : Machine} (h : m.Walk tame depth .failed m') :
      Leads tame depth e m (.error fault m')

namespace Machine

variable {e : α → Ending}

theorem Walk.leads {m' : Machine} {r : EStateM.Result Fault Machine α}
    (h : m.Walk tame depth .done m') (hr : m'.Leads tame depth e r) : m.Leads tame depth e r := by
  cases hr with
  | ok hr => exact .ok (h.trans hr)
  | error hr => exact .error (h.trans hr)

theorem Leads.walk_of_ok {m' : Machine} {r : EStateM.Result Fault Machine α} {a : α}
    (h : m.Leads tame depth e r) (hr : r = .ok a m') : m.Walk tame depth (e a) m' := by
  rw [hr] at h
  cases h with
  | ok hw => exact hw

theorem Leads.bind {e' : β → Ending} (h : m.Leads tame depth e (act m))
    (hf : ∀ a m', m.Walk tame depth (e a) m' → m.Leads tame depth e' (f a m')) :
    m.Leads tame depth e' ((act >>= f) m) := by
  rw [Run.bind_apply]
  cases hact : act m with
  | ok a m' =>
    rw [hact] at h
    cases h with
    | ok hw => exact hf a m' hw
  | error fault m' =>
    rw [hact] at h
    cases h with
    | error hw => exact .error hw

theorem Leads.map {f : α → β} {e' : β → Ending} (h : m.Leads tame depth e (act m))
    (he : ∀ a, e' (f a) = e a) : m.Leads tame depth e' ((f <$> act) m) := by
  rw [← bind_pure_comp]
  exact h.bind fun a m' hw => .ok (he a ▸ hw)

end Machine

namespace Run

theorem reads_rejection (vs : List Value) : Reads (rejection? vs) := by
  induction vs with
  | nil => exact reads_pure none
  | cons v rest ih =>
    cases v with
    | promise id =>
      refine (reads_promiseOf id).bind fun p => ?_
      by_cases hp : p.state = .rejected
      · simpa [hp] using reads_pure (some p.value)
      · simpa [hp] using ih
    | _ => exact ih

/-- Most actions from which expressions without calls are put together only read the state. -/
def CallFreeCongruence.of_reads {R : {α : Type} → Run α → Run α → Sort u}
    (hreads : ∀ {α : Type} {act : Run α}, Reads act → R act act)
    (hbind : ∀ {α β : Type} {act act' : Run α} {f f' : α → Run β}, R act act' →
      (∀ a, R (f a) (f' a)) → R (act >>= f) (act' >>= f'))
    (hnote : ∀ level line, R (Run.note level line) (Run.note level line))
    (hassign : ∀ x v, R (Run.assign x v) (Run.assign x v))
    (harray : ∀ items, R (Run.newArray items) (Run.newArray items))
    (hfunction : ∀ name params body isAsync line scope,
      R (newFunction name params body isAsync line scope)
        (newFunction name params body isAsync line scope)) : CallFreeCongruence R where
  pure a := hreads (reads_pure a)
  bind := hbind
  note := hnote
  lookup x := hreads (reads_lookup x)
  isBound x := hreads (reads_isBound x)
  textOf v := hreads (reads_textOf v)
  tell _ := hbind (hreads reads_get) fun _ => hbind (hreads (reads_lift _)) fun _ => hnote _ _
  applyOp _ _ a b := hreads (reads_applyOp _ a b)
  increment _ := hreads (reads_lift _)
  decrement _ := hreads (reads_lift _)
  assign := hassign
  itemsOf id := hreads (reads_itemsOf id)
  newArray := harray
  settledValue v := hreads (reads_settledValue v)
  close _ _ _ _ _ := hbind (hreads reads_get) fun _ => hbind (hfunction _ _ _ _ _ _) fun _ =>
    hreads (reads_pure _)
  callLabel _ _ := hreads (reads_lift _)

/-- An action that walks from every state, and is done when it gives a result. -/
def Walks (tame : Bool) (depth : Nat) (act : Run α) : Prop :=
  ∀ m : Machine, m.Leads tame depth (fun _ => .done) (act m)

namespace Walks

theorem bind (h : Walks tame depth act) (hf : ∀ a, Walks tame depth (f a)) :
    Walks tame depth (act >>= f) :=
  fun m => (h m).bind fun a m' hw => hw.leads (hf a m')

theorem bind_leads {e : β → Ending} (h : Walks tame depth act)
    (hf : ∀ a m', m.Walk tame depth .done m' → m'.Leads tame depth e (f a m')) :
    m.Leads tame depth e ((act >>= f) m) :=
  (h m).bind fun a m' hw => hw.leads (hf a m' hw)

theorem map (f : α → β) (h : Walks tame depth act) : Walks tame depth (f <$> act) :=
  fun m => (h m).map fun _ => rfl

theorem of_reads (h : Reads act) : Walks tame depth act := by
  intro m
  rcases h m with ⟨a, ha⟩ | ⟨fault, hf⟩
  · rw [ha]
    exact .ok (.refl m)
  · rw [hf]
    exact .error (.fail m)

theorem pure (a : α) : Walks tame depth (pure a : Run α) := of_reads (reads_pure a)

theorem lift (r : Except Fault α) : Walks tame depth (lift r) := of_reads (reads_lift r)

theorem get : Walks tame depth (get : Run Machine) := of_reads reads_get

end Walks

/-! ## Elementary actions -/

theorem walk_logged (m : Machine) (log : Log) : m.Walk tame depth .done (m.logged log) :=
  .move (.data m m.arrays m.functionCount m.rootState m.warnings log)

theorem note_walks (level : Nat) (line : Log.Line) : Walks tame depth (note level line) :=
  fun m => .ok (walk_logged m _)

theorem tell_walks (msg : Message) : Walks tame depth (tell msg) :=
  Walks.get.bind fun _ => (Walks.lift _).bind fun _ => note_walks _ _

theorem warn_walks (text : String) : Walks tame depth (warn text) :=
  fun m => .ok (.move (.data m m.arrays m.functionCount m.rootState _ _))

theorem newArray_walks (items : List Value) : Walks tame depth (newArray items) :=
  fun m => .ok (.move (.data m _ m.functionCount m.rootState m.warnings m.log))

theorem pushItems_walks (id : Nat) (items : List Value) : Walks tame depth (pushItems id items) :=
  fun m => .ok (.move (.data m _ m.functionCount m.rootState m.warnings m.log))

theorem newFunction_walks (name : String) (params : List String) (body : Body) (isAsync : Bool)
    (line : Nat) (scope : Scope) :
    Walks tame depth (newFunction name params body isAsync line scope) :=
  fun m => .ok (.move (.data m m.arrays _ m.rootState m.warnings m.log))

theorem newPromise_walks (state : PromiseState) (value : Value) :
    Walks tame depth (newPromise state value) :=
  fun m => .ok (.move (.promise m state value))

theorem newScope_walks (outer : Scope) (bindings : Bindings) :
    Walks tame depth (newScope outer bindings) :=
  fun m => .ok (.move (.nest m outer bindings))

theorem declare_walks (name : String) (v : Value) : Walks tame depth (declare name v) :=
  fun m => .ok (.move (.declare m name v))

theorem assign_walks (name : String) (v : Value) : Walks tame depth (assign name v) :=
  fun m => .ok (.move (.assign m name v))

theorem declareVariable_walks (name : String) (v : Value) :
    Walks tame depth (declareVariable name v) :=
  (declare_walks name v).bind fun _ => tell_walks _

theorem bindFunction_apply (name : String) (params : List String) (body : Block) (isAsync : Bool)
    (line : Nat) (m : Machine) : bindFunction name params body isAsync line m =
      .ok () (({ m with functionCount := m.functionCount + 1 } : Machine).defined name
        { id := m.functionCount, name, params, body := .block body, scope := m.scope, isAsync,
          line }) := by
  by_cases hscope : m.scope = Scope.global
  · simp [bindFunction, newFunction, declare, Machine.defined, hscope]
  · simp [bindFunction, newFunction, declare, Machine.defined, hscope]

theorem bindFunction_walks (name : String) (params : List String) (body : Block) (isAsync : Bool)
    (line : Nat) : Walks tame depth (bindFunction name params body isAsync line) := by
  intro m
  rw [bindFunction_apply]
  have hdata := Machine.Move.data m m.arrays (m.functionCount + 1) m.rootState m.warnings m.log
  exact .ok ((Machine.Walk.move hdata).trans (.move (.define _ _ _)))

theorem walk_cutShort (m : Machine) {l part : List Step} (log : Log) (hl : ∀ s ∈ l, s.ofCode)
    (hpart : part <+: l) : m.Walk tame depth .failed ((m.emitted part).logged log) := by
  have hslip : (m.emitted part).logged log =
      (m.logged log).slipped part m.timerCount (fun _ => true) := by
    simp [Machine.slipped, Machine.logged, Machine.emitted]
  rw [hslip]
  exact (walk_logged m log).trans
    (.slip _ part _ _ (fun s hs => hl s (hpart.subset hs)) (Nat.le_refl _))

theorem emitAll_walks {s : Step} {l : List Step} (hl : Burst (s :: l)) :
    Walks tame depth (emitAll (s :: l)) := by
  intro m
  rcases emitAll_cases s l m with ⟨hroom, log, h⟩ | ⟨log, part, hpart, h⟩
  · rw [h]
    exact .ok ((Machine.Walk.move (.burst hl hroom)).trans (walk_logged _ log))
  · rw [h]
    exact .error (walk_cutShort m log hl.ofCode hpart)

/-! ## Built-in calls -/

theorem emitAll_singleton (s : Step) : emitAll [s] = emit s := by
  funext m
  rw [emitAll, bind_apply]
  cases emit s m <;> rfl

theorem glance_walks (line : Nat) : Walks tame depth (emit (.glance line)) := by
  rw [← emitAll_singleton]
  exact emitAll_walks (.glance line)

theorem unrecognized_walks (callee : Expr) (line : Nat) :
    Walks tame depth (unrecognized callee line) :=
  (glance_walks line).bind fun _ => (note_walks _ _).bind fun _ => .pure _

theorem consoleLine_walks (method message : String) (line : Nat) :
    Walks tame depth (consoleLine method message line) :=
  (emitAll_walks (.console line _ message)).bind fun _ => (note_walks _ _).bind fun _ => .pure _

theorem addCallback_walks (kind : TimerKind) (callback : Option Expr) (delay line : Nat) :
    Walks tame depth (addCallback kind callback delay line) := by
  intro m
  have hcode : ∀ s ∈ [Step.highlight line, .push (timerLabel kind delay),
      .webapiAdd (m.timerCount + 1) kind.api delay, .pop], s.ofCode := by
    simp [Step.ofCode, Step.highlight, Step.push, Step.pop, Step.webapiAdd]
  rcases emitAll_cases (.highlight line) [.push (timerLabel kind delay),
    .webapiAdd (m.timerCount + 1) kind.api delay, .pop]
    { m with timerCount := m.timerCount + 1 } with ⟨hroom, log, h⟩ | ⟨log, part, hpart, h⟩
  · have hregister : (m.logged log).Move
        ((m.logged log).registered kind callback delay line) :=
      .register kind callback delay line hroom
    simp only [addCallback, bind_apply, modifyGet_apply, h, get_apply, set_apply, pure_apply]
    exact .ok ((walk_logged m log).trans (.move hregister))
  · have hslip : ({ m with timerCount := m.timerCount + 1 }.emitted part).logged log =
        (m.logged log).slipped part (m.timerCount + 1) (fun _ => true) := by
      simp [Machine.slipped, Machine.logged, Machine.emitted]
    simp only [addCallback, bind_apply, modifyGet_apply, h, hslip]
    exact .error ((walk_logged m log).trans
      (.slip _ part _ _ (fun s hs => hcode s (hpart.subset hs)) (Nat.le_succ _)))

theorem registerTimer_walks (kind : TimerKind) (args : List Expr) (line : Nat) :
    Walks tame depth (registerTimer kind args line) :=
  (Walks.lift _).bind fun delay => (addCallback_walks kind args.head? delay line).bind fun _ =>
    (tell_walks _).bind fun _ => .pure _

/-- A callback that is dropped was waiting.  If its step does not fit, it is gone all the same. -/
theorem dropCallback_cases (name : String) (v : Value) (m : Machine) :
    dropCallback name v m = .ok () m ∨
    (∃ cb ∈ m.callbacks, (m.Room 1 ∧ ∃ log, dropCallback name v m =
        .ok () (((m.dropped cb.id).emitted [.webapiRemove cb.id]).logged log)) ∨
      m.Full ∧ dropCallback name v m = .error .stepLimit (m.dropped cb.id)) := by
  cases hfind : m.callbacks.find? (fun cb => namesTimer v cb.id) with
  | none => exact .inl (by simp [dropCallback, hfind])
  | some cb =>
    refine .inr ⟨cb, List.mem_of_find?_eq_some hfind, ?_⟩
    rcases emit_cases (.webapiRemove cb.id) (m.dropped cb.id) with ⟨hroom, log, h⟩ | ⟨hfull, h⟩
    · rw [Machine.dropped] at h
      exact .inl ⟨hroom, log.write 2 (name ++ " #" ++ toString cb.id), by
        simp [dropCallback, hfind, h, Machine.dropped]⟩
    · rw [Machine.dropped] at h
      exact .inr ⟨hfull, by simp [dropCallback, hfind, h, Machine.dropped]⟩

/-- Steps that are emitted before an action fails, by which time a callback may be gone. -/
theorem walk_dropped (m : Machine) (id : Nat) {part : List Step} (log : Log)
    (hpart : ∀ s ∈ part, s.ofCode) :
    m.Walk tame depth .failed (((m.dropped id).emitted part).logged log) :=
  (walk_logged m log).trans (.slip _ part m.timerCount (·.id != id) hpart (Nat.le_refl _))

/-- A callback is dropped if the number is that of one; the call is shown in any case. -/
theorem clearTimer_walks (name : String) (args : List Expr) (line : Nat) (v : Value) :
    Walks tame depth (clearTimer name args line v) := by
  intro m
  rcases emit_cases (.highlight line) m with ⟨hroom1, log1, h1⟩ | ⟨_, h1⟩
  case inr =>
    simp only [clearTimer, bind_apply, h1]
    exact .error (.fail m)
  cases hlabel : callLabel name args with
  | error fault =>
    simp only [clearTimer, bind_apply, h1, hlabel, lift, throw_apply]
    have hcode : ∀ s ∈ [Step.highlight line], s.ofCode := by simp [Step.ofCode, Step.highlight]
    exact .error (walk_cutShort m log1 hcode (List.prefix_refl _))
  | ok label =>
    have hcode : ∀ s ∈ [Step.highlight line, .push label], s.ofCode := by
      simp [Step.ofCode, Step.highlight, Step.push]
    rcases emit_cases (.push label) ((m.emitted [.highlight line]).logged log1) with
      ⟨hroom2, log2, h2⟩ | ⟨_, h2⟩
    case inr =>
      simp only [clearTimer, bind_apply, h1, h2, hlabel, lift, pure_apply]
      exact .error (walk_cutShort m log1 hcode ⟨[.push label], rfl⟩)
    simp only [Machine.emitted_logged, Machine.emitted_emitted, Machine.logged_logged,
      List.cons_append, List.nil_append] at h2
    simp only [clearTimer, bind_apply, h1, h2, hlabel, lift, pure_apply]
    rcases dropCallback_cases name v ((m.emitted [.highlight line, .push label]).logged log2) with
      h3 | ⟨cb, hcb, ⟨hroom3, log3, h3⟩ | ⟨-, h3⟩⟩
    · -- no such callback is waiting, so the call is all that is shown
      rw [h3]
      rcases emit_cases .pop ((m.emitted [.highlight line, .push label]).logged log2) with
        ⟨hroom4, log4, h4⟩ | ⟨_, h4⟩
      · simp only [h4, Machine.emitted_logged, Machine.emitted_emitted, Machine.logged_logged]
        exact .ok ((walk_logged m log4).trans (.move (.burst (.call line label) hroom4.before)))
      · simp only [h4]
        exact .error (walk_cutShort m log2 hcode (List.prefix_refl _))
    · rw [h3]
      -- the callback is gone, and its step was shown
      simp only [Machine.dropped_logged, Machine.dropped_emitted, Machine.emitted_logged,
        Machine.emitted_emitted, Machine.logged_logged, List.cons_append, List.nil_append]
      rcases emit_cases .pop (((m.dropped cb.id).emitted
        [.highlight line, .push label, .webapiRemove cb.id]).logged log3) with
        ⟨hroom4, log4, h4⟩ | ⟨_, h4⟩
      · simp only [h4, Machine.emitted_logged, Machine.emitted_emitted, Machine.logged_logged]
        exact .ok ((walk_logged m log4).trans (.move (.clear line label hcb hroom4.before)))
      · simp only [h4]
        exact .error (walk_dropped m cb.id log3 (by
          simp [Step.ofCode, Step.highlight, Step.push, Step.webapiRemove, Step.dequeue]))
    · rw [h3]
      exact .error (walk_dropped m cb.id log2 hcode)

def walks_makers : MakerCongruence fun act _ => Walks tame depth act where
  toCallFreeCongruence := .of_reads .of_reads .bind note_walks assign_walks newArray_walks
    newFunction_walks
  newPromise := newPromise_walks
  rejection vs := .of_reads (reads_rejection vs)

theorem mark_walks (name : String) (state : PromiseState) (value : Value) :
    Walks tame depth (do enqueue name (← get).scope none state value : Run Unit) := by
  intro m
  obtain ⟨log, h⟩ := enqueue_apply name m.scope none state value m
  simp only [bind_apply, get_apply, h]
  exact .ok (.move (.mark name state value h))

theorem makePromise_walks (maker : Maker) (consumed : Bool) (values : List Value) (line : Nat) :
    Walks tame depth (makePromise maker consumed values line) := by
  refine (emitAll_walks (.call line _)).bind fun _ => ?_
  refine (walks_makers.made maker (values.headD .undefined)).bind fun id => ?_
  refine (Walks.of_reads (reads_promiseOf id)).bind fun p => ?_
  have hroot : Walks tame depth (modify fun m => { m with rootState := p.state } : Run Unit) :=
    fun m => .ok (.move (.data m m.arrays m.functionCount p.state m.warnings m.log))
  refine hroot.bind fun _ => ?_
  by_cases hmark : (!consumed && p.state ≠ .pending) = true
  · simp only [hmark, if_true]
    exact (mark_walks ("Promise." ++ maker.method) p.state p.value).bind fun _ => .pure _
  · simp only [hmark]
    exact .pure _

theorem attach_walks (name : String) (l : Link) (callback : Option Expr) (state : PromiseState)
    (receiver : Value) : Walks tame depth (attach name l callback state receiver) := by
  intro m
  obtain ⟨m', h, _⟩ := attach_placed name l callback state receiver m
  rw [h]
  exact .ok (.move (.attach name l callback state receiver h))

theorem reads_receiverState (callee : Expr) (receiver : Value) :
    Reads (receiverState callee receiver) := by
  unfold receiverState
  cases chainBelow maxChainHops callee with
  | some chain => exact reads_get.bind fun _ => reads_pure _
  | none =>
    cases receiver with
    | promise id => exact (reads_promiseOf id).bind fun _ => reads_pure _
    | _ => exact reads_pure _

theorem addLink_walks (l : Link) (callee : Expr) (callback : Option Expr) (receiver : Value)
    (line : Nat) : Walks tame depth (addLink l callee callback receiver line) := by
  refine (Walks.of_reads (reads_receiverState callee receiver)).bind fun state => ?_
  by_cases hskip : (state ≠ .pending && !l.runs state) = true
  · simp only [hskip, if_true]
    exact (note_walks _ _).bind fun _ => .pure _
  · simp only [hskip]
    exact (emitAll_walks (.call line _)).bind fun _ =>
      (attach_walks _ l callback state receiver).bind fun _ => .pure _

theorem callMethod_walks (callee : Expr) (method : String) (receiver : Value) (args : List Value)
    (line : Nat) : Walks tame depth (callMethod callee method receiver args line) := by
  cases receiver with
  | array id =>
    by_cases hpush : method = "push"
    · simp only [callMethod, hpush, if_true]
      exact (pushItems_walks id args).bind fun _ => (glance_walks line).bind fun _ => .pure _
    · simp only [callMethod, hpush, if_false]
      exact unrecognized_walks callee line
  | _ => exact unrecognized_walks callee line

/-! ## Expressions -/

/-- A way to call functions under which every call walks. -/
def CallsWalk (tame : Bool) (depth : Nat) (call : Invoke) : Prop :=
  ∀ f args label line, Walks tame depth (call f args label line)

variable {call : Invoke}

def walks_congruence : Congruence fun act _ => Walks tame depth act where
  toCallFreeCongruence := walks_makers.toCallFreeCongruence
  registerTimer := registerTimer_walks
  clearTimer := clearTimer_walks
  consoleLine := consoleLine_walks
  makePromise _ _ _ _ := makePromise_walks _ _ _ _
  addLink := addLink_walks
  callMethod := callMethod_walks
  unrecognized := unrecognized_walks

theorem hoist_walks (stmts : List Stmt) : Walks tame depth (hoist stmts) :=
  hoist_congr walks_congruence.toCallFreeCongruence bindFunction_walks stmts

theorem eval_walks (h : CallsWalk tame depth call) (consumed : Bool) (e : Expr) :
    Walks tame depth (eval call consumed e) := @eval_congr _ call call walks_congruence h consumed e

theorem evalTarget_walks (h : CallsWalk tame depth call) (e : Expr) :
    Walks tame depth (evalTarget call e) := @evalTarget_congr _ call call walks_congruence h e

theorem evalAll_walks (h : CallsWalk tame depth call) (es : List Expr) :
    Walks tame depth (evalAll call es) := @evalAll_congr _ call call walks_congruence h es

end Run

end EventLoop
