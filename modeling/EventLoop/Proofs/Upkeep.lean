/-
  Properties of the state that evaluated code keeps, in the scopes in which it runs.

  A walk (`EventLoop.Proofs.Walk`) does not tell in which scopes code runs.  Here it matters: code
  starts in the current scope, blocks and loops nest a new one in it, and a call nests one in the
  scope in which its function was made.  `Run.Upheld` lists the changes of the state that code makes,
  those of bindings with the scope in which they are made.  A property that each of them keeps is
  kept by every expression, statement and call, whether it succeeds or fails.

  The way in which functions are called can be varied: `Run.invokeVia` answers the calls of some
  functions in another way, at any depth of nesting.
-/
import EventLoop.Proofs.Execution

namespace EventLoop

open Script

variable {α β : Type}

namespace Run

variable {act : Run α} {m : Machine}

/-! ## What code does to the state -/

/-- A property of states that code keeps.  The scopes in which code may run are the `inner` ones, and
    new scopes may be nested in the `outer` ones. -/
structure Upheld (inner outer : Scope → Prop) (P : Machine → Prop) : Prop where
  context : ∀ {m : Machine} (scope : Scope) (frames : List Frame), P m →
    P { m with scope, frames }
  /-- What neither control nor bindings depend on. -/
  data : ∀ {m : Machine} (arrays : Value.Arrays) (registry : List (String × Function))
    (functionCount : Nat) (rootState : PromiseState) (warnings : Array String) (log : Log), P m →
    P { m with arrays, registry, functionCount, rootState, warnings, log }
  nest : ∀ {m : Machine} (scope : Scope) (bindings : Bindings), P m →
    P { m with tables := (m.tables.nest scope bindings).1 }
  emit : ∀ {m : Machine} (s : Step), m.Room 1 → P m → P (m.emitted [s])
  /-- A timer is counted before it is registered, and stays counted if that fails. -/
  count : ∀ {m : Machine}, P m → P { m with timerCount := m.timerCount + 1 }
  register : ∀ {m : Machine} (kind : TimerKind) (callback : Option Expr) (delay line : Nat),
    m.Room 4 → P m → P (m.registered kind callback delay line)
  drop : ∀ {m : Machine} {cb : Callback}, cb ∈ m.callbacks → m.Room 1 → P m →
    P ((m.dropped cb.id).emitted [.webapiRemove cb.id])
  /-- A timer that is cleared is gone also if there is no room for the step that shows it. -/
  lose : ∀ {m : Machine} {cb : Callback}, cb ∈ m.callbacks → m.Full → P m → P (m.dropped cb.id)
  promise : ∀ {m : Machine} (state : PromiseState) (value : Value), P m →
    P (m.withPromise state value)
  attach : ∀ {m m' : Machine} {name : String} {l : Link} {callback : Option Expr}
    {state : PromiseState} {receiver : Value} {derived : Nat},
    attach name l callback state receiver m = .ok derived m' → P m → P m'
  suspend : ∀ {m m' : Machine} {frame : Frame} {value : Value} {target : Target} {k : Nat},
    suspend frame value target m = .ok k m' → P m → P m'
  defer : ∀ {m : Machine} (k : Nat) (stmts : List Stmt), P m → P (m.deferred k stmts)
  /-- A call that started in `m` settles its promise. -/
  settle : ∀ {m m' m'' : Machine} {value : Value},
    settle m.promises.size .fulfilled value m' = .ok () m'' → P m → P m' → P m''
  /-- A name is written to the innermost table, or to one that binds it. -/
  write : ∀ {m : Machine} {id : Nat} {name : String} (v : Value), inner m.scope → P m →
    id = m.scope.headD 0 ∨ id ∈ m.scope ∧ m.tables.binds id name = true →
    P { m with tables := m.tables.write id name v }
  mark : ∀ {m : Machine} (name : String) (state : PromiseState) (value : Value), P m →
    P (m.queued name m.scope none state value)
  /-- A new scope is one in which code may run. -/
  inside : ∀ {m : Machine} {scope : Scope}, outer scope → P m →
    inner (m.tables.entries.size :: scope)
  encloses : ∀ {scope : Scope}, inner scope → outer scope
  renews : ∀ {scope : Scope}, inner scope → outer scope.tail

variable {inner outer : Scope → Prop} {P : Machine → Prop}

theorem Upheld.logged (h : Upheld inner outer P) (log : Log) (hm : P m) : P (m.logged log) :=
  h.data m.arrays m.registry m.functionCount m.rootState m.warnings log hm

/-- Nothing but declarations, assignments and new scopes changes the tables. -/
theorem Upheld.of_tables {Q : Tables → Prop}
    (hwrite : ∀ {t : Tables} {scope : Scope} {id : Nat} {name : String} (v : Value), inner scope →
      Q t → id = scope.headD 0 ∨ id ∈ scope ∧ t.binds id name = true → Q (t.write id name v))
    (hnest : ∀ {t : Tables} (scope : Scope) (bindings : Bindings), Q t → Q (t.nest scope bindings).1)
    (hinside : ∀ {t : Tables} {scope : Scope}, outer scope → Q t → inner (t.entries.size :: scope))
    (hencloses : ∀ {scope : Scope}, inner scope → outer scope)
    (hrenews : ∀ {scope : Scope}, inner scope → outer scope.tail) :
    Upheld inner outer (fun m => Q m.tables) where
  context _ _ := id
  data _ _ _ _ _ _ := id
  write v := hwrite v
  nest := hnest
  emit _ _ := id
  count := id
  register _ _ _ _ _ := id
  drop _ _ := id
  lose _ _ := id
  promise _ _ := id
  mark _ _ _ := id
  attach h hQ := (Machine.attach_aside h).tables ▸ hQ
  suspend h hQ := (suspend_inv h).2.aside.tables ▸ hQ
  defer _ _ := id
  settle h _ hQ := (Machine.aside_of_settle h).tables ▸ hQ
  inside := hinside
  encloses := hencloses
  renews := hrenews

/-- An action that keeps a property and stays in its scope, whatever that is. -/
def Retains (P : Machine → Prop) (act : Run α) : Prop :=
  ∀ m : Machine, P m → P (final (act m)) ∧ (final (act m)).scope = m.scope

/-- An action that keeps a property from the scopes in which code may run, and ends in such a one. -/
def Upholds (inner : Scope → Prop) (P : Machine → Prop) (act : Run α) : Prop :=
  ∀ m : Machine, inner m.scope → P m → P (final (act m)) ∧ inner (final (act m)).scope

namespace Retains

theorem of_reads (h : Reads act) : Retains P act := by
  intro m hP
  rw [h.final_eq]
  exact ⟨hP, rfl⟩

theorem pure (a : α) : Retains P (pure a : Run α) := of_reads (reads_pure a)

theorem bind {f : α → Run β} (h : Retains P act) (hf : ∀ a, Retains P (f a)) :
    Retains P (act >>= f) :=
  fun m hP => final_bind (Q := fun m' => P m' ∧ m'.scope = m.scope) (h m hP) fun a m' hm' =>
    ⟨(hf a m' hm'.1).1, (hf a m' hm'.1).2.trans hm'.2⟩

theorem upholds (h : Retains P act) : Upholds inner P act := by
  intro m hm hP
  obtain ⟨hend, hscope⟩ := h m hP
  exact ⟨hend, hscope ▸ hm⟩

end Retains

namespace Upholds

theorem of_reads (h : Reads act) : Upholds inner P act := (Retains.of_reads h).upholds

theorem bind {f : α → Run β} (h : Upholds inner P act) (hf : ∀ a, Upholds inner P (f a)) :
    Upholds inner P (act >>= f) :=
  fun m hm hP => final_bind (Q := fun m' => P m' ∧ inner m'.scope) (h m hm hP)
    fun a m' hm' => hf a m' hm'.2 hm'.1

theorem discard (h : Upholds inner P act) : Upholds inner P (discard act : Run PUnit) := by
  intro m hm hP
  rw [final_discard]
  exact h m hm hP

end Upholds

/-! ## Elementary actions -/

section

variable (h : Upheld inner outer P)

include h

theorem note_keeps (level : Nat) (line : Log.Line) : Retains P (note level line) :=
  fun _ hP => ⟨h.logged _ hP, rfl⟩

theorem warn_keeps (text : String) : Retains P (warn text) :=
  fun m hP => ⟨h.data (m := m) _ _ _ _ _ _ hP, rfl⟩

theorem newArray_keeps (items : List Value) : Retains P (newArray items) :=
  fun _ hP => ⟨h.data _ _ _ _ _ _ hP, rfl⟩

theorem pushItems_keeps (id : Nat) (items : List Value) : Retains P (pushItems id items) :=
  fun _ hP => ⟨h.data _ _ _ _ _ _ hP, rfl⟩

theorem newFunction_keeps (name : String) (params : List String) (body : Body) (isAsync : Bool)
    (line : Nat) (scope : Scope) : Retains P (newFunction name params body isAsync line scope) :=
  fun _ hP => ⟨h.data _ _ _ _ _ _ hP, rfl⟩

theorem newPromise_keeps (state : PromiseState) (value : Value) : Retains P (newPromise state value) :=
  fun _ hP => ⟨h.promise state value hP, rfl⟩

theorem defer_keeps (k : Nat) (stmts : List Stmt) : Retains P (defer k stmts) :=
  fun _ hP => ⟨h.defer k stmts hP, rfl⟩

theorem emit_keeps (s : Step) : Retains P (emit s) := by
  intro m hP
  rcases emit_cases s m with ⟨hroom, log, hemit⟩ | ⟨_, hemit⟩
  · rw [hemit]
    exact ⟨h.logged log (h.emit s hroom hP), rfl⟩
  · rw [hemit]
    exact ⟨hP, rfl⟩

theorem emitAll_keeps (l : List Step) : Retains P (emitAll l) := by
  induction l with
  | nil => exact .pure ()
  | cons s rest ih => exact (emit_keeps h s).bind fun _ => ih

theorem addCallback_keeps (kind : TimerKind) (callback : Option Expr) (delay line : Nat) :
    Retains P (addCallback kind callback delay line) := by
  intro m hP
  have hcounted := emitAll_keeps h [.highlight line, .push (timerLabel kind delay),
    .webapiAdd (m.timerCount + 1) kind.api delay, .pop]
    { m with timerCount := m.timerCount + 1 } (h.count hP)
  rcases emitAll_cases (.highlight line) [.push (timerLabel kind delay),
    .webapiAdd (m.timerCount + 1) kind.api delay, .pop]
    { m with timerCount := m.timerCount + 1 } with ⟨hroom, log, hemit⟩ | ⟨log, part, _, hemit⟩
  · simp only [addCallback, bind_apply, modifyGet_apply, hemit, get_apply, set_apply, pure_apply]
    exact ⟨h.logged log (h.register (m := m) kind callback delay line hroom hP), rfl⟩
  · rw [hemit] at hcounted
    simp only [addCallback, bind_apply, modifyGet_apply, hemit]
    exact hcounted

theorem dropCallback_keeps (name : String) (v : Value) : Retains P (dropCallback name v) := by
  intro m hP
  obtain hdrop | ⟨cb, hmem, ⟨hroom, log, hdrop⟩ | ⟨hfull, hdrop⟩⟩ := dropCallback_cases name v m
  · rw [hdrop]
    exact ⟨hP, rfl⟩
  · rw [hdrop]
    exact ⟨h.logged log (h.drop hmem hroom hP), rfl⟩
  · rw [hdrop]
    exact ⟨h.lose hmem hfull hP, rfl⟩

theorem attach_keeps (name : String) (l : Link) (callback : Option Expr) (state : PromiseState)
    (receiver : Value) : Retains P (attach name l callback state receiver) := by
  intro m hP
  obtain ⟨m', hattach, _⟩ := attach_placed name l callback state receiver m
  rw [hattach]
  exact ⟨h.attach hattach hP, (Machine.attach_aside hattach).scope⟩

theorem suspend_keeps (frame : Frame) (value : Value) (target : Target) :
    Retains P (suspend frame value target) := by
  intro m hP
  obtain ⟨m', hsuspend, hplaced⟩ := suspend_placed frame value target m
  rw [hsuspend]
  exact ⟨h.suspend hsuspend hP, hplaced.aside.scope⟩

theorem announce_keeps (name : String) (consumed : Bool) (id : Nat) :
    Retains P (announce name consumed id) := by
  have hmark (p : Promise) :
      Retains P (do enqueue name (← get).scope none p.state p.value : Run Unit) := by
    intro m hP
    obtain ⟨log, henqueue⟩ := enqueue_apply name m.scope none p.state p.value m
    simp only [bind_apply, get_apply, henqueue]
    exact ⟨h.logged log (h.mark name p.state p.value hP), rfl⟩
  have hroot (state : PromiseState) :
      Retains P (modify fun m => { m with rootState := state } : Run Unit) :=
    fun _ hP => ⟨h.data _ _ _ _ _ _ hP, rfl⟩
  refine (Retains.of_reads (reads_promiseOf id)).bind fun p => (hroot p.state).bind fun _ => ?_
  split
  · exact (hmark p).bind fun _ => .pure _
  · exact .pure _

/-! ## Bindings and scopes -/

theorem declare_upholds (name : String) (v : Value) : Upholds inner P (declare name v) :=
  fun _ hm hP => ⟨h.write v hm hP (.inl rfl), hm⟩

theorem assign_upholds (name : String) (v : Value) : Upholds inner P (assign name v) := by
  intro m hm hP
  refine ⟨h.write v hm hP ?_, hm⟩
  cases howner : m.tables.owner? m.scope name with
  | none => exact .inl rfl
  | some id =>
    have hfind : m.scope.find? (m.tables.binds · name) = some id := howner
    have hbinds := List.find?_some hfind
    exact .inr ⟨List.mem_of_find?_eq_some hfind, hbinds⟩

theorem bindFunction_upholds (name : String) (params : List String) (body : Block) (isAsync : Bool)
    (line : Nat) : Upholds inner P (bindFunction name params body isAsync line) := by
  intro m hm hP
  rw [bindFunction_apply]
  exact ⟨h.data _ _ _ _ _ _ (h.write _ hm hP (.inl rfl)), hm⟩

theorem restoring_keeps {m1 : Machine} (hact : Upholds inner P act) (hm1 : inner m1.scope)
    (hP : P m1) : P (final (restoring m.scope m.frames act m1)) ∧
      (final (restoring m.scope m.frames act m1)).scope = m.scope := by
  have hend := (hact m1 hm1 hP).1
  rw [restoring]
  cases hr : act m1 with
  | ok a m' =>
    rw [hr] at hend
    exact ⟨h.context _ _ hend, rfl⟩
  | error fault m' =>
    rw [hr] at hend
    exact ⟨h.context _ _ hend, rfl⟩

theorem nested_keeps (hact : Upholds inner P act) (hm : outer m.scope) (hP : P m) :
    P (final (nested act m)) ∧ (final (nested act m)).scope = m.scope :=
  restoring_keeps h hact (h.inside hm hP) (h.context _ _ (h.nest m.scope [] hP))

theorem nested_upholds (hact : Upholds inner P act) : Upholds inner P (nested act) := by
  intro m hm hP
  obtain ⟨hend, hscope⟩ := nested_keeps h hact (h.encloses hm) hP
  exact ⟨hend, hscope ▸ hm⟩

/-- A renewed scope depends on the outer tables only. -/
theorem renewScope_enters (hm : outer m.scope.tail) (hP : P m) :
    P (final (renewScope m)) ∧ inner (final (renewScope m)).scope :=
  ⟨h.context (m.tables.entries.size :: m.scope.tail) m.frames (h.nest m.scope.tail _ hP),
    h.inside hm hP⟩

theorem renewScope_upholds : Upholds inner P renewScope := fun _ hm hP =>
  renewScope_enters h (h.renews hm) hP

/-! ## Expressions and statements -/

def upholds_basic : BasicCongruence fun act _ => Upholds inner P act where
  toCallFreeCongruence := .of_reads .of_reads .bind (fun _ _ => (note_keeps h _ _).upholds)
    (assign_upholds h) (fun vs => (newArray_keeps h vs).upholds)
    fun _ _ _ _ _ _ => (newFunction_keeps h _ _ _ _ _ _).upholds
  emit s := (emit_keeps h s).upholds
  declare := declare_upholds h
  timerDelay _ _ := .of_reads (reads_lift _)
  addCallback _ _ _ _ := (addCallback_keeps h _ _ _ _).upholds
  dropCallback name v := (dropCallback_keeps h name v).upholds
  pushItems id vs := (pushItems_keeps h id vs).upholds
  newPromise state v := (newPromise_keeps h state v).upholds
  rejection vs := .of_reads (reads_rejection vs)
  announce _ _ _ := (announce_keeps h _ _ _).upholds
  receiverState callee v := .of_reads (reads_receiverState callee v)
  attach _ _ _ _ _ := (attach_keeps h _ _ _ _ _).upholds

def upholds_plain : PlainCongruence fun act _ => Upholds inner P act where
  toCongruence := (upholds_basic h).congruence
  asyncFrame := .of_reads (reads_get.bind fun _ => reads_pure _)
  suspend _ _ _ := (suspend_keeps h _ _ _).upholds
  defer k stmts := (defer_keeps h k stmts).upholds
  discard := .discard
  nested := nested_upholds h
  renewScope := renewScope_upholds h
  warn text := (warn_keeps h text).upholds
  emit s := (emit_keeps h s).upholds
  declareVariable := (upholds_basic h).declareVariable
  bindFunction := bindFunction_upholds h

end

/-- A way to call functions under which every call keeps a property. -/
def CallsUphold (inner : Scope → Prop) (P : Machine → Prop) (call : Invoke) : Prop :=
  ∀ f args label line, Upholds inner P (call f args label line)

section

variable {call : Invoke} (h : Upheld inner outer P) (hcall : CallsUphold inner P call)

include h hcall

theorem eval_upholds (consumed : Bool) (e : Expr) : Upholds inner P (eval call consumed e) :=
  @eval_congr _ call call (upholds_plain h).toCongruence hcall consumed e

theorem exec_upholds (s : Stmt) : Upholds inner P (exec call s) :=
  @exec_congr _ call call _ _ _ (upholds_plain h).statements hcall s

theorem execAll_upholds (stmts : List Stmt) : Upholds inner P (execAll call stmts) :=
  @execAll_congr _ call call _ _ _ (upholds_plain h).statements hcall stmts

theorem execInit_upholds (init : LoopInit) : Upholds inner P (execInit call init) :=
  @execInit_congr _ call call _ _ _ (upholds_plain h).statements hcall init

theorem loopTest_upholds (condition : Option Expr) : Upholds inner P (loopTest call condition) :=
  @loopTest_congr _ call call _ _ _ (upholds_plain h).statements hcall condition

theorem loopStep_upholds (init : LoopInit) (update : Option Expr) :
    Upholds inner P (loopStep call init update) :=
  @loopStep_congr _ call call _ _ _ (upholds_plain h).statements hcall init update

/-- If a loop has variables of its own in each round, what it does between two rounds depends on the
    tables outside the loop only. -/
theorem loopStep_enters {init : LoopInit} (hinit : renewsBindings init = true)
    (update : Option Expr) {m : Machine} (hm : outer m.scope.tail) (hP : P m) :
    P (final (loopStep call init update m)) ∧ inner (final (loopStep call init update m)).scope := by
  have hupdate : Upholds inner P (loopUpdate call update) := by
    cases update with
    | none => exact .of_reads (reads_pure ())
    | some e => exact (eval_upholds h hcall false e).discard
  obtain ⟨hP', hm'⟩ := renewScope_enters h hm hP
  rw [loopStep, if_pos hinit]
  exact hupdate _ hm' hP'

theorem rounds_upholds (init : LoopInit) (condition update : Option Expr) (body : Block)
    (line rounds : Nat) :
    Upholds inner P (iterate line (loopTest call condition) (execBlock call body)
      (loopStep call init update) (loopResidue condition update body line) rounds) :=
  have stmts := (upholds_plain h).statements
  @iterate_congr _ _ _ _ stmts _ (loopTest call condition) _ (execBlock call body) _
    (loopStep call init update) line _
    (loopTest_upholds h hcall condition)
    (@execBlock_congr _ call call _ _ _ stmts hcall body)
    (loopStep_upholds h hcall init update) rounds

theorem runBody_upholds (b : Body) : Upholds inner P (runBody call b) :=
  @runBody_congr _ call call _ _ _ (upholds_plain h).statements hcall b

end

/-! ## Calls -/

/-- Calls functions, but answers the calls of some of them in another way, at every depth. -/
def invokeVia (diverted : Function → Bool) (answer : Nat → Invoke) : Nat → Invoke
  | depth, f, args, label, line =>
    if diverted f then answer depth f args label line
    else do
      emitAll [.highlight line, .push label]
      note 2 ("call " ++ label)
      match depth with
      | 0 => throw .callDepth
      | depth + 1 => do
        let (promise, outcome) ← runCall (invokeVia diverted answer depth) f args
        emit .pop
        finish promise outcome
        return callValue promise outcome

theorem invokeVia_invoke (diverted : Function → Bool) (depth : Nat) :
    invokeVia diverted invoke depth = invoke depth := by
  induction depth with
  | zero =>
    funext f args label line
    rw [invokeVia]
    exact ite_self _
  | succ depth ih =>
    funext f args label line
    rw [invokeVia, ih]
    exact ite_self _

section

variable (h : Upheld inner outer P)

include h

/-- The body of a called function starts in a new scope, nested in the one where the function was
    made. -/
theorem Upheld.entered {f : Function} (hf : outer f.scope)
    (args : List Value) (hm : P m) : P (m.entered f args) ∧ inner (m.entered f args).scope := by
  refine ⟨?_, h.inside hf hm⟩
  have hnested := h.nest f.scope (bindParams f.params args []) hm
  rw [Machine.entered]
  cases f.isAsync with
  | false => exact h.context _ _ hnested
  | true => exact h.context _ _ (h.promise .pending .undefined hnested)

theorem finish_keeps (hm : P m) (f : Function) (outcome : Outcome) :
    Retains P (finish (if f.isAsync then some m.promises.size else none) outcome) := by
  intro m' hm'
  cases f.isAsync with
  | false => exact ⟨hm', rfl⟩
  | true =>
    by_cases hend : outcome.ending = .done
    · obtain ⟨v, m'', hfinish, hsettle⟩ := finish_settles m.promises.size hend m'
      rw [if_pos rfl, hfinish]
      exact ⟨h.settle hsettle hm hm', (Machine.aside_of_settle hsettle).scope⟩
    · cases outcome with
      | suspended k => exact ⟨hm', rfl⟩
      | completed => exact absurd rfl hend
      | returned v => exact absurd rfl hend

/-- A function that is called keeps what code keeps, if the calls inside do. -/
theorem runCall_keeps {call : Invoke} (hcall : CallsUphold inner P call)
    {f : Function} (hf : outer f.scope) (args : List Value) : Retains P (do
      let (promise, outcome) ← runCall call f args
      emit .pop
      finish promise outcome
      return callValue promise outcome : Run Value) := by
  intro m hP
  obtain ⟨hentered, hinside⟩ := h.entered hf args hP
  have hbody := (runBody_upholds h hcall f.body _ hinside hentered).1
  rw [bind_apply, runCall_apply]
  cases hr : runBody call f.body (m.entered f args) with
  | error fault m' =>
    rw [hr] at hbody
    exact ⟨h.context m.scope m.frames hbody, rfl⟩
  | ok outcome m' =>
    rw [hr] at hbody
    have hend := (emit_keeps h .pop).bind fun _ => (finish_keeps h hP f outcome).bind fun _ =>
      .pure (callValue (if f.isAsync then some m.promises.size else none) outcome)
    exact hend (m'.back m) (h.context m.scope m.frames hbody)

/-- Calls keep what code keeps, if new scopes may be nested in the scopes of the functions that are
    called, and the other calls are answered in a way that keeps it. -/
theorem invokeVia_upholds {diverted : Function → Bool}
    {answer : Nat → Invoke} (hplain : ∀ f, diverted f = false → outer f.scope)
    (hanswer : ∀ depth f args label line, diverted f = true →
      Upholds inner P (answer depth f args label line)) (depth : Nat) :
    CallsUphold inner P (invokeVia diverted answer depth) := by
  induction depth with
  | zero =>
    intro f args label line
    rw [invokeVia]
    cases hf : diverted f with
    | true => exact hanswer 0 f args label line hf
    | false =>
      exact ((emitAll_keeps h _).bind fun _ => (note_keeps h _ _).bind fun _ =>
        .of_reads fun _ => .inr ⟨_, rfl⟩).upholds
  | succ depth ih =>
    intro f args label line
    rw [invokeVia]
    cases hf : diverted f with
    | true => exact hanswer _ f args label line hf
    | false =>
      exact ((emitAll_keeps h _).bind fun _ => (note_keeps h _ _).bind fun _ =>
        runCall_keeps h ih (hplain f hf) args).upholds

/-- Plain calls keep what code keeps in every scope, if new scopes may be nested everywhere. -/
theorem invoke_keeps (houter : ∀ scope, outer scope) (depth : Nat)
    (f : Function) (args : List Value) (label : String) (line : Nat) :
    Retains P (invoke depth f args label line) := by
  induction depth generalizing f args label line with
  | zero =>
    exact (emitAll_keeps h _).bind fun _ => (note_keeps h _ _).bind fun _ =>
      .of_reads fun _ => .inr ⟨_, rfl⟩
  | succ depth ih =>
    exact (emitAll_keeps h _).bind fun _ => (note_keeps h _ _).bind fun _ =>
      runCall_keeps h (fun f args label line => (ih f args label line).upholds)
        (houter f.scope) args

theorem invoke_upholds (houter : ∀ scope, outer scope) (depth : Nat) :
    CallsUphold inner P (invoke depth) :=
  fun f args label line => (invoke_keeps h houter depth f args label line).upholds

end

end Run

end EventLoop
