/-
  What the text of log lines does to a run.

  Four lines of the debug log show a value or a time (`Message`).  Their text is made when they are
  due, whether the line is written or not.  A silent run leaves these lines out, and only keeps a
  list of those that would have been due, each with the state in which it would have been made.

  As long as each line that is due has a text, a run and its silent counterpart do the same, and at
  the first one that has none the run fails (`Renders`).  This holds of elementary actions, which do
  the same whatever the log is, and is kept by all that actions are composed with.  So the silent
  counterpart of a whole run is put together along the run itself (`Muted.run`).

  The main statement is `rendering_decides`.  Logging is not inert: `rendering_fails_generation` is
  a program that fails because a line that is never written shows a number without a text.
-/
import EventLoop.Proofs.Aloof
import EventLoop.Proofs.Traversal

namespace EventLoop

open Script

variable {α β : Type}

/-! ## Silent actions -/

/-- A line that is due, and the state in which its text would be made. -/
abbrev Due := Message × Machine

/-- The state of a silent run. -/
structure Hushed where
  machine : Machine
  /-- The lines that were due so far, first one first. -/
  due : List Due := []

/-- An action of a silent run. -/
abbrev Silent := EStateM Fault Hushed

namespace Silent

open Run

/-- Does what an action does, without what it writes to the log. -/
def quietly (act : Run α) : Silent α := fun s =>
  match act s.machine with
  | .ok a m => .ok a { s with machine := m.logged s.machine.log }
  | .error f m => .error f { s with machine := m.logged s.machine.log }

/-- Keeps in mind that a line is due. -/
def skip (msg : Message) : Silent Unit :=
  modify fun s => { s with due := s.due ++ [(msg, s.machine)] }

/-- The state of the run. -/
def machine : Silent Machine := do return (← get).machine

/-- Runs an action, and then sets the scope and the frames. -/
def restoring (scope : Scope) (frames : List Frame) (act : Silent α) : Silent α := fun s =>
  match act s with
  | .ok a s => .ok a { s with machine := { s.machine with scope, frames } }
  | .error f s => .error f { s with machine := { s.machine with scope, frames } }

/-- Changes the state and runs an action, after which scope and frames are put back. -/
def within (move : Machine → Machine) (act : Silent α) : Silent α := do
  let m ← machine
  quietly (modify move)
  restoring m.scope m.frames act

def inScope (scope : Scope) (act : Silent α) : Silent α := within (fun m => { m with scope }) act

def nested (act : Silent α) : Silent α := do
  let scope ← quietly do newScope (← get).scope []
  inScope scope act

def inFrame (scope : Scope) (frame : Frame) (act : Silent α) : Silent α :=
  within (fun m => { m with scope, frames := frame :: m.frames }) act

/-- The state in which a silent run ends. -/
def final : EStateM.Result Fault Hushed α → Hushed
  | .ok _ s | .error _ s => s

theorem bind_apply (act : Silent α) (f : α → Silent β) (s : Hushed) : (act >>= f) s =
      match act s with
      | .ok a s' => f a s'
      | .error fault s' => .error fault s' := by
  simp only [bind, EStateM.bind]
  cases act s <;> rfl

end Silent

/-! ## Actions and their silent counterparts -/

/-- The first of some lines that has no text: its fault, and the state in which it was due. -/
def untold? (due : List Due) : Option (Fault × Machine) :=
  due.findSome? fun d =>
    match d.1.text d.2 with
    | .ok _ => none
    | .error fault => some (fault, d.2)

theorem untold?_append (l l' : List Due) : untold? (l ++ l') = (untold? l).or (untold? l') :=
  List.findSome?_append

/-- The result of an action and that of its silent counterpart, in which some lines were due.  They
    are the same if all lines have texts, and else the fault is that of the first one that has
    none. -/
inductive Tells (more : List Due) :
    EStateM.Result Fault Machine α → EStateM.Result Fault Hushed α → Prop
  | ok (h : untold? more = none) (a : α) (s : Hushed) (log : Log) :
      Tells more (.ok a (s.machine.logged log)) (.ok a s)
  | error (h : untold? more = none) (fault : Fault) (s : Hushed) (log : Log) :
      Tells more (.error fault (s.machine.logged log)) (.error fault s)
  | untold {fault : Fault} {m : Machine} (h : untold? more = some (fault, m)) (scope : Scope)
      (frames : List Frame) (log : Log) (r : EStateM.Result Fault Hushed α) :
      Tells more (.error fault { m with scope, frames, log }) r

namespace Tells

variable {more more' : List Due} {r : EStateM.Result Fault Machine α}
  {q : EStateM.Result Fault Hushed α}

theorem behind (h : Tells more' r q) (hmore : untold? more = none) : Tells (more ++ more') r q := by
  have happend : untold? (more ++ more') = untold? more' := by
    rw [untold?_append, hmore, Option.none_or]
  cases h with
  | ok h a s log => exact .ok (happend.trans h) a s log
  | error h fault s log => exact .error (happend.trans h) fault s log
  | untold h scope frames log => exact .untold (happend.trans h) scope frames log _

end Tells

/-- An action that does what its silent counterpart does, and makes the texts of the lines that are
    due. -/
def Renders (act : Run α) (mute : Silent α) : Prop :=
  ∀ (s : Hushed) (log : Log), ∃ more : List Due,
    (Silent.final (mute s)).due = s.due ++ more ∧ Tells more (act (s.machine.logged log)) (mute s)

namespace Renders

variable {act : Run α} {mute : Silent α}

theorem pure (a : α) : Renders (pure a) (pure a) :=
  fun s log => ⟨[], (List.append_nil _).symm, .ok rfl a s log⟩

theorem throw (fault : Fault) : Renders (throw fault : Run α) (throw fault) :=
  fun s log => ⟨[], (List.append_nil _).symm, .error rfl fault s log⟩

theorem quietly (h : Run.Unlogged act) : Renders act (Silent.quietly act) := by
  intro s log
  obtain ⟨log', hact⟩ := h s.machine log
  refine ⟨[], ?_, ?_⟩
  · rw [Silent.quietly]
    cases act s.machine <;> exact (List.append_nil _).symm
  · rw [hact, Silent.quietly]
    cases act s.machine with
    | ok a m => exact .ok rfl a { s with machine := m.logged s.machine.log } log'
    | error fault m => exact .error rfl fault { s with machine := m.logged s.machine.log } log'

theorem aloof (h : Run.Aloof act) : Renders act (Silent.quietly act) := quietly h.unlogged

theorem tell (msg : Message) : Renders (Run.tell msg) (Silent.skip msg) := by
  intro s log
  refine ⟨[(msg, s.machine)], rfl, ?_⟩
  have htext : msg.text (s.machine.logged log) = msg.text s.machine := by cases msg <;> rfl
  rw [Run.tell, Run.bind_apply, Run.get_apply]
  show Tells _ ((Run.lift (msg.text (s.machine.logged log)) >>= _) _) _
  rw [htext]
  cases hmsg : msg.text s.machine with
  | ok text =>
    have htold : untold? [(msg, s.machine)] = none := by simp [untold?, hmsg]
    exact .ok htold () { s with due := s.due ++ [(msg, s.machine)] } _
  | error fault =>
    have huntold : untold? [(msg, s.machine)] = some (fault, s.machine) := by
      simp [untold?, hmsg]
    exact .untold huntold s.machine.scope s.machine.frames log _

theorem bind {f : α → Run β} {f' : α → Silent β} (h : Renders act mute)
    (hf : ∀ a, Renders (f a) (f' a)) : Renders (act >>= f) (mute >>= f') := by
  intro s log
  obtain ⟨more, hdue, htells⟩ := h s log
  rw [Run.bind_apply, Silent.bind_apply]
  generalize act (s.machine.logged log) = r at htells
  generalize mute s = q at hdue htells
  cases htells with
  | ok hmore a s1 log1 =>
    obtain ⟨more', hdue', htells'⟩ := hf a s1 log1
    refine ⟨more ++ more', ?_, htells'.behind hmore⟩
    rw [hdue', ← List.append_assoc]
    exact congrArg (· ++ more') hdue
  | error hmore fault s1 log1 => exact ⟨more, hdue, .error hmore fault s1 log1⟩
  | @untold fault m hmore scope frames log1 =>
    -- The run has failed, and the silent one goes on.
    cases q with
    | error fault' s1 => exact ⟨more, hdue, .untold hmore scope frames log1 _⟩
    | ok a s1 =>
      obtain ⟨more', hdue', _⟩ := hf a s1 log
      refine ⟨more ++ more', ?_, ?_⟩
      · rw [hdue', ← List.append_assoc]
        exact congrArg (· ++ more') hdue
      · exact .untold (by rw [untold?_append, hmore, Option.some_or]) scope frames log1 _

theorem map (f : α → β) (h : Renders act mute) : Renders (f <$> act) (f <$> mute) := by
  rw [← bind_pure_comp, ← bind_pure_comp]
  exact h.bind fun a => pure (f a)

theorem get_bind {k : Machine → Run α} {k' : Machine → Silent α} (h : ∀ m, Renders (k m) (k' m))
    (hk : ∀ m log, k (m.logged log) = k m) : Renders (get >>= k) (Silent.machine >>= k') := by
  intro s log
  rw [Run.bind_apply, Run.get_apply]
  simp only [hk]
  exact h s.machine s log

theorem restoring (scope : Scope) (frames : List Frame) (h : Renders act mute) :
    Renders (Run.restoring scope frames act) (Silent.restoring scope frames mute) := by
  intro s log
  obtain ⟨more, hdue, htells⟩ := h s log
  rw [Run.restoring, Silent.restoring]
  generalize act (s.machine.logged log) = r at htells
  generalize mute s = q at hdue htells
  cases htells with
  | ok hmore a s1 log1 =>
    exact ⟨more, hdue, .ok hmore a { s1 with machine := { s1.machine with scope, frames } } log1⟩
  | error hmore fault s1 log1 =>
    exact ⟨more, hdue,
      .error hmore fault { s1 with machine := { s1.machine with scope, frames } } log1⟩
  | untold hmore scope' frames' log1 =>
    refine ⟨more, ?_, .untold hmore scope frames log1 _⟩
    cases q <;> exact hdue

theorem within (move : Machine → Machine)
    (hmove : ∀ m log, move (m.logged log) = (move m).logged log) (h : Renders act mute) :
    Renders (fun m => Run.restoring m.scope m.frames act (move m)) (Silent.within move mute) := by
  have heq : (fun m => Run.restoring m.scope m.frames act (move m)) =
      get >>= fun m => modify move >>= fun _ => Run.restoring m.scope m.frames act := rfl
  rw [heq]
  exact get_bind (fun m => (quietly (.modify hmove)).bind fun _ => h.restoring m.scope m.frames)
    fun _ _ => rfl

theorem inScope (scope : Scope) (h : Renders act mute) :
    Renders (Run.inScope scope act) (Silent.inScope scope mute) :=
  within (fun m => { m with scope }) (fun _ _ => rfl) h

theorem nested (h : Renders act mute) : Renders (Run.nested act) (Silent.nested mute) := by
  have hscope : Run.Aloof (do Run.newScope (← get).scope [] : Run Scope) :=
    .get_bind (fun _ => Run.newScope_aloof _ []) fun _ _ => rfl
  have heq : Run.nested act =
      (do Run.newScope (← get).scope [] : Run Scope) >>= fun scope => Run.inScope scope act := rfl
  rw [heq]
  exact (aloof hscope).bind fun scope => h.inScope scope

theorem inFrame (scope : Scope) (frame : Frame) (h : Renders act mute) :
    Renders (Run.inFrame scope frame act) (Silent.inFrame scope frame mute) :=
  within (fun m => { m with scope, frames := frame :: m.frames }) (fun _ _ => rfl) h

end Renders

/-! ## Runs without the lines -/

/-- An action with its silent counterpart. -/
structure Muted (act : Run α) where
  mute : Silent α
  renders : Renders act mute

namespace Muted

open Run

/-- An action without lines that are due. -/
def quietly {act : Run α} (h : Unlogged act) : Muted act := ⟨Silent.quietly act, .quietly h⟩

def aloof {act : Run α} (h : Aloof act) : Muted act := quietly h.unlogged

def next {act : Run α} {f : α → Run β} (r : Muted act) (s : ∀ a, Muted (f a)) : Muted (act >>= f) :=
  ⟨r.mute >>= fun a => (s a).mute, r.renders.bind fun a => (s a).renders⟩

def map {act : Run α} (f : α → β) (r : Muted act) : Muted (f <$> act) :=
  ⟨f <$> r.mute, r.renders.map f⟩

/-- The line that is told is left out, and kept in mind. -/
def tell (msg : Message) : Muted (tell msg) := ⟨Silent.skip msg, .tell msg⟩

def look {k : Machine → Run α} (s : ∀ m, Muted (k m)) (hk : ∀ m log, k (m.logged log) = k m) :
    Muted (get >>= k) :=
  ⟨Silent.machine >>= fun m => (s m).mute, .get_bind (fun m => (s m).renders) hk⟩

/-- What the parts of code do, with the lines left out. -/
def code : PlainCongruence fun act _ => Muted act where
  pure a := ⟨pure a, .pure a⟩
  bind := next
  note level line := quietly (unlogged_basic.note level line)
  lookup x := quietly (unlogged_basic.lookup x)
  isBound x := quietly (unlogged_basic.isBound x)
  textOf v := quietly (unlogged_basic.textOf v)
  tell := tell
  applyOp hor hand a b := quietly (unlogged_basic.applyOp hor hand a b)
  increment n := quietly (unlogged_basic.increment n)
  decrement n := quietly (unlogged_basic.decrement n)
  assign x v := quietly (unlogged_basic.assign x v)
  itemsOf id := quietly (unlogged_basic.itemsOf id)
  newArray vs := quietly (unlogged_basic.newArray vs)
  settledValue v := quietly (unlogged_basic.settledValue v)
  close _ _ _ _ _ := quietly (unlogged_basic.close _ _ _ _ _)
  callLabel name args := quietly (unlogged_basic.callLabel name args)
  registerTimer kind args line :=
    (quietly (unlogged_basic.timerDelay kind args)).next fun delay =>
      (quietly (unlogged_basic.addCallback kind args.head? delay line)).next fun cb =>
        (tell (.registered cb)).next fun _ => ⟨pure _, .pure _⟩
  clearTimer _ _ _ _ := quietly (unlogged_basic.congruence.clearTimer _ _ _ _)
  consoleLine _ _ _ := quietly (unlogged_basic.congruence.consoleLine _ _ _)
  makePromise _ _ _ _ := quietly (unlogged_basic.congruence.makePromise _ _ _ _)
  addLink _ _ _ _ _ := quietly (unlogged_basic.congruence.addLink _ _ _ _ _)
  callMethod _ _ _ _ _ := quietly (unlogged_basic.congruence.callMethod _ _ _ _ _)
  unrecognized _ _ := quietly (unlogged_basic.congruence.unrecognized _ _)
  asyncFrame := quietly asyncFrame_unlogged
  suspend _ _ _ := quietly (suspend_unlogged _ _ _)
  defer _ _ := quietly (defer_unlogged _ _)
  discard r := r.map _
  nested r := ⟨Silent.nested r.mute, r.renders.nested⟩
  renewScope := aloof renewScope_aloof
  warn text := aloof (warn_aloof text)
  emit s := quietly (emit_unlogged s)
  declareVariable x v := (aloof (declare_aloof x v)).next fun _ => tell (.declared x v)
  bindFunction _ _ _ _ _ := aloof (bindFunction_aloof _ _ _ _ _)

/-- What the parts of a run do, with the lines left out. -/
def run : Traversal fun act => Muted act where
  toPlainCongruence := code
  map f r := r.map f
  restoring scope frames r := ⟨Silent.restoring scope frames r.mute, r.renders.restoring scope frames⟩
  inScope scope r := ⟨Silent.inScope scope r.mute, r.renders.inScope scope⟩
  inFrame scope frame r := ⟨Silent.inFrame scope frame r.mute, r.renders.inFrame scope frame⟩
  enter _ _ := quietly (.modifyGet (fun _ _ => rfl) fun _ _ => rfl)
  newScope _ _ := aloof (newScope_aloof _ _)
  newPromise _ _ := aloof (newPromise_aloof _ _)
  newFunction _ _ _ _ _ _ := aloof (newFunction_aloof _ _ _ _ _ _)
  declare x v := aloof (declare_aloof x v)
  settle _ _ _ := aloof (settle_aloof _ _ _)
  throw _ := ⟨throw _, .throw _⟩
  look s hk := look s fun m => hk m m.steps
  continuationOf id := quietly (continuationOf_unlogged id)
  takeMicrotask := aloof takeMicrotask_aloof
  takeCallback id := aloof (takeCallback_aloof id)
  takeTimer cb := aloof (takeTimer_aloof cb)
  readProgram _ := quietly (.lift _)

/-- How many timers may fire depends on the room for steps, but not on the log. -/
def drainTimers : Muted drainTimers := look (fun _ => run.timerTurns _) fun _ _ => rfl

/-- The run of a program, with the lines left out. -/
def generate (source : Option String) : Muted (generate source) :=
  (run.runSource source).next fun _ => (code.note _ _).next fun _ =>
    run.drainFrames.next fun _ => (code.note _ _).next fun _ =>
      drainTimers.next fun _ => code.note _ _

end Muted

/-- What a generation gives without a debug log, and the lines that would have been due. -/
def Generator.generateSilently (g : Generator) (source : Option String) : Generation × List Due :=
  if g.active then ({ result := .error Fault.generationActive.report }, [])
  else
    match (Muted.generate source).mute { machine := g.reset.machine } with
    | .ok _ s =>
      ({ result := .ok s.machine.steps.toList, warnings := s.machine.warnings.toList }, s.due)
    | .error fault s =>
      ({ result := .error fault.report, warnings := s.machine.warnings.toList }, s.due)

namespace Run

variable {call : Invoke}

/-! ## Declarations and branches -/

theorem tell_of_text (msg : Message) {m : Machine} {text : String} (h : msg.text m = .ok text) :
    ∃ log, tell msg m = .ok () (m.logged log) := by
  rw [tell, bind_apply, get_apply]
  simp only [h]
  exact ⟨_, rfl⟩

theorem tell_of_fault (msg : Message) {m : Machine} {fault : Fault}
    (h : msg.text m = .error fault) : tell msg m = .error fault m := by
  rw [tell, bind_apply, get_apply]
  simp only [h]
  rfl

theorem exec_declare_of_value {x : String} {e : Expr} {v : Value} {m m' : Machine}
    (kind : DeclKind) (line : Nat) (h : evalAwaiting call (.declare x) e m = .ok (.value v) m') :
    exec call (.declare kind [.mk x (some e)] line) m =
      (tell (.declared x v) >>= fun _ => pure .completed)
        { m' with tables := m'.tables.declare m'.scope x v } := by
  rw [exec, execDeclarators, bind_of_ok h]
  simp only [declareVariable, bind_assoc]
  rfl

end Run

/-! ## Generations -/

/-- A generation is that of a silent run, if all lines that are due have texts, and else it fails at
    the first one that has none. -/
theorem Generator.generate_told (g : Generator) (source : Option String) :
    (untold? (g.generateSilently source).2 = none →
      (g.generate source).1 = (g.generateSilently source).1) ∧
    ∀ fault m, untold? (g.generateSilently source).2 = some (fault, m) →
      (g.generate source).1 = { result := .error fault.report, warnings := m.warnings.toList } := by
  rw [generate, generateSilently]
  cases g.active with
  | true => exact ⟨fun _ => rfl, fun _ _ h => nomatch h⟩
  | false =>
    simp only [Bool.false_eq_true, if_false]
    obtain ⟨more, hdue, htells⟩ :=
      (Muted.generate source).renders { machine := g.reset.machine } g.reset.machine.log
    rw [List.nil_append] at hdue
    have hstart : g.reset.machine.logged g.reset.machine.log = g.reset.machine := rfl
    simp only [hstart] at htells
    generalize Run.generate source g.reset.machine = r at htells
    generalize (Muted.generate source).mute { machine := g.reset.machine } = q at hdue htells
    cases htells with
    | ok hmore a s log =>
      have hmore' : untold? s.due = none := by rwa [← hdue] at hmore
      exact ⟨fun _ => rfl, fun fault m h => by rw [hmore'] at h; cases h⟩
    | error hmore fault s log =>
      have hmore' : untold? s.due = none := by rwa [← hdue] at hmore
      exact ⟨fun _ => rfl, fun fault' m h => by rw [hmore'] at h; cases h⟩
    | @untold fault m hmore scope frames log =>
      -- a text failed, whatever the silent run went on to do
      have hfirst : untold? (Silent.final q).due = some (fault, m) := by rw [hdue, hmore]
      cases q with
      | ok a s =>
        refine ⟨fun h => ?_, fun fault' m' h => ?_⟩
        · cases hfirst.symm.trans h
        · cases hfirst.symm.trans h
          rfl
      | error fault1 s =>
        refine ⟨fun h => ?_, fun fault' m' h => ?_⟩
        · cases hfirst.symm.trans h
        · cases hfirst.symm.trans h
          rfl

/-- The log that a generator goes on with does not show in what it generates. -/
theorem Generator.generate_log (g : Generator) (log : Log) (source : Option String) :
    ({ g with machine := g.machine.logged log }.generate source).1 = (g.generate source).1 := by
  have hstart' : ({ g with machine := g.machine.logged log } : Generator).reset.machine =
      g.reset.machine.logged log := rfl
  rw [generate, generate, hstart']
  cases g.active with
  | true => simp only [if_true]
  | false =>
    simp only [Bool.false_eq_true, if_false]
    obtain ⟨more, hdue, htells⟩ :=
      (Muted.generate source).renders { machine := g.reset.machine } g.reset.machine.log
    obtain ⟨more', hdue', htells'⟩ :=
      (Muted.generate source).renders { machine := g.reset.machine } log
    -- The same lines are due, whatever becomes of them.
    have hmore : more' = more := List.append_cancel_left (hdue'.symm.trans hdue)
    have hstart : g.reset.machine.logged g.reset.machine.log = g.reset.machine := rfl
    simp only [hstart] at htells
    simp only [hmore] at htells'
    generalize Run.generate source g.reset.machine = r at htells
    generalize Run.generate source (g.reset.machine.logged log) = r' at htells'
    generalize (Muted.generate source).mute { machine := g.reset.machine } = q at htells htells'
    cases htells with
    | ok htold a s log1 =>
      cases htells' with
      | ok _ _ _ log2 => rfl
      | untold huntold => cases htold.symm.trans huntold
    | error htold fault s log1 =>
      cases htells' with
      | error _ _ _ log2 => rfl
      | untold huntold => cases htold.symm.trans huntold
    | untold huntold =>
      cases htells' with
      | ok htold => cases htold.symm.trans huntold
      | error htold => cases htold.symm.trans huntold
      | untold huntold' =>
        cases huntold.symm.trans huntold'
        rfl

/-- The texts of log lines decide whether a run goes on.  Compared with a run that makes none of
    them, and whatever the level of detail of the log is: if every line that is due has a text, the
    generation is the same, with its steps or its failure and with its warnings.  Otherwise it fails
    at the first line that has none, with the fault of that text.

    For a declaration this means that it binds its value and completes exactly if the value has a
    text, and for a branch that it goes on to the statement that its condition chooses exactly if
    the value of the condition has a text. -/
theorem rendering_decides (g : Generator) (source : Option String) :
    ((untold? (g.generateSilently source).2 = none →
        (g.generate source).1 = (g.generateSilently source).1) ∧
      ∀ fault m, untold? (g.generateSilently source).2 = some (fault, m) →
        (g.generate source).1 =
          { result := .error fault.report, warnings := m.warnings.toList }) ∧
    (∀ call kind x e line m v m',
      Run.evalAwaiting call (.declare x) e m = .ok (.value v) m' →
      let declared : Machine := { m' with tables := m'.tables.declare m'.scope x v }
      (∀ text, v.toText m'.arrays = .ok text → ∃ log,
        Run.exec call (.declare kind [.mk x (some e)] line) m =
          .ok .completed (declared.logged log)) ∧
      ∀ fault, v.toText m'.arrays = .error fault →
        Run.exec call (.declare kind [.mk x (some e)] line) m = .error fault declared) ∧
    ∀ call condition body otherwise line m v m',
      Run.eval call false condition m = .ok v m' →
      (∀ text, v.toText m'.arrays = .ok text → ∃ log,
        Run.exec call (.branch condition body otherwise line) m =
          (if v.isTruthy then Run.execBlock call body else Run.execOptional call otherwise)
            (m'.logged log)) ∧
      ∀ fault, v.toText m'.arrays = .error fault →
        Run.exec call (.branch condition body otherwise line) m = .error fault m' := by
  refine ⟨g.generate_told source, ?_, ?_⟩
  · -- the variable is declared before its line is due
    intro call kind x e line m v m' heval declared
    have hexec := Run.exec_declare_of_value kind line heval
    refine ⟨fun text htext => ?_, fun fault hfault => ?_⟩
    · obtain ⟨log, htell⟩ := Run.tell_of_text (.declared x v) (m := declared) htext
      exact ⟨log, by rw [hexec, Run.bind_of_ok htell]; rfl⟩
    · have htell := Run.tell_of_fault (.declared x v) (m := declared) hfault
      rw [hexec, Run.bind_of_error htell]
  · intro call condition body otherwise line m v m' heval
    have hexec : Run.exec call (.branch condition body otherwise line) m =
        (Run.tell (.condition v) >>= fun _ =>
          if v.isTruthy then Run.execBlock call body else Run.execOptional call otherwise) m' := by
      rw [Run.exec, Run.bind_of_ok heval]
    refine ⟨fun text htext => ?_, fun fault hfault => ?_⟩
    · obtain ⟨log, htell⟩ := Run.tell_of_text (.condition v) htext
      exact ⟨log, by rw [hexec, Run.bind_of_ok htell]⟩
    · have htell := Run.tell_of_fault (.condition v) hfault
      rw [hexec, Run.bind_of_error htell]

/-- All lines have texts: a variable, a branch and a timer. -/
theorem rendering_decides_timer :
    let g := Generator.new 100 0
    let source := some "let x = [1, 2]; if (x) \x7b setTimeout(() => console.log('late'), 5) \x7d"
    (g.generateSilently source).2.length = 4 ∧
    (g.generate source).1 = (g.generateSilently source).1 ∧
    (Step.consoleLines (g.generate source).1.steps).map Json.plain = ["late"] :=
  have htold := (rendering_decides (Generator.new 100 0)
    (some "let x = [1, 2]; if (x) \x7b setTimeout(() => console.log('late'), 5) \x7d")).1.1
      (by decide +kernel)
  ⟨by decide +kernel, htold, by rw [htold]; decide +kernel⟩

/-- A number of 8193 digits has no text.  It is never printed, and still the program fails. -/
theorem rendering_fails_generation :
    let g := Generator.new 100 0
    let source := some ("let x = 10\nfor (let i = 0; i < 13; i++) \x7b x = x * x \x7d\n" ++
      "if (x) \x7b console.log('big') \x7d")
    (g.generateSilently source).1.report? = none ∧
    (Step.consoleLines (g.generateSilently source).1.steps).map Json.plain = ["big"] ∧
    (g.generate source).1.report? = some ⟨.analysis, "Error analyzing code"⟩ := by
  decide +kernel

end EventLoop
