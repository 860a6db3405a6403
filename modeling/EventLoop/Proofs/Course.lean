/-
  The course of a run: what happens to promises, step by step, and on whose account.

  `Advance` lists the changes of the state by which a run goes on, as far as promises are concerned.
  A promise is settled on one of two accounts.  The call of an async function that it belongs to
  comes to an end; or a link has its turn, and the settlement is the one that `Run.runLink` gives.
  A `Course` is a run of such changes, with the turns of links on the way.  States inside of
  evaluated code are on the course, too, and every operation is one (`passes_course`).

  The numbers of promises are bounded by the number of promises made so far (`Bounded`): those that
  calls hold, and those of the links that wait or are in the queue.
-/
import EventLoop.Proofs.Ownership
import EventLoop.Proofs.Passing

namespace EventLoop

open Script

variable {tame : Bool} {depth : Nat} {m m' : Machine} {id : Nat} {ps : Array Promise}
  {t : Microtask} {w : Waiter}

/-- The promise of the link that a microtask belongs to. -/
def Microtask.derived (t : Microtask) : List Nat :=
  match t.reaction with
  | some (.link _ _ derived) => [derived]
  | some (.resume _) | none => []

/-- A link has its turn: its microtask, and the state in which its callback is looked up. -/
structure LinkTurn where
  task : Microtask
  before : Machine

namespace Machine

/-! ## Courses -/

/-- The promises of the calls of async functions that are active or suspended. -/
def callPromises (m : Machine) : List Nat :=
  m.frames.filterMap (·.promise) ++ m.suspendedCalls.filterMap (·.2)

/-- A change by which a run goes on, with the turn of a link if it is the end of one. -/
inductive Advance (m : Machine) : List LinkTurn → Machine → Prop
  /-- Something that is not about promises; calls may be left. -/
  | quiet {m' : Machine} (hpromises : m'.promises = m.promises)
      (htasks : m'.microtasks = m.microtasks) (hcalls : m'.callPromises ⊆ m.callPromises) :
      Advance m [] m'
  | promise (state : PromiseState) (value : Value) : Advance m [] (m.withPromise state value)
  /-- An async function is called. -/
  | enter {m' : Machine} (hpromises : m'.promises = m.promises.push { state := .pending })
      (htasks : m'.microtasks = m.microtasks)
      (hcalls : m'.callPromises ⊆ m.promises.size :: m.callPromises) : Advance m [] m'
  | mark {m' : Machine} {name : String} {scope : Scope} {state : PromiseState} {value : Value}
      (h : Run.enqueue name scope none state value m = .ok () m') : Advance m [] m'
  | suspend {m' : Machine} {frame : Frame} {value : Value} {target : Target} {k : Nat}
      (hframe : frame ∈ m.frames) (h : Run.suspend frame value target m = .ok k m') :
      Advance m [] m'
  | attach {m' : Machine} {name : String} {l : Link} {callback : Option Expr}
      {state : PromiseState} {receiver : Value} {derived : Nat}
      (h : Run.attach name l callback state receiver m = .ok derived m') : Advance m [] m'
  /-- A call of an async function is left, and its promise is settled. -/
  | finish {m1 m' : Machine} {id : Nat} {state : PromiseState} {value : Value}
      (hid : id ∈ m.callPromises) (hpromises : m1.promises = m.promises)
      (htasks : m1.microtasks = m.microtasks) (hcalls : m1.callPromises ⊆ m.callPromises)
      (h : Run.settle id state value m1 = .ok () m') : Advance m [] m'
  /-- The turn of a link ends: its promise is settled as the link says. -/
  | conclude {turn : LinkTurn} {l : Link} {callback : Option Expr} {derived : Nat} {m' : Machine}
      {state : PromiseState} {value : Value} (htask : turn.task ∈ m.microtasks.toList)
      (hreaction : turn.task.reaction = some (.link l callback derived))
      (hrun : Run.runLink turn.task.name turn.task.scope l callback turn.task.state turn.task.value
        turn.before = .ok (state, value) m)
      (h : Run.settle derived state value m = .ok () m') : Advance m [turn] m'

/-- Changes one after the other, with the turns of links on the way. -/
inductive Course (m : Machine) : List LinkTurn → Machine → Prop
  | nil : Course m [] m
  | snoc {turns turns' : List LinkTurn} {m1 m' : Machine} (h : Course m turns m1)
      (hstep : Advance m1 turns' m') : Course m (turns ++ turns') m'

namespace Course

variable {m m1 m2 m' : Machine} {turns turns' : List LinkTurn}

theorem single (h : Advance m turns m') : Course m turns m' := .snoc .nil h

theorem trans (h1 : Course m turns m1) (h2 : Course m1 turns' m2) :
    Course m (turns ++ turns') m2 := by
  induction h2 with
  | nil => rwa [List.append_nil]
  | snoc _ hstep ih =>
    rw [← List.append_assoc]
    exact ih.snoc hstep

theorem calm (h1 : Course m [] m1) (h2 : Course m1 [] m2) : Course m [] m2 := h1.trans h2

theorem quiet (hpromises : m'.promises = m.promises) (htasks : m'.microtasks = m.microtasks)
    (hframes : m'.frames = m.frames) (hconts : m'.continuations = m.continuations) :
    Course m [] m' := by
  refine .single (.quiet hpromises htasks ?_)
  rw [callPromises, suspendedCalls, hframes, hconts]
  exact fun _ h => h

end Course

/-! ## Code is on the course -/

theorem mem_callPromises_of_frame {frame : Frame} (h : frame ∈ m.frames)
    (hid : frame.promise = some id) : id ∈ m.callPromises :=
  List.mem_append_left _ (List.mem_filterMap.2 ⟨frame, h, hid⟩)

theorem mem_callPromises_of_continuation {k : Nat} (hid : (m.continuationAt k).promise = some id) :
    id ∈ m.callPromises := by
  rw [continuationAt] at hid
  cases hk : m.continuations[k]? with
  | none =>
    rw [hk] at hid
    cases hid
  | some c =>
    rw [hk] at hid
    refine List.mem_append_right _ (List.mem_filterMap.2 ⟨(c.function, c.promise), ?_, hid⟩)
    exact List.mem_map_of_mem (Array.mem_toList_iff.2 (Array.mem_of_getElem? hk))

theorem callPromises_deferred (m : Machine) (k : Nat) (stmts : List Stmt) :
    (m.deferred k stmts).callPromises = m.callPromises := by
  rw [callPromises, suspendedCalls_deferred]
  rfl

/-- A call that is suspended has its promise from its frame. -/
theorem callPromises_withContinuation {frame : Frame} (h : frame ∈ m.frames) (target : Target) :
    (m.withContinuation frame target).callPromises ⊆ m.callPromises := by
  intro id hid
  simp only [callPromises, suspendedCalls, withContinuation, Array.toList_push, List.map_append,
    List.filterMap_append, List.mem_append] at hid
  rcases hid with hid | hid | hid
  · exact List.mem_append_left _ hid
  · exact List.mem_append_right _ hid
  · obtain ⟨call, hcall, hpromise⟩ := List.mem_filterMap.1 hid
    rw [List.map_singleton, List.mem_singleton] at hcall
    subst hcall
    exact mem_callPromises_of_frame h hpromise

theorem callPromises_back (h : m.frames ⊆ m'.frames) :
    (m'.back m).callPromises ⊆ m'.callPromises := by
  intro id hid
  rcases List.mem_append.1 hid with hid | hid
  · obtain ⟨frame, hframe, hpromise⟩ := List.mem_filterMap.1 hid
    exact mem_callPromises_of_frame (h hframe) hpromise
  · exact List.mem_append_right _ hid

theorem Move.course (h : Move m m') : Course m [] m' := by
  cases h with
  | data | declare | assign | define | nest | burst | register | clear =>
    exact .quiet rfl rfl rfl rfl
  | promise state value => exact .single (.promise state value)
  | mark name state value h => exact .single (.mark h)
  | attach name l callback state receiver h => exact .single (.attach h)

theorem course_entered (m : Machine) (f : Function) (args : List Value) (l : List Step) :
    Course m [] ((m.emitted l).entered f args) := by
  refine .single ?_
  cases hasync : f.isAsync with
  | true =>
    refine .enter ?_ rfl ?_
    · simp [entered, emitted, hasync]
    · simp [callPromises, suspendedCalls, entered, emitted, hasync]
  | false =>
    refine .quiet ?_ rfl ?_
    · simp [entered, emitted, hasync]
    · simp [callPromises, suspendedCalls, entered, emitted, hasync]

/-- Evaluated code is on the course, and no link has its turn in it. -/
theorem Walk.course {e : Ending} (h : m.Walk tame depth e m') : Course m [] m' := by
  induction h with
  | refl | fail => exact .nil
  | trans _ _ ih1 ih2 => exact ih1.calm ih2
  | move h => exact h.course
  | slip => exact .quiet rfl rfl rfl rfl
  | @within _ m _ _ scope _ ih =>
    have hunder : Course m [] (m.under scope) := .quiet rfl rfl rfl rfl
    exact (hunder.calm ih).calm (.quiet rfl rfl rfl rfl)
  | suspend hframe _ h => exact .single (.suspend (List.mem_of_mem_head? hframe) h)
  | @defer _ m m' k stmts _ _ ih =>
    refine ih.calm (.single (.quiet rfl rfl ?_))
    rw [callPromises_deferred]
    exact fun _ h => h
  | skip _ _ ih => exact ih
  | @call _ m m' _ f args label line _ h _ _ _ ih | @cut _ m m' _ f args label line _ h ih =>
    have hframes : m.frames ⊆ m'.frames := by
      rw [h.context.2]
      exact List.subset_cons_self _ _
    have hback := callPromises_back hframes
    exact (course_entered m f args _).calm (ih.calm (.single (.quiet rfl rfl hback)))
  | @settled _ m m' m'' f args label line value log _ hasync h _ hsettle ih =>
    have hframes : m.frames ⊆ m'.frames := by
      rw [h.context.2]
      exact List.subset_cons_self _ _
    have hframe : ⟨f, some m.promises.size⟩ ∈ m'.frames := by
      rw [h.context.2]
      simp [entered, emitted, hasync]
    have hid := mem_callPromises_of_frame hframe rfl
    have hback : (((m'.back m).emitted [.pop]).logged log).callPromises ⊆ m'.callPromises :=
      callPromises_back hframes
    refine (course_entered m f args _).calm
      (ih.calm (.single (.finish hid ?_ ?_ hback hsettle))) <;> rfl

theorem course_eval {consumed : Bool} {e : Expr} {v : Value}
    (h : Run.eval (Run.invoke depth) consumed e m = .ok v m') :
    Course m [] m' ∧ m.promises.size ≤ m'.promises.size := by
  have hwalk := (Run.eval_walks (@Run.invoke_walks false depth) consumed e m).walk_of_ok h
  exact ⟨hwalk.course, hwalk.grows.promises⟩

/-! ## Turns are on the course -/

theorem course_resumed (m : Machine) (k : Nat) (l : List Step) :
    Course m [] ((m.resumed (m.continuationAt k)).emitted l) := by
  refine .single (.quiet rfl rfl fun id hid => ?_)
  rcases List.mem_append.1 hid with hid | hid
  · obtain ⟨frame, hframe, hpromise⟩ := List.mem_filterMap.1 hid
    rcases List.mem_cons.1 hframe with rfl | hframe
    · exact mem_callPromises_of_continuation hpromise
    · exact mem_callPromises_of_frame hframe hpromise
  · exact List.mem_append_right _ hid

theorem Serves.course {e : Ending} (h : m.Serves tame t e m') (ht : t.derived = []) :
    Course m [] m' := by
  -- a link would have a promise to settle
  have hlink {l : Link} {callback : Option Expr} {derived : Nat}
      (hreaction : t.reaction = some (.link l callback derived)) : False := by
    rw [Microtask.derived, hreaction] at ht
    cases ht
  have hframes {k : Nat} {label : String} {e : Ending} {m1 : Machine} {depth : Nat}
      (hw : ((m.resumed (m.continuationAt k)).emitted [.push label]).Walk tame depth e m1) :
      m.frames ⊆ m1.frames := by
    rw [hw.context.2]
    exact List.subset_cons_self _ _
  cases h with
  | mark => exact .nil
  | link hreaction => exact (hlink hreaction).elim
  | linkFailed hreaction => exact (hlink hreaction).elim
  | rejected log _ hp hs =>
    have hid := mem_callPromises_of_continuation hp
    have hcalls : (m.logged log).callPromises ⊆ m.callPromises := fun _ h => h
    refine .single (.finish hid ?_ ?_ hcalls hs) <;> rfl
  | abandoned => exact .quiet rfl rfl rfl rfl
  | @stuck k _ _ =>
    have hresumed := course_resumed m k []
    rwa [emitted_nil] at hresumed
  | @cut k label _ m1 _ _ hw | @resumed k label _ m1 _ _ _ hw =>
    -- the call is not over, and settles nothing
    have hback := callPromises_back (hframes hw)
    exact (course_resumed m k _).calm (hw.course.calm (.single (.quiet rfl rfl hback)))
  | @finished k id label value m1 _ log _ _ hw hp _ hs =>
    have hframe : ⟨(m.continuationAt k).function, some id⟩ ∈ m1.frames := by
      rw [hw.context.2, ← hp]
      exact List.mem_cons_self
    have hid := mem_callPromises_of_frame hframe rfl
    have hback : (((m1.back m).emitted [.pop]).logged log).callPromises ⊆ m1.callPromises :=
      callPromises_back (hframes hw)
    refine (course_resumed m k _).calm
      (hw.course.calm (.single (.finish hid ?_ ?_ hback hs))) <;> rfl

/-- The turn of a microtask: at most its own link has a turn. -/
theorem course_runMicrotask (ht : t ∈ m.microtasks.toList) :
    Run.Gives (fun _ m' => ∃ turns ⊆ [(⟨t, m⟩ : LinkTurn)], Course m turns m')
      (Run.runMicrotask t m) := by
  have hother (hderived : t.derived = []) :
      Run.Gives (fun _ m' => ∃ turns ⊆ [(⟨t, m⟩ : LinkTurn)], Course m turns m')
        (Run.runMicrotask t m) :=
    (@Run.runMicrotask_serves false t m (by simp)).imp fun _ _ hs =>
      ⟨[], List.nil_subset _, hs.course hderived⟩
  cases hreaction : t.reaction with
  | none => exact hother (by rw [Microtask.derived, hreaction])
  | some r =>
    cases r with
    | resume k => exact hother (by rw [Microtask.derived, hreaction])
    | link l callback derived =>
      obtain ⟨herror, hok⟩ := ((@Run.roams_callbacks false).runLink t.name t.scope l callback t.state
        t.value).cases m
      rw [Run.runMicrotask, hreaction]
      refine Run.gives_bind
        (fun fault m' h => ⟨[], List.nil_subset _, (herror fault m' h).course⟩) ?_
      rintro ⟨state, value⟩ m1 hrun
      obtain ⟨ps, queue, passed, log, _, hs⟩ := Run.settle_cascade derived state value m1
      have hw := hok _ m1 hrun
      obtain ⟨more, hmore⟩ := hw.grows.microtasks
      have htask : t ∈ m1.microtasks.toList := by
        rw [hmore]
        exact List.mem_append_left _ ht
      simp only [hs]
      -- at the end of its turn the link settles its promise
      have hend : Advance m1 [⟨t, m⟩] _ := .conclude htask hreaction hrun hs
      exact .ok ⟨_, List.Subset.refl _, hw.course.trans (.single hend)⟩

theorem passes_course : Run.Passes fun m m' => ∃ turns, Course m turns m' where
  refl m := ⟨[], .nil⟩
  trans := by
    rintro m m1 m2 ⟨turns1, h1⟩ ⟨turns2, h2⟩
    exact ⟨_, h1.trans h2⟩
  code hcode := by
    obtain ⟨_, _, hw⟩ := hcode.walk
    exact ⟨[], hw.course⟩
  cut log _ := ⟨[], .quiet rfl rfl rfl rfl⟩
  turn := by
    intro m t log ht _
    have hmem : t ∈ ((m.taken.emitted t.steps).logged log).microtasks.toList :=
      Array.mem_toList_iff.2 (Array.mem_of_getElem? ht)
    have htaken : Course m [] ((m.taken.emitted t.steps).logged log) := .quiet rfl rfl rfl rfl
    obtain ⟨_, turns, _, hcourse⟩ := (course_runMicrotask hmem).final
    exact ⟨_, htaken.trans hcourse⟩
  take m id clock part log _ := ⟨[], .quiet rfl rfl rfl rfl⟩

/-! ## Microtasks stay in the queue -/

variable {turns : List LinkTurn}

theorem Advance.microtasks (h : Advance m turns m') :
    ∃ l, m'.microtasks.toList = m.microtasks.toList ++ l := by
  have hsame {m1 : Machine} (heq : m1.microtasks = m.microtasks) :
      ∃ l, m1.microtasks.toList = m.microtasks.toList ++ l :=
    ⟨[], by rw [heq, List.append_nil]⟩
  cases h with
  | quiet _ htasks => exact hsame htasks
  | promise => exact hsame rfl
  | enter _ htasks => exact hsame htasks
  | mark h =>
    obtain ⟨log, rfl⟩ := Run.enqueue_inv h
    exact ⟨_, Array.toList_push⟩
  | suspend _ h => exact (Run.suspend_inv h).2.aside.microtasks
  | attach h => exact (attach_aside h).microtasks
  | finish _ _ htasks _ h =>
    obtain ⟨l, hl⟩ := (aside_of_settle h).microtasks
    exact ⟨l, by rw [hl, htasks]⟩
  | conclude _ _ _ h => exact (aside_of_settle h).microtasks

theorem Course.mem_microtasks (h : Course m turns m') :
    ∀ turn ∈ turns, turn.task ∈ m'.microtasks.toList := by
  induction h with
  | nil => simp
  | snoc _ hstep ih =>
    obtain ⟨l, hl⟩ := hstep.microtasks
    intro turn hturn
    rw [hl]
    refine List.mem_append_left _ ?_
    rcases List.mem_append.1 hturn with hturn | hturn
    · exact ih turn hturn
    · cases hstep with
      | conclude htask =>
        rw [List.mem_singleton.1 hturn]
        exact htask
      | _ => cases hturn

/-! ## Numbers that were given out -/

/-- The promises of calls and of links were made. -/
structure Bounded (m : Machine) : Prop where
  calls : ∀ id ∈ m.callPromises, id < m.promises.size
  waiters : ∀ w ∈ allWaiters m.promises, ∀ id ∈ w.derived, id < m.promises.size
  tasks : ∀ t ∈ m.microtasks.toList, ∀ id ∈ t.derived, id < m.promises.size

end Machine

theorem mem_derived_tasksOf {state : PromiseState} {value : Value} {n : Nat} {ws : List Waiter}
    (h : t ∈ tasksOf state value n ws) :
    ∃ w ∈ ws, t.derived = w.derived ∧ t.name = w.name ∧ t.scope = w.scope ∧
      t.reaction = some w.reaction ∧ t.state = state ∧ t.value = value := by
  induction ws generalizing n with
  | nil => cases h
  | cons w ws ih =>
    rcases List.mem_cons.1 h with rfl | h
    · refine ⟨w, List.mem_cons_self, ?_, rfl, rfl, rfl, rfl, rfl⟩
      cases hw : w.reaction <;> simp [Microtask.derived, Waiter.derived, hw]
    · obtain ⟨w', hw', hrest⟩ := ih h
      exact ⟨w', List.mem_cons_of_mem _ hw', hrest⟩

/-! ## Waiters of one promise -/

theorem mem_waitersAt_settledAt {i : Nat} {state : PromiseState} {value : Value}
    (h : w ∈ waitersAt (settledAt ps id state value) i) : w ∈ waitersAt ps i := by
  rw [waitersAt, settledAt, Array.getElem?_modify] at h
  split at h
  · cases hp : ps[i]? <;> simp [hp] at h
  · exact h

theorem mem_waitersAt_parked {i : Nat} {w' : Waiter}
    (h : w' ∈ waitersAt (ps.modify id fun p => { p with waiters := p.waiters ++ [w] }) i) :
    w' ∈ waitersAt ps i ∨ i = id ∧ w' = w := by
  rw [waitersAt, Array.getElem?_modify] at h
  split at h
  · rename_i hid
    rw [waitersAt]
    cases hp : ps[i]? with
    | none => simp [hp] at h
    | some p =>
      simp only [hp, Option.map_some, Option.getD_some, List.mem_append,
        List.mem_singleton] at h
      exact h.imp_right fun h => ⟨hid.symm, h⟩
  · exact .inl h

theorem waitersAt_push {p : Promise} (hp : p.waiters = []) (i : Nat) :
    waitersAt (ps.push p) i = waitersAt ps i := by
  rw [waitersAt, waitersAt, Array.getElem?_push]
  split
  · rename_i hi
    simp [hi, hp]
  · rfl

namespace Machine

namespace Bounded

variable {m m' : Machine}

theorem start (limit : Nat) (log : Log) : (Machine.start limit log).Bounded where
  calls := by simp [callPromises, suspendedCalls, Machine.start]
  waiters := by simp [allWaiters, Machine.start]
  tasks := by simp [Machine.start]

theorem of_size (h : m.Bounded) (hsize : m.promises.size ≤ m'.promises.size)
    (hwaiters : allWaiters m'.promises ⊆ allWaiters m.promises)
    (htasks : m'.microtasks = m.microtasks)
    (hcalls : ∀ id ∈ m'.callPromises, id < m'.promises.size) : m'.Bounded where
  calls := hcalls
  waiters := fun w hw id hid => Nat.lt_of_lt_of_le (h.waiters w (hwaiters hw) id hid) hsize
  tasks := by
    rw [htasks]
    exact fun t ht id hid => Nat.lt_of_lt_of_le (h.tasks t ht id hid) hsize

theorem placed (h : m.Bounded) (hw : ∀ id ∈ w.derived, id < m.promises.size)
    (hplaced : m.Placed w m') : m'.Bounded := by
  cases hplaced with
  | @parked id p log hp hpending =>
    have hsize : ((m.parked id w).logged log).promises.size = m.promises.size := Array.size_modify
    refine ⟨fun id hid => by rw [hsize]; exact h.calls id hid, fun w' hw' => ?_,
      fun t ht id hid => by rw [hsize]; exact h.tasks t ht id hid⟩
    rw [hsize]
    rcases List.mem_append.1 ((allWaiters_parked hp w).mem_iff.1 hw') with hold | hnew
    · exact h.waiters w' hold
    · rw [List.mem_singleton.1 hnew]
      exact hw
  | queued state value log =>
    refine ⟨h.calls, h.waiters, fun t ht => ?_⟩
    rcases Array.mem_push.1 (Array.mem_toList_iff.1 ht) with hold | rfl
    · exact h.tasks t (Array.mem_toList_iff.2 hold)
    · intro id hid
      refine hw id ?_
      cases hr : w.reaction <;> simp_all [Microtask.derived, Waiter.derived]

theorem settle (h : m.Bounded) {id : Nat} {state : PromiseState} {value : Value}
    (hs : Run.settle id state value m = .ok () m') : m'.Bounded := by
  obtain ⟨ps, queue, passed, log, hc, rfl⟩ := Run.settle_inv hs
  have hsize : ps.size = m.promises.size := by rw [hc.size_eq, settledAt, Array.size_modify]
  -- who waits or is queued now has waited before
  have hold (w : Waiter) (hw : w ∈ queue ++ allWaiters ps) : w ∈ allWaiters m.promises := by
    have hmem : w ∈ queue ++ (passed ++ allWaiters ps) := by
      rcases List.mem_append.1 hw with hw | hw
      · exact List.mem_append_left _ hw
      · exact List.mem_append_right _ (List.mem_append_right _ hw)
    rcases List.mem_append.1 (hc.perm.mem_iff.2 hmem) with hw | hw
    · exact mem_waitersAt hw
    · exact mem_of_settledAt hw
  constructor
  · intro id hid
    change id < ps.size
    rw [hsize]
    exact h.calls id hid
  · intro w hw id hid
    change id < ps.size
    rw [hsize]
    exact h.waiters w (hold w (List.mem_append_right _ hw)) id hid
  · intro t ht id hid
    change id < ps.size
    rw [hsize]
    have ht : t ∈ m.microtasks.toList ++ tasksOf state value m.microtaskCount queue := by
      simpa [released, logged] using ht
    rcases List.mem_append.1 ht with ht | ht
    · exact h.tasks t ht id hid
    · obtain ⟨w, hw, hderived, _⟩ := mem_derived_tasksOf ht
      exact h.waiters w (hold w (List.mem_append_left _ hw)) id (hderived ▸ hid)

end Bounded

/-- Along an advance, the promises of calls and of links are always made ones. -/
theorem Advance.bounded (h : Advance m turns m') (hm : m.Bounded) : m'.Bounded := by
  cases h with
  | quiet hpromises htasks hcalls =>
    refine hm.of_size (by simp [hpromises]) (by simp [hpromises]) htasks ?_
    rw [hpromises]
    exact fun id hid => hm.calls id (hcalls hid)
  | promise state value =>
    refine hm.of_size (by simp [withPromise]) (by simp [withPromise, allWaiters]) rfl ?_
    exact fun id hid => Nat.lt_of_lt_of_le (hm.calls id hid) (by simp [withPromise])
  | enter hpromises htasks hcalls =>
    refine hm.of_size (by simp [hpromises]) (by simp [hpromises, allWaiters]) htasks ?_
    intro id hid
    rw [hpromises, Array.size_push]
    rcases List.mem_cons.1 (hcalls hid) with rfl | hid
    · exact Nat.lt_succ_self _
    · exact Nat.lt_succ_of_lt (hm.calls id hid)
  | mark h =>
    obtain ⟨log, rfl⟩ := Run.enqueue_inv h
    refine ⟨hm.calls, hm.waiters, fun t ht => ?_⟩
    rcases Array.mem_push.1 (Array.mem_toList_iff.1 ht) with hold | rfl
    · exact hm.tasks t (Array.mem_toList_iff.2 hold)
    · simp [Microtask.derived]
  | @suspend m' frame _ target _ hframe h =>
    have hnew : (m.withContinuation frame target).Bounded := by
      refine hm.of_size (Nat.le_refl _) (fun _ h => h) rfl fun id hid => ?_
      exact hm.calls id (callPromises_withContinuation hframe target hid)
    exact hnew.placed (by simp [Waiter.derived]) (Run.suspend_inv h).2
  | attach h =>
    have hnew : (m.withPromise .pending .undefined).Bounded := by
      refine hm.of_size (by simp [withPromise]) (by simp [withPromise, allWaiters]) rfl ?_
      exact fun id hid => Nat.lt_of_lt_of_le (hm.calls id hid) (by simp [withPromise])
    exact hnew.placed (by simp [Waiter.derived, withPromise]) (Run.attach_inv h).2
  | finish hid hpromises htasks hcalls h =>
    refine Bounded.settle (hm.of_size (by simp [hpromises]) (by simp [hpromises]) htasks ?_) h
    rw [hpromises]
    exact fun id hid => hm.calls id (hcalls hid)
  | conclude _ _ _ h => exact hm.settle h

theorem Course.bounded (h : Course m turns m') (hm : m.Bounded) : m'.Bounded := by
  induction h with
  | nil => exact hm
  | snoc _ hstep ih => exact hstep.bounded ih

end Machine

end EventLoop
