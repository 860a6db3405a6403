/-
  The picture that the steps of a run draw is true to its state.

  `Store.Replay` shows steps one after the other in a picture, and says that each of them fits.
  `Pictured` relates the picture drawn so far to the state of the run: as many calls are shown as
  are active, the Web APIs show the callbacks that wait, in order of registration, and between two
  turns all queues are empty.  Code keeps it (`Walk.pictured`), and so does a run.

  Calls can be nested `maxCallDepth` deep, and the innermost function can still call a built-in one,
  which shows itself by a push and a pop of its own.  So the bound on the call stack that is shown
  is one more than the bound on active calls.
-/
import EventLoop.Proofs.Invariant
import EventLoop.Store

namespace EventLoop

variable {tame : Bool} {depth : Nat} {id : Nat} {l : List Step} {s s' s1 : Store} {step : Step}
  {items : List QueueItem}

/-! ## Pictures drawn by steps -/

/-- How many items of a list have a number. -/
def QueueItem.occurrences (id : Json) (items : List QueueItem) : Nat :=
  items.countP (·.id.same id)

namespace Store

/-- The picture after some steps; a step that cannot be shown leaves none. -/
def replay? (s : Store) (steps : List Step) : Option Store := steps.foldlM show? s

/-- The items in the queues. -/
def queues (s : Store) : List (List QueueItem) := [s.taskQueue, s.microtaskQueue, s.rafQueue]

/-- The list from which a step of a kind takes an item away. -/
def list? (s : Store) : StepKind → Option (List QueueItem)
  | .webapiRemove => some s.webApis
  | .taskqueueRemove => some s.taskQueue
  | .microtaskRemove => some s.microtaskQueue
  | .rafqueueRemove => some s.rafQueue
  | _ => none

/-- A step can be shown without a trace of doubt: it takes away one thing that is there, and it puts
    a call only onto a stack that has room. -/
structure Fits (s : Store) (step : Step) : Prop where
  push : step.kind = .callstackPush → s.callStack.length ≤ maxCallDepth
  pop : step.kind = .callstackPop → s.callStack ≠ []
  remove : ∀ items, s.list? step.kind = some items → QueueItem.occurrences step.itemId items = 1

/-- Steps that fit are shown one after the other. -/
inductive Replay : Store → List Step → Store → Prop
  | nil (s : Store) : Replay s [] s
  | cons {s s1 s' : Store} {step : Step} {rest : List Step} (hfits : s.Fits step)
      (hshow : s.show? step = some s1) (h : Replay s1 rest s') : Replay s (step :: rest) s'

namespace Replay

variable {s s1 s' : Store} {l l' : List Step}

theorem append (h : Replay s l s1) (h' : Replay s1 l' s') : Replay s (l ++ l') s' := by
  induction h with
  | nil => exact h'
  | cons hfits hshow _ ih => exact .cons hfits hshow (ih h')

theorem replay?_eq (h : Replay s l s') : s.replay? l = some s' := by
  induction h with
  | nil => rfl
  | cons _ hshow _ ih =>
    rw [replay?, List.foldlM_cons, hshow]
    exact ih

/-- The picture at some point, between the steps before it and the steps after it. -/
theorem split (h : Replay s (l ++ l') s') : ∃ s1, Replay s l s1 ∧ Replay s1 l' s' := by
  induction l generalizing s with
  | nil => exact ⟨s, .nil s, h⟩
  | cons step rest ih =>
    cases h with
    | cons hfits hshow h =>
      obtain ⟨s1, hrest, h'⟩ := ih h
      exact ⟨s1, .cons hfits hshow hrest, h'⟩

/-- Each step fits the picture that the steps before it have drawn. -/
theorem fits (h : Replay s l' s') (hl : l ++ [step] <+: l') :
    ∃ s1, s.replay? l = some s1 ∧ s1.Fits step := by
  obtain ⟨rest, rfl⟩ := hl
  rw [List.append_assoc] at h
  obtain ⟨s1, hbefore, hafter⟩ := h.split
  cases hafter with
  | cons hfits _ _ => exact ⟨s1, hbefore.replay?_eq, hfits⟩

end Replay

/-! ## Pushes and pops -/

/-- Only a push and a pop change the height of the call stack, each by one. -/
theorem height_show? (hfits : s.Fits step) (h : s.show? step = some s') :
    s'.callStack.length + (if step.kind = .callstackPop then 1 else 0) =
        s.callStack.length + (if step.kind = .callstackPush then 1 else 0) ∧
      (s.callStack.length ≤ maxCallDepth + 1 → s'.callStack.length ≤ maxCallDepth + 1) := by
  have hpush := hfits.push
  have hpop := hfits.pop
  rw [show?] at h
  cases hkind : step.kind with
  | callstackPush =>
    rw [hkind] at h
    cases h
    have hroom := hpush hkind
    simp only [pushCall, List.length_append, List.length_singleton]
    constructor
    · simp
    · omega
  | callstackPop =>
    rw [hkind] at h
    cases h
    have hne : 0 < s.callStack.length := List.length_pos_iff.2 (hpop hkind)
    simp only [popCall, List.length_dropLast]
    constructor
    · simp
      omega
    · omega
  | unknown label =>
    rw [hkind] at h
    cases h
  | _ =>
    rw [hkind] at h
    cases h
    exact ⟨rfl, id⟩

end Store

namespace Step

/-- How many calls are put onto the call stack. -/
def pushes (steps : List Step) : Nat := steps.countP (·.kind = .callstackPush)

/-- How many calls are taken from the call stack. -/
def pops (steps : List Step) : Nat := steps.countP (·.kind = .callstackPop)

end Step

namespace Store.Replay

/-- The call stack is as high as there are pushes without a pop, and stays within its bound. -/
theorem height (h : Replay s l s') :
    s'.callStack.length + Step.pops l = s.callStack.length + Step.pushes l ∧
      (s.callStack.length ≤ maxCallDepth + 1 → s'.callStack.length ≤ maxCallDepth + 1) := by
  induction h with
  | nil => exact ⟨rfl, id⟩
  | @cons s s1 s' step rest hfits hshow _ ih =>
    obtain ⟨hstep, hbound⟩ := height_show? hfits hshow
    refine ⟨?_, fun hs => ih.2 (hbound hs)⟩
    have hrest := ih.1
    simp only [Step.pops, Step.pushes, List.countP_cons, decide_eq_true_eq] at hrest ⊢
    omega

end Store.Replay

/-! ## Single steps and turns -/

theorem Json.same_nat (a b : Nat) : Json.same (.int a) (.int b) = (a == b) := by
  rw [Json.same, Json.number?, Json.number?]
  · change (some (compare (a : Int) (b : Int)) == some Ordering.eq) = (a == b)
    rw [Bool.eq_iff_iff, beq_iff_eq, beq_iff_eq, Option.some_inj, Std.LawfulEqOrd.compare_eq_iff_eq]
    exact Int.natCast_inj
  all_goals simp

namespace QueueItem

theorem occurrences_alone (id : Nat) (name delay : Json) (h : items = []) :
    occurrences (.int id) (items ++ [⟨.int id, name, delay⟩]) = 1 := by
  subst h
  simp [occurrences, Json.same_nat]

theorem remove_alone (id : Nat) (name delay : Json) (h : items = []) :
    remove (.int id) (items ++ [⟨.int id, name, delay⟩]) = items := by
  subst h
  simp [remove, Json.same_nat]

end QueueItem

/-- How a callback that waits is shown. -/
def Callback.item (cb : Callback) : QueueItem :=
  ⟨.int cb.id, .str cb.kind.api, .int cb.delay⟩

namespace Callback

theorem remove_item (id : Nat) (cbs : List Callback) :
    QueueItem.remove (.int id) (cbs.map item) = (cbs.filter (·.id != id)).map item := by
  have hid : ((fun it : QueueItem => !it.id.same (.int id)) ∘ item) = fun cb => cb.id != id := by
    funext cb
    simp [item, Json.same_nat, bne]
  change (cbs.map item).filter (fun it => !it.id.same (.int id)) = _
  rw [List.filter_map, hid]

/-- A callback that waits is shown once, if no two callbacks have one number. -/
theorem occurrences_item {cbs : List Callback}
    (hincreasing : cbs.Pairwise fun cb cb' => cb.id < cb'.id) (hmem : id ∈ cbs.map (·.id)) :
    QueueItem.occurrences (.int id) (cbs.map item) = 1 := by
  have hnodup : (cbs.map (·.id)).Nodup :=
    List.pairwise_map.2 (hincreasing.imp Nat.ne_of_lt)
  have hcount : QueueItem.occurrences (.int id) (cbs.map item) = (cbs.map (·.id)).count id := by
    rw [QueueItem.occurrences, List.countP_map, List.count, List.countP_map]
    congr 1
    funext cb
    simp [item, Json.same_nat]
  rw [hcount]
  exact List.count_eq_one_of_mem hnodup hmem

end Callback

namespace Store.Replay

variable {s : Store}

theorem single (hfits : s.Fits step) (hshow : s.show? step = some s') :
    Replay s [step] s' := .cons hfits hshow (.nil s')

theorem quiet (hpush : step.kind ≠ .callstackPush) (hpop : step.kind ≠ .callstackPop)
    (hlist : s.list? step.kind = none) (hshow : s.show? step = some s') : Replay s [step] s' := by
  refine single ⟨fun h => absurd h hpush, fun h => absurd h hpop, fun items h => ?_⟩ hshow
  rw [hlist] at h
  cases h

theorem highlight (s : Store) (line : Nat) :
    Replay s [.highlight line] (s.setCurrentLine (.int line)) :=
  quiet nofun nofun rfl rfl

theorem push (name : String) (hroom : s.callStack.length ≤ maxCallDepth) :
    Replay s [.push name] (s.pushCall (.str name)) :=
  single ⟨fun _ => hroom, nofun, nofun⟩ rfl

theorem pop (h : s.callStack ≠ []) : Replay s [.pop] s.popCall :=
  single ⟨nofun, fun _ => h, nofun⟩ rfl

theorem webapiRemove (h : QueueItem.occurrences (.int id) s.webApis = 1) :
    Replay s [.webapiRemove id] (s.removeWebApi (.int id)) := by
  refine single ⟨nofun, nofun, fun items hitems => ?_⟩ rfl
  cases hitems
  exact h

theorem builtin (line : Nat) (label : String) (hroom : s.callStack.length ≤ maxCallDepth)
    (h : Replay ((s.setCurrentLine (.int line)).pushCall (.str label)) l s1)
    (hstack : s1.callStack = s.callStack ++ [.str label]) :
    Replay s ([.highlight line, .push label] ++ (l ++ [.pop])) s1.popCall ∧
      s1.popCall.callStack = s.callStack := by
  have hopen : Replay s [.highlight line, .push label]
      ((s.setCurrentLine (.int line)).pushCall (.str label)) :=
    (highlight s line).append (push label hroom)
  refine ⟨hopen.append (h.append (pop ?_)), ?_⟩
  · rw [hstack]
    simp
  · rw [popCall, hstack, List.dropLast_concat]

theorem visit {add remove : Step} (id : Nat) (name delay : Json) (hitems : items = [])
    (hpush : add.kind ≠ .callstackPush) (hpop : add.kind ≠ .callstackPop)
    (hquiet : s.list? add.kind = none) (hadd : s.show? add = some s1)
    (hlist : s1.list? remove.kind = some (items ++ [⟨.int id, name, delay⟩]))
    (hid : remove.itemId = .int id) (hremove : s1.show? remove = some s) :
    Replay s [add, remove] s := by
  refine (quiet hpush hpop hquiet hadd).append (single ⟨fun h => ?_, fun h => ?_, ?_⟩ hremove)
  · rw [h] at hlist
    cases hlist
  · rw [h] at hlist
    cases hlist
  · intro items' hitems'
    obtain rfl := Option.some.inj (hlist.symm.trans hitems')
    rw [hid]
    exact QueueItem.occurrences_alone id name delay hitems

/-- The turn of a microtask leaves the picture as it was, if no other microtask is shown. -/
theorem microtaskTurn (id : Nat) (name : String) (h : s.microtaskQueue = []) :
    Replay s (Step.microtaskTurn id name) s := by
  refine visit id (.str name) .null h nofun nofun rfl rfl rfl rfl ?_
  exact congrArg (fun queue => some { s with microtaskQueue := queue })
    (QueueItem.remove_alone id (.str name) .null h)

theorem timerTurn (name : String) (h : s.taskQueue = [])
    (hid : QueueItem.occurrences (.int id) s.webApis = 1) :
    Replay s (Step.timerTurn id name) (s.removeWebApi (.int id)) := by
  refine (webapiRemove hid).append (visit id (.str name) .null h nofun nofun rfl rfl rfl rfl ?_)
  exact congrArg (fun queue => some { s.removeWebApi (.int id) with taskQueue := queue })
    (QueueItem.remove_alone id (.str name) .null h)

theorem frameTurn (name : String) (h : s.rafQueue = [])
    (hid : QueueItem.occurrences (.int id) s.webApis = 1) :
    Replay s (Step.frameTurn id name) (s.removeWebApi (.int id)) := by
  refine (webapiRemove hid).append (visit id (.str name) .null h nofun nofun rfl rfl rfl rfl ?_)
  exact congrArg (fun queue => some { s.removeWebApi (.int id) with rafQueue := queue })
    (QueueItem.remove_alone id (.str name) .null h)

end Store.Replay

/-! ## The picture of a state -/

namespace Machine

/-- The steps emitted so far draw the picture `s`, which is true to the state. -/
structure Pictured (m : Machine) (s : Store) : Prop where
  replay : Store.Replay {} m.steps.toList s
  callStack : s.callStack.length = m.frames.length
  webApis : s.webApis = m.callbacks.map Callback.item
  queues : s.queues = [[], [], []]
  /-- Callbacks wait in the order of registration. -/
  increasing : m.callbacks.Pairwise fun cb cb' => cb.id < cb'.id
  counted : ∀ cb ∈ m.callbacks, cb.id ≤ m.timerCount

namespace Pictured

variable {m m' : Machine} {s s' : Store}

theorem start (limit : Nat) (log : Log) : (Machine.start limit log).Pictured {} where
  replay := .nil {}
  callStack := rfl
  webApis := rfl
  queues := rfl
  increasing := .nil
  counted := by simp [Machine.start]

section

variable (h : m.Pictured s)

include h

theorem of_eq (hsteps : m'.steps = m.steps) (hframes : m'.frames = m.frames)
    (hcallbacks : m'.callbacks = m.callbacks) (htimers : m'.timerCount = m.timerCount) :
    m'.Pictured s where
  replay := by rw [hsteps]; exact h.replay
  callStack := by rw [hframes]; exact h.callStack
  webApis := by rw [hcallbacks]; exact h.webApis
  queues := h.queues
  increasing := by rw [hcallbacks]; exact h.increasing
  counted := by rw [hcallbacks, htimers]; exact h.counted

theorem of_aside (ha : m.Aside m') : m'.Pictured s :=
  h.of_eq ha.steps ha.frames ha.callbacks ha.timerCount

/-- More steps are shown, which leave the queues as they are and add nothing to the Web APIs. -/
theorem dwindle (hr : Store.Replay s l s') (hsteps : m'.steps.toList = m.steps.toList ++ l)
    (hstack : s'.callStack.length = m'.frames.length) (hqueues : s'.queues = s.queues)
    (hapis : s'.webApis = m'.callbacks.map Callback.item)
    (hcallbacks : m'.callbacks.Sublist m.callbacks) (htimers : m'.timerCount = m.timerCount) :
    m'.Pictured s' where
  replay := by rw [hsteps]; exact h.replay.append hr
  callStack := hstack
  webApis := hapis
  queues := by rw [hqueues, h.queues]
  increasing := h.increasing.sublist hcallbacks
  counted cb hcb := by rw [htimers]; exact h.counted cb (hcallbacks.subset hcb)

/-- More steps are shown, which leave the queues and the Web APIs as they are. -/
theorem extend (hr : Store.Replay s l s') (hsteps : m'.steps.toList = m.steps.toList ++ l)
    (hstack : s'.callStack.length = m'.frames.length) (hqueues : s'.queues = s.queues)
    (hapis : s'.webApis = s.webApis) (hcallbacks : m'.callbacks = m.callbacks)
    (htimers : m'.timerCount = m.timerCount) : m'.Pictured s' :=
  h.dwindle hr hsteps hstack hqueues (by rw [hapis, hcallbacks, h.webApis]) (hcallbacks ▸ .refl _)
    htimers

theorem pushed (label : String) (hroom : m.frames.length ≤ maxCallDepth)
    (hsteps : m'.steps.toList = m.steps.toList ++ [.push label])
    (hframes : m'.frames.length = m.frames.length + 1)
    (hcallbacks : m'.callbacks = m.callbacks) (htimers : m'.timerCount = m.timerCount) :
    m'.Pictured (s.pushCall (.str label)) := by
  rw [← h.callStack] at hroom
  refine h.extend (.push label hroom) hsteps ?_ rfl rfl hcallbacks htimers
  rw [hframes, Store.pushCall, List.length_append, h.callStack, List.length_singleton]

theorem highlighted (line : Nat) :
    (m.emitted [.highlight line]).Pictured (s.setCurrentLine (.int line)) :=
  h.extend (.highlight s line) (toList_emitted _ _) h.callStack rfl rfl rfl rfl

omit h in
theorem left (h : m'.Pictured s) (hframes : m'.frames.length = m.frames.length + 1) :
    ((m'.back m).emitted [.pop]).Pictured s.popCall := by
  have hlength : s.callStack.length = m.frames.length + 1 := by rw [h.callStack, hframes]
  have hstack : s.callStack ≠ [] := by
    intro hnil
    rw [hnil] at hlength
    cases hlength
  have hheight : s.popCall.callStack.length = m.frames.length := by
    rw [Store.popCall, List.length_dropLast, hlength, Nat.add_sub_cancel]
  exact h.extend (.pop hstack) (toList_emitted _ _) hheight rfl rfl rfl rfl

theorem builtin (line : Nat) (label : String) (hroom : m.frames.length ≤ maxCallDepth)
    (hr : Store.Replay ((s.setCurrentLine (.int line)).pushCall (.str label)) l s1)
    (hstack : s1.callStack = s.callStack ++ [.str label]) (hqueues : s1.queues = s.queues)
    (hapis : s1.webApis = s.webApis) :
    ∃ s', (m.emitted ([.highlight line, .push label] ++ (l ++ [.pop]))).Pictured s' := by
  rw [← h.callStack] at hroom
  obtain ⟨hreplay, hheight⟩ := hr.builtin line label hroom hstack
  have hlength : s1.popCall.callStack.length = m.frames.length := by rw [hheight, h.callStack]
  exact ⟨_, h.extend hreplay (toList_emitted _ _) hlength hqueues hapis rfl rfl⟩

theorem burst (hl : Burst l) (hroom : m.frames.length ≤ maxCallDepth) :
    ∃ s', (m.emitted l).Pictured s' := by
  cases hl with
  | glance line =>
    have hglance : Store.Replay s [.glance line] (s.setCurrentLine (.int line)) :=
      .quiet nofun nofun rfl rfl
    exact ⟨_, h.extend hglance (toList_emitted _ _) h.callStack rfl rfl rfl rfl⟩
  | call line label => exact h.builtin line label hroom (.nil _) rfl rfl rfl
  | console line label message =>
    have hline (s : Store) : Store.Replay s [.console message] (s.addToConsole (.str message)) :=
      .quiet nofun nofun rfl rfl
    exact h.builtin line label hroom (hline _) rfl rfl rfl

theorem register (kind : TimerKind) (callback : Option Script.Expr)
    (delay line : Nat) (hroom : m.frames.length ≤ maxCallDepth) :
    ∃ s', (m.registered kind callback delay line).Pictured s' := by
  let item : QueueItem := ⟨.int (m.timerCount + 1), .str kind.api, .int delay⟩
  let opened := (s.setCurrentLine (.int line)).pushCall (.str (Run.timerLabel kind delay))
  have hadd : Store.Replay opened [.webapiAdd (m.timerCount + 1) kind.api delay]
      (opened.addWebApi item) := .quiet nofun nofun rfl rfl
  rw [← h.callStack] at hroom
  obtain ⟨hreplay, hheight⟩ := hadd.builtin line (Run.timerLabel kind delay) hroom rfl
  refine ⟨(opened.addWebApi item).popCall, ?_, ?_, ?_, h.queues, ?_, ?_⟩
  · change Store.Replay {} (m.emitted _).steps.toList _
    rw [toList_emitted]
    exact h.replay.append hreplay
  · rw [hheight]
    exact h.callStack
  · change s.webApis ++ [item] = (m.callbacks ++ [_]).map Callback.item
    rw [h.webApis, List.map_append]
    rfl
  · refine List.pairwise_append.2 ⟨h.increasing, List.pairwise_singleton _ _, ?_⟩
    intro old hold new hnew
    rw [List.mem_singleton.1 hnew]
    exact Nat.lt_succ_of_le (h.counted old hold)
  · intro cb hcb
    rcases List.mem_append.1 hcb with hold | hnew
    · exact Nat.le_succ_of_le (h.counted cb hold)
    · rw [List.mem_singleton.1 hnew]
      exact Nat.le_refl _

/-- A callback is taken away from the Web APIs, by steps that leave everything else. -/
theorem drop {id : Nat} {l : List Step} (hr : Store.Replay s l s')
    (hsteps : m'.steps.toList = m.steps.toList ++ l)
    (hstack : s'.callStack.length = m'.frames.length)
    (hqueues : s'.queues = s.queues) (hapis : s'.webApis = (s.removeWebApi (.int id)).webApis)
    (hcallbacks : m'.callbacks = m.callbacks.filter (·.id != id))
    (htimers : m'.timerCount = m.timerCount) : m'.Pictured s' := by
  refine h.dwindle hr hsteps hstack hqueues ?_ (hcallbacks ▸ List.filter_sublist) htimers
  rw [hapis, hcallbacks, ← Callback.remove_item, ← h.webApis]
  rfl

theorem occurrences_eq_one (hid : id ∈ m.callbacks.map (·.id)) :
    QueueItem.occurrences (.int id) s.webApis = 1 := by
  rw [h.webApis]
  exact Callback.occurrences_item h.increasing hid

theorem clear {cb : Callback} (line : Nat) (label : String)
    (hcb : cb ∈ m.callbacks) (hroom : m.frames.length ≤ maxCallDepth) :
    ∃ s', ((m.dropped cb.id).emitted
      [.highlight line, .push label, .webapiRemove cb.id, .pop]).Pictured s' := by
  have hid : cb.id ∈ m.callbacks.map (·.id) := List.mem_map_of_mem hcb
  have hremove : Store.Replay ((s.setCurrentLine (.int line)).pushCall (.str label))
      [.webapiRemove cb.id]
      (((s.setCurrentLine (.int line)).pushCall (.str label)).removeWebApi (.int cb.id)) :=
    .webapiRemove (h.occurrences_eq_one hid)
  rw [← h.callStack] at hroom
  obtain ⟨hreplay, hheight⟩ := hremove.builtin line label hroom rfl
  refine ⟨_, h.drop hreplay (toList_emitted _ _) ?_ rfl rfl rfl rfl⟩
  rw [hheight]
  exact h.callStack

theorem move (hmove : Move m m') (hroom : m.frames.length ≤ maxCallDepth) :
    ∃ s', m'.Pictured s' := by
  cases hmove with
  | data | declare | assign | define | nest => exact ⟨s, h.of_eq rfl rfl rfl rfl⟩
  | burst hl _ => exact h.burst hl hroom
  | register kind callback delay line _ => exact h.register kind callback delay line hroom
  | clear line label hcb _ => exact h.clear line label hcb hroom
  | promise state value => exact ⟨s, h.of_aside (aside_withPromise m state value)⟩
  | mark name state value hmark =>
    obtain ⟨log, rfl⟩ := Run.enqueue_inv hmark
    exact ⟨s, h.of_aside (aside_queued m name m.scope none state value log)⟩
  | attach name l callback state receiver hattach =>
    exact ⟨s, h.of_aside (attach_aside hattach)⟩

theorem entered (f : Function) (args : List Value) (line : Nat) (label : String)
    (hroom : m.frames.length ≤ maxCallDepth) :
    ∃ s', ((m.emitted [.highlight line, .push label]).entered f args).Pictured s' := by
  refine ⟨_, (h.highlighted line).pushed label hroom ?_ rfl rfl rfl⟩
  rw [toList_emitted, List.append_assoc]
  exact toList_emitted m [.highlight line, .push label]

end

end Pictured

/-- Code that does not fail keeps the picture true, if as many calls can be nested as the bound on
    active calls leaves. -/
theorem Walk.pictured {m m' : Machine} {e : Ending} (h : m.Walk tame depth e m') (he : e ≠ .failed)
    (hdepth : m.frames.length + depth ≤ maxCallDepth) (hm : m.Pictured s) :
    ∃ s', m'.Pictured s' := by
  induction h generalizing s with
  | refl => exact ⟨s, hm⟩
  | trans h1 _ ih1 ih2 =>
    obtain ⟨s1, hm1⟩ := ih1 (by simp) hdepth hm
    exact ih2 he (h1.context.2 ▸ hdepth) hm1
  | move h => exact hm.move h (by omega)
  | fail | slip | cut => exact absurd rfl he
  | within scope _ ih =>
    obtain ⟨s', hm'⟩ := ih he hdepth (hm.of_eq rfl rfl rfl rfl)
    exact ⟨s', hm'.of_eq rfl rfl rfl rfl⟩
  | @suspend _ m _ _ frame _ target _ _ h =>
    have hnew : (m.withContinuation frame target).Pictured s := hm.of_eq rfl rfl rfl rfl
    exact ⟨s, hnew.of_aside (Run.suspend_inv h).2.aside⟩
  | defer _ _ _ ih =>
    obtain ⟨s', hm'⟩ := ih he hdepth hm
    exact ⟨s', hm'.of_eq rfl rfl rfl rfl⟩
  | skip _ _ ih => exact ih (by simp) hdepth hm
  | @call depth m m' _ f args label line _ h hfailed _ _ ih =>
    -- one more call is shown, with one less that may be nested in it
    obtain ⟨s1, hm1⟩ := hm.entered f args line label (by omega)
    have hframes : m'.frames.length = m.frames.length + 1 := by
      rw [h.context.2]
      rfl
    obtain ⟨s2, hm2⟩ := ih hfailed (by change m.frames.length + 1 + depth ≤ _; omega) hm1
    exact ⟨_, hm2.left hframes⟩
  | @settled depth m m' _ f args label line _ log _ _ h _ hsettle ih =>
    obtain ⟨s1, hm1⟩ := hm.entered f args line label (by omega)
    have hframes : m'.frames.length = m.frames.length + 1 := by
      rw [h.context.2]
      rfl
    obtain ⟨s2, hm2⟩ := ih (by simp) (by change m.frames.length + 1 + depth ≤ _; omega) hm1
    have hlogged : (((m'.back m).emitted [.pop]).logged log).Pictured s2.popCall :=
      (hm2.left hframes).of_eq rfl rfl rfl rfl
    exact ⟨_, hlogged.of_aside (aside_of_settle hsettle)⟩

/-- A microtask that runs while no call is active. -/
theorem Serves.pictured {t : Microtask} {m m' : Machine} (h : m.Serves false t .done m')
    (hframes : m.frames = []) (hm : m.Pictured s) : ∃ s', m'.Pictured s' := by
  have hempty : m.frames.length = 0 := by rw [hframes]; rfl
  -- a function that goes on is the only call on the stack, until its body is left again
  have hresumed {c : Continuation} {label : String} {e : Ending} {m1 : Machine} (log : Log)
      (hw : ((m.resumed c).emitted [.push label]).Walk false (m.resumed c).callBudget e m1)
      (he : e ≠ .failed) : ∃ s', (((m1.back m).emitted [.pop]).logged log).Pictured s' := by
    have hpushed : ((m.resumed c).emitted [.push label]).Pictured (s.pushCall (.str label)) :=
      hm.pushed label (by omega) (toList_emitted _ _) rfl rfl rfl
    have hdepth : ((m.resumed c).emitted [.push label]).frames.length +
        (m.resumed c).callBudget ≤ maxCallDepth := by
      change m.frames.length + 1 + (maxCallDepth - (m.frames.length + 1)) ≤ maxCallDepth
      rw [hempty]
      decide
    obtain ⟨s1, hm1⟩ := hw.pictured he hdepth hpushed
    have hleft : m1.frames.length = m.frames.length + 1 := by
      rw [hw.context.2]
      rfl
    exact ⟨_, (hm1.left hleft).of_eq rfl rfl rfl rfl⟩
  cases h with
  | mark => exact ⟨s, hm⟩
  | link _ hw hs =>
    have hdepth : m.frames.length + m.callBudget ≤ maxCallDepth := by
      rw [callBudget, hempty]
      decide
    obtain ⟨s1, hm1⟩ := hw.pictured (by simp) hdepth hm
    exact ⟨s1, hm1.of_aside (aside_of_settle hs)⟩
  | rejected log _ _ hs =>
    have hlogged : (m.logged log).Pictured s := hm.of_eq rfl rfl rfl rfl
    exact ⟨s, hlogged.of_aside (aside_of_settle hs)⟩
  | abandoned log => exact ⟨s, hm.of_eq rfl rfl rfl rfl⟩
  | resumed log _ _ hw he _ _ => exact hresumed log hw he
  | finished log _ _ hw _ _ hs =>
    obtain ⟨s1, hm1⟩ := hresumed log hw (by simp)
    exact ⟨s1, hm1.of_aside (aside_of_settle hs)⟩

end Machine

/-- A run draws a picture that is true to its state. -/
theorem Run.keeps_pictured : Run.Keeps fun m => m.frames = [] ∧ ∃ s, m.Pictured s := by
  constructor
  case logged =>
    rintro m log ⟨hframes, s, hm⟩
    exact ⟨hframes, s, hm.of_eq rfl rfl rfl rfl⟩
  case walk =>
    rintro m m' e ⟨hframes, s, hm⟩ hw he
    have hdepth : m.frames.length + m.callBudget ≤ maxCallDepth := by
      rw [Machine.callBudget, hframes]
      decide
    exact ⟨hw.context.2.trans hframes, hw.pictured he hdepth hm⟩
  case taken =>
    rintro m t ⟨hframes, s, hm⟩ _
    have hqueue : s.microtaskQueue = [] := by
      have hqueues := hm.queues
      simp only [Store.queues, List.cons.injEq] at hqueues
      exact hqueues.2.1
    refine ⟨hframes, s, ?_⟩
    exact hm.extend (.microtaskTurn t.id t.name hqueue) (Machine.toList_emitted _ _) hm.callStack
      rfl rfl rfl rfl
  case serves =>
    rintro m m' t ⟨hframes, s, hm⟩ hs
    exact ⟨hs.context.2.trans hframes, hs.pictured hframes hm⟩
  case fired =>
    rintro m cb shown clock ⟨hframes, s, hm⟩ hid hshown
    have hqueues := hm.queues
    simp only [Store.queues, List.cons.injEq, and_true] at hqueues
    -- between turns the queues are empty, so the callback is alone in its queue
    have hreplay : Store.Replay s shown (s.removeWebApi (.int cb.id)) := by
      rcases hshown with rfl | rfl
      · exact .frameTurn _ hqueues.2.2 (hm.occurrences_eq_one hid)
      · exact .timerTurn _ hqueues.1 (hm.occurrences_eq_one hid)
    exact ⟨hframes, _, hm.drop hreplay (Machine.toList_emitted _ _) hm.callStack rfl rfl rfl rfl⟩

/-- The picture that the steps of a generation draw, and the state in which the generation ends. -/
theorem Generator.generate_pictured {g : Generator} {source : Option String}
    (h : (g.generate source).1.succeeded = true) :
    ∃ s, (g.generate source).2.machine.Pictured s ∧ (g.generate source).2.machine.frames = [] ∧
      Store.Replay {} (g.generate source).1.steps s := by
  obtain ⟨m, log, hrun, hsteps, hmachine, _⟩ := Generator.generate_succeeded h
  have hstart : (Machine.start g.limit g.machine.log).frames = [] ∧
      ∃ s, (Machine.start g.limit g.machine.log).Pictured s := ⟨rfl, _, .start _ _⟩
  obtain ⟨hframes, s, hm⟩ := Run.keeps_pictured.generate hstart hrun
  rw [hmachine, hsteps]
  exact ⟨s, hm.of_eq rfl rfl rfl rfl, hframes, hm.replay⟩

/-- The steps that hand a callback to the Web APIs are those of the registering tiles. -/
theorem Tile.filter_webapiAdd (T : List Tile) :
    (T.flatMap Tile.steps).filter (·.kind = .webapiAdd) =
      (T.flatMap Tile.registration).map fun cb => .webapiAdd cb.id cb.kind.api cb.delay := by
  induction T with
  | nil => rfl
  | cons t T ih =>
    rw [List.flatMap_cons, List.filter_append, ih, List.flatMap_cons, List.map_append]
    congr 1
    cases t with
    | plain l h =>
      refine List.filter_eq_nil_iff.2 fun s hs => ?_
      have hplain := h s hs
      simp only [Step.isPlain, ne_eq, decide_not, Bool.and_eq_true, Bool.not_eq_true',
        decide_eq_false_iff_not] at hplain
      simp [hplain]
    | _ => rfl

/-! ## Main statements -/

/-- Call-stack steps are well bracketed.  In a generation that succeeds, no prefix of the steps has
    more pops than pushes, or more than 401 pushes without a pop, and all steps together have as
    many pops as pushes.  So replay never takes a call from an empty stack, and the stack is empty
    at the end. -/
theorem callstack_well_bracketed (g : Generator) (source : Option String)
    (h : (g.generate source).1.succeeded = true) :
    let steps := (g.generate source).1.steps
    (∀ l, l <+: steps → Step.pops l ≤ Step.pushes l ∧ Step.pushes l ≤ Step.pops l + 401) ∧
    Step.pushes steps = Step.pops steps ∧
    (∀ l step, l ++ [step] <+: steps → step.kind = .callstackPop →
      ∃ s, Store.replay? {} l = some s ∧ s.callStack ≠ []) ∧
    ∃ s, Store.replay? {} steps = some s ∧ s.callStack = [] := by
  obtain ⟨s, hm, hframes, hreplay⟩ := Generator.generate_pictured h
  have hstack : s.callStack = [] := by
    rw [← List.length_eq_zero_iff, hm.callStack, hframes]
    rfl
  have hheight := hreplay.height.1
  rw [hstack] at hheight
  refine ⟨?_, ?_, ?_, s, hreplay.replay?_eq, hstack⟩
  · rintro l ⟨rest, hrest⟩
    rw [← hrest] at hreplay
    obtain ⟨s1, hbefore, _⟩ := hreplay.split
    obtain ⟨heq, hbound⟩ := hbefore.height
    have hle : s1.callStack.length ≤ 401 := hbound (Nat.zero_le _)
    have hzero : (({} : Store).callStack).length = 0 := rfl
    omega
  · simpa using hheight.symm
  · intro l step hl hkind
    obtain ⟨s1, hs1, hfits⟩ := hreplay.fits hl
    exact ⟨s1, hs1, hfits.pop hkind⟩

/-- A function that awaits, called inside another call and then by a timer. -/
theorem callstack_well_bracketed_await :
    let g := Generator.new 100 0
    let source := some "async function f() { await 1 }; const h = () => f(); h(); setTimeout(f, 5)"
    let steps := (g.generate source).1.steps
    (g.generate source).1.succeeded = true ∧ Step.pushes steps = 6 ∧
      Step.pushes steps = Step.pops steps :=
  have hsucceeded : _ = true := by decide +kernel
  ⟨hsucceeded, by decide +kernel, (callstack_well_bracketed (Generator.new 100 0) _ hsucceeded).2.1⟩

/-- The Web APIs show the callbacks that wait.  In a generation that succeeds, the callbacks that
    are handed to the Web APIs have increasing numbers; a step that takes an item from the Web APIs
    or from a queue finds it there exactly once; a timer or an animation frame enters its queue
    right after it has left the Web APIs, and leaves the queue right after that.  At the end the
    queues are empty, and the Web APIs show the callbacks that are left, in order of registration,
    with their numbers and delays. -/
theorem webApis_show_callbacks (g : Generator) (source : Option String)
    (h : (g.generate source).1.succeeded = true) :
    let steps := (g.generate source).1.steps
    let m := (g.generate source).2.machine
    ((steps.filter (·.kind = .webapiAdd)).Pairwise fun a b =>
      ∃ i j : Nat, a.itemId = .int i ∧ b.itemId = .int j ∧ i < j) ∧
    (∀ l step, l ++ [step] <+: steps → ∃ s, Store.replay? {} l = some s ∧
      ∀ items, s.list? step.kind = some items → QueueItem.occurrences step.itemId items = 1) ∧
    Step.Grouped .taskqueueAdd 1 Step.timerTurn steps ∧
    Step.Grouped .rafqueueAdd 1 Step.frameTurn steps ∧
    ∃ s, Store.replay? {} steps = some s ∧
      s.taskQueue = [] ∧ s.microtaskQueue = [] ∧ s.rafQueue = [] ∧
      s.webApis = m.callbacks.map Callback.item ∧
      m.callbacks.Pairwise fun cb cb' => cb.id < cb'.id := by
  obtain ⟨s, hm, _, hreplay⟩ := Generator.generate_pictured h
  obtain ⟨m, log, hrun, hsteps, _, _⟩ := Generator.generate_succeeded h
  have hqueues := hm.queues
  simp only [Store.queues, List.cons.injEq, and_true] at hqueues
  refine ⟨?_, ?_, ?_, ?_, s, hreplay.replay?_eq, hqueues.1, hqueues.2.1, hqueues.2.2, hm.webApis,
    hm.increasing⟩
  · obtain ⟨due, last, hran, _⟩ := Run.ran_generate source
      (Machine.Booked.start g.limit g.machine.log) hrun
    obtain ⟨T, _, hbooked⟩ := hran.books
    rw [hsteps, hbooked.steps, Tile.filter_webapiAdd, List.pairwise_map]
    exact hbooked.increasing.imp fun hlt => ⟨_, _, rfl, rfl, hlt⟩
  · intro l step hl
    obtain ⟨s1, hs1, hfits⟩ := hreplay.fits hl
    exact ⟨s1, hs1, hfits.remove⟩
  · rw [hsteps]
    exact Run.keeps_timerTurn.generate .nil hrun
  · rw [hsteps]
    exact Run.keeps_frameTurn.generate .nil hrun

/-- A timeout clears one interval and sets another one. -/
theorem webApis_show_callbacks_intervals :
    let g := Generator.new 100 0
    let source := some ("setInterval(f, 4); setInterval(f, 3); requestAnimationFrame(f); " ++
      "setTimeout(() => { clearInterval(1); setInterval(f, 9) }, 5)")
    let m := (g.generate source).2.machine
    (g.generate source).1.succeeded = true ∧
    m.callbacks.map (fun cb => (cb.id, cb.delay)) = [(2, 3), (5, 9)] ∧
    ∃ s, Store.replay? {} (g.generate source).1.steps = some s ∧
      s.webApis = m.callbacks.map Callback.item :=
  have hsucceeded : _ = true := by decide +kernel
  have hshown := (webApis_show_callbacks (Generator.new 100 0) _ hsucceeded).2.2.2.2
  ⟨hsucceeded, by decide +kernel, hshown.imp fun _ hs => ⟨hs.1, hs.2.2.2.2.1⟩⟩

end EventLoop
