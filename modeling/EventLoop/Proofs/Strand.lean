/-
  The links of a chain, strung on one another, and what all other code can do to them.

  The promises of a chain's links are known by their numbers, which are its own.  `Shielded` says
  that no reaction to a promise of others and no call settles one of them.  Then the course of a run
  in which none of the chain's links has its turn spares the chain (`Course.spares`): its promises
  stay as they are, apart from reactions of others that come to wait for them.

  A `Strand` is a list of links, each of which waits for the promise of the one before it.  When the
  first one is released, those that do not apply are passed over, and the first one that does is
  queued ahead of all others that are released (`Cascade.strand`).
-/
import EventLoop.Proofs.Course

namespace EventLoop

open Script

variable {own : Nat → Bool}

/-- The reaction settles none of the promises in question. -/
def Waiter.Foreign (own : Nat → Bool) (w : Waiter) : Prop := ∀ d ∈ w.derived, own d = false

/-- Whether the microtask is that of a link whose promise is one of those in question. -/
def Microtask.isOf (own : Nat → Bool) (t : Microtask) : Bool := t.derived.any own

theorem Microtask.isOf_of_link {t : Microtask} {l : Link} {callback : Option Expr} {d : Nat}
    (h : t.reaction = some (.link l callback d)) : t.isOf own = own d := by
  simp [Microtask.isOf, Microtask.derived, h]

theorem Microtask.isOf_eq_false {t : Microtask} :
    t.isOf own = false ↔ ∀ d ∈ t.derived, own d = false := by
  simp [Microtask.isOf]

/-- Nobody who waits for another promise settles one of those in question. -/
def Apart (own : Nat → Bool) (ps : Array Promise) : Prop :=
  ∀ id, own id = false → ∀ w ∈ waitersAt ps id, w.Foreign own

theorem Apart.settledAt {ps : Array Promise} (h : Apart own ps) (id : Nat) (state : PromiseState)
    (value : Value) : Apart own (settledAt ps id state value) :=
  fun i hi w hw => h i hi w (mem_waitersAt_settledAt hw)

theorem Cascade.foreign {state : PromiseState} {value : Value} {ps ps' : Array Promise}
    {ws queue passed : List Waiter} (h : Cascade state value ps ws ps' queue passed)
    (hps : Apart own ps) (hws : ∀ w ∈ ws, w.Foreign own) :
    Apart own ps' ∧ (∀ w ∈ queue, w.Foreign own) ∧ ∀ id, own id = true → ps'[id]? = ps[id]? := by
  induction h with
  | nil => exact ⟨hps, by simp, fun _ _ => rfl⟩
  | queue _ _ ih =>
    obtain ⟨hw, hws⟩ := List.forall_mem_cons.1 hws
    obtain ⟨hps', hqueue, hsame⟩ := ih hps hws
    exact ⟨hps', List.forall_mem_cons.2 ⟨hw, hqueue⟩, hsame⟩
  | @pass ps _ w ws _ _ l callback derived hw _ _ ih =>
    obtain ⟨hforeign, hws⟩ := List.forall_mem_cons.1 hws
    have hderived : own derived = false := hforeign derived (by simp [Waiter.derived, hw])
    obtain ⟨hps', hqueue, hsame⟩ := ih (hps.settledAt derived state value) fun w' hw' => by
      rcases List.mem_append.1 hw' with hw' | hw'
      · exact hps derived hderived w' hw'
      · exact hws w' hw'
    refine ⟨hps', hqueue, fun id hid => ?_⟩
    have hne : derived ≠ id := by
      rintro rfl
      rw [hderived] at hid
      cases hid
    rw [hsame id hid, EventLoop.settledAt, Array.getElem?_modify, if_neg hne]

/-! ## What others can do -/

namespace Machine

/-- Neither calls nor reactions to promises of others settle the promises in question, all of which
    were made. -/
structure Shielded (own : Nat → Bool) (m : Machine) : Prop where
  calls : ∀ id ∈ m.callPromises, own id = false
  apart : Apart own m.promises
  made : ∀ id, own id = true → id < m.promises.size

/-- The promises in question are as they were, except that others may wait for them, too, and no
    microtask of theirs was queued. -/
structure Spares (own : Nat → Bool) (m m' : Machine) : Prop where
  promises : ∀ id p, own id = true → m.promises[id]? = some p →
    ∃ ws, m'.promises[id]? = some { p with waiters := p.waiters ++ ws } ∧
      ∀ w ∈ ws, w.Foreign own
  microtasks : ∃ l, m'.microtasks.toList = m.microtasks.toList ++ l ∧ ∀ t ∈ l, t.isOf own = false

namespace Spares

variable {m m1 m2 m' : Machine}

theorem of_eq (hpromises : ∀ id, own id = true → m'.promises[id]? = m.promises[id]?)
    (htasks : ∃ l, m'.microtasks.toList = m.microtasks.toList ++ l ∧ ∀ t ∈ l, t.isOf own = false) :
    Spares own m m' :=
  ⟨fun id p hid hp => ⟨[], by rw [hpromises id hid, hp, List.append_nil], by simp⟩, htasks⟩

theorem refl (own : Nat → Bool) (m : Machine) : Spares own m m :=
  of_eq (fun _ _ => rfl) ⟨[], (List.append_nil _).symm, by simp⟩

theorem trans (h1 : Spares own m m1) (h2 : Spares own m1 m2) : Spares own m m2 := by
  constructor
  · intro id p hid hp
    obtain ⟨ws1, hp1, hws1⟩ := h1.promises id p hid hp
    obtain ⟨ws2, hp2, hws2⟩ := h2.promises id _ hid hp1
    refine ⟨ws1 ++ ws2, by rw [hp2, List.append_assoc], fun w hw => ?_⟩
    exact (List.mem_append.1 hw).elim (hws1 w) (hws2 w)
  · obtain ⟨l1, hl1, hforeign1⟩ := h1.microtasks
    obtain ⟨l2, hl2, hforeign2⟩ := h2.microtasks
    refine ⟨l1 ++ l2, by rw [hl2, hl1, List.append_assoc], fun t ht => ?_⟩
    exact (List.mem_append.1 ht).elim (hforeign1 t) (hforeign2 t)

end Spares

namespace Shielded

variable {m m' : Machine}

section

variable (h : m.Shielded own)

include h

theorem of_eq (hpromises : m'.promises = m.promises)
    (htasks : m'.microtasks = m.microtasks) (hcalls : m'.callPromises ⊆ m.callPromises) :
    m'.Shielded own ∧ Spares own m m' := by
  refine ⟨⟨fun id hid => h.calls id (hcalls hid), by rw [hpromises]; exact h.apart,
    by rw [hpromises]; exact h.made⟩, .of_eq (fun id _ => by rw [hpromises]) ⟨[], ?_, by simp⟩⟩
  rw [htasks, List.append_nil]

theorem size : own m.promises.size = false := by
  rw [← Bool.not_eq_true]
  exact fun hown => Nat.lt_irrefl _ (h.made _ hown)

theorem push {p : Promise} (hp : p.waiters = [])
    (hpromises : m'.promises = m.promises.push p) (htasks : m'.microtasks = m.microtasks)
    (hcalls : m'.callPromises ⊆ m.promises.size :: m.callPromises) :
    m'.Shielded own ∧ Spares own m m' := by
  refine ⟨⟨fun id hid => ?_, fun id hid => ?_, fun id hid => ?_⟩, .of_eq (fun id hid => ?_) ?_⟩
  · rcases List.mem_cons.1 (hcalls hid) with rfl | hid
    · exact h.size
    · exact h.calls id hid
  · rw [hpromises, waitersAt_push hp]
    exact h.apart id hid
  · rw [hpromises, Array.size_push]
    exact Nat.lt_succ_of_lt (h.made id hid)
  · rw [hpromises, Array.getElem?_push, if_neg (Nat.ne_of_lt (h.made id hid))]
  · exact ⟨[], by rw [htasks, List.append_nil], by simp⟩

theorem queued {name : String} {scope : Scope} {reaction : Option Reaction}
    {state : PromiseState} {value : Value} (log : Log) (hforeign : Microtask.isOf own
      ⟨m.microtaskCount + 1, name, scope, reaction, state, value⟩ = false) :
    ((m.queued name scope reaction state value).logged log).Shielded own ∧
      Spares own m ((m.queued name scope reaction state value).logged log) := by
  refine ⟨⟨h.calls, h.apart, h.made⟩, .of_eq (fun _ _ => rfl) ⟨_, Array.toList_push, ?_⟩⟩
  simpa using hforeign

theorem placed {w : Waiter} (hw : w.Foreign own) (hplaced : m.Placed w m') :
    m'.Shielded own ∧ Spares own m m' := by
  cases hplaced with
  | @parked id p log hp hpending =>
    refine ⟨⟨h.calls, fun i hi w' hw' => ?_, fun i hi => ?_⟩, ⟨fun i q hi hq => ?_, ?_⟩⟩
    · rcases mem_waitersAt_parked hw' with hold | ⟨_, rfl⟩
      · exact h.apart i hi w' hold
      · exact hw
    · exact Nat.lt_of_lt_of_eq (h.made i hi) Array.size_modify.symm
    · change ∃ ws, (m.promises.modify id _)[i]? = _ ∧ _
      rw [Array.getElem?_modify, hq]
      split
      · exact ⟨[w], rfl, by simpa using hw⟩
      · exact ⟨[], by rw [List.append_nil], by simp⟩
    · exact ⟨[], (List.append_nil _).symm, by simp⟩
  | queued state value log =>
    refine h.queued log (Microtask.isOf_eq_false.2 fun d hd => hw d ?_)
    cases hr : w.reaction <;> simp_all [Microtask.derived, Waiter.derived]

omit h in
theorem tasksOf_foreign {state : PromiseState} {value : Value} {n : Nat} {ws : List Waiter}
    (h : ∀ w ∈ ws, w.Foreign own) : ∀ t ∈ tasksOf state value n ws, t.isOf own = false := by
  intro t ht
  obtain ⟨w, hw, hderived, _⟩ := mem_derived_tasksOf ht
  rw [Microtask.isOf_eq_false, hderived]
  exact h w hw

theorem settle {id : Nat} {state : PromiseState} {value : Value}
    (hid : own id = false) (hs : Run.settle id state value m = .ok () m') :
    m'.Shielded own ∧ Spares own m m' := by
  obtain ⟨ps, queue, passed, log, hc, rfl⟩ := Run.settle_inv hs
  obtain ⟨hps, hqueue, hsame⟩ := hc.foreign (h.apart.settledAt id state value) (h.apart id hid)
  have hsize : ps.size = m.promises.size := by rw [hc.size_eq, settledAt, Array.size_modify]
  refine ⟨⟨h.calls, hps, fun i hi => ?_⟩, .of_eq (fun i hi => ?_)
    ⟨tasksOf state value m.microtaskCount queue, by simp [released, logged],
      tasksOf_foreign hqueue⟩⟩
  · change i < ps.size
    rw [hsize]
    exact h.made i hi
  · have hne : id ≠ i := by
      rintro rfl
      rw [hid] at hi
      cases hi
    change ps[i]? = _
    rw [hsame i hi, settledAt, Array.getElem?_modify, if_neg hne]

end

end Shielded

/-- Others do not get at the promises in question. -/
theorem Advance.spares {m m' : Machine} {turns : List LinkTurn} (h : Advance m turns m')
    (hm : m.Shielded own) (hturns : ∀ turn ∈ turns, turn.task.isOf own = false) :
    m'.Shielded own ∧ Spares own m m' := by
  cases h with
  | quiet hpromises htasks hcalls => exact hm.of_eq hpromises htasks hcalls
  | promise state value => exact hm.push rfl rfl rfl (List.subset_cons_self _ _)
  | enter hpromises htasks hcalls => exact hm.push rfl hpromises htasks hcalls
  | mark h =>
    obtain ⟨log, rfl⟩ := Run.enqueue_inv h
    exact hm.queued log rfl
  | @suspend m' frame _ target _ hframe h =>
    obtain ⟨hm1, hspares⟩ := @Shielded.of_eq own m (m.withContinuation frame target) hm rfl rfl
      (callPromises_withContinuation hframe target)
    obtain ⟨hm', hspares'⟩ := hm1.placed (by simp [Waiter.Foreign, Waiter.derived])
      (Run.suspend_inv h).2
    exact ⟨hm', hspares.trans hspares'⟩
  | attach h =>
    obtain ⟨hm1, hspares⟩ := @Shielded.push own m (m.withPromise .pending .undefined) hm
      { state := .pending, value := .undefined } rfl rfl rfl (List.subset_cons_self _ _)
    obtain ⟨hm', hspares'⟩ := hm1.placed (by simpa [Waiter.Foreign, Waiter.derived] using hm.size)
      (Run.attach_inv h).2
    exact ⟨hm', hspares.trans hspares'⟩
  | finish hid hpromises htasks hcalls h =>
    obtain ⟨hm1, hspares⟩ := hm.of_eq hpromises htasks hcalls
    obtain ⟨hm', hspares'⟩ := hm1.settle (hm.calls _ hid) h
    exact ⟨hm', hspares.trans hspares'⟩
  | @conclude turn _ _ _ _ _ _ htask hreaction hrun h =>
    have hforeign := hturns turn (List.mem_singleton.2 rfl)
    rw [Microtask.isOf_of_link hreaction] at hforeign
    exact hm.settle hforeign h

theorem Course.spares {m m' : Machine} {turns : List LinkTurn} (h : Course m turns m')
    (hm : m.Shielded own) (hturns : ∀ turn ∈ turns, turn.task.isOf own = false) :
    m'.Shielded own ∧ Spares own m m' := by
  induction h with
  | nil => exact ⟨hm, .refl own m⟩
  | snoc _ hstep ih =>
    obtain ⟨hm1, hspares⟩ := ih fun turn hturn => hturns turn (List.mem_append_left _ hturn)
    obtain ⟨hm', hspares'⟩ := hstep.spares hm1 fun turn hturn =>
      hturns turn (List.mem_append_right _ hturn)
    exact ⟨hm', hspares.trans hspares'⟩

end Machine

/-! ## Strands -/

/-- Links, each of which waits for the promise of the one before it.  Their promises are pending and
    have consecutive numbers from `a` on, and each link is the first to wait where it does. -/
inductive Strand (own : Nat → Bool) (ps : Array Promise) : Nat → List Waiter → Prop
  | nil (a : Nat) : Strand own ps a []
  | cons {a : Nat} {w : Waiter} {rest others : List Waiter} {l : Link} {callback : Option Expr}
      {p : Promise} (hw : w.reaction = .link l callback a) (hown : own a = true)
      (hp : ps[a]? = some p) (hpending : p.state = .pending)
      (hwaiters : p.waiters = rest.head?.toList ++ others) (hothers : ∀ w ∈ others, w.Foreign own)
      (h : Strand own ps (a + 1) rest) : Strand own ps a (w :: rest)

namespace Strand

variable {ps ps' : Array Promise} {a : Nat} {ws : List Waiter}

/-- A strand depends on the promises from its first one on. -/
theorem of_eq (h : Strand own ps a ws)
    (hps : ∀ id, a ≤ id → own id = true → ps'[id]? = ps[id]?) : Strand own ps' a ws := by
  induction h with
  | nil => exact .nil _
  | cons hw hown hp hpending hwaiters hothers _ ih =>
    refine .cons hw hown ?_ hpending hwaiters hothers (ih fun id hid => hps id (by omega))
    rw [hps _ (Nat.le_refl _) hown, hp]

theorem spared {m m' : Machine} (h : Strand own m.promises a ws) (hs : m.Spares own m') :
    Strand own m'.promises a ws := by
  induction h with
  | nil => exact .nil _
  | cons hw hown hp hpending hwaiters hothers _ ih =>
    obtain ⟨more, hp', hmore⟩ := hs.promises _ _ hown hp
    have hwaiters' := congrArg (· ++ more) hwaiters
    rw [List.append_assoc] at hwaiters'
    refine .cons hw hown hp' hpending hwaiters' (fun w hw => ?_) ih
    exact (List.mem_append.1 hw).elim (hothers w) (hmore w)

end Strand

/-- The first link of a strand is released, ahead of others.  The links that do not apply are passed
    over; the first one that does is queued, ahead of others, and with it the rest is a strand. -/
theorem Cascade.strand {state : PromiseState} {value : Value} {ps ps' : Array Promise}
    {released queue passed : List Waiter} (h : Cascade state value ps released ps' queue passed)
    {a : Nat} {ws others : List Waiter} (hreleased : released = ws.head?.toList ++ others)
    (hothers : ∀ w ∈ others, w.Foreign own) (hstrand : Strand own ps a ws) (hps : Apart own ps) :
    ∃ a' others', let rest := ws.dropWhile (!·.reaction.runs state)
      Strand own ps' a' rest ∧ queue = rest.head?.toList ++ others' ∧
      (∀ w ∈ others', w.Foreign own) ∧ Apart own ps' := by
  induction h generalizing a ws others with
  | nil ps =>
    obtain ⟨hhead, rfl⟩ := List.append_eq_nil_iff.1 hreleased.symm
    cases ws with
    | nil => exact ⟨a, [], .nil a, rfl, by simp, hps⟩
    | cons w ws => cases hhead
  | @queue ps ps' w released queue passed hruns hc ih =>
    cases hstrand with
    | nil =>
      have hforeign : ∀ w' ∈ w :: released, w'.Foreign own := by
        rw [hreleased]
        exact hothers
      obtain ⟨hps', hqueue, _⟩ := (Cascade.queue hruns hc).foreign hps hforeign
      exact ⟨a, w :: queue, .nil a, rfl, hqueue, hps'⟩
    | cons hw hown hp hpending hwaiters hothers' hrest =>
      rename_i w' rest _ _ _ _
      obtain ⟨rfl, rfl⟩ : w = w' ∧ released = others := by simpa using hreleased
      -- the first link applies, and the strand behind it is left alone
      obtain ⟨hps', hqueue, hsame⟩ := hc.foreign hps hothers
      have hkeep : (w :: rest).dropWhile (!·.reaction.runs state) = w :: rest := by
        rw [List.dropWhile_cons_of_neg (by simp [hruns])]
      dsimp only
      rw [hkeep]
      have hall : Strand own ps a (w :: rest) :=
        .cons hw hown hp hpending hwaiters hothers' hrest
      exact ⟨a, queue, hall.of_eq fun id _ hid => hsame id hid, rfl, hqueue, hps'⟩
  | @pass ps ps' w released queue passed l callback derived hlink hruns hc ih =>
    cases hstrand with
    | nil =>
      have hforeign : ∀ w' ∈ w :: released, w'.Foreign own := by
        rw [hreleased]
        exact hothers
      obtain ⟨hps', hqueue, _⟩ := (Cascade.pass hlink hruns hc).foreign hps hforeign
      exact ⟨a, queue, .nil a, rfl, hqueue, hps'⟩
    | cons hw hown hp hpending hwaiters hothers' hrest =>
      rename_i w' rest more _ _ p
      obtain ⟨rfl, rfl⟩ : w = w' ∧ released = others := by simpa using hreleased
      rw [hlink] at hw
      cases hw
      have hdrop : (w :: rest).dropWhile (!·.reaction.runs state) =
          rest.dropWhile (!·.reaction.runs state) := by
        rw [List.dropWhile_cons_of_pos (by simp [hlink, Reaction.runs, hruns])]
      dsimp only
      rw [hdrop]
      -- the first link hands its settlement on, which releases the next one
      refine @ih (derived + 1) rest (more ++ released) ?_ (fun w' hw' => ?_) ?_
        (hps.settledAt derived state value)
      · rw [waitersAt, hp, Option.getD_some, hwaiters, List.append_assoc]
      · exact (List.mem_append.1 hw').elim (hothers' w') (hothers w')
      · refine hrest.of_eq fun id hid _ => ?_
        rw [settledAt, Array.getElem?_modify, if_neg (by omega)]

end EventLoop
