/-
  The links of a chain have their turns one after the other, whatever else is in the queue.

  A chain is `Afloat` if its first link is in the queue and the other ones are strung behind it.
  The turn of any other microtask leaves it so.  The turn of its first link settles the promise of
  that link, which queues the next link that applies, while the turn lasts (`Afloat.turn`).  So the
  turns of the chain are a relay (`relayed_microtaskTurns`): each of them starts from the settlement
  that the one before it came to.  After the first microtasks of a generation nothing is left of the
  chain (`servings_split`).

  What the callback of a link is called with, and what it returns, is read from its turn by
  `Serving.call?`.
-/
import EventLoop.Proofs.Chain
import EventLoop.Proofs.Queue
import EventLoop.Proofs.Strand

namespace EventLoop

open Script

variable {own : Nat → Bool} {m m' : Machine} {value : Value} {state : PromiseState} {i : Nat}

/-! ## Calls of callbacks -/

/-- The call of a callback: what the callback was given as, its arguments and its result. -/
structure LinkRun where
  callback : Option Expr
  args : List Value
  result : Value

namespace Serving

/-- Takes the microtask from the queue and shows it. -/
def shown (σ : Serving) : Run Unit := do
  discard Run.takeMicrotask
  Run.emitAll σ.task.steps

/-- The call of a callback in the turn of a link, if there is one. -/
def call? (σ : Serving) : Option LinkRun :=
  match σ.task.reaction, σ.shown σ.before with
  | some (.link l callback _), .ok _ m =>
    match Run.callLink σ.task.name σ.task.scope l callback σ.task.value m with
    | .ok (some result) _ => some { callback, args := l.arguments σ.task.value, result }
    | _ => none
  | _, _ => none

/-- In the turn of a link the callback is called.  The microtask is taken from the queue and shown,
    the callback denotes a function, that is called with the arguments that the link gives to it,
    and the promise of the link is settled by what the function returned. -/
def Calls (σ : Serving) (r : LinkRun) : Prop :=
  ∃ l e derived f m1 m2,
    σ.task.reaction = some (.link l (some e) derived) ∧ r.callback = some e ∧
    r.args = l.arguments σ.task.value ∧
    (do σ.shown; Run.resolveCallback e σ.task.scope) σ.before = .ok (some f) m1 ∧
    Run.Calls f r.args (Run.callbackLabel e (σ.task.name ++ " callback")) m1 r.result m2 ∧
    (do
      let v ← Run.settledValue r.result
      Run.settle derived (l.settlement σ.task.state σ.task.value v).1
        (l.settlement σ.task.state σ.task.value v).2) m2 = .ok () σ.after

theorem Runs.shown {σ : Serving} (h : σ.Runs) :
    ∃ m1, σ.shown σ.before = .ok () m1 ∧ Run.runMicrotask σ.task m1 = .ok () σ.after := by
  obtain ⟨m, htake, hserve⟩ := h
  obtain ⟨_, m1, hemit, hrun⟩ := Run.bind_eq_ok hserve
  refine ⟨m1, ?_, hrun⟩
  rw [Serving.shown, Run.bind_apply, Run.discard_apply, htake]
  exact hemit

/-- What is read from the turn of a link as the call of its callback is what happens in the turn. -/
theorem call?_iff {σ : Serving} (h : σ.Runs) (r : LinkRun) : σ.call? = some r ↔ σ.Calls r := by
  obtain ⟨m1, hshown, hrun⟩ := h.shown
  constructor
  · intro hr
    unfold call? at hr
    rw [hshown] at hr
    split at hr
    · rename_i l callback derived _ _ hreaction hm
      cases hm
      split at hr
      · rename_i result m2 hcall
        cases hr
        rcases Run.callLink_inv hcall with ⟨hnone, _⟩ | ⟨e, f, m3, _, rfl, hsome, hresolve, hback⟩
        · cases hnone
        · cases hsome
          refine ⟨l, e, derived, f, m3, m2, hreaction, rfl, rfl, ?_, Run.callBack_iff.1 hback, ?_⟩
          · rw [Run.bind_of_ok hshown]
            exact hresolve
          · rw [Run.runMicrotask, hreaction] at hrun
            obtain ⟨⟨state, value⟩, m4, hlink, hsettle⟩ := Run.bind_eq_ok hrun
            rw [Run.runLink, Run.bind_of_ok hcall] at hlink
            obtain ⟨v, m5, hsettled, hlink⟩ := Run.bind_eq_ok hlink
            obtain ⟨hsettlement, rfl⟩ := EStateM.Result.ok.inj hlink
            rw [Run.bind_of_ok hsettled]
            rw [← hsettlement] at hsettle
            exact hsettle
      · cases hr
    · cases hr
  · obtain ⟨callback, args, result⟩ := r
    rintro ⟨l, e, derived, f, m2, m3, hreaction, rfl, rfl, hresolve, hcall, _⟩
    rw [Run.bind_of_ok hshown] at hresolve
    have hlink : Run.callLink σ.task.name σ.task.scope l (some e) σ.task.value m1 =
        .ok (some result) m3 := by
      rw [Run.callLink, Run.bind_of_ok hresolve]
      dsimp only
      rw [Run.bind_of_ok (Run.callBack_iff.2 hcall)]
      rfl
    simp only [call?, hreaction, hshown, hlink]

theorem reaction_of_call? {σ : Serving} {r : LinkRun} (h : σ.call? = some r) :
    ∃ l derived, σ.task.reaction = some (.link l r.callback derived) := by
  unfold call? at h
  split at h
  · rename_i l callback derived _ m hreaction _
    split at h
    · cases h
      exact ⟨l, derived, hreaction⟩
    · cases h
  · cases h

/-- A link has its turn after a settlement, and comes to a settlement of its own. -/
structure Concludes (σ : Serving) (w : Waiter) (state : PromiseState) (value : Value)
    (state' : PromiseState) (value' : Value) : Prop where
  reaction : σ.task.reaction = some w.reaction
  state_eq : σ.task.state = state
  value_eq : σ.task.value = value
  run : ∃ l callback derived m1 m2, w.reaction = .link l callback derived ∧
    σ.shown σ.before = .ok () m1 ∧
    Run.runLink σ.task.name σ.task.scope l callback state value m1 = .ok (state', value') m2

/-- A link whose callback is a function that returns no promise goes by what it returns. -/
theorem Concludes.of_call {σ : Serving} {w : Waiter} {state' : PromiseState} {value' : Value}
    {c : LinkRun} (h : σ.Concludes w state value state' value') (hc : σ.call? = some c)
    (hresult : c.result.promise? = none) :
    ∃ l derived, w.reaction = .link l c.callback derived ∧ c.args = l.arguments value ∧
      (state', value') = l.settlement state value c.result := by
  obtain ⟨hreaction, hstate, hvalue, l, callback, derived, m1, m2, hw, hshown, hrun⟩ := h
  rw [hw] at hreaction
  obtain ⟨result, m3, hcall, hsettlement⟩ := Run.bind_eq_ok hrun
  simp only [call?, hreaction, hshown, hvalue, hcall] at hc
  cases result with
  | none => cases hc
  | some result =>
    cases hc
    have hsettled : Run.settledValue result m3 = .ok result m3 := by
      cases result <;> first | rfl | cases hresult
    dsimp only at hsettlement
    rw [Run.bind_of_ok hsettled] at hsettlement
    exact ⟨l, derived, hw, rfl, (EStateM.Result.ok.inj hsettlement).1.symm⟩

end Serving

/-! ## Turns -/

/-- A chain on its way: its first link is at the place `i` of the queue, for the settlement given by
    `state` and `value`, no other of its links is in the queue, and the other links are strung
    behind it.  If there are no links, none is in the queue. -/
structure Machine.Afloat (own : Nat → Bool) (ws : List Waiter) (state : PromiseState)
    (value : Value) (i : Nat) (m : Machine) : Prop where
  shielded : m.Shielded own
  strand : ∃ a, Strand own m.promises a ws
  queued : ∀ w ∈ ws.head?, m.cursor ≤ i ∧ w.reaction.runs state = true ∧
    ∃ t, m.microtasks[i]? = some t ∧ t.reaction = some w.reaction ∧ t.state = state ∧
      t.value = value
  only : ∀ j t, m.cursor ≤ j → m.microtasks[j]? = some t → t.isOf own = true → j = i ∧ ws ≠ []

/-- The links of a chain have their turns, from the place `i` of the queue on: each of them starts
    from the settlement of the one before it, those that do not apply have none, and the place of
    the next one is among what is queued in the turn. -/
inductive Relayed : List Waiter → PromiseState → Value → Nat → List Serving → Prop
  | nil (state : PromiseState) (value : Value) (i : Nat) : Relayed [] state value i []
  | turn {w : Waiter} {rest : List Waiter} {state state' : PromiseState} {value value' : Value}
      {i i' : Nat} {σ : Serving} {σs : List Serving} (hplace : σ.before.cursor = i)
      (hruns : w.reaction.runs state = true) (hconcludes : σ.Concludes w state value state' value')
      (hqueued : σ.before.microtasks.size ≤ i')
      (hnext : ∀ τ ∈ σs.head?, i' < σ.after.microtasks.size)
      (h : Relayed (rest.dropWhile (!·.reaction.runs state')) state' value' i' σs) :
      Relayed (w :: rest) state value i (σ :: σs)

theorem Relayed.eq_nil {σs : List Serving} (h : Relayed [] state value i σs) : σs = [] := by
  cases h
  rfl

namespace Machine.Afloat

variable {ws : List Waiter} {state : PromiseState} {value : Value} {i : Nat} {m m' : Machine}

theorem spared (h : m.Afloat own ws state value i) (hshielded : m'.Shielded own)
    (hspares : m.Spares own m') (hcursor : m.cursor ≤ m'.cursor)
    (hturn : ws ≠ [] → m'.cursor ≤ i) : m'.Afloat own ws state value i := by
  obtain ⟨l, hl, hforeign⟩ := hspares.microtasks
  obtain ⟨a, hstrand⟩ := h.strand
  refine ⟨hshielded, ⟨a, hstrand.spared hspares⟩, fun w hw => ?_, fun j t hj ht hown => ?_⟩
  · obtain ⟨_, hruns, t, ht, hreaction⟩ := h.queued w hw
    refine ⟨hturn ?_, hruns, t, getElem?_of_append hl ht, hreaction⟩
    rintro rfl
    cases hw
  · rw [← Array.getElem?_toList, hl, List.getElem?_append] at ht
    split at ht
    · rw [Array.getElem?_toList] at ht
      exact h.only j t (Nat.le_trans hcursor hj) ht hown
    · rw [hforeign t (List.mem_of_getElem? ht)] at hown
      cases hown

theorem walk {tame : Bool} {depth : Nat} {e : Ending} (h : m.Afloat own ws state value i)
    (hw : m.Walk tame depth e m') : m'.Afloat own ws state value i := by
  obtain ⟨hshielded, hspares⟩ := hw.course.spares h.shielded (by simp)
  refine h.spared hshielded hspares (Nat.le_of_eq hw.grows.cursor.symm) fun hws => ?_
  obtain ⟨w, rest, rfl⟩ := List.exists_cons_of_ne_nil hws
  rw [hw.grows.cursor]
  exact (h.queued w rfl).1

/-- The turn of a microtask of others leaves a chain afloat. -/
theorem other {t : Microtask} (h : m.Afloat own ws state value i)
    (ht : m.microtasks[m.cursor]? = some t) (hforeign : t.isOf own = false) (part : List Step)
    (log : Log) : ((m.taken.emitted part).logged log).Afloat own ws state value i ∧
    Run.Gives (fun _ m' => m'.Afloat own ws state value i ∧ m.Spares own m')
      (Run.runMicrotask t ((m.taken.emitted part).logged log)) := by
  -- the first link of the chain is further back in the queue
  have hturn (hws : ws ≠ []) : m.cursor + 1 ≤ i := by
    obtain ⟨w, rest, rfl⟩ := List.exists_cons_of_ne_nil hws
    obtain ⟨hcursor, _, t', ht', hreaction, _⟩ := h.queued w rfl
    rcases Nat.lt_or_eq_of_le hcursor with hlt | rfl
    · exact hlt
    · obtain ⟨a, hstrand⟩ := h.strand
      cases hstrand with
      | cons hw hown =>
        cases ht.symm.trans ht'
        rw [hw] at hreaction
        rw [Microtask.isOf_of_link hreaction, hown] at hforeign
        cases hforeign
  have htaken : Course m [] ((m.taken.emitted part).logged log) := .quiet rfl rfl rfl rfl
  obtain ⟨hshielded, hspares⟩ := htaken.spares h.shielded (by simp)
  have hafloat := h.spared hshielded hspares (Nat.le_succ m.cursor) hturn
  refine ⟨hafloat, ?_⟩
  have hmem : t ∈ ((m.taken.emitted part).logged log).microtasks.toList :=
    Array.mem_toList_iff.2 (Array.mem_of_getElem? ht)
  have hserves := @Run.runMicrotask_serves false t ((m.taken.emitted part).logged log) (by simp)
  refine (hserves.and (course_runMicrotask hmem)).imp fun e m' hturn' => ?_
  obtain ⟨hs, turns, hturns, hcourse⟩ := hturn'
  obtain ⟨hshielded', hspares'⟩ := hcourse.spares hshielded fun turn hmem => by
    rw [List.mem_singleton.1 (hturns hmem)]
    exact hforeign
  have hcursor : m'.cursor = m.cursor + 1 := hs.grows.cursor
  refine ⟨hafloat.spared hshielded' hspares' (Nat.le_of_eq hcursor.symm) fun hws => ?_,
    hspares.trans hspares'⟩
  rw [hcursor]
  exact hturn hws

/-- The promise of a link is settled when nothing of its chain is in the queue: the next link that
    applies is queued. -/
theorem settle {a : Nat} {w : Waiter} {rest : List Waiter} {state' : PromiseState} {value' : Value}
    (h : m.Afloat own [] state value i) (hcursor : m.cursor ≤ m.microtasks.size)
    (hstrand : Strand own m.promises a (w :: rest))
    (hs : Run.settle a state' value' m = .ok () m') :
    m'.Afloat own (rest.dropWhile (!·.reaction.runs state')) state' value' m.microtasks.size := by
  obtain ⟨ps, queue, passed, log, hc, rfl⟩ := Run.settle_inv hs
  have hsize : ps.size = m.promises.size := by rw [hc.size_eq, settledAt, Array.size_modify]
  cases hstrand with
  | @cons _ _ _ others l callback p hw hown hp hpending hwaiters hothers hrest =>
  have hreleased : waitersAt m.promises a = rest.head?.toList ++ others := by
    rw [waitersAt, hp, Option.getD_some, hwaiters]
  -- the promises further down the chain are not touched
  have hbehind : Strand own (settledAt m.promises a state' value') (a + 1) rest := by
    refine hrest.of_eq fun id hid _ => ?_
    rw [settledAt, Array.getElem?_modify, if_neg (by omega)]
  obtain ⟨a', others', hstrand', hqueue, hothers', hapart⟩ := hc.strand hreleased hothers hbehind
    (h.shielded.apart.settledAt a state' value')
  have htasks : ((m.released state' value' ps queue).logged log).microtasks.toList =
      m.microtasks.toList ++ tasksOf state' value' m.microtaskCount queue := by
    simp [released, logged]
  have hlater (n : Nat) : ∀ t ∈ tasksOf state' value' n others', t.isOf own = false :=
    Shielded.tasksOf_foreign hothers'
  refine ⟨⟨h.shielded.calls, hapart, fun id hid => ?_⟩, ⟨a', hstrand'⟩, fun w' hw' => ?_,
    fun j t hj ht hown' => ?_⟩
  · exact Nat.lt_of_lt_of_eq (h.shielded.made id hid) hsize.symm
  · refine ⟨hcursor, ?_, ?_⟩
    · have hhead := List.head?_dropWhile_not (!·.reaction.runs state') rest
      rw [Option.mem_def.1 hw'] at hhead
      simpa using hhead
    · rw [Option.mem_def.1 hw'] at hqueue
      refine ⟨⟨m.microtaskCount + 1, w'.name, w'.scope, some w'.reaction, state', value'⟩, ?_, rfl,
        rfl, rfl⟩
      rw [← Array.getElem?_toList, htasks, ← Array.length_toList,
        List.getElem?_append_right (Nat.le_refl _), Nat.sub_self, hqueue]
      rfl
  · rw [← Array.getElem?_toList, htasks, List.getElem?_append] at ht
    split at ht
    · -- what was in the queue before is not of the chain
      rw [Array.getElem?_toList] at ht
      exact absurd rfl (h.only j t hj ht hown').2
    · rename_i hlt
      rw [Array.length_toList] at hlt ht
      cases hrest' : rest.dropWhile (!·.reaction.runs state') with
      | nil =>
        -- no link applies, so all that is queued is of others
        rw [hrest'] at hqueue
        rw [hqueue] at ht
        rw [hlater _ t (List.mem_of_getElem? ht)] at hown'
        cases hown'
      | cons w' rest' =>
        rw [hrest'] at hqueue
        rw [hqueue] at ht
        -- the next link is queued first, ahead of others
        refine ⟨?_, List.cons_ne_nil _ _⟩
        cases hk : j - m.microtasks.size with
        | zero => omega
        | succ k =>
          rw [hk] at ht
          rw [hlater _ t (List.mem_of_getElem? ht)] at hown'
          cases hown'

/-- The turn of the first link of the chain, which queues the next one that applies. -/
theorem turn {w : Waiter} {rest : List Waiter} {t : Microtask}
    (h : m.Afloat own (w :: rest) state value i) (ht : m.microtasks[m.cursor]? = some t)
    (hown : t.isOf own = true) (hs : Run.serve t m.taken = .ok () m') :
    ∃ state' value' i', Serving.Concludes ⟨t, m, m'⟩ w state value state' value' ∧
      m.cursor = i ∧ m.microtasks.size ≤ i' ∧
      m'.Afloat own (rest.dropWhile (!·.reaction.runs state')) state' value' i' := by
  obtain ⟨hi, _⟩ := h.only m.cursor t (Nat.le_refl _) ht hown
  obtain ⟨_, hruns, t', ht', hreaction, hstate, hvalue⟩ := h.queued w rfl
  rw [← hi, ht] at ht'
  cases ht'
  obtain ⟨a, hstrand⟩ := h.strand
  obtain ⟨l, callback, hw⟩ : ∃ l callback, w.reaction = .link l callback a := by
    cases hstrand with
    | cons hw => exact ⟨_, _, hw⟩
  obtain ⟨_, m1, hemit, hrun⟩ := Run.bind_eq_ok hs
  obtain ⟨log, rfl⟩ : ∃ log, m1 = (m.taken.emitted t.steps).logged log := Run.emitAll_ok hemit
  have hshown : Serving.shown ⟨t, m, m'⟩ m = .ok () ((m.taken.emitted t.steps).logged log) := by
    rw [Serving.shown, Run.bind_apply, Run.discard_apply, Run.takeMicrotask_apply, ht]
    exact hemit
  rw [hw] at hreaction
  rw [Run.runMicrotask, hreaction] at hrun
  obtain ⟨⟨state', value'⟩, m2, hlink, hsettle⟩ := Run.bind_eq_ok hrun
  -- nothing of the chain is in the queue once its first link is taken from it
  have hcourse : Course m [] ((m.taken.emitted t.steps).logged log) := .quiet rfl rfl rfl rfl
  obtain ⟨hshielded, hspares⟩ := hcourse.spares h.shielded (by simp)
  have hempty : ((m.taken.emitted t.steps).logged log).Afloat own [] state value i := by
    refine ⟨hshielded, ⟨a, .nil a⟩, by simp, fun j t' hj ht' hown' => ?_⟩
    have hj : m.cursor + 1 ≤ j := hj
    have hplace := (h.only j t' (Nat.le_of_succ_le hj) ht' hown').1
    omega
  have hroams := (@Run.roams_callbacks false).runLink t.name t.scope l callback t.state t.value
  have hwalk := (hroams.cases _).2 _
    m2 hlink
  have hstrand2 := (hstrand.spared hspares).spared (hwalk.course.spares hshielded (by simp)).2
  have hsize : m.microtasks.size ≤ m2.microtasks.size := size_le_of_append hwalk.grows.microtasks
  have hcursor : m2.cursor ≤ m2.microtasks.size := by
    have hlt : m.cursor < m.microtasks.size := (Array.getElem?_eq_some_iff.1 ht).1
    have hcursor : m2.cursor = m.cursor + 1 := hwalk.grows.cursor
    omega
  refine ⟨state', value', _, ⟨by rw [hw]; exact hreaction, hstate, hvalue, l, callback, a, _, m2,
    hw, hshown, ?_⟩, hi, hsize, (hempty.walk hwalk).settle hcursor hstrand2 hsettle⟩
  rw [← hstate, ← hvalue]
  exact hlink

end Machine.Afloat

/-! ## Drains -/

/-- Nothing of the chain is in the queue, nor will be. -/
def Machine.Calm (own : Nat → Bool) (m : Machine) : Prop := m.Afloat own [] .pending .undefined 0

theorem Machine.Afloat.calm (h : m.Afloat own [] state value i) : m.Calm own :=
  ⟨h.shielded, h.strand, nofun, fun j t hj ht hown => absurd rfl (h.only j t hj ht hown).2⟩

theorem Machine.Calm.foreign (h : m.Calm own) {j : Nat} {t : Microtask} (hj : m.cursor ≤ j)
    (ht : m.microtasks[j]? = some t) : t.isOf own = false := by
  rw [← Bool.not_eq_true]
  exact fun hown => (h.only j t hj ht hown).2 rfl

theorem Machine.Afloat.eq_nil {ws : List Waiter} (h : m.Afloat own ws state value i)
    (ht : m.microtasks[m.cursor]? = none) : ws = [] := by
  by_contra hws
  obtain ⟨w, rest, rfl⟩ := List.exists_cons_of_ne_nil hws
  obtain ⟨hcursor, _, t, ht', _⟩ := h.queued w rfl
  have hlt : i < m.microtasks.size := (Array.getElem?_eq_some_iff.1 ht').1
  have hle : m.microtasks.size ≤ m.cursor := Array.getElem?_eq_none_iff.1 ht
  omega

namespace Run

open Machine

/-- The turns of a chain in a drain of the queue are a relay, and after it nothing is left of the
    chain. -/
theorem relayed_microtaskTurns (budget : Nat) {ws : List Waiter}
    (hm : m.Afloat own ws state value i) (h : microtaskTurns budget m = .ok () m') :
    Relayed ws state value i ((turnServings budget m).filter (·.task.isOf own)) ∧ m'.Calm own := by
  induction budget generalizing m ws state value i with
  | zero =>
    obtain ⟨ht, rfl, _⟩ | ⟨_, _, _, _, hn, _⟩ := turnServings_inv h
    · obtain rfl := hm.eq_nil ht
      exact ⟨.nil state value i, hm.calm⟩
    · cases hn
  | succ budget ih =>
    obtain ⟨ht, rfl, hnone⟩ | ⟨_, t, log, m2, hn, ht, hrun, hserve, h2, hturn⟩ := turnServings_inv h
    · obtain rfl := hm.eq_nil ht
      rw [hnone]
      exact ⟨.nil state value i, hm.calm⟩
    · cases hn
      rw [hturn]
      cases hown : t.isOf own with
      | false =>
        have hm2 := (hm.other ht hown t.steps log).2.of_ok hrun
        rw [List.filter_cons_of_neg (by simp [hown])]
        exact ih hm2.1 h2
      | true =>
        obtain ⟨w, rest, rfl⟩ :=
          List.exists_cons_of_ne_nil (hm.only m.cursor t (Nat.le_refl _) ht hown).2
        obtain ⟨state', value', i', hconcludes, hplace, hqueued, hm2⟩ :=
          hm.turn ht hown hserve
        obtain ⟨hrelayed, hcalm⟩ := ih hm2 h2
        rw [List.filter_cons_of_pos (by simp [hown])]
        refine ⟨.turn hplace (hm.queued w rfl).2.1 hconcludes hqueued (fun τ hτ => ?_)
          hrelayed, hcalm⟩
        -- if there is another turn of the chain, its link was queued in this one
        cases hrest : rest.dropWhile (!·.reaction.runs state') with
        | nil =>
          rw [hrest] at hrelayed
          rw [hrelayed.eq_nil] at hτ
          cases hτ
        | cons w' rest' =>
          rw [hrest] at hm2
          obtain ⟨_, _, t', ht', _⟩ := hm2.queued w' rfl
          exact (Array.getElem?_eq_some_iff.1 ht').1

/-- A chain that has come to an end stays so, through every stage of a run. -/
theorem passes_calm (own : Nat → Bool) :
    Passes fun m m' => m.Calm own → m'.Calm own ∧ m.Spares own m' where
  refl m := fun h => ⟨h, .refl own m⟩
  trans := by
    intro m m1 m2 h1 h2 hm
    obtain ⟨hm1, hspares1⟩ := h1 hm
    obtain ⟨hm2, hspares2⟩ := h2 hm1
    exact ⟨hm2, hspares1.trans hspares2⟩
  code hcode hm := by
    obtain ⟨_, _, hw⟩ := hcode.walk
    exact ⟨Machine.Afloat.walk hm hw, (hw.course.spares hm.shielded (by simp)).2⟩
  cut := by
    intro m t part log ht hm
    have hforeign := hm.foreign (Nat.le_refl _) ht
    have hcourse : Course m [] ((m.taken.emitted part).logged log) := .quiet rfl rfl rfl rfl
    exact ⟨(Machine.Afloat.other hm ht hforeign part log).1,
      (hcourse.spares hm.shielded (by simp)).2⟩
  turn := by
    intro m t log ht _ hm
    have hforeign := hm.foreign (Nat.le_refl _) ht
    obtain ⟨_, hend⟩ := (Machine.Afloat.other hm ht hforeign t.steps log).2.final
    exact hend
  take := by
    intro m id clock part log _ hm
    have hcourse : Course m [] ((Machine.emitted { m.dropped id with clock } part).logged log) :=
      .quiet rfl rfl rfl rfl
    obtain ⟨hshielded, hspares⟩ := hcourse.spares hm.shielded (by simp)
    exact ⟨Machine.Afloat.spared hm hshielded hspares (Nat.le_refl _) (by simp), hspares⟩

/-- The parts of a generation that succeeds: its statements, the first microtasks, and the rest. -/
theorem generate_inv {source : Option String} (h : generate source m = .ok () m') :
    ∃ outcome m0 m1 m2, walkSource source m = .ok outcome m0 ∧
      enter .drainMicrotasks m0 = .ok () m1 ∧ drainMicrotasks m1 = .ok () m2 ∧
      (do
        enter .drainFrames
        drainFrames
        enter .drainTimers
        drainTimers
        enter .done : Run Unit) m2 = .ok () m' := by
  obtain ⟨_, m2, hsource, hrest⟩ := bind_eq_ok h
  obtain ⟨outcome, m0, hwalk, hfirst⟩ := bind_eq_ok hsource
  obtain ⟨_, m1, henter, hdrain⟩ := bind_eq_ok hfirst
  exact ⟨outcome, m0, m1, m2, hwalk, henter, hdrain, hrest⟩

/-- The microtasks that are served: the first ones, and later ones.  A chain that is on its way when
    the statements have run has all its turns among the first. -/
theorem servings_split {source : Option String} {limit : Nat} {log : Log}
    (h : generate source (Machine.start limit log) = .ok () m) :
    ∃ outcome m0 m1 later, walkSource source (Machine.start limit log) = .ok outcome m0 ∧
      enter .drainMicrotasks m0 = .ok () m1 ∧
      servings source (Machine.start limit log) = drainServings m1 ++ later ∧
      ∀ own ws state value i, m0.Afloat own ws state value i →
        (∀ σ ∈ later, σ.task.isOf own = false) ∧
          Relayed ws state value i ((drainServings m1).filter (·.task.isOf own)) := by
  obtain ⟨outcome, m0, m1, m2, hwalk, henter, hdrain, hrest⟩ := generate_inv h
  have hfirst : (do discard (walkSource source); enter .drainMicrotasks : Run Unit)
      (Machine.start limit log) = .ok () m1 := by
    rw [bind_apply, discard_apply, hwalk]
    exact henter
  have hall := servings_generate h
  rw [servings, servingsAfter_of_ok hfirst] at hall ⊢
  refine ⟨outcome, m0, m1, _, hwalk, henter, rfl, fun own ws state value i hm => ?_⟩
  obtain ⟨hrelayed, hcalm⟩ := relayed_microtaskTurns _
    (hm.walk (((@enter_roams false .drainMicrotasks).cases m0).2 () m1 henter)) hdrain
  refine ⟨fun σ hσ => ?_, hrelayed⟩
  have hspares : m2.Spares own m := by
    exact ((passes_calm own).across (((passes_calm own).stages.callbacks trivial).of_ok hrest)
      hcalm).2
  have hcursor : m2.cursor = (drainServings m1).length := by
    have hserved := served_drainMicrotasks hdrain
    have hsource := (@walkSource_leads false source (Machine.start limit log) (by simp)).walk_of_ok
      hwalk
    have hstart : m1.cursor = 0 := by
      cases henter
      exact hsource.grows.cursor
    rw [hserved.cursor, hstart, Nat.zero_add]
  -- a later microtask is behind the first ones, and so it is not of the chain
  obtain ⟨k, hk⟩ := List.getElem?_of_mem hσ
  have htask : m.microtasks.toList[m2.cursor + k]? = some σ.task := by
    rw [← hall, hcursor, List.map_append, List.getElem?_append_right (by simp)]
    simp [hk]
  obtain ⟨l, hl, hforeign⟩ := hspares.microtasks
  rw [hl, List.getElem?_append] at htask
  split at htask
  · rw [Array.getElem?_toList] at htask
    exact hcalm.foreign (Nat.le_add_right _ _) htask
  · exact hforeign σ.task (List.mem_of_getElem? htask)

end Run

end EventLoop
