/-
  A promise is settled at most once.

  Along every run, states go from one to the next by changes that settle only promises that are
  pending (`Path`).  A call keeps its promise until it ends or is suspended (`Walk.hands`), a task
  that has its turn settles what it owns or hands it on (`Serves.atRest`), and between turns no
  promise is owned by a call (`AtRest`).  A run that has used up its steps may leave a call behind
  that was never ended; but from then on no call is entered and no task has its turn.  The path of
  an operation goes through the states in which its turns begin and end (`Operation.stops`).

  `settled_promise_stays` is about all promises that are not tainted, and `loop_await_settles_again`
  shows what happens to one that is.
-/
import EventLoop.Proofs.Ownership
import Mathlib.Data.List.Chain

namespace EventLoop

open Script

variable {tame : Bool} {depth : Nat} {m m' : Machine} {e : Ending}

namespace Machine

/-! ## Paths -/

/-- A run of changes that settle only pending promises. -/
def Path : Machine → Machine → Prop := Relation.ReflTransGen Once

theorem Full.of_grows (h : m.Full) (hg : Grows m m') : m'.Full := by
  obtain ⟨l, hl, _⟩ := hg.steps
  have hsize := congrArg List.length hl
  rw [List.length_append] at hsize
  change m'.steps.size = m.steps.size + l.length at hsize
  rw [Full] at h ⊢
  rw [hg.limit, hsize]
  exact Nat.le_add_right_of_le h

namespace Path

variable {m m1 m2 m' : Machine}

theorem refl (m : Machine) : m.Path m := Relation.ReflTransGen.refl

theorem trans (h1 : m.Path m1) (h2 : m1.Path m2) : m.Path m2 := Relation.ReflTransGen.trans h1 h2

theorem of_once (h : m.Once m') : m.Path m' := .single h

theorem quiet (hpromises : m'.promises = m.promises) (htasks : m'.microtasks = m.microtasks)
    (hcount : m'.microtaskCount = m.microtaskCount)
    (hcalls : m'.suspendedCalls = m.suspendedCalls) : m.Path m' := by
  refine of_once (.keep (.quiet hpromises htasks hcount hcalls) fun id p hp => ?_)
  exact ⟨p, by rw [hpromises, hp], rfl, rfl⟩

theorem promise (m : Machine) (state : PromiseState) (value : Value) :
    m.Path (m.withPromise state value) :=
  of_once (.keep (.promise state value) (keeps_withPromise m state value))

theorem suspend {frame : Frame} {value : Value} {target : Target} {k : Nat}
    (h : Run.suspend frame value target m = .ok k m') : m.Path m' := by
  refine of_once (.keep (.suspend h) ?_)
  exact (Run.suspend_inv h).2.keeps

theorem move (h : m.Move m') : m.Path m' := by
  cases h with
  | promise state value => exact promise m state value
  | mark name state value hm =>
    refine of_once (.keep (.mark hm) fun id p hp => ?_)
    obtain ⟨log, rfl⟩ := Run.enqueue_inv hm
    exact ⟨p, hp, rfl, rfl⟩
  | attach name l callback state receiver hm =>
    refine of_once (.keep (.attach hm) fun id p hp => ?_)
    obtain ⟨p1, hp1, hstate1, hvalue1⟩ := keeps_withPromise m .pending .undefined id p hp
    obtain ⟨p2, hp2, hstate2, hvalue2⟩ := (Run.attach_inv hm).2.keeps id p1 hp1
    exact ⟨p2, hp2, hstate2.trans hstate1, hvalue2.trans hvalue1⟩
  | _ => exact quiet rfl rfl rfl rfl

/-- Without room for steps no call is entered, and so no promise is settled. -/
theorem walk_of_full (h : m.Walk tame depth e m') (hfull : m.Full) : m.Path m' := by
  induction h with
  | refl m => exact refl m
  | fail m => exact refl m
  | trans h1 _ ih1 ih2 => exact (ih1 hfull).trans (ih2 (hfull.of_grows h1.grows))
  | move h => exact move h
  | slip => exact quiet rfl rfl rfl rfl
  | @within _ m m' _ scope _ ih =>
    have hunder : m.Path (m.under scope) := quiet rfl rfl rfl rfl
    have hback : m'.Path (m'.under m.scope) := quiet rfl rfl rfl rfl
    exact hunder.trans ((ih hfull).trans hback)
  | suspend _ _ h => exact suspend h
  | defer stmts _ _ ih =>
    exact (ih hfull).trans (quiet rfl rfl rfl (suspendedCalls_deferred _ _ stmts))
  | skip _ _ ih => exact ih hfull
  | call hroom => exact absurd hfull (hroom.not_full Nat.two_pos)
  | settled _ hroom => exact absurd hfull (hroom.not_full Nat.two_pos)
  | cut hroom => exact absurd hfull (hroom.not_full Nat.two_pos)

end Path

/-! ## Code hands promises on -/

/-- The promise of the innermost call. -/
def top (m : Machine) : List Nat := (m.frames.head?.bind (·.promise)).toList

theorem top_of_frames (h : m'.frames = m.frames) : m'.top = m.top := by
  rw [top, h]
  rfl

theorem top_of_frames_eq_nil (h : m.frames = []) : m.top = [] := by
  rw [top, h]
  rfl

/-- Only a call of an async function has a promise, the one that it makes. -/
theorem top_entered (m : Machine) (f : Function) (args : List Value) (l : List Step) :
    ((m.emitted l).entered f args).top = if f.isAsync then [m.promises.size] else [] := by
  cases hasync : f.isAsync <;> simp [top, entered, Machine.emitted, hasync]

end Machine

/-- What is left of the promises of a call: one that is suspended has handed its promise on. -/
def Ending.left (e : Ending) (top : List Nat) : List Nat :=
  match e with
  | .suspended _ => []
  | .done | .failed => top

namespace Machine

/-- There is a path from `m` to `m'`, and if calls own the promises `T` in `m` then they own the
    promises `T'` in `m'`. -/
def Hands (T : List Nat) (m : Machine) (T' : List Nat) (m' : Machine) : Prop :=
  Owned T m → m.Path m' ∧ Owned T' m'

namespace Hands

variable {T T1 T2 T' : List Nat} {m m1 m2 m' : Machine}

theorem refl : Hands T m T m := fun h => ⟨.refl m, h⟩

theorem trans (h1 : Hands T m T1 m1) (h2 : Hands T1 m1 T2 m2) : Hands T m T2 m2 := by
  intro h
  obtain ⟨hpath1, howned1⟩ := h1 h
  obtain ⟨hpath2, howned2⟩ := h2 howned1
  exact ⟨hpath1.trans hpath2, howned2⟩

theorem quiet (hpromises : m'.promises = m.promises) (htasks : m'.microtasks = m.microtasks)
    (hcount : m'.microtaskCount = m.microtaskCount) (hcursor : m'.cursor = m.cursor)
    (hcalls : m'.suspendedCalls = m.suspendedCalls) : Hands T m T m' :=
  fun h => ⟨.quiet hpromises htasks hcount hcalls, h.of_eq hpromises htasks hcursor hcalls⟩

theorem same (hpromises : m'.promises = m.promises) (htasks : m'.microtasks = m.microtasks)
    (hcount : m'.microtaskCount = m.microtaskCount) (hcursor : m'.cursor = m.cursor)
    (hconts : m'.continuations = m.continuations) : Hands T m T m' :=
  quiet hpromises htasks hcount hcursor (by rw [suspendedCalls, hconts]; rfl)

theorem settle {id : Nat} {state : PromiseState} {value : Value}
    (hs : Run.settle id state value m = .ok () m') : Hands (id :: T) m T m' := by
  intro h
  obtain ⟨queue, passed, hsettles⟩ := settles_of_settle hs
  obtain ⟨honce, howned⟩ := h.settle hsettles
  exact ⟨.of_once honce, howned⟩

theorem move (h : m.Move m') : Hands T m T m' := by
  refine fun howned => ⟨.move h, ?_⟩
  cases h with
  | promise state value => exact howned.promise state value
  | mark name state value hm =>
    obtain ⟨log, rfl⟩ := Run.enqueue_inv hm
    exact howned.mark name m.scope state value log
  | attach name l callback state receiver hm => exact howned.attach hm
  | _ => exact howned.of_eq rfl rfl rfl rfl

theorem entered (f : Function) (args : List Value) (line : Nat) (label : String) :
    Hands T m (((m.emitted [.highlight line, .push label]).entered f args).top ++ T)
      ((m.emitted [.highlight line, .push label]).entered f args) := by
  cases hasync : f.isAsync with
  | true =>
    rw [top_entered, if_pos hasync]
    have hnew : Hands T m (m.promises.size :: T) (m.withPromise .pending .undefined) :=
      fun h => ⟨.promise m .pending .undefined, h.own_new .undefined⟩
    refine hnew.trans (same ?_ rfl rfl rfl rfl)
    simp [Machine.entered, Machine.emitted, withPromise, hasync]
  | false =>
    rw [top_entered, if_neg (by simp [hasync])]
    refine same ?_ rfl rfl rfl rfl
    simp [Machine.entered, Machine.emitted, hasync]

end Hands

/-- Code keeps the promise of its call, unless it is suspended: then it has handed it to a task. -/
theorem Walk.hands (h : m.Walk true depth e m') (T : List Nat) :
    Hands (m.top ++ T) m (e.left m.top ++ T) m' := by
  induction h generalizing T with
  | refl m => exact .refl
  | fail m => exact .refl
  | trans h1 _ ih1 ih2 =>
    have hrest := ih2 T
    rw [top_of_frames h1.context.2] at hrest
    exact (ih1 T).trans hrest
  | move h => exact .move h
  | slip => exact .same rfl rfl rfl rfl rfl
  | @within _ m m' _ scope _ ih =>
    have hunder : Hands (m.top ++ T) m ((m.under scope).top ++ T) (m.under scope) :=
      .same rfl rfl rfl rfl rfl
    exact hunder.trans ((ih T).trans (.same rfl rfl rfl rfl rfl))
  | @suspend _ m _ _ frame _ _ hframe _ h =>
    have htop : m.top = frame.promise.toList := by rw [top, hframe]; rfl
    rw [htop]
    exact fun howned => ⟨.suspend h, howned.suspend h⟩
  | defer stmts _ _ ih =>
    exact (ih T).trans (.quiet rfl rfl rfl rfl (suspendedCalls_deferred _ _ stmts))
  | @skip _ m m' k h hsteady ih =>
    -- the call goes on with a promise that it has handed on: the promise is tainted
    intro howned
    obtain ⟨hpath, howned'⟩ := ih T howned
    refine ⟨hpath, howned'.taint fun id hid => ?_⟩
    obtain ⟨frame, c, hframe, _, _, hc, hf, hp⟩ := h.suspended_frame
    rw [top, hframe] at hid
    have hpromise : frame.promise = some id := Option.mem_toList.1 hid
    refine ⟨frame.function, ?_, ?_⟩
    · rw [suspendedCalls, List.mem_map]
      exact ⟨c, Array.mem_toList_iff.2 (Array.mem_of_getElem? hc), by rw [hf, hp, hpromise]⟩
    · rw [← Bool.not_eq_true]
      exact fun hbody => Bool.noConfusion (hsteady rfl frame hframe hbody)
  | @call _ m m' e f args label line _ _ hfailed hasync _ ih =>
    have hleft : e.left ((m.emitted [.highlight line, .push label]).entered f args).top = [] := by
      cases e with
      | suspended => rfl
      | failed => exact absurd rfl hfailed
      | done =>
        -- an async call does not end here, and no other has a promise
        rw [Ending.left, top_entered, if_neg fun h => hasync h rfl]
    have hbody := ih (m.top ++ T)
    rw [hleft] at hbody
    exact (Hands.entered f args line label).trans (hbody.trans (.same rfl rfl rfl rfl rfl))
  | @settled _ m m' m'' f args label line value log _ hasync _ _ hsettle ih =>
    have hbody := (Hands.entered f args line label).trans (ih (m.top ++ T))
    rw [top_entered, if_pos hasync] at hbody
    have hpop : Hands (m.promises.size :: (m.top ++ T)) m' (m.promises.size :: (m.top ++ T))
        (((m'.back m).emitted [.pop]).logged log) := .same rfl rfl rfl rfl rfl
    exact hbody.trans (hpop.trans (.settle hsettle))
  | @cut _ m m' e f args label line _ _ ih =>
    refine (Hands.entered f args line label).trans ((ih (m.top ++ T)).trans fun howned => ?_)
    refine ⟨.quiet rfl rfl rfl rfl, Owned.of_eq (howned.release fun id => ?_) rfl rfl rfl rfl⟩
    exact (List.sublist_append_right _ (m.top ++ T)).count_le id

/-! ## Turns hand promises on -/

/-- No code is running and no promise is owned by a call; or there is no room for steps, so that
    none will ever be settled. -/
def AtRest (tame : Bool) (m : Machine) : Prop :=
  m.Full ∨ (tame = true ∧ m.frames = [] ∧ Owned [] m)

theorem promise_continuationAt (m : Machine) (k : Nat) :
    (Reaction.resume k).owned m.suspendedCalls = (m.continuationAt k).promise.toList := by
  rw [Reaction.owned, suspendedCalls, continuationAt, List.getElem?_map, Array.getElem?_toList]
  cases m.continuations[k]? <;> rfl

/-- A task that has its turn settles what it owns, or hands it on. -/
theorem Serves.atRest {t : Microtask} (h : m.Serves true t e m') (hframes : m.frames = [])
    (howned : Owned (t.reaction.toList.flatMap (·.owned m.suspendedCalls)) m) :
    m.Path m' ∧ m'.AtRest true := by
  have hlink {l : Link} {callback : Option Expr} {derived : Nat}
      (ht : t.reaction = some (.link l callback derived)) : Owned (m.top ++ [derived]) m := by
    rw [top_of_frames_eq_nil hframes]
    rw [ht] at howned
    exact howned
  have hresume {k : Nat} (ht : t.reaction = some (.resume k)) :
      Owned (m.continuationAt k).promise.toList m := by
    rw [← promise_continuationAt]
    rw [ht] at howned
    simpa using howned
  -- a resumed call owns the promise that its task has owned
  have hbody {k depth : Nat} {label : String} {e : Ending} {m1 : Machine}
      (ht : t.reaction = some (.resume k))
      (hw : ((m.resumed (m.continuationAt k)).emitted [.push label]).Walk true depth e m1) :
      m.Path m1 ∧ Owned (e.left (m.continuationAt k).promise.toList) m1 := by
    have hpush : Hands (m.continuationAt k).promise.toList m (m.continuationAt k).promise.toList
        ((m.resumed (m.continuationAt k)).emitted [.push label]) := .same rfl rfl rfl rfl rfl
    have hwalk := hw.hands []
    rw [List.append_nil, List.append_nil] at hwalk
    exact hpush.trans hwalk (hresume ht)
  cases h with
  | mark ht =>
    rw [ht] at howned
    exact ⟨.refl m, .inr ⟨rfl, hframes, howned⟩⟩
  | link ht hw hs =>
    obtain ⟨hpath, howned'⟩ := hw.hands [_] (hlink ht)
    rw [Ending.left, top_of_frames_eq_nil hframes] at howned'
    obtain ⟨hpath', howned''⟩ := Hands.settle hs howned'
    have hframes' := (aside_of_settle hs).frames.trans (hw.context.2.trans hframes)
    exact ⟨hpath.trans hpath', .inr ⟨rfl, hframes', howned''⟩⟩
  | linkFailed ht hw =>
    obtain ⟨hpath, howned'⟩ := hw.hands [_] (hlink ht)
    exact ⟨hpath, .inr ⟨rfl, hw.context.2.trans hframes, howned'.release (by simp)⟩⟩
  | @rejected k id _ log ht hp hs =>
    have howned' := hresume ht
    rw [hp] at howned'
    have hnote : Hands [id] m [id] (m.logged log) := .same rfl rfl rfl rfl rfl
    obtain ⟨hpath, howned''⟩ := hnote.trans (.settle hs) howned'
    exact ⟨hpath, .inr ⟨rfl, (aside_of_settle hs).frames.trans hframes, howned''⟩⟩
  | abandoned log ht hp =>
    have howned' := hresume ht
    rw [hp] at howned'
    exact ⟨.quiet rfl rfl rfl rfl, .inr ⟨rfl, hframes, howned'.of_eq rfl rfl rfl rfl⟩⟩
  | stuck ht hfull => exact ⟨.quiet rfl rfl rfl rfl, .inl hfull⟩
  | cut ht hroom hw =>
    obtain ⟨hpath, howned'⟩ := hbody ht hw
    refine ⟨hpath.trans (.quiet rfl rfl rfl rfl), .inr ⟨rfl, hframes, ?_⟩⟩
    exact Owned.of_eq (howned'.release (by simp)) rfl rfl rfl rfl
  | @resumed k _ e _ log ht hroom hw hfailed hp hpop =>
    obtain ⟨hpath, howned'⟩ := hbody ht hw
    have hleft : e.left (m.continuationAt k).promise.toList = [] := by
      cases e with
      | suspended => rfl
      | failed => exact absurd rfl hfailed
      | done => rw [hp rfl]; rfl
    rw [hleft] at howned'
    refine ⟨hpath.trans (.quiet rfl rfl rfl rfl), .inr ⟨rfl, hframes, ?_⟩⟩
    exact howned'.of_eq rfl rfl rfl rfl
  | @finished k id _ _ m1 _ log ht hroom hw hp hpop hs =>
    obtain ⟨hpath, howned'⟩ := hbody ht hw
    rw [Ending.left, hp] at howned'
    have hpopped : Hands [id] m1 [id] (((m1.back m).emitted [.pop]).logged log) :=
      .same rfl rfl rfl rfl rfl
    obtain ⟨hpath', howned''⟩ := hpopped.trans (.settle hs) howned'
    exact ⟨hpath.trans hpath', .inr ⟨rfl, (aside_of_settle hs).frames.trans hframes, howned''⟩⟩

theorem Walk.atRest (h : m.Walk tame depth e m') (hm : m.AtRest tame) :
    m.Path m' ∧ m'.AtRest tame := by
  rcases hm with hfull | ⟨rfl, hframes, howned⟩
  · exact ⟨.walk_of_full h hfull, .inl (hfull.of_grows h.grows)⟩
  · have htop := top_of_frames_eq_nil hframes
    have hands := h.hands []
    rw [htop] at hands
    obtain ⟨hpath, howned'⟩ := hands howned
    have hleft : e.left [] = [] := by cases e <;> rfl
    rw [hleft] at howned'
    exact ⟨hpath, .inr ⟨rfl, h.context.2.trans hframes, howned'⟩⟩

theorem Owned.shown {t : Microtask} (h : Owned [] m) (ht : m.microtasks[m.cursor]? = some t)
    (part : List Step) (log : Log) : m.Path ((m.taken.emitted part).logged log) ∧
      Owned (t.reaction.toList.flatMap (·.owned m.suspendedCalls))
        ((m.taken.emitted part).logged log) := by
  have htaken := h.taken ht
  rw [List.append_nil] at htaken
  exact ⟨.quiet rfl rfl rfl rfl, htaken.of_eq rfl rfl rfl rfl⟩

/-! ## A settled promise stays as it is -/

/-- What holds between operations: what was left of steady bodies is steady, too. -/
def Ready (m : Machine) : Prop := m.Full ∨ (m.frames = [] ∧ Owned [] m ∧ m.SteadyRest)

theorem Ready.code (h : m.Ready) (hcode : m.Executes m') : m.Path m' ∧ m'.Ready := by
  rcases h with hfull | ⟨hframes, howned, hrest⟩
  · -- frames may be left from a failure, but nothing is settled any more
    obtain ⟨_, _, hw⟩ := hcode.walk
    exact ⟨.walk_of_full hw hfull, .inl (hfull.of_grows hw.grows)⟩
  · obtain ⟨_, _, hw⟩ := hcode true fun _ => ⟨hframes, hrest⟩
    obtain ⟨hpath, hatRest⟩ := hw.atRest (.inr ⟨rfl, hframes, howned⟩)
    exact ⟨hpath, hatRest.imp_right fun hidle => ⟨hidle.2.1, hidle.2.2, hw.steadyRest hrest⟩⟩

theorem Full.shown {part : List Step} {log : Log} (h : m.Full) :
    ((m.emitted part).logged log).Full := by
  simp only [Full, logged_steps, limit_emitted, size_emitted] at h ⊢
  exact Nat.le_add_right_of_le h

/-- Every part of a run settles only pending promises, and leaves the state ready for the next. -/
theorem passes_ready : Run.Passes fun m m' => m.Ready → m.Path m' ∧ m'.Ready where
  refl m h := ⟨.refl m, h⟩
  trans h1 h2 h := by
    obtain ⟨hpath, hready⟩ := h1 h
    exact ⟨hpath.trans (h2 hready).1, (h2 hready).2⟩
  code hcode h := h.code hcode
  cut {m t part} log ht h := by
    refine ⟨.quiet rfl rfl rfl rfl, h.imp (fun hfull => ?_) fun hidle => ?_⟩
    · exact Full.shown (m := m.taken) hfull
    · exact ⟨hidle.1, (hidle.2.1.shown ht part log).2.release (by simp), hidle.2.2⟩
  turn {m t} log ht hroom h := by
    obtain ⟨hframes, howned, hrest⟩ := h.resolve_left (hroom.not_full Nat.two_pos)
    obtain ⟨e, hs⟩ := (Run.runMicrotask_serves t ((m.taken.emitted t.steps).logged log)
      fun _ => hrest).final
    obtain ⟨hpath, howned'⟩ := howned.shown ht _ log
    obtain ⟨hpath', hatRest⟩ := hs.atRest hframes howned'
    exact ⟨hpath.trans hpath',
      hatRest.imp_right fun hidle => ⟨hidle.2.1, hidle.2.2, hs.steadyRest hrest⟩⟩
  take m id clock part log _ h := by
    refine ⟨.quiet rfl rfl rfl rfl, h.imp (fun hfull => ?_) fun hidle => ?_⟩
    · exact Full.shown (m := { m.dropped id with clock }) hfull
    · exact ⟨hidle.1, hidle.2.1.of_eq rfl rfl rfl rfl, hidle.2.2⟩

theorem Ready.start (limit : Nat) (log : Log) : (Machine.start limit log).Ready := by
  refine .inr ⟨rfl, .start limit log, fun k c hc => ?_⟩
  simp [Machine.start] at hc

theorem Steadfast.trans {m m1 m2 : Machine} (h1 : m.Steadfast m1) (h2 : m1.Steadfast m2)
    (htaint : ∀ id, m1.Tainted id → m2.Tainted id) : m.Steadfast m2 := by
  intro id p hp hstate hnot
  obtain ⟨p1, hp1, hstate1, hvalue1⟩ := h1 id p hp hstate fun ht => hnot (htaint id ht)
  obtain ⟨p2, hp2, hstate2, hvalue2⟩ := h2 id p1 hp1 (by rwa [hstate1]) hnot
  exact ⟨p2, hp2, hstate2.trans hstate1, hvalue2.trans hvalue1⟩

/-- What is kept from stop to stop is a chain of changes, in which the stops stand in order. -/
theorem Through.chain {ss : List Machine} {m m' : Machine}
    (h : Through (fun m m' => m.Ready → m.Path m' ∧ m'.Ready) ss m m') (hm : m.Ready) :
    ∃ states, (m :: states).IsChain Once ∧ (m :: states).getLast? = some m' ∧
      ss.Sublist states := by
  have hpath {m m' : Machine} (h : m.Path m') :
      ∃ states, (m :: states).IsChain Once ∧ (m :: states).getLast? = some m' := by
    obtain ⟨states, hchain, hlast⟩ := List.exists_isChain_cons_of_relationReflTransGen h
    refine ⟨states, hchain, ?_⟩
    rw [List.getLast?_eq_getLast_of_ne_nil (List.cons_ne_nil _ _), hlast]
  induction ss generalizing m with
  | nil =>
    obtain ⟨states, hchain, hlast⟩ := hpath (h hm).1
    exact ⟨states, hchain, hlast, List.nil_sublist _⟩
  | cons s ss ih =>
    obtain ⟨first, hfirst, hend⟩ := hpath (h.1 hm).1
    obtain ⟨rest, hrest, hlast, hsub⟩ := ih h.2 (h.1 hm).2
    refine ⟨first ++ s :: rest, ?_, ?_, (hsub.cons_cons s).trans (List.sublist_append_right _ _)⟩
    · -- the state in which the first part ends is repeated, by a change of nothing
      rw [← List.cons_append, List.isChain_append, hend]
      refine ⟨hfirst, hrest, ?_⟩
      rintro _ ⟨⟩ _ ⟨⟩
      exact .keep (.quiet rfl rfl rfl rfl) fun id p hp => ⟨p, hp, rfl, rfl⟩
    · rw [← List.cons_append, List.getLast?_append, hlast]
      rfl

/-- What is settled in a state of a chain is so in all states after it. -/
theorem pairwise_steadfast {states : List Machine} (h : states.IsChain Once) :
    states.Pairwise Steadfast := by
  let R (m m' : Machine) : Prop := m.Steadfast m' ∧ ∀ id, m.Tainted id → m'.Tainted id
  have : Trans R R R := ⟨fun h1 h2 => ⟨h1.1.trans h2.1 h2.2, fun id ht => h2.2 id (h1.2 id ht)⟩⟩
  have hchain : states.IsChain R := h.imp fun m m' honce => by
    obtain ⟨created, passed, hchange⟩ := honce.change
    exact ⟨honce.steadfast, fun id => hchange.tainted⟩
  exact hchain.pairwise.imp And.left

end Machine

/-- A promise that is settled stays as it is.  Whatever operations are run, one after the other, the
    states go from one to the next by changes that settle only pending promises, each of them once,
    and so a promise that is settled in one of the states has the same state and the same value in
    all states after it.  Among the states are, in order, those in which a microtask or a callback
    has its turn, those in which a microtask has run, and those after each operation.  This is so for
    every promise, unless it belongs to a call that was suspended and whose body has a loop that
    declares a variable by an `await` in its start. -/
theorem settled_promise_stays (limit : Nat) (log : Log) (ops ops' : List Operation) :
    let m := ops.foldl Machine.after (Machine.start limit log)
    ∃ states, (m :: states).IsChain Machine.Once ∧
      (m :: states).getLast? = some (ops'.foldl Machine.after m) ∧
      (m :: states).Pairwise Machine.Steadfast ∧ (m.stops ops').Sublist states := by
  intro m
  have hm : m.Ready := (Machine.passes_ready.afterAll ops _ (.start limit log)).2
  obtain ⟨states, hchain, hlast, hstops⟩ := (Machine.passes_ready.throughAll ops' m).chain hm
  exact ⟨states, hchain, hlast, Machine.pairwise_steadfast hchain, hstops⟩

/-- The body of the call goes on after the `await` in the start of the loop and returns, which
    settles the promise; when the `await` is over, the body ends once more and the promise is
    settled again, with another value. -/
theorem loop_await_settles_again :
    let source := "async function f() { for (let x = await 1; false; ) {}; return 5 }\nlet p = f()"
    let m := [Operation.run ((readProgram (some source)).toOption.getD default)].foldl Machine.after
      (Machine.start 100 {})
    ∃ p p', m.promises[0]? = some p ∧ p.state = .fulfilled ∧
      (m.after .microtasks).promises[0]? = some p' ∧ p'.value ≠ p.value := by
  intro source m
  -- the value was 5, which is true of a condition, and is no longer
  have hbefore : (m.promises[0]?.any fun p =>
      p.state == .fulfilled && p.value.isTruthy) = true := by decide +kernel
  have hafter : ((m.after .microtasks).promises[0]?.any fun p =>
      !p.value.isTruthy) = true := by decide +kernel
  obtain ⟨p, hp, hvalue⟩ := (Option.any_eq_true _ _).1 hbefore
  obtain ⟨p', hp', hvalue'⟩ := (Option.any_eq_true _ _).1 hafter
  rw [Bool.and_eq_true, beq_iff_eq] at hvalue
  refine ⟨p, p', hp, hvalue.1, hp', fun heq => ?_⟩
  rw [heq, hvalue.2] at hvalue'
  exact Bool.noConfusion hvalue'

end EventLoop
