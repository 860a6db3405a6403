/-
  Chains that are started one after the other go on in rounds, one link of each chain at a time.

  Turns are told apart by their places in the queue.  What is queued in a turn is in the queue
  before the next turn (`Precedes`), and each turn of a chain but the first stands among what was
  queued in the one before it (`Queues`).  If one turn is behind another one in the queue when that
  has its turn, then so it is with the turns that follow in their chains (`AheadOf.next`).  So all
  turns of a round stand in the order of the chains, and in front of all turns of later rounds
  (`pairwise_inRounds`).

  Statements that are chains of `then` links put these on their way one behind the other
  (`Convoy`, `convoy_execAll`), and no link of theirs is left out or passed over.
-/
import EventLoop.Proofs.Launch
import Mathlib.Data.List.Pairwise
import Mathlib.Data.List.Sort

namespace EventLoop

open Script

variable {a e i n : Nat} {cs : List WrittenChain} {m : Machine} {σs : List Serving}

/-! ## Rounds -/

section

variable {α β : Type}

/-- The first items of some lists, then the second ones, and so on, for `n` rounds. -/
def inRounds (n : Nat) (xss : List (List α)) : List α :=
  (List.range n).flatMap fun j => xss.filterMap (·[j]?)

theorem mem_inRounds {xss : List (List α)} {x : α} :
    x ∈ inRounds n xss ↔ ∃ j < n, ∃ xs ∈ xss, xs[j]? = some x := by
  simp [inRounds]

theorem map_inRounds (n : Nat) (xss : List (List α)) (f : α → β) :
    (inRounds n xss).map f = inRounds n (xss.map (·.map f)) := by
  rw [inRounds, inRounds, List.map_flatMap]
  refine congrArg (List.flatMap · _) (funext fun j => ?_)
  rw [List.map_filterMap, List.filterMap_map]
  refine congrArg (List.filterMap · _) (funext fun xs => ?_)
  exact (List.getElem?_map ..).symm

end

/-! ## Order of turns -/

namespace Serving

variable {σ σ' τ τ' : Serving} {D A B : List Serving} {j : Nat}

/-- The one has its turn before the other: it is further in front in the queue, and what is queued
    in its turn is in the queue when the other one is taken. -/
def Precedes (σ τ : Serving) : Prop :=
  σ.before.cursor < τ.before.cursor ∧ σ.after.microtasks.size ≤ τ.before.microtasks.size

instance : Std.Irrefl Precedes := ⟨fun _ h => Nat.lt_irrefl _ h.1⟩

instance : Std.Antisymm Precedes := ⟨fun _ _ h h' => absurd h.1 (Nat.lt_asymm h'.1)⟩

/-- The other one is queued in the turn of the one. -/
def Queues (σ τ : Serving) : Prop :=
  σ.before.microtasks.size ≤ τ.before.cursor ∧ τ.before.cursor < σ.after.microtasks.size

/-- When the one has its turn, the other is behind it in the queue. -/
def AheadOf (σ τ : Serving) : Prop :=
  σ.before.cursor < τ.before.cursor ∧ τ.before.cursor < σ.before.microtasks.size

theorem precedes_of_lt (hD : D.Pairwise Precedes) (hσ : σ ∈ D) (hτ : τ ∈ D)
    (h : σ.before.cursor < τ.before.cursor) : σ.Precedes τ := by
  obtain ⟨i, hi, rfl⟩ := List.getElem_of_mem hσ
  obtain ⟨j, hj, rfl⟩ := List.getElem_of_mem hτ
  rw [List.pairwise_iff_getElem] at hD
  rcases Nat.lt_trichotomy i j with hlt | rfl | hgt
  · exact hD i j hi hj hlt
  · exact absurd h (Nat.lt_irrefl _)
  · exact absurd h (Nat.lt_asymm (hD j i hj hi hgt).1)

theorem AheadOf.next (h : σ.AheadOf τ) (hσ : σ.Queues σ') (hτ : τ.Queues τ')
    (hD : D.Pairwise Precedes) (hmem : σ ∈ D ∧ σ' ∈ D ∧ τ ∈ D) : σ'.AheadOf τ' := by
  obtain ⟨hlt, hroom⟩ := h
  obtain ⟨hσ1, hσ2⟩ := hσ
  obtain ⟨hτ1, hτ2⟩ := hτ
  have hfirst : σ.Precedes τ := precedes_of_lt hD hmem.1 hmem.2.2 hlt
  have hsecond : τ.Precedes σ' := precedes_of_lt hD hmem.2.2 hmem.2.1 (by omega)
  exact ⟨by have := hfirst.2; omega, by have := hsecond.2; omega⟩

theorem queues_getElem? (h : A.IsChain Queues) (hσ : A[j]? = some σ) (hσ' : A[j + 1]? = some σ') :
    σ.Queues σ' := by
  obtain ⟨hj, rfl⟩ := List.getElem?_eq_some_iff.1 hσ
  obtain ⟨hj', rfl⟩ := List.getElem?_eq_some_iff.1 hσ'
  exact List.isChain_iff_getElem.1 h j hj'

/-- If the first turn of one chain is ahead of that of another, each turn is ahead of the one of the
    same round. -/
theorem aheadOf_getElem? (hD : D.Pairwise Precedes) (hA : A.IsChain Queues) (hB : B.IsChain Queues)
    (hAD : A ⊆ D) (hBD : B ⊆ D) (hfirst : ∀ σ ∈ A.head?, ∀ τ ∈ B.head?, σ.AheadOf τ)
    (hσ : A[j]? = some σ) (hτ : B[j]? = some τ) : σ.AheadOf τ := by
  induction j generalizing σ τ with
  | zero =>
    rw [← List.head?_eq_getElem?] at hσ hτ
    exact hfirst σ hσ τ hτ
  | succ j ih =>
    -- the turns of the round before
    have hj := (List.getElem?_eq_some_iff.1 hσ).1
    have hj' := (List.getElem?_eq_some_iff.1 hτ).1
    have hσ0 : A[j]? = some A[j] := List.getElem?_eq_getElem _
    have hτ0 : B[j]? = some B[j] := List.getElem?_eq_getElem _
    exact (ih hσ0 hτ0).next (queues_getElem? hA hσ0 hσ) (queues_getElem? hB hτ0 hτ) hD
      ⟨hAD (List.mem_of_getElem? hσ0), hAD (List.mem_of_getElem? hσ),
        hBD (List.mem_of_getElem? hτ0)⟩

/-- What is in the queue when a turn is taken is in front of all later turns of the chain. -/
theorem lt_of_queues (hB : B.IsChain Queues) (hBD : B.Pairwise Precedes) {i j j' : Nat}
    (hτ : B[j]? = some τ) (hτ' : B[j']? = some τ') (hj : j < j')
    (hi : i < τ.before.microtasks.size) : i < τ'.before.cursor := by
  obtain ⟨hlt', rfl⟩ := List.getElem?_eq_some_iff.1 hτ'
  have hlt : j + 1 < B.length := by omega
  have hqueues : τ.Queues B[j + 1] :=
    queues_getElem? hB hτ (List.getElem?_eq_getElem hlt)
  have hle : B[j + 1].before.cursor ≤ B[j'].before.cursor := by
    rcases Nat.lt_or_eq_of_le (Nat.succ_le_of_lt hj) with hlt'' | rfl
    · exact Nat.le_of_lt (List.pairwise_iff_getElem.1 hBD (j + 1) j' hlt hlt' hlt'').1
    · exact Nat.le_refl _
  have := hqueues.1
  omega

/-- The turns of a round are all in the queue when one of them is taken. -/
def Abreast (A B : List Serving) : Prop :=
  ∀ (j : Nat) (σ τ : Serving), A[j]? = some σ → B[j]? = some τ →
    σ.before.cursor < τ.before.microtasks.size ∧ τ.before.cursor < σ.before.microtasks.size

instance : Std.Symm Abreast := ⟨fun _ _ h j σ τ hσ hτ => (h j τ σ hτ hσ).symm⟩

/-- The turns of chains that are in the queue one behind the other have their order in rounds. -/
theorem pairwise_inRounds (hD : D.Pairwise Precedes)
    (hroom : ∀ σ ∈ D, σ.before.cursor < σ.before.microtasks.size) {σss : List (List Serving)}
    (hchains : ∀ σs ∈ σss, σs.Sublist D ∧ σs.IsChain Queues)
    (hfirst : σss.Pairwise fun σs τs => ∀ σ ∈ σs.head?, ∀ τ ∈ τs.head?, σ.AheadOf τ) (n : Nat) :
    (inRounds n σss).Pairwise Precedes := by
  have hin {σs : List Serving} (hσs : σs ∈ σss) {j : Nat} {σ : Serving} (hσ : σs[j]? = some σ) :
      σ ∈ D := (hchains σs hσs).1.subset (List.mem_of_getElem? hσ)
  have hahead : σss.Pairwise fun σs τs => ∀ (j : Nat) (σ τ : Serving), σs[j]? = some σ →
      τs[j]? = some τ → σ.AheadOf τ ∧ σ ∈ D ∧ τ ∈ D := by
    refine hfirst.imp_of_mem fun hσs hτs h j σ τ hσ hτ => ⟨?_, hin hσs hσ, hin hτs hτ⟩
    exact aheadOf_getElem? hD (hchains _ hσs).2 (hchains _ hτs).2 (hchains _ hσs).1.subset
      (hchains _ hτs).1.subset h hσ hτ
  have habreast : ∀ σs ∈ σss, ∀ τs ∈ σss, Abreast σs τs := by
    refine List.Pairwise.forall_of_forall (fun σs hσs j σ τ hσ hτ => ?_) (hahead.imp ?_)
    · -- a turn is in the queue when it begins
      cases hσ.symm.trans hτ
      exact ⟨hroom σ (hin hσs hσ), hroom σ (hin hσs hσ)⟩
    · intro σs τs h j σ τ hσ hτ
      obtain ⟨⟨hlt, hbehind⟩, _, hτD⟩ := h j σ τ hσ hτ
      exact ⟨Nat.lt_trans hlt (hroom τ hτD), hbehind⟩
  rw [inRounds, List.pairwise_flatMap]
  constructor
  · -- in one round, in the order of the chains
    intro j _
    rw [List.pairwise_filterMap]
    refine hahead.imp fun h σ hσ τ hτ => ?_
    obtain ⟨hahead, hσD, hτD⟩ := h j σ τ hσ hτ
    exact precedes_of_lt hD hσD hτD hahead.1
  · -- all of a round before all of a later one
    refine List.pairwise_lt_range.imp fun {j j'} hj σ hσ τ' hτ' => ?_
    obtain ⟨σs, hσs, hσ⟩ := List.mem_filterMap.1 hσ
    obtain ⟨τs, hτs, hτ'⟩ := List.mem_filterMap.1 hτ'
    have hlt : j < τs.length := Nat.lt_trans hj (List.getElem?_eq_some_iff.1 hτ').1
    have hτ : τs[j]? = some τs[j] := List.getElem?_eq_getElem hlt
    refine precedes_of_lt hD (hin hσs hσ) (hin hτs hτ') ?_
    exact lt_of_queues (hchains τs hτs).2 (hD.sublist (hchains τs hτs).1) hτ hτ' hj
      (habreast σs hσs τs hτs j σ _ hσ hτ).1

end Serving

open Serving Machine

/-! ## Turns in a drain -/

/-- Each turn precedes those behind it. -/
theorem Run.pairwise_turnServings (budget : Nat) (hbudget : budget ≤ maxMicrotasks - m.processed) :
    (turnServings budget m).Pairwise Precedes ∧ ∀ σ ∈ turnServings budget m,
      m.cursor ≤ σ.before.cursor ∧ m.microtasks.size ≤ σ.before.microtasks.size ∧
        σ.before.cursor < σ.before.microtasks.size := by
  induction budget generalizing m with
  | zero => exact ⟨.nil, by simp [turnServings]⟩
  | succ budget ih =>
    rw [turnServings, takeMicrotask_apply]
    cases ht : m.microtasks[m.cursor]? with
    | none => exact ⟨.nil, by simp⟩
    | some t =>
      dsimp only
      cases hserve : serve t m.taken with
      | error fault m1 =>
        rw [servingsAfter, hserve]
        exact ⟨.nil, by simp⟩
      | ok _ m1 =>
        rw [servingsAfter_of_ok hserve]
        have hserved : m.Served [⟨t, m, m1⟩] m1 := .serve ht (by omega) hserve
        have hprocessed : m1.processed = m.processed + 1 := hserved.processed
        have hcursor : m1.cursor = m.cursor + 1 := hserved.cursor
        have hsize : m.microtasks.size ≤ m1.microtasks.size :=
          size_le_of_append hserved.microtasks
        have hlt : m.cursor < m.microtasks.size := (Array.getElem?_eq_some_iff.1 ht).1
        obtain ⟨hrest, hbounds⟩ := ih (m := m1) (by omega)
        refine ⟨.cons (fun τ hτ => ?_) hrest, List.forall_mem_cons.2 ⟨?_, fun τ hτ => ?_⟩⟩
        · obtain ⟨hτ1, hτ2, _⟩ := hbounds τ hτ
          exact ⟨by change m.cursor < _; omega, hτ2⟩
        · exact ⟨Nat.le_refl _, Nat.le_refl _, hlt⟩
        · obtain ⟨hτ1, hτ2, hτ3⟩ := hbounds τ hτ
          exact ⟨by omega, Nat.le_trans hsize hτ2, hτ3⟩

/-- The turns of a chain: the first one has the place of the first link, and each of the others is
    queued in the one before it. -/
theorem Relayed.isChain {ws : List Waiter} {state : PromiseState} {value : Value}
    (h : Relayed ws state value i σs) :
    σs.IsChain Queues ∧ ∀ σ ∈ σs.head?, σ.before.cursor = i := by
  induction h with
  | nil => exact ⟨.nil, by simp⟩
  | @turn w rest state state' value value' i i' σ σs hplace _ _ hqueued hnext _ ih =>
    obtain ⟨hchain, hfirst⟩ := ih
    refine ⟨?_, fun σ' hσ' => Option.some.inj hσ' ▸ hplace⟩
    cases σs with
    | nil => exact .singleton σ
    | cons τ σs =>
      have hτ : τ.before.cursor = i' := hfirst τ rfl
      refine List.isChain_cons_cons.2 ⟨⟨?_, ?_⟩, hchain⟩
      · rw [hτ]
        exact hqueued
      · rw [hτ]
        exact hnext τ rfl

/-! ## Chains of `then` links -/

/-- Of a chain of `then` links over a promise that is fulfilled, none is left out. -/
theorem Thins.eq_of_thens {ks as : List LinkCall} (hthens : ∀ k ∈ ks, k.link = .thenLink)
    (h : Thins .fulfilled ks as) : as = ks := by
  induction ks generalizing as with
  | nil =>
    cases h
    rfl
  | cons k ks ih =>
    obtain ⟨hk, hks⟩ := List.forall_mem_cons.1 hthens
    cases h with
    | keep h =>
      rw [hk] at h
      rw [ih hks h]
    | drop hruns h =>
      rw [hk] at hruns
      cases hruns

theorem map_reaction_strung (scope : Scope) (a : Nat) (ks : List LinkCall) :
    (strung scope a ks).map (·.reaction) =
      ks.mapIdx fun j k => .link k.link k.args.head? (a + j) := by
  induction ks generalizing a with
  | nil => rfl
  | cons k ks ih =>
    have hshift (j : Nat) : a + 1 + j = a + (j + 1) := by omega
    rw [strung, List.map_cons, ih, List.mapIdx_cons]
    simp only [hshift]
    rfl

/-- Of a chain of `then` links over a promise that is fulfilled, each has its turn. -/
theorem Relayed.map_reaction {scope : Scope} {a i : Nat} {ks : List LinkCall} {value : Value}
    {σs : List Serving} (hthens : ∀ k ∈ ks, k.link = .thenLink)
    (h : Relayed (strung scope a ks) .fulfilled value i σs) :
    σs.map (·.task.reaction) = ((strung scope a ks).map (·.reaction)).map some := by
  induction ks generalizing a value i σs with
  | nil =>
    rw [h.eq_nil]
    rfl
  | cons k ks ih =>
    obtain ⟨hk, hks⟩ := List.forall_mem_cons.1 hthens
    cases h with
    | @turn _ _ _ state' _ value' _ i' σ σs _ hruns hconcludes _ _ h =>
      obtain ⟨hreaction, _, _, l, callback, derived, m1, m2, hw, _, hrun⟩ := hconcludes
      cases hw
      have hstate : state' = .fulfilled := by
        have hchain := Run.runLink_state hrun hruns fun hcatch =>
          absurd (hk.symm.trans hcatch) (by decide)
        rw [hk] at hchain
        exact hchain
      -- so the next link is not passed over
      have hrest : (strung scope (a + 1) ks).dropWhile (!·.reaction.runs .fulfilled) =
          strung scope (a + 1) ks := by
        cases ks with
        | nil => rfl
        | cons k' ks =>
          refine List.dropWhile_cons_of_neg ?_
          rw [LinkCall.waiter, hks k' List.mem_cons_self]
          exact Bool.false_ne_true
      rw [hstate, hrest] at h
      rw [List.map_cons, ih hks h, hreaction]
      rfl

/-- The reactions of the links of chains whose promises are made one after the other, from a number
    on. -/
def chainReactions : Nat → List WrittenChain → List (List Reaction)
  | _, [] => []
  | a, c :: cs =>
    c.links.mapIdx (fun j k => .link k.link k.args.head? (a + 1 + j)) ::
      chainReactions (a + 1 + c.links.length) cs

/-- Chains are on their way one behind the other: their promises have the numbers from one number
    up to another, and their first links are in the queue from a place on. -/
inductive Machine.Convoy (m : Machine) : Nat → Nat → Nat → List WrittenChain → Prop
  | nil (a i : Nat) : Convoy m a a i []
  | cons {a e i i' i'' : Nat} {c : WrittenChain} {cs : List WrittenChain} {scope : Scope}
      (hafloat : m.Afloat (between a (a + 1 + c.links.length)) (strung scope (a + 1) c.links)
        .fulfilled .undefined i')
      (hplace : i ≤ i') (hnext : c.links ≠ [] → i' < i'') (hle : i ≤ i'')
      (h : Convoy m (a + 1 + c.links.length) e i'' cs) : Convoy m a e i (c :: cs)

/-- A chain of `then` links over `Promise.resolve()`. -/
structure WrittenChain.OfThens (c : WrittenChain) : Prop where
  maker : c.maker = .resolve
  args : c.args = []
  links : ∀ k ∈ c.links, k.link = .thenLink

namespace Run

/-- Statements that are chains of `then` links put them on their way one behind the other. -/
theorem convoy_execAll {depth : Nat} {chains : List WrittenChain} {stmts : List Stmt}
    {m m' : Machine} {outcome : Outcome} (hm : m.Bounded) (hcursor : m.cursor ≤ m.microtasks.size)
    (hstmts : ∀ (i : Nat) (c : WrittenChain), chains[i]? = some c →
      ∃ line, stmts[i]? = some (.expr c.expr line)) (hthens : ∀ c ∈ chains, c.OfThens)
    (h : execAll (invoke depth) stmts m = .ok outcome m') :
    ∃ m1, execAll (invoke depth) (stmts.take chains.length) m = .ok .completed m1 ∧
      m'.Convoy m.promises.size m1.promises.size m.microtasks.size chains := by
  induction chains generalizing stmts m with
  | nil => exact ⟨m, rfl, .nil _ _⟩
  | cons c chains ih =>
    obtain ⟨line, hs⟩ := hstmts 0 c rfl
    obtain ⟨hmaker, hargs, hlinks⟩ := hthens c List.mem_cons_self
    cases stmts with
    | nil => cases hs
    | cons s stmts =>
      cases hs
      obtain ⟨first, m1, hexec, hrest⟩ := execAll_cons_of_ok h
      obtain ⟨rfl, log, vs, mv, hvalues, hlaunch⟩ :=
        launch (by rw [hmaker]; exact Maker.noConfusion) hm hcursor hexec
      rw [hargs] at hvalues
      cases hvalues
      obtain ⟨as, i, hthins, hsize, hplace, hafloat⟩ := hlaunch rfl
      rw [hmaker] at hthins hafloat
      obtain rfl := hthins.eq_of_thens hlinks
      have hwalk : m.Walk false depth .done m1 :=
        (exec_leads (@invoke_walks false depth) (.expr c.expr line) m (by simp)).walk_of_ok
          hexec
      have htasks := size_le_of_append hwalk.grows.microtasks
      obtain ⟨m2, hchains, hconvoy⟩ := ih (hwalk.course.bounded hm)
        (hwalk.cursor_le_size hcursor)
        (fun i c hc => hstmts (i + 1) c hc) (fun c hc => hthens c (List.mem_cons_of_mem _ hc))
        (hrest rfl)
      refine ⟨m2, ?_, ?_⟩
      · rw [List.length_cons, List.take_succ_cons, execAll_cons_of_completed _ hexec, hchains]
      · have hsize : m1.promises.size = m.promises.size + 1 + c.links.length := hsize
        have hown : (m.logged log).madeBetween m1 =
            between m.promises.size (m.promises.size + 1 + c.links.length) := by
          rw [madeBetween, hsize]
          rfl
        rw [hown] at hafloat
        rw [hsize] at hconvoy
        refine .cons (afloat_execAll hafloat (hrest rfl)) hplace (fun hne => ?_) htasks hconvoy
        -- the place of the first link is in the queue
        obtain ⟨k, ks, hks⟩ := List.exists_cons_of_ne_nil hne
        obtain ⟨_, _, t, ht, _⟩ := hafloat.queued _ (by rw [hks]; rfl)
        exact (Array.getElem?_eq_some_iff.1 ht).1

end Run

/-! ## The turns of a convoy -/

theorem Microtask.isOf_between {t : Microtask} {b : Nat} (hab : a ≤ b) (hbe : b ≤ e) :
    t.isOf (between a e) = (t.isOf (between a b) || t.isOf (between b e)) := by
  rw [Bool.eq_iff_iff]
  simp only [isOf, Bool.or_eq_true, List.any_eq_true, between_eq_true, ← exists_or, ← and_or_left]
  refine exists_congr fun d => and_congr_right fun _ => ?_
  omega

theorem Machine.Convoy.le (h : m.Convoy a e i cs) : a ≤ e := by
  induction h with
  | nil => exact Nat.le_refl _
  | cons _ _ _ _ _ ih => omega

/-- The turns of several chains among all turns `D`: each of the chains has its turns one after the
    other, and the first turns are at places of the queue from `i` on, in the order of the
    chains. -/
structure Relays (D : List Serving) (own : Nat → Bool) (reactions : List (List Reaction))
    (i size : Nat) (σss : List (List Serving)) : Prop where
  reactions : σss.map (·.map (·.task.reaction)) = reactions.map (·.map some)
  chains : ∀ σs ∈ σss, σs.Sublist D ∧ σs.IsChain Queues
  places : ∀ σs ∈ σss, ∀ σ ∈ σs.head?, i ≤ σ.before.cursor ∧ σ.before.cursor < size
  order : σss.Pairwise fun σs τs =>
    ∀ σ ∈ σs.head?, ∀ τ ∈ τs.head?, σ.before.cursor < τ.before.cursor
  all : ∀ σ, σ ∈ D.filter (·.task.isOf own) ↔ ∃ σs ∈ σss, σ ∈ σs

/-- In the order of the queue, the turns of the chains are their links in rounds. -/
theorem Relays.eq_inRounds {D : List Serving} {own : Nat → Bool} {reactions : List (List Reaction)}
    {size : Nat} {σss : List (List Serving)} (h : Relays D own reactions i size σss)
    (hD : D.Pairwise Precedes)
    (hroom : ∀ σ ∈ D, size ≤ σ.before.microtasks.size ∧ σ.before.cursor < σ.before.microtasks.size)
    (hn : ∀ rs ∈ reactions, rs.length ≤ n) :
    (D.filter (·.task.isOf own)).map (·.task.reaction) = (inRounds n reactions).map some := by
  have hlength : ∀ σs ∈ σss, σs.length ≤ n := by
    intro σs hσs
    have hmem : σs.map (·.task.reaction) ∈ reactions.map (·.map some) := by
      rw [← h.reactions]
      exact List.mem_map_of_mem hσs
    obtain ⟨rs, hrs, heq⟩ := List.mem_map.1 hmem
    have hlen := congrArg List.length heq
    rw [List.length_map, List.length_map] at hlen
    rw [← hlen]
    exact hn rs hrs
  have hahead : σss.Pairwise fun σs τs => ∀ σ ∈ σs.head?, ∀ τ ∈ τs.head?, σ.AheadOf τ := by
    refine h.order.imp_of_mem fun hσs hτs hlt σ hσ τ hτ => ⟨hlt σ hσ τ hτ, ?_⟩
    have hσD : σ ∈ D := (h.chains _ hσs).1.subset (List.mem_of_mem_head? hσ)
    exact Nat.lt_of_lt_of_le (h.places _ hτs τ hτ).2 (hroom σ hσD).1
  -- both lists are in the order of the turns, and have the same members
  have hrounds : D.filter (·.task.isOf own) = inRounds n σss := by
    refine (hD.sublist List.filter_sublist).eq_of_mem_iff
      (pairwise_inRounds hD (fun σ hσ => (hroom σ hσ).2) h.chains hahead n) fun σ => ?_
    rw [h.all, mem_inRounds]
    constructor
    · rintro ⟨σs, hσs, hσ⟩
      obtain ⟨j, hj⟩ := List.getElem?_of_mem hσ
      have hlt : j < σs.length := (List.getElem?_eq_some_iff.1 hj).1
      exact ⟨j, Nat.lt_of_lt_of_le hlt (hlength σs hσs), σs, hσs, hj⟩
    · rintro ⟨j, _, σs, hσs, hj⟩
      exact ⟨σs, hσs, List.mem_of_getElem? hj⟩
  rw [hrounds, map_inRounds, h.reactions, ← map_inRounds]

/-- Chains that are on their way one behind the other have their turns. -/
theorem Machine.Convoy.relays {m : Machine} {a e i : Nat} {cs : List WrittenChain}
    (h : m.Convoy a e i cs) (hthens : ∀ c ∈ cs, c.OfThens) {D later : List Serving}
    (hD : ∀ own ws state value i, m.Afloat own ws state value i →
      (∀ σ ∈ later, σ.task.isOf own = false) ∧
        Relayed ws state value i (D.filter (·.task.isOf own))) :
    (∀ σ ∈ later, σ.task.isOf (between a e) = false) ∧
      ∃ σss, Relays D (between a e) (chainReactions a cs) i m.microtasks.size σss := by
  induction h with
  | nil a i =>
    have hnone (σ : Serving) : σ.task.isOf (between a a) = false := by
      rw [Microtask.isOf_eq_false]
      intro d _
      rw [← Bool.not_eq_true, between_eq_true]
      omega
    refine ⟨fun σ _ => hnone σ, [], rfl, by simp, by simp, .nil, fun σ => ?_⟩
    simp [hnone σ]
  | @cons a e i i' i'' c cs scope hafloat hplace hnext hle hrest ih =>
    obtain ⟨hc, hcs⟩ := List.forall_mem_cons.1 hthens
    obtain ⟨hlater, hrelayed⟩ := hD _ _ _ _ _ hafloat
    obtain ⟨hlater', σss, hrelays⟩ := ih hcs
    obtain ⟨hchain, hfirst⟩ := hrelayed.isChain
    have hsplit (t : Microtask) := t.isOf_between (by omega : a ≤ a + 1 + c.links.length) hrest.le
    -- a chain that has a turn has a link in the queue
    have hqueued : ∀ σ ∈ (D.filter (·.task.isOf (between a (a + 1 + c.links.length)))).head?,
        σ.before.cursor < i'' ∧ σ.before.cursor < m.microtasks.size := by
      intro σ hσ
      rw [hfirst σ hσ]
      cases hlinks : c.links with
      | nil =>
        rw [hlinks] at hrelayed hσ
        rw [hrelayed.eq_nil] at hσ
        cases hσ
      | cons k ks =>
        obtain ⟨_, _, t, ht, _⟩ := hafloat.queued _ (by rw [hlinks]; rfl)
        exact ⟨hnext (by simp [hlinks]), (Array.getElem?_eq_some_iff.1 ht).1⟩
    refine ⟨fun σ hσ => ?_,
      D.filter (·.task.isOf (between a (a + 1 + c.links.length))) :: σss, ?_⟩
    · rw [hsplit, hlater σ hσ, hlater' σ hσ]
      rfl
    · constructor
      case reactions =>
        rw [List.map_cons, hrelayed.map_reaction hc.links, map_reaction_strung, hrelays.reactions]
        rfl
      case chains =>
        exact List.forall_mem_cons.2 ⟨⟨List.filter_sublist, hchain⟩, hrelays.chains⟩
      case places =>
        refine List.forall_mem_cons.2 ⟨fun σ hσ => ⟨?_, (hqueued σ hσ).2⟩, fun σs hσs σ hσ => ?_⟩
        · rw [hfirst σ hσ]
          exact hplace
        · obtain ⟨hi, hlt⟩ := hrelays.places σs hσs σ hσ
          exact ⟨Nat.le_trans hle hi, hlt⟩
      case order =>
        refine .cons (fun σs hσs σ hσ τ hτ => ?_) hrelays.order
        exact Nat.lt_of_lt_of_le (hqueued σ hσ).1 (hrelays.places σs hσs τ hτ).1
      case all =>
        intro σ
        rw [List.exists_mem_cons_iff, ← hrelays.all σ, List.mem_filter, List.mem_filter,
          List.mem_filter, hsplit, Bool.or_eq_true, and_or_left]

theorem length_le_of_mem_chainReactions (hn : ∀ c ∈ cs, c.links.length ≤ n) (a : Nat) :
    ∀ rs ∈ chainReactions a cs, rs.length ≤ n := by
  induction cs generalizing a with
  | nil => simp [chainReactions]
  | cons c cs ih =>
    obtain ⟨hc, hcs⟩ := List.forall_mem_cons.1 hn
    refine List.forall_mem_cons.2 ⟨?_, ih hcs _⟩
    rw [List.length_mapIdx]
    exact hc

/-- The callback of a link. -/
def Reaction.callback? : Reaction → Option Expr
  | .link _ callback _ => callback
  | .resume _ => none

theorem map_callback_chainReactions (a : Nat) (cs : List WrittenChain) :
    (chainReactions a cs).map (·.map (·.callback?)) =
      cs.map fun c => c.links.map (·.args.head?) := by
  induction cs generalizing a with
  | nil => rfl
  | cons c cs ih =>
    rw [chainReactions, List.map_cons, List.map_cons, ih]
    refine congrArg (· :: _) (List.ext_getElem (by simp) fun j _ _ => ?_)
    rw [List.getElem_map, List.getElem_mapIdx, List.getElem_map]
    rfl

theorem map_callback_calls {rs : List Reaction} (hrs : σs.map (·.task.reaction) = rs.map some)
    (h : ∀ σ ∈ σs, σ.call?.isSome = true) :
    (σs.filterMap (·.call?)).map (·.callback) = rs.map (·.callback?) := by
  induction σs generalizing rs with
  | nil =>
    cases rs with
    | nil => rfl
    | cons r rs => cases hrs
  | cons σ σs ih =>
    cases rs with
    | nil => cases hrs
    | cons r rs =>
      obtain ⟨hr, hrest⟩ := List.cons.inj hrs
      obtain ⟨hσ, hσs⟩ := List.forall_mem_cons.1 h
      obtain ⟨c, hc⟩ := Option.isSome_iff_exists.1 hσ
      obtain ⟨l, derived, hreaction⟩ := reaction_of_call? hc
      cases hr.symm.trans hreaction
      rw [List.filterMap_cons_some hc, List.map_cons, List.map_cons, ih hrest hσs]
      rfl

/-- Independent chains go on one link at a time.  Take a generation that succeeds, and consecutive
    statements of the program, which run after those before them, each of which is a chain of `then`
    links over `Promise.resolve()`.  Then each link of the chains has one turn.  In the first round
    the first links of all chains have their turns, in the order of the chains, in the second round
    the second links, and so on.  In the turn of a link a callback is called if `Serving.call?` says
    so, and then its body runs.  If each link finds a function for its callback then the callbacks
    are called in this order. -/
theorem chains_go_in_rounds {g : Generator} {source : Option String} {p : Program} {n rounds : Nat}
    {chains : List WrittenChain} {m0 : Machine}
    (hsucceeded : (g.generate source).1.succeeded = true) (hread : readProgram source = .ok p)
    (hstmts : ∀ (i : Nat) (c : WrittenChain), chains[i]? = some c →
      ∃ line, p.body[n + i]? = some (.expr c.expr line))
    (hthens : ∀ c ∈ chains, c.OfThens) (hrounds : ∀ c ∈ chains, c.links.length ≤ rounds)
    (hfirst : Run.walkFirst n source (Machine.start g.limit g.machine.log) = .ok .completed m0) :
    ∃ m1, Run.walkFirst (n + chains.length) source (Machine.start g.limit g.machine.log) =
        .ok .completed m1 ∧
      let servings := g.linkServings source (m0.madeBetween m1)
      servings.map (·.task.reaction) =
        (inRounds rounds (chainReactions m0.promises.size chains)).map some ∧
      (∀ σ ∈ servings, ∀ r, σ.call? = some r ↔ σ.Calls r) ∧
      ((∀ σ ∈ servings, σ.call?.isSome = true) →
        (servings.filterMap (·.call?)).map (·.callback) =
          inRounds rounds (chains.map fun c => c.links.map (·.args.head?))) := by
  obtain ⟨m, log, hrun, -, -, -⟩ := Generator.generate_succeeded hsucceeded
  obtain ⟨hbounded, hcursor, hsource⟩ := Run.walkFirst_inv hread hfirst
  obtain ⟨outcome, m2, m3, later, hwalk, henter, hservings, hchains⟩ := Run.servings_split hrun
  rw [hsource] at hwalk
  obtain ⟨m1, hmore, hconvoy⟩ := Run.convoy_execAll hbounded (by rw [hcursor]; exact Nat.zero_le _)
    (fun i c hc => by rw [List.getElem?_drop]; exact hstmts i c hc) hthens hwalk
  refine ⟨m1, Run.walkFirst_add hread hfirst hmore, ?_⟩
  obtain ⟨hlater, σss, hrelays⟩ := hconvoy.relays hthens hchains
  obtain ⟨hpairwise, hbounds⟩ := Run.pairwise_turnServings (m := m3) _ (Nat.le_refl _)
  have htasks : m2.microtasks.size ≤ m3.microtasks.size := by
    cases henter
    exact Nat.le_refl _
  have hreactions := hrelays.eq_inRounds hpairwise (fun σ hσ => by
    obtain ⟨_, hsize, hroom⟩ := hbounds σ hσ
    exact ⟨Nat.le_trans htasks hsize, hroom⟩) (length_le_of_mem_chainReactions hrounds _)
  refine ⟨?_, Generator.calls_of_succeeded hsucceeded, ?_⟩ <;>
    rw [Machine.madeBetween, Generator.linkServings_eq hsucceeded hservings hlater]
  · exact hreactions
  intro hcalls
  rw [map_callback_calls hreactions hcalls, map_inRounds, map_callback_chainReactions]

theorem WrittenChain.getElem?_of_mapM {stmts : List Stmt}
    (h : stmts.mapM WrittenChain.ofStmt? = some cs) (i : Nat) (c : WrittenChain)
    (hc : cs[i]? = some c) : ∃ line, stmts[i]? = some (.expr c.expr line) := by
  induction stmts generalizing cs i with
  | nil =>
    cases h
    cases hc
  | cons s stmts ih =>
    simp only [List.mapM_cons, Option.bind_eq_bind, Option.bind_eq_some_iff, Option.pure_def,
      Option.some.injEq] at h
    obtain ⟨c0, hs, cs, hcs, rfl⟩ := h
    cases i with
    | zero =>
      cases hc
      obtain ⟨line, rfl⟩ := WrittenChain.eq_expr_of_ofStmt? hs
      exact ⟨line, rfl⟩
    | succ i => exact ih hcs i hc

/-- Chains of two links, one link and two links: the second chain has no part in the second
    round. -/
theorem chains_go_in_rounds_uneven :
    let source := some ("Promise.resolve().then(a=>1).then(b=>2)\n" ++
      "Promise.resolve().then(c=>3)\n" ++ "Promise.resolve().then(d=>4).then(e=>5)")
    let g := Generator.new 100 0
    let servings := g.linkServings source (between 0 8)
    (g.generate source).1.succeeded = true ∧
    servings.map (·.task.derived) = [[1], [4], [6], [2], [7]] ∧
    (∀ σ ∈ servings, ∃ r, σ.Calls r) ∧
    ∃ chains : List WrittenChain, chains.map (·.links.length) = [2, 1, 2] ∧
      servings.map (·.task.reaction) = (inRounds 2 (chainReactions 0 chains)).map some ∧
      (servings.filterMap (·.call?)).map (·.callback) =
        inRounds 2 (chains.map fun c => c.links.map (·.args.head?)) := by
  intro source g servings
  have hsucceeded : (g.generate source).1.succeeded = true := by decide +kernel
  -- which links have their turns, and that each of them calls its callback
  have hturns : servings.map (fun σ => (σ.task.derived, σ.call?.isSome)) =
      [([1], true), ([4], true), ([6], true), ([2], true), ([7], true)] := by decide +kernel
  refine ⟨hsucceeded, ?_, ?_⟩
  · have hderived := congrArg (List.map Prod.fst) hturns
    rw [List.map_map] at hderived
    exact hderived
  obtain ⟨p, m0, hopen, h⟩ := @Run.succeeds_inv _ (Run.openSource source) (fun p m0 =>
      m0.promises.size == 0 && (p.body.mapM WrittenChain.ofStmt?).any fun cs =>
        cs.all (fun c => c.maker == .resolve && c.args.isEmpty &&
          c.links.all (·.link == .thenLink) && decide (c.links.length ≤ 2)) &&
        cs.map (·.links.length) == [2, 1, 2])
    (.start g.limit g.machine.log) (by decide +kernel)
  simp only [Bool.and_eq_true, beq_iff_eq, Option.any_eq_true, List.all_eq_true, List.isEmpty_iff,
    decide_eq_true_eq] at h
  obtain ⟨hsize, chains, hstmts, hchains, hlengths⟩ := h
  obtain ⟨m1, hmore, hreactions, hcalls, hcallbacks⟩ := chains_go_in_rounds (n := 0) hsucceeded
    (Run.openSource_inv hopen).1
    (fun i c hc => by rw [Nat.zero_add]; exact WrittenChain.getElem?_of_mapM hstmts i c hc)
    (fun c hc => ⟨(hchains c hc).1.1.1, (hchains c hc).1.1.2, (hchains c hc).1.2⟩)
    (fun c hc => (hchains c hc).2) (Run.walkFirst_zero hopen)
  have hlength : chains.length = 3 := by
    rw [← List.length_map (fun c : WrittenChain => c.links.length), hlengths]
    rfl
  obtain ⟨_, m2, hwalk, hsize1⟩ := @Run.succeeds_inv _ (Run.walkFirst (0 + 3) source)
    (fun _ m1 => m1.promises.size == 8) (.start g.limit g.machine.log) (by decide +kernel)
  rw [hlength] at hmore
  cases hmore.symm.trans hwalk
  rw [Machine.madeBetween, hsize, beq_iff_eq.1 hsize1] at hreactions hcalls hcallbacks
  have hall : (servings.map fun σ => (σ.task.derived, σ.call?.isSome)).all (·.2) = true := by
    rw [hturns]
    rfl
  rw [List.all_map] at hall
  have hsome : ∀ σ ∈ servings, σ.call?.isSome = true := List.all_eq_true.1 hall
  refine ⟨fun σ hσ => ?_, chains, hlengths, hreactions, hcallbacks hsome⟩
  obtain ⟨r, hr⟩ := Option.isSome_iff_exists.1 (hsome σ hσ)
  exact ⟨r, (hcalls σ hσ r).1 hr⟩

end EventLoop
