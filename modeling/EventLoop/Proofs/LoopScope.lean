/-
  The rounds of a loop have variables of their own.

  A loop that starts with `let` or `const` runs its first round in the table of its initialiser, and
  each further round in a new table, which starts as a copy of the one before.  What comes after the
  body of a round runs beside the table of that round, not inside it.  So it can only get there
  through a function that was made in that scope.  `invokeVia` answers the calls of all such
  functions in another way: if the answers leave the table alone, so does the whole rest of the loop.

  In the first round the initialiser can make such a function, too (`initialiser_shares_variable`).
-/
import EventLoop.Proofs.Confinement
import EventLoop.Proofs.Residue

namespace EventLoop

open Script

namespace Tables

theorem lookup_eq_none_iff (t : Tables) (id : Nat) (name : String) :
    (t.bindings id).lookup name = none ↔ name ∉ t.names id := by
  rw [List.lookup_eq_none_iff, names, List.mem_map]
  constructor
  · rintro h ⟨p, hp, rfl⟩
    simpa using h p hp
  · intro h p hp
    exact bne_iff_ne.2 fun hname => h ⟨p, hp, hname.symm⟩

theorem get?_append_cons (t : Tables) {front : List Nat} {id : Nat} {outer : Scope} {name : String}
    {v : Value} (hfront : ∀ i ∈ front, name ∉ t.names i)
    (hv : (t.bindings id).lookup name = some v) : t.get? (front ++ id :: outer) name = some v := by
  have hnone : front.findSome? (fun i => (t.bindings i).lookup name) = none :=
    List.findSome?_eq_none_iff.2 fun i hi => (t.lookup_eq_none_iff i name).2 (hfront i hi)
  simp [get?, List.findSome?_append, hnone, hv]

end Tables

namespace Run

variable {α : Type} {depth line k : Nat} {init : LoopInit} {condition update : Option Expr}
  {body : Block} {m m1 m2 m' mk : Machine}

/-! ## Rounds -/

/-- The loop, started in `m`, comes to the end of the body of its round `k`, counted from 0. -/
inductive RoundEnds (call : Invoke) (init : LoopInit) (condition update : Option Expr)
    (body : Block) (m : Machine) (k : Nat) (m' : Machine) : Prop
  | intro {m1 m2 m3 : Machine} (hinit : execInit call init m.inner = .ok () m1)
      (hrounds : WholeRounds (loopTest call condition) (execBlock call body)
        (loopStep call init update) k m1 m2)
      (htest : loopTest call condition m2 = .ok true m3)
      (hbody : execBlock call body m3 = .ok .completed m')

/-- What the loop does after the body of its round `k`. -/
def afterRound (call : Invoke) (init : LoopInit) (condition update : Option Expr) (body : Block)
    (line k : Nat) : Run Outcome := do
  loopStep call init update
  iterate line (loopTest call condition) (execBlock call body) (loopStep call init update)
    (loopResidue condition update body line) (maxLoopRounds - (k + 1))

section Rounds

variable {test : Run Bool} {act : Run Outcome} {step : Run Unit} {n : Nat}

theorem WholeRounds.iterate_eq (h : WholeRounds test act step n m m') (line : Nat)
    (residue : List Stmt) (rounds : Nat) : iterate line test act step residue (n + rounds) m =
      iterate line test act step residue rounds m' := by
  induction h with
  | none => rw [Nat.zero_add]
  | @round n _ _ _ _ _ htest hbody hstep _ ih =>
    rw [Nat.add_right_comm, iterate, bind_of_ok htest]
    refine (bind_of_ok hbody _).trans ?_
    exact (bind_of_ok hstep _).trans ih

theorem WholeRounds.rest (h : WholeRounds test act step k m m1)
    (h' : WholeRounds test act step (k + n) m m2) : WholeRounds test act step n m1 m2 := by
  induction h with
  | none => rwa [Nat.zero_add] at h'
  | @round k _ _ _ _ _ htest hbody hstep _ ih =>
    rw [Nat.add_right_comm] at h'
    cases h' with
    | round htest' hbody' hstep' h' =>
      cases htest.symm.trans htest'
      cases hbody.symm.trans hbody'
      cases hstep.symm.trans hstep'
      exact ih h'

end Rounds

/-! ## The scopes of the rounds -/

theorem size_upheld (n : Nat) :
    Upheld (fun _ => True) (fun _ => True) (fun m => n ≤ m.tables.entries.size) := by
  refine .of_tables (Q := fun t => n ≤ t.entries.size) (fun v _ ht _ => ?_) (fun _ _ ht => ?_)
    (fun _ _ => trivial) (fun h => h) fun h => h
  · rwa [Tables.size_write]
  · rw [Tables.size_nest]
    exact Nat.le_succ_of_le ht

/-- The state stays in its scope, and tables are only added. -/
def Stays (m m' : Machine) : Prop :=
  m'.scope = m.scope ∧ m.tables.entries.size ≤ m'.tables.entries.size

theorem stays_of_ok {act : Run α} {a : α} (hcontext : KeepsContext act)
    (hsize : ∀ n, Upholds (fun _ => True) (fun m => n ≤ m.tables.entries.size) act)
    (h : act m = .ok a m') : Stays m m' := by
  have hscope := (hcontext m).1
  have hgrown := (hsize _ m trivial (Nat.le_refl _)).1
  rw [h] at hscope hgrown
  exact ⟨hscope, hgrown⟩

theorem calls_size (depth n : Nat) :
    CallsUphold (fun _ => True) (fun m => n ≤ m.tables.entries.size) (invoke depth) :=
  invoke_upholds (size_upheld n) (fun _ => trivial) depth

theorem execInit_stays (h : execInit (invoke depth) init m = .ok () m') : Stays m m' :=
  stays_of_ok (fun m => (execInit_leads (invoke_wanders depth) init m nofun).sameContext)
    (fun n => execInit_upholds (size_upheld n) (calls_size depth n) init) h

theorem loopTest_stays {b : Bool} (h : loopTest (invoke depth) condition m = .ok b m') :
    Stays m m' :=
  stays_of_ok (fun m => (loopTest_walks (invoke_wanders depth) condition m).sameContext)
    (fun n => loopTest_upholds (size_upheld n) (calls_size depth n) condition) h

theorem execBlock_stays {outcome : Outcome}
    (h : execBlock (invoke depth) body m = .ok outcome m') : Stays m m' :=
  stays_of_ok (exec_keepsContext depth (.block body))
    (fun n => exec_upholds (size_upheld n) (calls_size depth n) (.block body)) h

section

variable (hinit : renewsBindings init = true)

include hinit

theorem loopStep_scope (h : loopStep (invoke depth) init update m = .ok () m') :
    m'.scope = m.tables.entries.size :: m.scope.tail ∧
      m.tables.entries.size < m'.tables.entries.size := by
  rw [loopStep, if_pos hinit] at h
  have hupdate : Stays (final (renewScope m)) m' := by
    refine @stays_of_ok _ _ _ (loopUpdate (invoke depth) update) () (fun m => ?_) (fun n => ?_) h
    · cases update with
      | none => exact .refl m
      | some e => exact ((eval_walks (invoke_wanders depth) false e).map _ m).sameContext
    · cases update with
      | none => exact .of_reads (reads_pure ())
      | some e => exact (eval_upholds (size_upheld n) (calls_size depth n) false e).discard
  refine ⟨hupdate.1, Nat.lt_of_lt_of_le ?_ hupdate.2⟩
  exact Nat.lt_of_lt_of_eq (Nat.lt_succ_self _) (Tables.size_nest _ m.scope.tail _).symm

/-- Rounds run inside the same outer tables, and every round but the first in a table of its own. -/
theorem WholeRounds.scope {n t : Nat} {outer : Scope}
    (h : WholeRounds (loopTest (invoke depth) condition) (execBlock (invoke depth) body)
      (loopStep (invoke depth) init update) n m m')
    (hscope : m.scope = t :: outer) (ht : t < m.tables.entries.size) :
    ∃ t', m'.scope = t' :: outer ∧ t' < m'.tables.entries.size ∧
      (n = 0 → t' = t) ∧ (n ≠ 0 → m.tables.entries.size ≤ t') := by
  induction h generalizing t with
  | none => exact ⟨t, hscope, ht, fun _ => rfl, fun h => absurd rfl h⟩
  | @round n m m1 m2 m3 m' htest hbody hstep _ ih =>
    obtain ⟨hscope1, hsize1⟩ := loopTest_stays htest
    obtain ⟨hscope2, hsize2⟩ := execBlock_stays hbody
    obtain ⟨hscope3, hsize3⟩ := loopStep_scope hinit hstep
    rw [hscope2, hscope1, hscope] at hscope3
    obtain ⟨t', hscope', ht', hfirst, hlater⟩ := ih hscope3 hsize3
    exact ⟨t', hscope', ht', by omega, by omega⟩

theorem RoundEnds.scope (h : RoundEnds (invoke depth) init condition update body m k mk) :
    ∃ t, mk.scope = t :: m.scope ∧ t < mk.tables.entries.size ∧ m.tables.entries.size ≤ t := by
  obtain ⟨hstart, hrounds, htest, hbody⟩ := h
  obtain ⟨hscope1, hsize1⟩ := execInit_stays hstart
  obtain ⟨hscope3, hsize3⟩ := loopTest_stays htest
  obtain ⟨hscope4, hsize4⟩ := execBlock_stays hbody
  have hinner : m.inner.tables.entries.size = m.tables.entries.size + 1 :=
    m.tables.size_nest m.scope []
  obtain ⟨t, hscope2, ht, hfirst, hlater⟩ := hrounds.scope hinit hscope1 (by omega)
  exact ⟨t, by rw [hscope4, hscope3, hscope2], by omega, by omega⟩

/-- A later round runs in a table that is not there yet. -/
theorem RoundEnds.later (h : RoundEnds (invoke depth) init condition update body m k mk) {n : Nat}
    (h' : RoundEnds (invoke depth) init condition update body m (k + (n + 1)) m') :
    ∃ t', m'.scope = t' :: m.scope ∧ mk.tables.entries.size ≤ t' ∧
      (n = 0 → t' = mk.tables.entries.size) := by
  obtain ⟨t, hscope, ht, hnew⟩ := h.scope hinit
  obtain ⟨hstart, hrounds, htest, hbody⟩ := h
  obtain ⟨hstart', hrounds', htest', hbody'⟩ := h'
  cases hstart.symm.trans hstart'
  cases hrounds.rest hrounds' with
  | round htest1 hbody1 hstep hrest =>
    cases htest.symm.trans htest1
    cases hbody.symm.trans hbody1
    obtain ⟨hscope1, hsize1⟩ := loopStep_scope hinit hstep
    rw [hscope] at hscope1
    obtain ⟨t', hscope2, _, hfirst, hlater⟩ := hrest.scope hinit hscope1 hsize1
    refine ⟨t', ?_, by omega, by omega⟩
    rw [(execBlock_stays hbody').1, (loopTest_stays htest').1, hscope2]
    rfl

theorem RoundEnds.scope_ne_of_lt {n : Nat} (hlt : k < n)
    (h : RoundEnds (invoke depth) init condition update body m k mk)
    (h' : RoundEnds (invoke depth) init condition update body m n m') : mk.scope ≠ m'.scope := by
  obtain ⟨i, rfl⟩ := Nat.exists_eq_add_of_lt hlt
  obtain ⟨t, hscope, ht, _⟩ := h.scope hinit
  obtain ⟨t', hscope', hlater, _⟩ := h.later hinit h'
  rw [hscope, hscope']
  intro heq
  obtain ⟨rfl, _⟩ := List.cons.inj heq
  omega

end

theorem renewScope_copies (m : Machine) :
    (final (renewScope m)).tables.bindings ((final (renewScope m)).scope.headD 0) =
      m.tables.bindings (m.scope.headD 0) := by
  change (m.tables.nest m.scope.tail (m.tables.bindings (m.scope.headD 0))).1.bindings
    m.tables.entries.size = _
  simp [Tables.nest, Tables.bindings]

/-! ## What is left alone -/

theorem bindings_upheld (t : Nat) (b : Bindings) :
    Upheld (fun scope => scope ≠ [] ∧ t ∉ scope) (fun scope => t ∉ scope)
      (fun m => t < m.tables.entries.size ∧ m.tables.bindings t = b) := by
  refine .of_tables (Q := fun tables => t < tables.entries.size ∧ tables.bindings t = b) ?_ ?_ ?_
    And.right fun hscope hmem => hscope.2 (List.mem_of_mem_tail hmem)
  · intro tables scope id name v hscope ht hid
    have hne : id ≠ t := by
      rintro rfl
      obtain ⟨head, rest, rfl⟩ := List.exists_cons_of_ne_nil hscope.1
      exact hscope.2 (hid.elim (fun hhead => hhead ▸ List.mem_cons_self) And.left)
    rw [Tables.size_write, Tables.bindings_write_of_ne tables hne]
    exact ht
  · intro tables scope bindings ht
    rw [Tables.size_nest, tables.bindings_nest ht.1]
    exact ⟨Nat.lt_succ_of_lt ht.1, ht.2⟩
  · intro tables scope houter ht
    refine ⟨List.cons_ne_nil _ _, List.not_mem_cons_of_ne_of_not_mem ?_ houter⟩
    exact Nat.ne_of_lt ht.1

/-- Calls that leave a table alone. -/
def CallsSpare (t : Nat) (answer : Nat → Invoke) : Prop :=
  ∀ depth f args label line b,
    Retains (fun m => t < m.tables.entries.size ∧ m.tables.bindings t = b)
      (answer depth f args label line)

/-- No call is made. -/
def refuse : Nat → Invoke := fun _ _ _ _ _ => throw .callDepth

theorem refuse_spares (t : Nat) : CallsSpare t refuse :=
  fun _ _ _ _ _ _ => .of_reads fun _ => .inr ⟨_, rfl⟩

/-- The functions that were made in a scope with the given table. -/
def enclosedBy (t : Nat) (f : Function) : Bool := f.scope.contains t

/-- What a loop does after a round leaves the table of the round alone, apart from calls of functions
    that were made there. -/
theorem afterRound_spares (hinit : renewsBindings init = true) {t : Nat} (ht : t ∉ m.scope.tail)
    (hsize : t < m.tables.entries.size) {answer : Nat → Invoke} (hanswer : CallsSpare t answer)
    (depth : Nat) (condition update : Option Expr) (body : Block) (line k : Nat) :
    (final (afterRound (invokeVia (enclosedBy t) answer depth) init condition update body line k
      m)).tables.bindings t = m.tables.bindings t := by
  have h := bindings_upheld t (m.tables.bindings t)
  have hcall := @invokeVia_upholds _ _ _ h (enclosedBy t) answer
    (fun f hf => by simpa [enclosedBy] using hf)
    (fun depth f args label line _ => (hanswer depth f args label line _).upholds) depth
  obtain ⟨hP, hm⟩ := loopStep_enters h hcall hinit update ht ⟨hsize, rfl⟩
  rw [afterRound, bind_apply]
  cases hstep : loopStep (invokeVia (enclosedBy t) answer depth) init update m with
  | error fault m' =>
    rw [hstep] at hP
    exact hP.2
  | ok _ m' =>
    rw [hstep] at hP hm
    exact (rounds_upholds h hcall init condition update body line _ m' hm hP).1.2

theorem RoundEnds.exec_eq {call : Invoke} (h : RoundEnds call init condition update body m k mk)
    (hk : k < maxLoopRounds) (line : Nat) : exec call (.loop init condition update body line) m =
      restoring m.scope m.frames (afterRound call init condition update body line k) mk := by
  obtain ⟨hstart, hrounds, htest, hbody⟩ := h
  have hloop := hrounds.iterate_eq line (loopResidue condition update body line)
    (maxLoopRounds - (k + 1) + 1)
  rw [iterate, bind_of_ok htest] at hloop
  have hround := hloop.trans (bind_of_ok hbody _)
  rw [show k + (maxLoopRounds - (k + 1) + 1) = maxLoopRounds by omega] at hround
  rw [exec]
  change restoring m.scope m.frames _ m.inner = _
  rw [restoring, restoring, bind_of_ok hstart, hround]
  rfl

/-- The names of the tables in which a loop does not run stay as they are. -/
theorem afterRound_names (depth : Nat) (init : LoopInit) (condition update : Option Expr)
    (body : Block) (line k : Nat) {i : Nat} (hi : i < m.tables.entries.size)
    (hscope : m.scope.headD 0 ≠ i) :
    (final (afterRound (invoke depth) init condition update body line k m)).tables.names i =
      m.tables.names i := by
  have h := outer_names_upheld i (m.tables.names i)
  have hcall := invoke_upholds h (fun _ => trivial) depth
  exact ((loopStep_upholds h hcall init update).bind (fun _ =>
    rounds_upholds h hcall init condition update body line _) m hscope ⟨hi, rfl⟩).1.2

/-- So a name is found behind such tables where it was found before, if its binding was spared. -/
theorem afterRound_get? (depth : Nat) (init : LoopInit) (condition update : Option Expr)
    (body : Block) (line k : Nat) (outer : Scope) {front : List Nat} {t : Nat} {x : String}
    {v : Value}
    (hfront : ∀ i ∈ front, m.scope.headD 0 ≠ i ∧ i < m.tables.entries.size ∧ x ∉ m.tables.names i)
    (hv : ((final (afterRound (invoke depth) init condition update body line k
      m)).tables.bindings t).lookup x = some v) :
    (final (afterRound (invoke depth) init condition update body line k m)).tables.get?
      (front ++ t :: outer) x = some v := by
  refine Tables.get?_append_cons _ (fun i hi => ?_) hv
  obtain ⟨hhead, hlt, hx⟩ := hfront i hi
  rwa [afterRound_names depth init condition update body line k hlt hhead]

theorem restoring_tables (scope : Scope) (frames : List Frame) (act : Run α) (m : Machine) :
    (final (restoring scope frames act m)).tables = (final (act m)).tables := by
  rw [restoring]
  cases act m <;> rfl

/-- A loop that starts with `let` or `const` comes to the end of the body of round `k`.  This round
    has run in a table of its own, beside those outside the loop, and no other round runs in it.  The
    next round starts in a new table, with the same bindings.  What the loop still does leaves the
    table of the round alone, apart from calls of functions over that table: whatever these calls are
    replaced by, it does so if they do.  In particular, if it makes no difference that there are no
    such calls, a function that was made in the round reads the variables of the round as they were
    at the end of its body, when the loop is over. -/
theorem loop_rounds_keep_variables (hinit : renewsBindings init = true)
    (hm : ∀ id ∈ m.scope, id < m.tables.entries.size) (hk : k < maxLoopRounds)
    (h : RoundEnds (invoke depth) init condition update body m k mk) (line : Nat) :
    ∃ t, mk.scope = t :: m.scope ∧
      (∀ n m', n ≠ k → RoundEnds (invoke depth) init condition update body m n m' →
        m'.scope ≠ mk.scope) ∧
      (∃ m', renewScope mk = .ok () m' ∧
        m'.tables.bindings (m'.scope.headD 0) = mk.tables.bindings t ∧
        ∀ m'', RoundEnds (invoke depth) init condition update body m (k + 1) m'' →
          m''.scope = m'.scope) ∧
      exec (invoke depth) (.loop init condition update body line) m = restoring m.scope m.frames
        (afterRound (invokeVia (enclosedBy t) invoke depth) init condition update body line k) mk ∧
      (∀ answer, CallsSpare t answer → (final (afterRound (invokeVia (enclosedBy t) answer depth)
        init condition update body line k mk)).tables.bindings t = mk.tables.bindings t) ∧
      (afterRound (invokeVia (enclosedBy t) refuse depth) init condition update body line k mk =
          afterRound (invokeVia (enclosedBy t) invoke depth) init condition update body line k mk →
        ∀ front x v, (∀ i ∈ front, i ≠ t ∧ i < mk.tables.entries.size ∧ x ∉ mk.tables.names i) →
          (mk.tables.bindings t).lookup x = some v →
          let m' := { final (exec (invoke depth) (.loop init condition update body line) m) with
            scope := front ++ t :: m.scope }
          lookup x m' = .ok v m') := by
  obtain ⟨t, hscope, ht, hnew⟩ := h.scope hinit
  have houter : t ∉ mk.scope.tail := by
    rw [hscope]
    exact fun hmem => absurd (hm t hmem) (Nat.not_lt.2 hnew)
  refine ⟨t, hscope, ?_⟩
  rw [invokeVia_invoke]
  refine ⟨fun n m' hn h' => ?_, ⟨_, rfl, ?_, fun m'' h' => ?_⟩, h.exec_eq hk line,
    fun answer hanswer => ?_, fun hsame front x v hfront hv => ?_⟩
  · -- no other round runs in the table
    rcases Nat.lt_or_gt_of_ne hn with hlt | hgt
    · exact h'.scope_ne_of_lt hinit hlt h
    · exact (h.scope_ne_of_lt hinit hgt h').symm
  · have hcopy := renewScope_copies mk
    rwa [hscope] at hcopy
  · obtain ⟨t', ht', _, hnext⟩ := h.later (n := 0) hinit h'
    rw [ht', hnext rfl, hscope]
    rfl
  · exact afterRound_spares hinit houter ht hanswer depth condition update body line k
  · -- calls that are refused spare the table, and here they make no difference
    have hspared := afterRound_spares hinit houter ht (refuse_spares t) depth condition update body
      line k
    rw [hsame] at hspared
    have hfront' (i : Nat) (hi : i ∈ front) :
        mk.scope.headD 0 ≠ i ∧ i < mk.tables.entries.size ∧ x ∉ mk.tables.names i := by
      obtain ⟨hne, hlt, hx⟩ := hfront i hi
      exact ⟨hscope ▸ Ne.symm hne, hlt, hx⟩
    have hget := afterRound_get? depth init condition update body line k m.scope hfront'
      (hspared.symm ▸ hv)
    rw [← restoring_tables m.scope m.frames, ← h.exec_eq hk line] at hget
    simp [lookup, hget]

/-- A loop that counts to 2, the body of which makes a function.  When the loop is over, the function
    of the first round reads what its variable was at the end of that round, which is not truthy. -/
theorem counted_round_keeps_variable :
    let init : LoopInit := .declare .letWord [.mk "i" (some (.literal (.number (.int 0)) 1))] 1
    let condition : Expr := .binary .lt (.ident "i" 1) (.literal (.number (.int 2)) 1) 1
    let update : Expr := .update .increment "i" false 1
    let f : Expr := .function [] (.value (.ident "i" 1)) none true false 1
    let body : Block := .mk [.expr (.assign .set "f" f 1) 1] 1
    let m := Machine.start 100 {}
    ∃ mk v, RoundEnds (invoke 1) init (some condition) (some update) body m 0 mk ∧
      mk.scope = [1, 0] ∧ (mk.tables.bindings 1).lookup "i" = some v ∧ v.isTruthy = false ∧
      let m' := { final (exec (invoke 1) (.loop init (some condition) (some update) body 1) m) with
        scope := [2, 1, 0] }
      lookup "i" m' = .ok v m' := by
  intro init condition update f body m
  have hround : succeeds (execInit (invoke 1) init) (fun _ => succeeds
      (loopTest (invoke 1) (some condition)) fun go => succeeds (execBlock (invoke 1) body)
        fun outcome mk => go && Outcome.rec true (fun _ => false) (fun _ => false) outcome &&
          mk.scope == [1, 0] && mk.tables.entries.size == 3 && mk.tables.names 2 == ["f"] &&
          ((mk.tables.bindings 1).lookup "i").any (!·.isTruthy)) m.inner = true := by
    decide +kernel
  obtain ⟨_, m1, hstart, hround⟩ := succeeds_inv hround
  obtain ⟨go, m2, htest, hround⟩ := succeeds_inv hround
  obtain ⟨outcome, mk, hbody, hround⟩ := succeeds_inv hround
  simp only [Bool.and_eq_true, beq_iff_eq, Option.any_eq_true, Bool.not_eq_true'] at hround
  obtain ⟨⟨⟨⟨⟨rfl, hcompleted⟩, hscope⟩, hsize⟩, hnames⟩, v, hv, hfalsy⟩ := hround
  cases outcome with
  | returned v => cases hcompleted
  | suspended k => cases hcompleted
  | completed =>
    have hends : RoundEnds (invoke 1) init (some condition) (some update) body m 0 mk :=
      .intro hstart (.none _) htest hbody
    obtain ⟨t, ht, _, _, _, _, hread⟩ := loop_rounds_keep_variables (k := 0) rfl
      (by decide) (by decide) hends 1
    obtain rfl : t = 1 := (List.cons.inj (ht.symm.trans hscope)).1
    -- nothing is called in the loop
    have hsame (call call' : Invoke) :
        afterRound call init (some condition) (some update) body 1 0 mk =
          afterRound call' init (some condition) (some update) body 1 0 mk := rfl
    refine ⟨mk, v, hends, hscope, hv, hfalsy, hread (hsame _ _) [2] "i" v ?_ hv⟩
    simp [hsize, hnames]

/-- The function `set` is made by the initialiser, in the table of the first round.  The function
    that is made in the first round reads 0 at the end of its body.  But after the second round has
    called `set`, it reads 50. -/
theorem initialiser_shares_variable :
    let source := "let f\nfor (let i = 0, set = () => { i = 50 }; i < 2; i++) \x7b\n" ++
      "  if (i === 0) { f = () => i; let r = f(); console.log(r) } else { set() }\n\x7d\n" ++
      "let r = f()\nconsole.log(r)"
    let m := [Operation.run ((readProgram (some source)).toOption.getD default)].foldl Machine.after
      (Machine.start 100 {})
    (Step.consoleLines m.steps.toList).map Json.plain = ["0", "50"] := by
  decide +kernel

end Run

end EventLoop
