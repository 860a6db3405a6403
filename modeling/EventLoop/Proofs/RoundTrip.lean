/-
  Reading undoes printing.

  `Legible` says of tokens, for every position in the grammar that their level allows, that the
  reader for this position gives the expression and stops behind them.  What comes behind must not
  bind more tightly than the position does (`Behind`).  Readers for operands and for chains of
  operators go on with what follows, so for them the statement is that the reader gets to the point
  where the expression is its left operand, with enough fuel left.

  A lemma for each way to put tokens together shows that the result is legible.  The main statement
  follows the expression: what is printed is read again, as long as no integer has more digits than
  are read.
-/
import EventLoop.Proofs.Printing

namespace EventLoop.Script

variable {rest ts : List Token} {x : String} {m : Mark}

/-! ## What comes behind an expression -/

/-- How tightly the first of some tokens binds to what stands in front of it: nothing does at the
    end and at what closes or separates, an operator does by its level, and calls and members do
    most.  What can follow no operand at all counts as tighter than anything. -/
def tightness : List Token → Nat
  | [] | .mark .rightParen :: _ | .mark .rightBracket :: _ | .mark .comma :: _ => 0
  | .mark (.binary op) :: _ => op.level
  | .mark .leftParen :: _ | .mark .dot :: _ => 8
  | _ => 9

/-- Tokens that may come behind an expression at a position of the given level. -/
structure Behind (level : Nat) (rest : List Token) : Prop where
  proper : ∀ t ∈ rest, t.isProper = true
  tight : tightness rest ≤ level

theorem BinaryOp.level_bounds (op : BinaryOp) : 1 ≤ op.level ∧ op.level ≤ 6 := by
  cases op <;> decide

namespace Behind

variable {level level' : Nat} {rest : List Token}

theorem mono (h : Behind level rest) (hle : level ≤ level') : Behind level' rest :=
  ⟨h.proper, Nat.le_trans h.tight hle⟩

theorem nil : Behind level [] := ⟨nofun, Nat.zero_le level⟩

/-- What follows an operand is at the end of the text, or a mark that does not count. -/
theorem cases_mark (h : Behind 8 rest) :
    rest = [] ∨ ∃ m ts, rest = .mark m :: ts ∧ m.isUpdate = false ∧ m ≠ .arrow ∧
      ∀ op, m ≠ .assign op := by
  have htight := h.tight
  cases rest with
  | nil => exact .inl rfl
  | cons t ts =>
    refine .inr ?_
    cases t with
    | mark m =>
      refine ⟨m, ts, rfl, ?_⟩
      cases m with
      | rightParen | rightBracket | comma | leftParen | dot | binary =>
        exact ⟨rfl, nofun, nofun⟩
      | _ => simp [tightness] at htight
    | _ => simp [tightness] at htight

theorem afterVariable (h : Behind 8 rest) : Place.afterVariable.Meets rest := by
  rcases h.cases_mark with rfl | ⟨m, ts, rfl, hm, _⟩
  · exact Place.meets_nil _
  · exact Place.meets_of_takes h.proper rfl nofun

theorem afterOperand (h : Behind 8 rest) : Place.afterOperand.Meets rest := by
  rcases h.cases_mark with rfl | ⟨m, ts, rfl, hm, _⟩
  · exact Place.meets_nil _
  · exact Place.meets_of_takes h.proper (by simp [Place.takes, hm]) nofun

/-- A parenthesis that is closed in front of such tokens opens no head of a function. -/
theorem opensArrow_eq (h : Behind 8 rest) : opensArrow (.mark .rightParen :: rest) = false := by
  rcases h.cases_mark with rfl | ⟨m, ts, rfl, _, hm, _⟩
  · rfl
  · rw [opensArrow, beq_eq_false_iff_ne]
    exact hm

theorem mark (hts : ∀ t ∈ ts, t.isProper = true) (hm : tightness (.mark m :: ts) ≤ level) :
    Behind level (.mark m :: ts) :=
  ⟨List.forall_mem_cons.2 ⟨rfl, hts⟩, hm⟩

end Behind

theorem operandRest_stop (h : Behind 7 rest) (fuel line : Nat) (e : Expr) :
    operandRest (fuel + 1) line e (.facing rest) = some (e, .facing rest) := by
  have htight := h.tight
  rw [operandRest]
  cases rest with
  | nil => rfl
  | cons t ts =>
    cases t with
    | mark m =>
      cases m with
      | leftParen | dot => simp [tightness] at htight
      | _ => rfl
    | _ => rfl

/-- A chain of operators ends where no operator follows that binds tightly enough. -/
theorem binaryRest_stop {level : Nat} (h : tightness rest < level) (fuel line : Nat) (e : Expr) :
    binaryRest (fuel + 1) level line e (.facing rest) = some (e, .facing rest) := by
  rw [binaryRest]
  cases rest with
  | nil => rfl
  | cons t ts =>
    cases t with
    | mark m =>
      cases m with
      | binary op =>
        rw [tightness] at h
        simp only [Cursor.facing_token, if_neg (Nat.not_le.2 h)]
      | _ => rfl
    | _ => rfl

/-! ## How expressions start -/

/-- Whether a token turns a name in front of it into what is assigned to, or into a parameter. -/
def Token.bindsName : Token → Bool
  | .mark (.assign _) | .mark .arrow => true
  | _ => false

theorem Behind.not_bindsName (h : Behind 8 rest) : ∀ t ∈ rest.head?, t.bindsName = false := by
  rcases h.cases_mark with rfl | ⟨m, ts, rfl, _, harrow, hassign⟩
  · exact nofun
  · rintro _ ⟨⟩
    cases m with
    | assign op => exact absurd rfl (hassign op)
    | arrow => exact absurd rfl harrow
    | _ => rfl

theorem variableRest_stop (h : Behind 8 rest) (fuel line : Nat) (x : String) :
    variableRest (fuel + 1) x line (.facing rest) =
      operandRest fuel line (.ident x line) (.facing rest) := by
  rw [variableRest]
  rcases h.cases_mark with rfl | ⟨m, ts, rfl, hm, _⟩
  · rfl
  · cases m with
    | update op => cases hm
    | _ => rfl

/-- The start of an operand, up to where a reader looks ahead: behind a name comes nothing that
    binds it, and an opening parenthesis is no head of a function. -/
inductive StartsOperand : List Token → Prop
  | name {x : String} {ts : List Token} (hmeets : Place.afterVariable.Meets ts)
      (hfree : ∀ t ∈ ts.head?, t.bindsName = false) : StartsOperand (.name x :: ts)
  | number (digits : List Char) (ts : List Token) : StartsOperand (.number digits :: ts)
  | word {k : Keyword} (hk : k = .trueWord ∨ k = .falseWord ∨ k = .nullWord) (ts : List Token) :
      StartsOperand (.keyword k :: ts)
  | paren {ts : List Token} (h : opensArrow ts = false) : StartsOperand (.mark .leftParen :: ts)
  | bracket (ts : List Token) : StartsOperand (.mark .leftBracket :: ts)

/-- The start of an operand with its operators in front. -/
inductive StartsUnary : List Token → Prop
  | operand {ts : List Token} (h : StartsOperand ts) : StartsUnary ts
  | sign (op : UnaryOp) (ts : List Token) : StartsUnary (.mark op.mark :: ts)
  | update (op : UpdateOp) (ts : List Token) : StartsUnary (.mark (.update op) :: ts)
  | await (ts : List Token) : StartsUnary (.keyword .awaitWord :: ts)

/-- The first token is read, also where a function with an arrow may start. -/
theorem StartsOperand.meets {p : Place} (h : StartsOperand ts)
    (hproper : ∀ t ∈ ts, t.isProper = true) (hp : p = .value ∨ p = .operand) : p.Meets ts := by
  cases h with
  | name => exact Place.meets_of_takes hproper rfl nofun
  | number => exact Place.meets_of_takes hproper rfl nofun
  | word hk =>
    refine Place.meets_of_takes hproper ?_ nofun
    rcases hp with rfl | rfl <;> rcases hk with rfl | rfl | rfl <;> decide
  | paren hopens =>
    refine Place.meets_of_takes hproper ?_ fun _ _ => hopens
    rcases hp with rfl | rfl <;> decide
  | bracket =>
    refine Place.meets_of_takes hproper ?_ nofun
    rcases hp with rfl | rfl <;> decide

theorem StartsUnary.meets {p : Place} (h : StartsUnary ts) (hproper : ∀ t ∈ ts, t.isProper = true)
    (hp : p = .value ∨ p = .operand) : p.Meets ts := by
  cases h with
  | operand h => exact h.meets hproper hp
  | sign op =>
    refine Place.meets_of_takes hproper ?_ fun h => ?_
    · rcases hp with rfl | rfl <;> cases op <;> decide
    · cases op <;> cases h
  | update op =>
    refine Place.meets_of_takes hproper ?_ nofun
    rcases hp with rfl | rfl <;> rfl
  | await =>
    refine Place.meets_of_takes hproper ?_ nofun
    rcases hp with rfl | rfl <;> decide

theorem StartsOperand.unary_eq (h : StartsOperand ts) (fuel : Nat) :
    unary (fuel + 1) (.facing ts) = operand fuel (.facing ts) := by
  rw [unary]
  cases h with
  | word hk => rcases hk with rfl | rfl | rfl <;> rfl
  | _ => rfl

/-- Reads an operand and the operators behind it, with fuel for each. -/
def chained (fuel fuel' level : Nat) (c : Cursor) : Option (Expr × Cursor) := do
  let (e, rest) ← unary fuel c
  binaryRest fuel' level 1 e rest

theorem binary_eq_chained (fuel level : Nat) (ts : List Token) :
    binary (fuel + 1) level (.facing ts) = chained fuel fuel level (.facing ts) := by
  rw [binary, chained, Cursor.facing_line]

/-- A name that nothing binds is the first operand of a chain. -/
theorem expression_name (hmeets : Place.afterVariable.Meets ts)
    (hfree : ∀ t ∈ ts.head?, t.bindsName = false) (fuel : Nat) :
    expression (fuel + 1) (.facing (.name x :: ts)) =
      chained (fuel + 2) fuel 1 (.facing (.name x :: ts)) := by
  have hstarts : StartsOperand (.name x :: ts) := .name hmeets hfree
  rw [chained, hstarts.unary_eq, operand, expression]
  simp only [Cursor.facing_token, Cursor.advance_facing hmeets, Cursor.facing_line,
    Option.bind_eq_bind, Option.bind_some]
  cases ts with
  | nil => rfl
  | cons t ts =>
    have ht : t.bindsName = false := hfree t rfl
    cases t with
    | mark m =>
      cases m with
      | assign op => cases ht
      | arrow => cases ht
      | _ => rfl
    | _ => rfl

/-- An expression that is no assignment and no function is a chain of operands. -/
theorem StartsUnary.expression_eq (h : StartsUnary ts) (fuel : Nat) (hfuel : 2 ≤ fuel) :
    ∃ a b, fuel ≤ a + 2 ∧ fuel ≤ b + 2 ∧
      expression fuel (.facing ts) = chained a b 1 (.facing ts) := by
  obtain ⟨fuel, rfl⟩ : ∃ k, fuel = k + 2 := ⟨fuel - 2, by omega⟩
  have hbinary : expression (fuel + 2) (.facing ts) = binary (fuel + 1) 1 (.facing ts) →
      ∃ a b, fuel + 2 ≤ a + 2 ∧ fuel + 2 ≤ b + 2 ∧
        expression (fuel + 2) (.facing ts) = chained a b 1 (.facing ts) := by
    intro heq
    exact ⟨fuel, fuel, Nat.le_refl _, Nat.le_refl _, heq.trans (binary_eq_chained fuel 1 ts)⟩
  cases h with
  | operand h =>
    cases h with
    | name hmeets hfree =>
      exact ⟨fuel + 3, fuel + 1, by omega, by omega, expression_name hmeets hfree (fuel + 1)⟩
    | word hk =>
      apply hbinary
      rw [expression]
      rcases hk with rfl | rfl | rfl <;> rfl
    | _ =>
      apply hbinary
      rw [expression]
      rfl
  | sign op =>
    apply hbinary
    rw [expression]
    cases op <;> rfl
  | update | await =>
    apply hbinary
    rw [expression]
    rfl

/-! ## Legible tokens -/

/-- Tokens that can be printed together, where no parenthesis is closed that was not opened. -/
structure Wellformed (ts : List Token) : Prop where
  proper : ∀ t ∈ ts, t.isProper = true
  opens : ∀ rest, opensArrow rest = false → opensArrow (ts ++ rest) = false

theorem proper_append (hts : ∀ t ∈ ts, t.isProper = true) (hrest : ∀ t ∈ rest, t.isProper = true) :
    ∀ t ∈ ts ++ rest, t.isProper = true := by
  intro t ht
  rcases List.mem_append.1 ht with ht | ht
  · exact hts t ht
  · exact hrest t ht

namespace Wellformed

variable {ts ts' : List Token} {t : Token}

theorem nil : Wellformed [] := ⟨nofun, fun _ h => h⟩

theorem append (h : Wellformed ts) (h' : Wellformed ts') : Wellformed (ts ++ ts') where
  proper := proper_append h.proper h'.proper
  opens rest hrest := by
    rw [List.append_assoc]
    exact h.opens _ (h'.opens rest hrest)

theorem cons (ht : t.isProper = true) (hclose : t ≠ .mark .rightParen) (h : Wellformed ts) :
    Wellformed (t :: ts) where
  proper := List.forall_mem_cons.2 ⟨ht, h.proper⟩
  opens rest hrest := by
    have hts := h.opens rest hrest
    cases t with
    | mark m =>
      cases m with
      | leftParen => rfl
      | rightParen => exact absurd rfl hclose
      | _ => exact hts
    | arrowHead params => rfl
    | _ => exact hts

theorem single (ht : t.isProper = true) (hclose : t ≠ .mark .rightParen) : Wellformed [t] :=
  cons ht hclose nil

theorem enclosed (h : Wellformed ts) : Wellformed (enclosed ts) where
  proper := List.forall_mem_cons.2 ⟨rfl, proper_append h.proper (by simp [Token.isProper])⟩
  opens _ _ := rfl

end Wellformed

/-- What holds of the tokens, whatever may come behind an operand. -/
abbrev Leading (P : List Token → Prop) (ts : List Token) : Prop :=
  ∀ rest, Behind 8 rest → P (ts ++ rest)

/-- The fuel that is needed to read the tokens grows with their number. -/
abbrev ReadsExpression (ts : List Token) (e : Expr) : Prop :=
  ∀ fuel rest, Behind 0 rest → 8 * ts.length ≤ fuel + 1 →
    expression fuel (.facing (ts ++ rest)) = some (e, .facing rest)

abbrev ReadsChained (level : Nat) (ts : List Token) (e : Expr) : Prop :=
  ∀ a b least rest, least ≤ level → Behind (min level 7) rest →
    8 * ts.length ≤ a + 4 → 8 * ts.length ≤ b + 4 → ∃ left, b ≤ left + 2 * ts.length ∧
      chained a b least (.facing (ts ++ rest)) = binaryRest left least 1 e (.facing rest)

abbrev ReadsUnary (ts : List Token) (e : Expr) : Prop :=
  ∀ fuel rest, Behind 7 rest → 8 * ts.length ≤ fuel + 4 →
    unary fuel (.facing (ts ++ rest)) = some (e, .facing rest)

abbrev ReadsOperand (ts : List Token) (e : Expr) : Prop :=
  ∀ fuel rest, Behind 8 rest → 8 * ts.length ≤ fuel + 6 → ∃ left, fuel ≤ left + 2 * ts.length ∧
    operand fuel (.facing (ts ++ rest)) = operandRest left 1 e (.facing rest)

/-- The tokens are read as the expression at every position that takes their level, whatever may
    come behind them there. -/
structure Legible (level : Nat) (ts : List Token) (e : Expr) : Prop extends Wellformed ts where
  pos : 0 < ts.length
  value : Leading Place.value.Meets ts
  starts : 1 ≤ level → Leading StartsUnary ts
  startsOperand : 8 ≤ level → Leading StartsOperand ts
  expression : ReadsExpression ts e
  chained : 1 ≤ level → ReadsChained level ts e
  unary : 7 ≤ level → ReadsUnary ts e
  operand : 8 ≤ level → ReadsOperand ts e

namespace Legible

variable {level : Nat} {ts : List Token} {e : Expr}

/-- What is read as a chain of operands is read as an expression. -/
theorem of_chained (h : Wellformed ts) (hpos : 0 < ts.length) (hstarts : Leading StartsUnary ts)
    (hlevel : 1 ≤ level) (hchained : ReadsChained level ts e) (hunary : 7 ≤ level → ReadsUnary ts e)
    (hstarts' : 8 ≤ level → Leading StartsOperand ts) (hoperand : 8 ≤ level → ReadsOperand ts e) :
    Legible level ts e where
  toWellformed := h
  pos := hpos
  value rest hrest := (hstarts rest hrest).meets (proper_append h.proper hrest.proper) (.inl rfl)
  starts _ := hstarts
  startsOperand := hstarts'
  expression fuel rest hrest hfuel := by
    obtain ⟨a, b, ha, hb, heq⟩ :=
      (hstarts rest (hrest.mono (by omega))).expression_eq fuel (by omega)
    obtain ⟨left, hleft, hchain⟩ := hchained a b 1 rest hlevel (hrest.mono (by omega)) (by omega)
      (by omega)
    obtain ⟨left, rfl⟩ : ∃ k, left = k + 1 := ⟨left - 1, by omega⟩
    rw [heq, hchain]
    exact binaryRest_stop (Nat.lt_succ_of_le hrest.tight) left 1 e
  chained _ := hchained
  unary := hunary
  operand := hoperand

/-- What is read as an operand with operators in front of it is read as a chain. -/
theorem of_unary (h : Wellformed ts) (hpos : 0 < ts.length) (hstarts : Leading StartsUnary ts)
    (hlevel : 7 ≤ level) (hunary : ReadsUnary ts e)
    (hstarts' : 8 ≤ level → Leading StartsOperand ts) (hoperand : 8 ≤ level → ReadsOperand ts e) :
    Legible level ts e := by
  refine of_chained h hpos hstarts (by omega) (fun a b least rest _ hrest ha _ => ?_)
    (fun _ => hunary) hstarts' hoperand
  refine ⟨b, Nat.le_add_right _ _, ?_⟩
  rw [Script.chained, hunary a rest (hrest.mono (by omega)) ha]
  rfl

/-- What is read as an operand is read everywhere. -/
theorem of_operand (h : Wellformed ts) (hpos : 0 < ts.length) (hstarts : Leading StartsOperand ts)
    (hreads : ∀ fuel rest, Behind 8 rest → 8 * ts.length ≤ fuel + 7 →
      ∃ left, fuel + 1 ≤ left + 2 * ts.length ∧
        Script.operand (fuel + 1) (.facing (ts ++ rest)) = operandRest left 1 e (.facing rest)) :
    Legible 9 ts e := by
  have hoperand : ReadsOperand ts e := by
    intro fuel rest hrest hfuel
    obtain ⟨fuel, rfl⟩ : ∃ k, fuel = k + 1 := ⟨fuel - 1, by omega⟩
    exact hreads fuel rest hrest hfuel
  refine of_unary h hpos (fun rest hrest => .operand (hstarts rest hrest)) (by omega) ?_
    (fun _ => hstarts) fun _ => hoperand
  intro fuel rest hrest hfuel
  have hrest' : Behind 8 rest := hrest.mono (by omega)
  obtain ⟨fuel, rfl⟩ : ∃ k, fuel = k + 1 := ⟨fuel - 1, by omega⟩
  obtain ⟨left, hleft, heq⟩ := hoperand fuel rest hrest' (by omega)
  obtain ⟨left, rfl⟩ : ∃ k, left = k + 1 := ⟨left - 1, by omega⟩
  rw [(hstarts rest hrest').unary_eq, heq]
  exact operandRest_stop hrest left 1 e

/-! ## Operands -/

theorem atom {t : Token} (ht : t.isProper = true) (hclose : t ≠ .mark .rightParen)
    (hstarts : ∀ rest, Behind 8 rest → StartsOperand (t :: rest))
    (hoperand : ∀ fuel rest, Script.operand (fuel + 1) (.facing (t :: rest)) = (do
      operandRest fuel 1 e (← (Cursor.facing (t :: rest)).advance .afterOperand))) :
    Legible 9 [t] e := by
  refine of_operand (.single ht hclose) Nat.one_pos hstarts fun fuel rest hrest hfuel => ?_
  refine ⟨fuel, by simp, ?_⟩
  rw [List.singleton_append, hoperand, Cursor.advance_facing hrest.afterOperand]
  rfl

theorem number {digits : List Char} {n : Number} (hproper : (Token.number digits).isProper = true)
    (hvalue : numberValue? digits = some n) :
    Legible 9 [.number digits] (.literal (.number n) 1) := by
  refine atom hproper nofun (fun rest _ => .number digits rest) fun fuel rest => ?_
  rw [Script.operand]
  simp only [Cursor.facing_token, hvalue, Cursor.facing_line]
  rfl

theorem ident (hx : isName x = true) : Legible 9 [.name x] (.ident x 1) := by
  refine of_operand (.single hx nofun) Nat.one_pos
    (fun rest hrest => .name hrest.afterVariable hrest.not_bindsName)
    fun fuel rest hrest hfuel => ?_
  simp only [List.length_singleton] at hfuel ⊢
  obtain ⟨fuel, rfl⟩ : ∃ k, fuel = k + 1 := ⟨fuel - 1, by omega⟩
  refine ⟨fuel, by omega, ?_⟩
  rw [List.singleton_append, Script.operand]
  simpa [Cursor.advance_facing hrest.afterVariable] using variableRest_stop hrest fuel 1 x

theorem updated (hx : isName x = true) (op : UpdateOp) :
    Legible 9 [.name x, .mark (.update op)] (.update op x false 1) := by
  have hmeets (rest : List Token) (hrest : Behind 8 rest) :
      Place.afterVariable.Meets (.mark (.update op) :: rest) :=
    Place.meets_of_takes (List.forall_mem_cons.2 ⟨rfl, hrest.proper⟩) rfl nofun
  refine of_operand (.cons hx nofun (.single rfl nofun)) Nat.two_pos
    (fun rest hrest => .name (hmeets rest hrest) (by rintro _ ⟨⟩; rfl))
    fun fuel rest hrest hfuel => ?_
  simp only [List.length_cons, List.length_nil] at hfuel ⊢
  obtain ⟨fuel, rfl⟩ : ∃ k, fuel = k + 1 := ⟨fuel - 1, by omega⟩
  refine ⟨fuel, by omega, ?_⟩
  rw [List.cons_append, List.singleton_append, Script.operand]
  simp [Cursor.advance_facing (hmeets rest hrest), variableRest,
    Cursor.advance_facing hrest.afterOperand]

theorem enclosed (h : Legible level ts e) : Legible 9 (enclosed ts) e := by
  have happend (rest : List Token) : Script.enclosed ts ++ rest =
      .mark .leftParen :: (ts ++ .mark .rightParen :: rest) := by simp [Script.enclosed]
  have hlength : (Script.enclosed ts).length = ts.length + 2 := by simp [Script.enclosed]
  have hclose {level : Nat} (rest : List Token) (hrest : Behind 8 rest) :
      Behind level (.mark .rightParen :: rest) := .mark hrest.proper (Nat.zero_le level)
  refine of_operand h.toWellformed.enclosed (by omega) (fun rest hrest => ?_)
    fun fuel rest hrest hfuel => ?_
  · rw [happend]
    exact .paren (h.opens _ hrest.opensArrow_eq)
  · rw [hlength] at hfuel ⊢
    refine ⟨fuel, by omega, ?_⟩
    have hinner := h.expression fuel (.mark .rightParen :: rest) (hclose rest hrest) (by omega)
    rw [happend, Script.operand]
    simp [Cursor.advance_facing (h.value _ (hclose rest hrest)), hinner,
      Cursor.expect_facing hrest.afterOperand]

/-- Tokens of a level are legible at any position, if need be in parentheses. -/
theorem placed (h : Legible level ts e) (position : Nat) (hposition : position ≤ 9) :
    ∃ level', position ≤ level' ∧ Legible level' (placed position level ts) e := by
  rw [Script.placed]
  split
  · exact ⟨9, hposition, h.enclosed⟩
  · exact ⟨level, by omega, h⟩

/-- Tokens behind an operand that make another operand of it. -/
theorem suffixed {ts' : List Token} {e' : Expr} (h : Legible level ts e) (hlevel : 8 ≤ level)
    (hts' : Wellformed ts') (hpos : 0 < ts'.length) (hbehind : Leading (Behind 8) ts')
    (hread : ∀ fuel rest, Behind 8 rest → 8 * ts'.length ≤ fuel + 1 →
      operandRest (fuel + 1) 1 e (.facing (ts' ++ rest)) = operandRest fuel 1 e' (.facing rest)) :
    Legible 9 (ts ++ ts') e' := by
  have hlength := h.pos
  refine of_operand (h.toWellformed.append hts') (by simp; omega) (fun rest hrest => ?_)
    fun fuel rest hrest hfuel => ?_
  · rw [List.append_assoc]
    exact h.startsOperand hlevel _ (hbehind rest hrest)
  · rw [List.length_append] at hfuel ⊢
    obtain ⟨left, hleft, heq⟩ := h.operand hlevel (fuel + 1) _ (hbehind rest hrest) (by omega)
    obtain ⟨left, rfl⟩ : ∃ k, left = k + 1 := ⟨left - 1, by omega⟩
    refine ⟨left, by omega, ?_⟩
    rw [List.append_assoc, heq, hread left rest hrest (by omega)]

theorem member (h : Legible level ts e) (hlevel : 8 ≤ level) (hx : isName x = true) :
    Legible 9 (ts ++ [.mark .dot, .name x]) (.member e x 1) := by
  have hname (rest : List Token) (hrest : Behind 8 rest) :
      ∀ t ∈ Token.name x :: rest, t.isProper = true := List.forall_mem_cons.2 ⟨hx, hrest.proper⟩
  refine h.suffixed hlevel (.cons rfl nofun (.single hx nofun)) (by simp)
    (fun rest hrest => .mark (hname rest hrest) (Nat.le_refl 8)) fun fuel rest hrest _ => ?_
  have hmeets : Place.plain.Meets (.name x :: rest) :=
    Place.meets_of_takes (hname rest hrest) rfl nofun
  rw [operandRest]
  simp [Cursor.advance_facing hmeets, Cursor.advance_facing hrest.afterOperand]

end Legible

/-- Whether a mark closes a list of expressions. -/
def Mark.closes (m : Mark) : Prop := m = .rightParen ∨ m = .rightBracket

theorem expression_mark (hm : m.closes ∨ m = .leftBrace) (fuel : Nat) (ts : List Token) :
    expression (fuel + 4) (.facing (.mark m :: ts)) = none := by
  rcases hm with (rfl | rfl) | rfl <;> simp [expression, binary, unary, operand]

theorem Legible.head_ne {level : Nat} {e : Expr} (h : Legible level ts e)
    (hm : m.closes ∨ m = .leftBrace) (hrest : Behind 0 rest) :
    (Cursor.facing (ts ++ rest)).token ≠ .mark m := by
  have hread := h.expression (8 * ts.length + 4) rest hrest (by omega)
  cases hts : ts ++ rest with
  | nil => exact nofun
  | cons t ts' =>
    rintro rfl
    rw [hts, expression_mark hm] at hread
    cases hread

theorem Behind.closer (hrest : Behind 8 rest) (hm : m.closes) (level : Nat) :
    Behind level (.mark m :: rest) := by
  refine .mark hrest.proper ?_
  rcases hm with rfl | rfl <;> exact Nat.zero_le level

/-- The tokens are read as the expressions, up to a mark that closes their list. -/
structure LegibleList (ts : List Token) (es : List Expr) : Prop extends Wellformed ts where
  value : ∀ m rest, m.closes → Behind 8 rest → Place.value.Meets (ts ++ .mark m :: rest)
  arguments : ∀ fuel m rest, m.closes → Behind 8 rest → 8 * ts.length + 1 ≤ fuel →
    arguments fuel m (.facing (ts ++ .mark m :: rest)) = some (es, .facing rest)

namespace LegibleList

variable {bare : Bool} {es : List Expr}

section

variable (h : ∀ e ∈ es, Legible e.level (e.tokens bare) (e.relined 1))

include h

theorem wellformed_more : Wellformed (Expr.moreTokens bare es) := by
  induction es with
  | nil => exact .nil
  | cons e es ih =>
    obtain ⟨he, hes⟩ := List.forall_mem_cons.1 h
    exact .cons rfl nofun (he.toWellformed.append (ih hes))

/-- Behind an expression of a list comes a comma, or the mark that closes the list. -/
theorem behind_more (hm : m.closes) (hrest : Behind 8 rest) (level : Nat) :
    Behind level (Expr.moreTokens bare es ++ .mark m :: rest) := by
  have hmore := wellformed_more h
  cases es with
  | nil => exact hrest.closer hm level
  | cons e es =>
    have hproper := proper_append hmore.proper (hrest.closer hm 0).proper
    exact ⟨hproper, Nat.zero_le level⟩

omit h in
/-- A list of expressions is read back, up to the mark that closes it. -/
theorem argumentsRest_list {e : Expr}
    (h : ∀ e' ∈ e :: es, Legible e'.level (e'.tokens bare) (e'.relined 1)) (hm : m.closes)
    (hrest : Behind 8 rest) (done : List Expr) {fuel : Nat}
    (hfuel : 8 * (Expr.listTokens bare (e :: es)).length ≤ fuel) :
    argumentsRest fuel m done (.facing (Expr.listTokens bare (e :: es) ++ .mark m :: rest)) =
      some (done.reverse ++ Expr.allRelined 1 (e :: es), .facing rest) := by
  induction es generalizing e done fuel with
  | nil =>
    have he := h e List.mem_cons_self
    have hpos := he.pos
    simp only [Expr.listTokens, Expr.moreTokens, List.append_nil] at hfuel ⊢
    obtain ⟨fuel, rfl⟩ : ∃ k, fuel = k + 1 := ⟨fuel - 1, by omega⟩
    have hread := he.expression fuel (.mark m :: rest) (hrest.closer hm 0) (by omega)
    have hcomma : ¬ Token.mark m = .mark .comma := by rcases hm with rfl | rfl <;> decide
    rw [argumentsRest]
    simp [hread, hcomma, Cursor.expect_facing hrest.afterOperand, Expr.allRelined]
  | cons e' es ih =>
    obtain ⟨he, hes⟩ := List.forall_mem_cons.1 h
    have hpos := he.pos
    have htokens : Expr.listTokens bare (e :: e' :: es) =
        e.tokens bare ++ .mark .comma :: Expr.listTokens bare (e' :: es) := rfl
    rw [htokens, List.length_append, List.length_cons] at hfuel
    obtain ⟨fuel, rfl⟩ : ∃ k, fuel = k + 1 := ⟨fuel - 1, by omega⟩
    have hbehind := behind_more hes hm hrest 0
    have hread : expression fuel (.facing (e.tokens bare ++ .mark .comma ::
        (Expr.listTokens bare (e' :: es) ++ .mark m :: rest))) = some (e.relined 1,
          .facing (.mark .comma :: (Expr.listTokens bare (e' :: es) ++ .mark m :: rest))) :=
      he.expression fuel _ hbehind (by omega)
    have hmeets : Place.value.Meets (Expr.listTokens bare (e' :: es) ++ .mark m :: rest) := by
      have he' := (hes e' List.mem_cons_self).value _
        (behind_more (List.forall_mem_cons.1 hes).2 hm hrest 8)
      rw [Expr.listTokens, List.append_assoc]
      exact he'
    have henough : 8 * (Expr.listTokens bare (e' :: es)).length ≤ fuel := by omega
    have hmore := ih hes (e.relined 1 :: done) henough
    rw [htokens, List.append_assoc, List.cons_append, argumentsRest]
    simp [hread, Cursor.advance_facing hmeets, hmore, Expr.allRelined]

theorem of_forall : LegibleList (Expr.listTokens bare es) (Expr.allRelined 1 es) := by
  cases es with
  | nil =>
    refine ⟨.nil, fun m rest hm hrest => ?_, fun fuel m rest hm hrest hfuel => ?_⟩
    · refine Place.meets_of_takes (hrest.closer hm 0).proper rfl ?_
      rcases hm with rfl | rfl <;> exact nofun
    · obtain ⟨fuel, rfl⟩ : ∃ k, fuel = k + 1 := ⟨fuel - 1, by omega⟩
      rw [Expr.listTokens, List.nil_append, Script.arguments, Cursor.facing_token, if_pos rfl,
        Cursor.advance_facing hrest.afterOperand]
      rfl
  | cons e es =>
    obtain ⟨he, hes⟩ := List.forall_mem_cons.1 h
    have happend (ts : List Token) : Expr.listTokens bare (e :: es) ++ ts =
        e.tokens bare ++ (Expr.moreTokens bare es ++ ts) := by
      rw [Expr.listTokens, List.append_assoc]
    refine ⟨he.toWellformed.append (wellformed_more hes), fun m rest hm hrest => ?_,
      fun fuel m rest hm hrest hfuel => ?_⟩
    · rw [happend]
      exact he.value _ (behind_more hes hm hrest 8)
    · obtain ⟨fuel, rfl⟩ : ∃ k, fuel = k + 1 := ⟨fuel - 1, by omega⟩
      have hopen := he.head_ne (.inl hm) (behind_more hes hm hrest 0)
      rw [← happend] at hopen
      rw [Script.arguments, if_neg hopen, argumentsRest_list h hm hrest [] (by omega)]
      rfl

end

end LegibleList

namespace Legible

variable {level : Nat} {ts ts' : List Token} {e : Expr} {es : List Expr} {e' : Expr}

theorem array (h : LegibleList ts es) :
    Legible 9 (.mark .leftBracket :: (ts ++ [.mark .rightBracket])) (.array es 1) := by
  have happend (rest : List Token) : .mark .leftBracket :: (ts ++ [.mark .rightBracket]) ++ rest =
      .mark .leftBracket :: (ts ++ .mark .rightBracket :: rest) := by simp
  refine of_operand (.cons rfl nofun (h.toWellformed.append (.single rfl nofun))) (by simp)
    (fun rest hrest => .bracket _) fun fuel rest hrest hfuel => ?_
  simp only [List.length_cons, List.length_append, List.length_nil] at hfuel ⊢
  refine ⟨fuel, by omega, ?_⟩
  have hitems := h.arguments fuel .rightBracket rest (.inr rfl) hrest (by omega)
  rw [happend, Script.operand]
  simp [Cursor.advance_facing (h.value _ _ (.inr rfl) hrest), hitems]

section

variable (h : Legible level ts e)

include h

theorem call (hlevel : 8 ≤ level) (hargs : LegibleList ts' es) :
    Legible 9 (ts ++ .mark .leftParen :: (ts' ++ [.mark .rightParen])) (.call e es 1) := by
  have happend (rest : List Token) : .mark .leftParen :: (ts' ++ [.mark .rightParen]) ++ rest =
      .mark .leftParen :: (ts' ++ .mark .rightParen :: rest) := by simp
  refine h.suffixed hlevel hargs.toWellformed.enclosed (by simp) (fun rest hrest => ?_)
    fun fuel rest hrest hfuel => ?_
  · rw [happend]
    exact .mark (proper_append hargs.proper (hrest.closer (.inl rfl) 0).proper) (Nat.le_refl 8)
  · simp only [List.length_append, List.length_cons, List.length_nil] at hfuel
    have hread := hargs.arguments fuel .rightParen rest (.inl rfl) hrest (by omega)
    rw [happend, operandRest]
    simp [Cursor.advance_facing (hargs.value _ _ (.inl rfl) hrest), hread]

/-! ## Operators -/

/-- A token in front of an operand that makes another expression of it. -/
theorem prefixed (hlevel : 7 ≤ level) {t : Token} {e' : Expr}
    (ht : t.isProper = true) (hclose : t ≠ .mark .rightParen)
    (hstarts : ∀ rest, StartsUnary (t :: rest))
    (hunary : ∀ fuel rest c r, (Cursor.facing (t :: rest)).advance .operand = some c →
      Script.unary fuel c = some (e, r) →
      Script.unary (fuel + 1) (.facing (t :: rest)) = some (e', r)) : Legible 7 (t :: ts) e' := by
  refine of_unary (.cons ht hclose h.toWellformed) (Nat.succ_pos _) (fun rest _ => hstarts _)
    (Nat.le_refl 7) (fun fuel rest hrest hfuel => ?_) (by omega) (by omega)
  rw [List.length_cons] at hfuel
  obtain ⟨fuel, rfl⟩ : ∃ k, fuel = k + 1 := ⟨fuel - 1, by omega⟩
  have hrest' : Behind 8 rest := hrest.mono (by omega)
  have hmeets : Place.operand.Meets (ts ++ rest) :=
    (h.starts (by omega) rest hrest').meets (proper_append h.proper hrest.proper) (.inr rfl)
  have hread := h.unary hlevel fuel rest hrest (by omega)
  exact hunary fuel _ _ (.facing rest) (Cursor.advance_facing hmeets) hread

theorem signed (hlevel : 7 ≤ level) (op : UnaryOp) :
    Legible 7 (.mark op.mark :: ts) (.unary op e 1) := by
  refine h.prefixed hlevel rfl ?_ (.sign op) fun fuel rest c r hnext hread => ?_
  · cases op <;> exact nofun
  · rw [Script.unary]
    simp only [Cursor.facing_token, hnext, Cursor.facing_line, Option.bind_eq_bind,
      Option.bind_some]
    cases op <;> simp [UnaryOp.mark, hread]

theorem awaited (hlevel : 7 ≤ level) : Legible 7 (.keyword .awaitWord :: ts) (.await e 1) := by
  refine h.prefixed hlevel rfl nofun .await fun fuel rest c r hnext hread => ?_
  rw [Script.unary]
  simp [hnext, hread]

omit h in
theorem counted (hx : isName x = true) (op : UpdateOp) :
    Legible 7 [.mark (.update op), .name x] (.update op x true 1) := by
  refine of_unary (.cons rfl nofun (.single hx nofun)) Nat.two_pos (fun rest _ => .update op _)
    (Nat.le_refl 7) (fun fuel rest hrest hfuel => ?_) (by omega) (by omega)
  simp only [List.length_cons, List.length_nil] at hfuel
  obtain ⟨fuel, rfl⟩ : ∃ k, fuel = k + 1 := ⟨fuel - 1, by omega⟩
  have hrest' : Behind 8 rest := hrest.mono (by omega)
  have hmeets : Place.plain.Meets (.name x :: rest) :=
    Place.meets_of_takes (List.forall_mem_cons.2 ⟨hx, hrest.proper⟩) rfl nofun
  rw [List.cons_append, List.singleton_append, Script.unary]
  simp [Cursor.advance_facing hmeets, Cursor.advance_facing hrest'.afterOperand]

omit h in
/-- Two operands and an operator.  The left one is the start of the chain in which the operator
    stands, so that operators of one level are read from the left. -/
theorem binary {level' : Nat} (op : BinaryOp) (h : Legible level ts e) (hlevel : op.level ≤ level)
    (h' : Legible level' ts' e') (hlevel' : op.level + 1 ≤ level') :
    Legible op.level (ts ++ .mark (.binary op) :: ts') (.binary op e e' 1) := by
  obtain ⟨hop, hop'⟩ := op.level_bounds
  have happend (rest : List Token) : ts ++ .mark (.binary op) :: ts' ++ rest =
      ts ++ .mark (.binary op) :: (ts' ++ rest) := by simp
  have hbehind (rest : List Token) (hrest : Behind 8 rest) {n : Nat} (hn : op.level ≤ n) :
      Behind n (.mark (.binary op) :: (ts' ++ rest)) :=
    .mark (proper_append h'.proper hrest.proper) hn
  have hpos : 0 < (ts ++ Token.mark (.binary op) :: ts').length := by
    rw [List.length_append, List.length_cons]
    omega
  refine of_chained (h.toWellformed.append (.cons rfl nofun h'.toWellformed)) hpos
    (fun rest hrest => ?_) hop (fun a b least rest hleast hrest ha hb => ?_) (by omega) (by omega)
    (by omega)
  · rw [happend]
    exact h.starts (by omega) _ (hbehind rest hrest (by omega))
  · rw [List.length_append, List.length_cons] at ha hb ⊢
    have hrest8 : Behind 8 rest := hrest.mono (by omega)
    obtain ⟨left, hleft, hfirst⟩ := h.chained (by omega) a b least _ (by omega)
      (hbehind rest hrest8 (by omega)) (by omega) (by omega)
    obtain ⟨left, rfl⟩ : ∃ k, left = k + 2 := ⟨left - 2, by omega⟩
    -- the right operand is a chain of its own, of operators that bind more tightly
    obtain ⟨left', hleft', hsecond⟩ := h'.chained (by omega) left left (op.level + 1) rest hlevel'
      (hrest.mono (by omega)) (by omega) (by omega)
    obtain ⟨left', rfl⟩ : ∃ k, left' = k + 1 := ⟨left' - 1, by omega⟩
    have htight : tightness rest < op.level + 1 := by
      have := hrest.tight
      omega
    have hmeets : Place.operand.Meets (ts' ++ rest) :=
      (h'.starts (by omega) rest hrest8).meets (proper_append h'.proper hrest.proper) (.inr rfl)
    have hright : Script.binary (left + 1) (op.level + 1) (.facing (ts' ++ rest)) =
        some (e', .facing rest) := by
      rw [binary_eq_chained, hsecond]
      exact binaryRest_stop htight left' 1 e'
    refine ⟨left + 1, by omega, ?_⟩
    rw [happend, hfirst, binaryRest]
    simp [if_pos hleast, Cursor.advance_facing hmeets, hright]

/-! ## Assignments and functions -/

omit h in
theorem of_expression (h : Wellformed ts) (hpos : 0 < ts.length)
    (hvalue : Leading Place.value.Meets ts) (hexpression : ReadsExpression ts e) :
    Legible 0 ts e where
  toWellformed := h
  pos := hpos
  value := hvalue
  starts := by omega
  startsOperand := by omega
  expression := hexpression
  chained := by omega
  unary := by omega
  operand := by omega

/-- A name and a mark that binds it to the value behind them. -/
theorem bound {x : String} (hx : isName x = true) {m : Mark}
    (hm : (Token.mark m).bindsName = true) {e' : Expr}
    (hread : ∀ fuel rest c, Behind 0 rest → 8 * ts.length ≤ fuel →
      (Cursor.facing (.name x :: .mark m :: (ts ++ rest))).advance .afterVariable = some c →
      c.token = .mark m → c.advance .value = some (.facing (ts ++ rest)) →
      Script.expression (fuel + 1) (.facing (.name x :: .mark m :: (ts ++ rest))) =
        some (e', .facing rest)) : Legible 0 (.name x :: .mark m :: ts) e' := by
  have hleft : Token.mark m ≠ .mark .leftParen := by
    rintro ⟨⟩
    cases hm
  have hright : Token.mark m ≠ .mark .rightParen := by
    rintro ⟨⟩
    cases hm
  have htokens (rest : List Token) (hrest : Behind 8 rest) :
      ∀ t ∈ Token.mark m :: (ts ++ rest), t.isProper = true :=
    List.forall_mem_cons.2 ⟨rfl, proper_append h.proper hrest.proper⟩
  refine of_expression (.cons hx (by simp) (.cons rfl hright h.toWellformed)) (Nat.succ_pos _)
    (fun rest hrest => ?_) fun fuel rest hrest hfuel => ?_
  · exact Place.meets_of_takes (List.forall_mem_cons.2 ⟨hx, htokens rest hrest⟩) rfl (by simp)
  · rw [List.length_cons, List.length_cons] at hfuel
    obtain ⟨fuel, rfl⟩ : ∃ k, fuel = k + 1 := ⟨fuel - 1, by omega⟩
    have hrest8 : Behind 8 rest := hrest.mono (by omega)
    have hmeets : Place.afterVariable.Meets (.mark m :: (ts ++ rest)) :=
      Place.meets_of_takes (htokens rest hrest8) rfl fun hparen => absurd hparen hleft
    exact hread fuel rest _ hrest (by omega) (Cursor.advance_facing hmeets) rfl
      (Cursor.advance_facing (h.value rest hrest8))

theorem assign (hx : isName x = true) (op : AssignOp) :
    Legible 0 (.name x :: .mark (.assign op) :: ts) (.assign op x e 1) := by
  refine h.bound hx rfl fun fuel rest c hrest hfuel hnext htoken hlast => ?_
  have hread := h.expression fuel rest hrest (by omega)
  rw [Script.expression]
  simp [hnext, htoken, hlast, hread]

theorem arrowBody_eq (hrest : Behind 0 rest) (params : List String)
    {fuel : Nat} (hfuel : 8 * ts.length ≤ fuel + 1) :
    arrowBody (fuel + 1) params false 1 (.facing (ts ++ rest)) =
      some (.function params (.value e) none true false 1, .facing rest) := by
  have hbrace := h.head_ne (.inr rfl) hrest
  rw [arrowBody, if_neg hbrace, h.expression fuel rest hrest hfuel]
  rfl

theorem arrow {params : List String} (hparams : ∀ x ∈ params, isName x = true) :
    Legible 0 (.arrowHead params :: ts) (.function params (.value e) none true false 1) := by
  have hhead : (Token.arrowHead params).isProper = true := by
    simpa [Token.isProper] using hparams
  refine of_expression (.cons hhead (by simp) h.toWellformed) (Nat.succ_pos _)
    (fun rest hrest => ?_) fun fuel rest hrest hfuel => ?_
  · have hproper := proper_append h.proper hrest.proper
    exact Place.meets_of_takes (List.forall_mem_cons.2 ⟨hhead, hproper⟩) rfl (by simp)
  · rw [List.length_cons] at hfuel
    obtain ⟨fuel, rfl⟩ : ∃ k, fuel = k + 2 := ⟨fuel - 2, by omega⟩
    have hbody := h.arrowBody_eq hrest params (by omega : 8 * ts.length ≤ fuel + 1)
    rw [List.cons_append, Script.expression]
    simp [Cursor.advance_facing (h.value rest (hrest.mono (by omega))), hbody]

theorem bareArrow (hx : isName x = true) :
    Legible 0 (.name x :: .mark .arrow :: ts) (.function [x] (.value e) none true false 1) := by
  refine h.bound hx rfl fun fuel rest c hrest hfuel hnext htoken hlast => ?_
  have hpos := h.pos
  obtain ⟨fuel, rfl⟩ : ∃ k, fuel = k + 1 := ⟨fuel - 1, by omega⟩
  have hbody := h.arrowBody_eq hrest [x] hfuel
  rw [Script.expression]
  simp [hnext, htoken, hlast, hbody]

/-- A head of several names, or of one with or without parentheses. -/
theorem lambda {params : List String} (hparams : ∀ x ∈ params, isName x = true) (bare : Bool) :
    Legible 0 (headTokens bare params ++ ts) (.function params (.value e) none true false 1) := by
  rcases params with _ | ⟨x, _ | ⟨y, params⟩⟩
  · exact h.arrow hparams
  · cases bare with
    | true => exact h.bareArrow (hparams x (List.mem_singleton_self x))
    | false => exact h.arrow hparams
  · exact h.arrow hparams

theorem mono {level' : Nat} (hlevel : level' ≤ level) : Legible level' ts e where
  __ := h
  starts hl := h.starts (by omega)
  startsOperand hl := h.startsOperand (by omega)
  chained hl a b least rest hleast hrest :=
    h.chained (by omega) a b least rest (by omega) (hrest.mono (by omega))
  unary hl := h.unary (by omega)
  operand hl := h.operand (by omega)

end

end Legible

/-! ## Numbers -/

theorem numberValue?_toDigits (n : Nat) : numberValue? (Nat.toDigits 10 n) =
    if n < Nat.pow 10 Number.maxDigits then some (.int n) else none := by
  have hdigits : ∀ c ∈ Nat.toDigits 10 n, c.isDigit = true := fun c =>
    Nat.isDigit_of_mem_toDigits (by decide) (by decide)
  have hpoint : (Nat.toDigits 10 n).any (fun c => c = '.' || c = 'e' || c = 'E') = false := by
    rw [List.any_eq_false]
    intro c hc hmark
    have hdigit := hdigits c hc
    simp only [Bool.or_eq_true, decide_eq_true_eq] at hmark
    rcases hmark with (rfl | rfl) | rfl <;> simp at hdigit
  -- for any bound, so that the power is not computed
  have hlength (k : Nat) (hk : 0 < k) : (Nat.toDigits 10 n).length ≤ k ↔ n < Nat.pow 10 k :=
    Nat.length_toDigits_le_iff (by decide) hk
  have hlimit := hlength Number.maxDigits (by decide)
  rw [numberValue?, if_neg (by simp [hpoint])]
  by_cases hn : n < Nat.pow 10 Number.maxDigits
  · rw [if_neg (Nat.not_lt.2 (hlimit.2 hn)), if_pos hn, digitsValue_eq hdigits,
      Nat.ofDigitChars_toDigits (by decide) (by decide)]
  · rw [if_pos (Nat.not_le.1 fun hle => hn (hlimit.1 hle)), if_neg hn]

theorem toDigits_proper (n : Nat) : (Token.number (Nat.toDigits 10 n)).isProper = true := by
  have hdigits : (Nat.toDigits 10 n).all Char.isDigit = true :=
    List.all_eq_true.2 fun c => Nat.isDigit_of_mem_toDigits (by decide) (by decide)
  have hsome : (Nat.toDigits 10 n).isEmpty = false :=
    List.isEmpty_eq_false_iff.2 Nat.toDigits_ne_nil
  simp only [Token.isProper, hdigits, hsome]
  rfl

/-! ## Printed expressions -/

/-- Whether a number has few enough digits to be read. -/
def readable (n : Nat) : Bool := n < Nat.pow 10 Number.maxDigits

theorem Literal.builtFrom_number {admits : Nat → Bool} {n : Number}
    (h : (Literal.number n).builtFrom admits = true) : ∃ k : Nat, n = .int k ∧ admits k = true := by
  cases n with
  | int i =>
    cases i with
    | ofNat k => exact ⟨k, rfl, h⟩
    | negSucc k => cases h
  | float x => cases h

theorem Literal.legible {v : Literal} (h : v.builtFrom readable = true) :
    Legible 9 v.tokens (.literal v 1) := by
  cases v with
  | null =>
    refine .atom rfl (by simp) (fun rest _ => .word (.inr (.inr rfl)) rest) fun fuel rest => ?_
    rw [operand]
    rfl
  | bool b =>
    cases b with
    | true =>
      refine .atom rfl (by simp) (fun rest _ => .word (.inl rfl) rest) fun fuel rest => ?_
      rw [operand]
      rfl
    | false =>
      refine .atom rfl (by simp) (fun rest _ => .word (.inr (.inl rfl)) rest)
        fun fuel rest => ?_
      rw [operand]
      rfl
  | number n =>
    obtain ⟨n, rfl, hn⟩ := Literal.builtFrom_number h
    rw [readable, decide_eq_true_eq] at hn
    have hvalue := numberValue?_toDigits n
    rw [if_pos hn] at hvalue
    exact .number (toDigits_proper n) hvalue
  | text s => cases h

mutual

/-- An expression is read back from its tokens, by induction on the expression. -/
theorem Expr.legible (bare : Bool) (e : Expr) (h : e.builtFrom readable = true) :
    Legible e.level (e.tokens bare) (e.relined 1) := by
  cases e with
  | literal v line => exact v.legible h
  | ident x line => exact .ident h
  | template spans tail line => cases h
  | array items line => exact .array (.of_forall (Expr.legible_of_mem bare items h))
  | binary op left right line =>
    rw [Expr.builtFrom, Bool.and_eq_true] at h
    obtain ⟨hop, hop'⟩ := op.level_bounds
    -- chains lean to the left, so the right operand has to bind tighter
    obtain ⟨_, hlevel, hleft⟩ := (left.legible bare h.1).placed op.level (by omega)
    obtain ⟨_, hlevel', hright⟩ := (right.legible bare h.2).placed (op.level + 1) (by omega)
    exact hleft.binary op hlevel hright hlevel'
  | unary op e line =>
    obtain ⟨_, hlevel, he⟩ := (e.legible bare h).placed 7 (by omega)
    exact he.signed hlevel op
  | assign op x e line =>
    rw [Expr.builtFrom, Bool.and_eq_true] at h
    exact (e.legible bare h.2).assign h.1 op
  | update op x before line =>
    cases before with
    | true => exact .counted h op
    | false => exact (Legible.updated h op).mono (Nat.le_succ 8)
  | member target x line =>
    rw [Expr.builtFrom, Bool.and_eq_true] at h
    obtain ⟨_, hlevel, htarget⟩ := (target.legible bare h.1).placed 8 (by omega)
    exact (htarget.member hlevel h.2).mono (Nat.le_succ 8)
  | call callee args line =>
    rw [Expr.builtFrom, Bool.and_eq_true] at h
    obtain ⟨_, hlevel, hcallee⟩ := (callee.legible bare h.1).placed 8 (by omega)
    have hargs := LegibleList.of_forall (Expr.legible_of_mem bare args h.2)
    exact (hcallee.call hlevel hargs).mono (Nat.le_succ 8)
  | function params body name isArrow isAsync line =>
    cases body with
    | block b => simp [Expr.builtFrom, Body.builtFrom] at h
    | value e =>
      simp only [Expr.builtFrom, Body.builtFrom, Bool.and_eq_true, Option.isNone_iff_eq_none,
        Bool.not_eq_true', List.all_eq_true] at h
      obtain ⟨⟨⟨⟨hparams, he⟩, rfl⟩, rfl⟩, rfl⟩ := h
      exact (e.legible bare he).lambda hparams bare
  | await e line =>
    obtain ⟨_, hlevel, he⟩ := (e.legible bare h).placed 7 (by omega)
    exact he.awaited hlevel

theorem Expr.legible_of_mem (bare : Bool) (es : List Expr)
    (h : Expr.allBuiltFrom readable es = true) :
    ∀ e ∈ es, Legible e.level (e.tokens bare) (e.relined 1) := by
  cases es with
  | nil => exact nofun
  | cons e es =>
    rw [Expr.allBuiltFrom, Bool.and_eq_true] at h
    exact List.forall_mem_cons.2 ⟨e.legible bare h.1, Expr.legible_of_mem bare es h.2⟩

end

/-! ## Reading what was printed -/

theorem parseExpression?_eq (h : Place.value.Meets ts) {text : List Char}
    (htext : text = [' '].intercalate (ts.map Token.spelling)) :
    parseExpression? (String.ofList text) = (expression (parseFuel text.length) (.facing ts)).bind
      fun r => if r.2.token = .finish then some r.1 else none := by
  have hnext : Place.value.next 1 text = some (.facing ts) := by
    rw [htext, next_intercalate, h]
  rw [parseExpression?, String.toList_ofList, hnext]
  rfl

/-- A number with too many digits is written and not read. -/
theorem parseExpression?_print_number (bare : Bool) (n line : Nat)
    (hn : Nat.pow 10 Number.maxDigits ≤ n) :
    parseExpression? ((Expr.literal (.number (.int n)) line).print bare) = none := by
  have hvalue : numberValue? (Nat.toDigits 10 n) = none := by
    rw [numberValue?_toDigits, if_neg (Nat.not_lt.2 hn)]
  have hmeets : Place.value.Meets [.number (Nat.toDigits 10 n)] :=
    (StartsOperand.number _ []).meets (by simpa using toDigits_proper n) (.inl rfl)
  have hread (fuel : Nat) :
      expression (fuel + 4) (.facing [.number (Nat.toDigits 10 n)]) = none := by
    simp [expression, binary, unary, operand, hvalue]
  have htokens : (Expr.literal (.number (.int n)) line).tokens bare =
      [.number (Nat.toDigits 10 n)] := by
    rw [Expr.tokens, Literal.tokens, Int.toNat_natCast]
  rw [Expr.print, htokens, parseExpression?_eq hmeets rfl]
  exact congrArg (Option.bind · _) (hread _)

/-- A printed expression is read as that expression, all of it on the first line. -/
theorem parseExpression?_print (bare : Bool) (e : Expr) (h : e.builtFrom readable = true) :
    parseExpression? (e.print bare) = some (e.relined 1) := by
  have hlegible := e.legible bare h
  have hmeets : Place.value.Meets (e.tokens bare) := by
    simpa using hlegible.value [] .nil
  have hlength := length_le_intercalate (e.tokens bare)
  have hfuel : 8 * (e.tokens bare).length ≤
      parseFuel ([' '].intercalate ((e.tokens bare).map Token.spelling)).length + 1 := by
    rw [parseFuel]
    omega
  have hread := hlegible.expression _ [] .nil hfuel
  rw [List.append_nil] at hread
  rw [Expr.print, parseExpression?_eq hmeets rfl, hread]
  rfl

/-- Reading undoes printing, for every expression whose numbers have few enough digits: a printed
    expression is read as that expression, all of it on the first line.  A number with more digits is
    printed as a text that is no expression. -/
theorem parse_print (bare : Bool) :
    (∀ e : Expr, e.builtFrom readable = true →
      parseExpression? (e.print bare) = some (e.relined 1)) ∧
    ∀ n line : Nat, Nat.pow 10 Number.maxDigits ≤ n →
      parseExpression? ((Expr.literal (.number (.int n)) line).print bare) = none :=
  ⟨parseExpression?_print bare, parseExpression?_print_number bare⟩

/-- An expression with parts of every level, one of them in parentheses. -/
theorem parse_print_nested :
    let sum : Expr := .binary .add (.ident "a" 3) (.literal (.number (.int 12)) 4) 3
    let items : List Expr := [.ident "b" 5, .await (.update .increment "a" true 5) 5]
    let mapped : Expr := .call (.member (.array items 5) "map" 6)
      [.function ["x"] (.value (.ident "x" 7)) none true false 7] 6
    let e : Expr := .assign .add "f" (.function ["a", "b"]
      (.value (.binary .mul (.unary .neg sum 3) mapped 3)) none true false 2) 1
    e.builtFrom readable = true ∧
    e.print true = "f += ( a , b ) => - ( a + 12 ) * [ b , await ++ a ] . map ( x => x )" ∧
    parseExpression? (e.print true) = some (e.relined 1) := by
  intro sum items mapped e
  have h : e.builtFrom readable = true := by decide +kernel
  exact ⟨h, by decide +kernel, (parse_print true).1 e h⟩

/-- A number of one digit too many is printed, and what is printed is no expression. -/
theorem long_number_unreadable :
    let e : Expr := .literal (.number (.int (Nat.pow 10 Number.maxDigits))) 1
    e.builtFrom (fun _ => true) = true ∧ parseExpression? (e.print true) = none :=
  ⟨rfl, parseExpression?_print_number true _ 1 (Nat.le_refl _)⟩

end EventLoop.Script
