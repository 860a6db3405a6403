/-
  How expressions are written, and how what is written is split into tokens again.

  The grammar has ten levels, from assignments and functions at the bottom to constants and names at
  the top, and a position in an expression takes the levels from some point upwards.  An expression
  is printed as the tokens of its parts (`Expr.tokens`), where a part whose level is too low for its
  position stands in parentheses, and the tokens are written with a blank between them.

  The second half is about reading tokens.  Which token a piece of text is depends on the place
  where it stands, and an opening parenthesis may turn out to be the head of a function.  `Meets`
  says that a reader finds the tokens that were written, and `Place.meets_of_takes` when it does.
-/
import EventLoop.Script.Parser
import Mathlib.Data.List.Basic

namespace EventLoop.Script

variable {c : Char} {p : Place} {cs w : List Char} {m : Mark} {ts : List Token}
  {params : List String} {t : Token} {s : String}

/-! ## Tokens of expressions -/

/-- All keywords. -/
def Keyword.all : List Keyword :=
  [.asyncWord, .awaitWord, .elseWord, .falseWord, .forWord, .functionWord, .ifWord, .nullWord,
   .returnWord, .trueWord, .decl .letWord, .decl .constWord, .decl .varWord]

/-- Whether a text is a word that is not reserved anywhere. -/
def isName (s : String) : Bool :=
  match s.toList with
  | [] => false
  | c :: cs => isWordStart c && cs.all isWordChar && Keyword.all.all (·.text != s)

/-- The mark of an operator in front of an operand. -/
def UnaryOp.mark : UnaryOp → Mark
  | .not => .bang
  | .neg => .binary .sub
  | .pos => .binary .add

/-- The level of the grammar to which an expression belongs. -/
def Expr.level : Expr → Nat
  | .assign .. | .function .. => 0
  | .binary op .. => op.level
  | .unary .. | .await .. | .update _ _ true _ => 7
  | .update _ _ false _ | .call .. | .member .. => 8
  | .literal .. | .ident .. | .template .. | .array .. => 9

/-- Tokens in parentheses. -/
def enclosed (ts : List Token) : List Token := .mark .leftParen :: (ts ++ [.mark .rightParen])

/-- The tokens of an expression of some level at a position that takes the levels from `position`
    upwards. -/
def placed (position level : Nat) (ts : List Token) : List Token :=
  if level < position then enclosed ts else ts

/-- The tokens of a constant; texts and doubles have none. -/
def Literal.tokens : Literal → List Token
  | .null => [.keyword .nullWord]
  | .bool true => [.keyword .trueWord]
  | .bool false => [.keyword .falseWord]
  | .number (.int n) => [.number (Nat.toDigits 10 n.toNat)]
  | .number (.float _) | .text _ => []

/-- The head of a function with an arrow.  A single parameter may stand without parentheses. -/
def headTokens (bare : Bool) : List String → List Token
  | [x] => if bare then [.name x, .mark .arrow] else [.arrowHead [x]]
  | params => [.arrowHead params]

mutual

/-- The tokens of an expression.  Templates and blocks have none. -/
def Expr.tokens (bare : Bool) : Expr → List Token
  | .literal v _ => v.tokens
  | .ident x _ => [.name x]
  | .template .. => []
  | .array items _ => .mark .leftBracket :: (Expr.listTokens bare items ++ [.mark .rightBracket])
  | .binary op left right _ =>
    placed op.level left.level (left.tokens bare) ++
      .mark (.binary op) :: placed (op.level + 1) right.level (right.tokens bare)
  | .unary op e _ => .mark op.mark :: placed 7 e.level (e.tokens bare)
  | .assign op x e _ => .name x :: .mark (.assign op) :: e.tokens bare
  | .update op x true _ => [.mark (.update op), .name x]
  | .update op x false _ => [.name x, .mark (.update op)]
  | .member target x _ =>
    placed 8 target.level (target.tokens bare) ++ [.mark .dot, .name x]
  | .call callee args _ =>
    placed 8 callee.level (callee.tokens bare) ++
      .mark .leftParen :: (Expr.listTokens bare args ++ [.mark .rightParen])
  | .function params body _ _ _ _ => headTokens bare params ++ body.tokens bare
  | .await e _ => .keyword .awaitWord :: placed 7 e.level (e.tokens bare)

/-- The tokens of a body that is a value. -/
def Body.tokens (bare : Bool) : Body → List Token
  | .value e => e.tokens bare
  | .block _ => []

/-- The tokens of expressions between commas. -/
def Expr.listTokens (bare : Bool) : List Expr → List Token
  | [] => []
  | e :: rest => e.tokens bare ++ Expr.moreTokens bare rest

/-- The tokens of further expressions, each behind a comma. -/
def Expr.moreTokens (bare : Bool) : List Expr → List Token
  | [] => []
  | e :: rest => .mark .comma :: (e.tokens bare ++ Expr.moreTokens bare rest)

end

/-- The text of the parameters of a function, between its parentheses. -/
def innerText (params : List String) : List Char :=
  [','].intercalate (params.map fun x => ' ' :: (x.toList ++ [' ']))

/-- How a token is written. -/
def Token.spelling : Token → List Char
  | .name s => s.toList
  | .keyword k => k.text.toList
  | .number digits => digits
  | .text body => '"' :: (body ++ ['"'])
  | .template body => '\x60' :: (body ++ ['\x60'])
  | .arrowHead params => '(' :: (innerText params ++ [')', ' ', '=', '>'])
  | .mark m => m.text.toList
  | .finish => []

/-- An expression as a text, in which blanks separate the tokens. -/
def Expr.print (bare : Bool) (e : Expr) : String :=
  String.ofList ([' '].intercalate ((e.tokens bare).map Token.spelling))

/-! ## The expressions that are printed -/

/-- Whether a constant is null, a truth value or an admitted number. -/
def Literal.builtFrom (admits : Nat → Bool) : Literal → Bool
  | .null | .bool _ => true
  | .number (.int (.ofNat n)) => admits n
  | .number (.int (.negSucc _)) | .number (.float _) | .text _ => false

mutual

/-- Whether an expression is built from names that are not reserved, from admitted numbers and the
    other constants, arrays, operators, assignments, members and calls, and from functions with an
    arrow that are not async and whose body is a value. -/
def Expr.builtFrom (admits : Nat → Bool) : Expr → Bool
  | .literal v _ => v.builtFrom admits
  | .ident x _ => isName x
  | .template .. => false
  | .array items _ => Expr.allBuiltFrom admits items
  | .binary _ left right _ => left.builtFrom admits && right.builtFrom admits
  | .unary _ e _ => e.builtFrom admits
  | .assign _ x e _ => isName x && e.builtFrom admits
  | .update _ x _ _ => isName x
  | .member target x _ => target.builtFrom admits && isName x
  | .call callee args _ => callee.builtFrom admits && Expr.allBuiltFrom admits args
  | .function params body name isArrow isAsync _ =>
    params.all isName && body.builtFrom admits && name.isNone && isArrow && !isAsync
  | .await e _ => e.builtFrom admits

/-- Whether a body is a value that is built in this way. -/
def Body.builtFrom (admits : Nat → Bool) : Body → Bool
  | .value e => e.builtFrom admits
  | .block _ => false

/-- Whether all of some expressions are built in this way. -/
def Expr.allBuiltFrom (admits : Nat → Bool) : List Expr → Bool
  | [] => true
  | e :: rest => e.builtFrom admits && Expr.allBuiltFrom admits rest

end

mutual

/-- The expression on the given line, with all its parts outside of templates and blocks. -/
def Expr.relined (line : Nat) : Expr → Expr
  | .literal v _ => .literal v line
  | .ident x _ => .ident x line
  | .template spans tail _ => .template spans tail line
  | .array items _ => .array (Expr.allRelined line items) line
  | .binary op left right _ => .binary op (left.relined line) (right.relined line) line
  | .unary op e _ => .unary op (e.relined line) line
  | .assign op x e _ => .assign op x (e.relined line) line
  | .update op x before _ => .update op x before line
  | .member target x _ => .member (target.relined line) x line
  | .call callee args _ => .call (callee.relined line) (Expr.allRelined line args) line
  | .function params body name isArrow isAsync _ =>
    .function params (body.relined line) name isArrow isAsync line
  | .await e _ => .await (e.relined line) line

/-- A body on the given line. -/
def Body.relined (line : Nat) : Body → Body
  | .value e => .value (e.relined line)
  | .block b => .block b

/-- Expressions on the given line. -/
def Expr.allRelined (line : Nat) : List Expr → List Expr
  | [] => []
  | e :: rest => e.relined line :: Expr.allRelined line rest

end

/-! ## Readers in front of tokens -/

/-- Tokens as they are written, each behind a blank. -/
def spaced (ts : List Token) : List Char := ts.flatMap fun t => ' ' :: t.spelling

/-- The reader that stands in front of tokens on the first line. -/
def Cursor.facing : List Token → Cursor
  | [] => { token := .finish, line := 1, rest := [], restLine := 1 }
  | t :: ts => { token := t, line := 1, rest := spaced ts, restLine := 1 }

/-- At this place the tokens are read as they were written. -/
def Place.Meets (p : Place) (ts : List Token) : Prop := p.next 1 (spaced ts) = some (.facing ts)

@[simp] theorem spaced_nil : spaced [] = [] := rfl

@[simp] theorem spaced_cons (t : Token) (ts : List Token) :
    spaced (t :: ts) = ' ' :: (t.spelling ++ spaced ts) := by
  simp [spaced]

@[simp] theorem Cursor.facing_token (t : Token) (ts : List Token) :
    (Cursor.facing (t :: ts)).token = t := rfl

@[simp] theorem Cursor.facing_line (ts : List Token) : (Cursor.facing ts).line = 1 := by
  cases ts <;> rfl

theorem Cursor.advance_facing (h : p.Meets ts) :
    (Cursor.facing (t :: ts)).advance p = some (.facing ts) := h

theorem Cursor.expect_facing (h : p.Meets ts) :
    (Cursor.facing (.mark m :: ts)).expect m p = some (.facing ts) := by
  rw [expect, facing_token, if_pos rfl]
  exact advance_facing h

theorem Place.next_blank (p : Place) (line : Nat) (cs : List Char) :
    p.next line (' ' :: cs) = p.next line cs := by
  have hspace : isSpace ' ' = true := by decide
  simp [Place.next, hspace, lineBreaks]

/-- Behind a blank, the text of an expression is its tokens with a blank in front of each. -/
theorem blank_intercalate (t : Token) (ts : List Token) :
    ' ' :: [' '].intercalate ((t :: ts).map Token.spelling) = spaced (t :: ts) := by
  induction ts generalizing t with
  | nil => simp
  | cons t' ts ih =>
    rw [spaced_cons, ← ih t']
    simp [List.intercalate_cons_cons]

theorem next_intercalate (p : Place) (line : Nat) (ts : List Token) :
    p.next line ([' '].intercalate (ts.map Token.spelling)) = p.next line (spaced ts) := by
  cases ts with
  | nil => rfl
  | cons t ts => rw [← blank_intercalate, Place.next_blank]

theorem length_le_intercalate (ts : List Token) :
    ts.length ≤ ([' '].intercalate (ts.map Token.spelling)).length + 1 := by
  have hspaced (ts : List Token) : ts.length ≤ (spaced ts).length := by
    induction ts with
    | nil => exact Nat.le_refl 0
    | cons t ts ih =>
      simp only [spaced_cons, List.length_cons, List.length_append]
      omega
  cases ts with
  | nil => exact Nat.zero_le _
  | cons t ts =>
    rw [← List.length_cons, blank_intercalate]
    exact hspaced (t :: ts)

theorem Place.meets_nil (p : Place) : p.Meets [] := rfl

/-- What is left of a text behind a token is at its end or goes on with a blank. -/
theorem spaced_cases (ts : List Token) : spaced ts = [] ∨ ∃ cs, spaced ts = ' ' :: cs := by
  cases ts with
  | nil => exact .inl rfl
  | cons t ts => exact .inr ⟨_, spaced_cons t ts⟩

theorem Place.meets_cons (hspelling : t.spelling = c :: cs) (hc : isSpace c = false)
    (hlexeme : p.lexeme? (t.spelling ++ spaced ts) = some { token := t, rest := spaced ts }) :
    p.Meets (t :: ts) := by
  rw [Place.Meets, spaced_cons, Place.next_blank, Place.next, hspelling, List.cons_append,
    List.takeWhile_cons_of_neg (by simp [hc]), List.dropWhile_cons_of_neg (by simp [hc]),
    ← List.cons_append, ← hspelling, hlexeme]
  rfl

/-! ## Words and numbers -/

theorem toNat_of_isDigit (h : c.isDigit = true) : 48 ≤ c.toNat ∧ c.toNat ≤ 57 := by
  simp only [Char.isDigit, ge_iff_le, Bool.and_eq_true, decide_eq_true_eq,
    UInt32.le_iff_toNat_le] at h
  exact h

theorem toNat_of_isWordStart (h : isWordStart c = true) :
    c.toNat = 36 ∨ 65 ≤ c.toNat ∧ c.toNat ≤ 90 ∨ c.toNat = 95 ∨ 97 ≤ c.toNat ∧ c.toNat ≤ 122 := by
  unfold isWordStart Char.isAlpha Char.isUpper Char.isLower at h
  simp only [Bool.or_eq_true, Bool.and_eq_true, decide_eq_true_eq, ge_iff_le,
    UInt32.le_iff_toNat_le] at h
  rcases h with ((h | h) | rfl) | rfl
  · exact .inr (.inl h)
  · exact .inr (.inr (.inr h))
  · exact .inr (.inr (.inl rfl))
  · exact .inl rfl

theorem isWordChar_iff : isWordChar c = true ↔ isWordStart c = true ∨ c.isDigit = true := by
  simp only [isWordStart, isWordChar, Char.isAlphanum, Bool.or_eq_true]
  tauto

theorem isWordChar_of_isWordStart (h : isWordStart c = true) : isWordChar c = true :=
  isWordChar_iff.2 (.inl h)

theorem toNat_of_isWordChar (h : isWordChar c = true) :
    c.toNat = 36 ∨ 48 ≤ c.toNat ∧ c.toNat ≤ 57 ∨ 65 ≤ c.toNat ∧ c.toNat ≤ 90 ∨ c.toNat = 95 ∨
      97 ≤ c.toNat ∧ c.toNat ≤ 122 := by
  rcases isWordChar_iff.1 h with hstart | hdigit
  · have hc := toNat_of_isWordStart hstart
    omega
  · exact .inr (.inl (toNat_of_isDigit hdigit))

theorem isBlank_of_isWordChar (h : isWordChar c = true) : Text.isBlank c = false := by
  have hc := toNat_of_isWordChar h
  simp only [Text.isBlank, Text.inRanges, Text.blankRanges, List.any_cons, List.any_nil,
    Bool.or_false, Bool.or_eq_false_iff, Bool.and_eq_false_iff, decide_eq_false_iff_not]
  omega

theorem isSpace_of_isBlank (h : Text.isBlank c = false) : isSpace c = false := by
  cases hspace : isSpace c with
  | false => rfl
  | true =>
    have hc : c.toNat = 32 ∨ 9 ≤ c.toNat ∧ c.toNat ≤ 13 := by
      simp only [isSpace, Bool.or_eq_true, decide_eq_true_eq] at hspace
      rcases hspace with (((rfl | rfl) | rfl) | rfl) | hc
      · exact .inl rfl
      · exact .inr (by decide)
      · exact .inr (by decide)
      · exact .inr (by decide)
      · omega
    simp only [Text.isBlank, Text.inRanges, Text.blankRanges, List.any_cons, List.any_nil,
      Bool.or_false, Bool.or_eq_false_iff, Bool.and_eq_false_iff, decide_eq_false_iff_not] at h
    omega

/-- A run of characters in front of further tokens is cut off where it ends. -/
theorem span_spaced {q : Char → Bool} (hq : q ' ' = false) (hw : ∀ c ∈ w, q c = true)
    (ts : List Token) :
    (w ++ spaced ts).takeWhile q = w ∧ (w ++ spaced ts).dropWhile q = spaced ts := by
  rw [List.takeWhile_append_of_pos hw, List.dropWhile_append_of_pos hw]
  rcases spaced_cases ts with h | ⟨cs, h⟩
  · simp [h]
  · simp [h, hq]

theorem isName_iff : isName s = true ↔
    ∃ c cs, s.toList = c :: cs ∧ isWordStart c = true ∧ (∀ d ∈ s.toList, isWordChar d = true) ∧
      ∀ k ∈ Keyword.all, k.text ≠ s := by
  rw [isName]
  cases hs : s.toList with
  | nil => simp
  | cons c cs =>
    simp only [Bool.and_eq_true, List.all_eq_true, bne_iff_ne]
    constructor
    · rintro ⟨⟨hc, hcs⟩, hk⟩
      exact ⟨c, cs, rfl, hc, List.forall_mem_cons.2 ⟨isWordChar_of_isWordStart hc, hcs⟩, hk⟩
    · rintro ⟨_, _, heq, hc, hall, hk⟩
      cases heq
      exact ⟨⟨hc, (List.forall_mem_cons.1 hall).2⟩, hk⟩

theorem Keyword.mem_all (k : Keyword) : k ∈ Keyword.all := by
  cases k with
  | decl kind => cases kind <;> decide
  | _ => decide

theorem Place.word_name (p : Place) (h : isName s = true) : p.word s = .name s := by
  obtain ⟨_, _, _, _, _, hk⟩ := isName_iff.1 h
  have hnone : p.reserved.find? (·.text == s) = none := by
    rw [List.find?_eq_none]
    intro k _
    simpa using hk k k.mem_all
  rw [Place.word, hnone]

theorem Place.word_keyword {k : Keyword} (h : k ∈ p.reserved) : p.word k.text = .keyword k := by
  have hall : ∀ k ∈ p.reserved, p.word k.text = .keyword k := by cases p <;> decide
  exact hall k h

/-- A word in front of further tokens is read as what it is at its place. -/
theorem Place.lexeme_word (p : Place) (hs : s.toList = c :: cs) (hc : isWordStart c = true)
    (hword : ∀ d ∈ s.toList, isWordChar d = true) (ts : List Token) :
    p.lexeme? (s.toList ++ spaced ts) = some { token := p.word s, rest := spaced ts } := by
  obtain ⟨htake, hdrop⟩ := span_spaced (q := isWordChar) (by decide) hword ts
  rw [hs, List.cons_append] at htake hdrop ⊢
  rw [Place.lexeme?, if_pos hc, htake, hdrop, ← hs, String.ofList_toList]

theorem Keyword.text_word (k : Keyword) : ∃ c cs, k.text.toList = c :: cs ∧ isWordStart c = true ∧
    ∀ d ∈ k.text.toList, isWordChar d = true := by
  have hword : k.text.toList.all isWordChar = true := by
    cases k with
    | decl kind => cases kind <;> decide
    | _ => decide
  rw [List.all_eq_true] at hword
  cases k with
  | decl kind => cases kind <;> exact ⟨_, _, rfl, by decide, hword⟩
  | _ => exact ⟨_, _, rfl, by decide, hword⟩

theorem digitValue_of_isDigit (h : c.isDigit = true) :
    Text.digitValue? c = some (c.toNat - '0'.toNat) := by
  have hc : '0' ≤ c ∧ c ≤ '9' := by
    simp only [Char.isDigit, ge_iff_le, Bool.and_eq_true, decide_eq_true_eq] at h
    exact h
  rw [Text.digitValue?, if_pos (by simpa using hc)]

theorem digitsValue_eq (h : ∀ c ∈ cs, c.isDigit = true) :
    Text.digitsValue cs = Nat.ofDigitChars 10 cs 0 := by
  rw [Text.digitsValue, Nat.ofDigitChars]
  refine List.foldl_ext _ _ _ fun n c hc => ?_
  rw [digitValue_of_isDigit (h c hc), Nat.mul_comm]

theorem isDigit_of_isDigit (h : c.isDigit = true) : Text.isDigit c = true := by
  rw [Text.isDigit, digitValue_of_isDigit h]
  rfl

theorem isWordStart_of_isDigit (h : c.isDigit = true) : isWordStart c = false := by
  have hc := toNat_of_isDigit h
  cases hstart : isWordStart c with
  | false => rfl
  | true =>
    have hc' := toNat_of_isWordStart hstart
    omega

theorem splitNumber_spaced {digits : List Char} (h : ∀ c ∈ digits, c.isDigit = true)
    (ts : List Token) : splitNumber (digits ++ spaced ts) = (digits, spaced ts) := by
  obtain ⟨htake, hdrop⟩ := span_spaced (q := Text.isDigit) (by decide)
    (fun c hc => isDigit_of_isDigit (h c hc)) ts
  have hfraction : numberFraction (spaced ts) = ([], spaced ts) := by
    rcases spaced_cases ts with hts | ⟨cs, hts⟩ <;> rw [hts] <;> rfl
  have hexponent : numberExponent (spaced ts) = ([], spaced ts) := by
    rcases spaced_cases ts with hts | ⟨cs, hts⟩ <;> rw [hts] <;> rfl
  rw [splitNumber, htake, hdrop, hfraction]
  simp only [hexponent, List.append_nil]

theorem Place.lexeme_number (p : Place) (h : ∀ d ∈ c :: cs, d.isDigit = true) (ts : List Token) :
    p.lexeme? (c :: cs ++ spaced ts) = some { token := .number (c :: cs), rest := spaced ts } := by
  have hc := (List.forall_mem_cons.1 h).1
  have hsplit := splitNumber_spaced h ts
  rw [List.cons_append] at hsplit ⊢
  rw [Place.lexeme?, isWordStart_of_isDigit hc, isDigit_of_isDigit hc, hsplit]
  rfl

/-! ## Marks and heads of functions -/

/-- Whether a mark is `++` or `--`. -/
def Mark.isUpdate : Mark → Bool
  | .update _ => true
  | _ => false

/-- A text without blanks that a token starts with ends in the token. -/
theorem isPrefixOf_spaced (hw : ' ' ∉ w) (v : List Char) (ts : List Token) :
    w.isPrefixOf (v ++ spaced ts) = w.isPrefixOf v := by
  induction w generalizing v with
  | nil => cases v <;> rfl
  | cons c w ih =>
    rw [List.mem_cons, not_or] at hw
    cases v with
    | nil =>
      rcases spaced_cases ts with hts | ⟨cs, hts⟩
      · rw [hts]
        rfl
      · rw [hts, List.nil_append, List.isPrefixOf_cons_cons, beq_false_of_ne (Ne.symm hw.1)]
        rfl
    | cons d v =>
      rw [List.cons_append, List.isPrefixOf_cons_cons, ih hw.2, List.isPrefixOf_cons_cons]

/-- The marks, with what reading them rests on: how they start, and that none is cut off in front of
    its end. -/
theorem Mark.text_cons (m : Mark) : ∃ c cs, m.text.toList = c :: cs ∧ isWordStart c = false ∧
    Text.isDigit c = false ∧ (c = '"' || c = '\'') = false ∧ c ≠ '\x60' ∧ Text.isBlank c = false ∧
    ' ' ∉ c :: cs ∧ (c = '(' → m = .leftParen) ∧ (c = ')' → m = .rightParen) := by
  cases m with
  | assign op | update op | binary op => cases op <;> exact ⟨_, _, rfl, by decide⟩
  | _ => exact ⟨_, _, rfl, by decide⟩

theorem splitMark_spaced {joins : Bool} (h : joins = true ∨ m.isUpdate = false) (ts : List Token) :
    splitMark? joins (m.text.toList ++ spaced ts) = some (m, spaced ts) := by
  have hfits : ∀ m' : Mark, m'.text.toList.isPrefixOf (m.text.toList ++ spaced ts) =
      m'.text.toList.isPrefixOf m.text.toList := by
    intro m'
    obtain ⟨c, cs, htext, _, _, _, _, _, hblank, _⟩ := m'.text_cons
    exact isPrefixOf_spaced (htext ▸ hblank) _ _
  have hfind : Mark.longestFirst.find? (fun m' =>
      (joins || m' != .update .increment && m' != .update .decrement) &&
        m'.text.toList.isPrefixOf m.text.toList) = some m := by
    rcases h with rfl | h
    · cases m with
      | assign op | update op | binary op => cases op <;> decide
      | _ => decide
    · cases joins <;> cases m with
      | assign op | binary op => cases op <;> decide
      | update op => cases h
      | _ => decide
  rw [splitMark?]
  simp only [hfits]
  rw [hfind, Option.map_some, ← String.length_toList, List.drop_left]

/-- A mark is read as it is, unless it is a parenthesis that opens the head of a function. -/
theorem Place.lexeme_mark (hm : p.joinsSigns = true ∨ m.isUpdate = false) (ts : List Token)
    (harrow : m = .leftParen → p.startsArrow = true → splitArrowHead? (spaced ts) = none) :
    p.lexeme? (m.text.toList ++ spaced ts) = some { token := .mark m, rest := spaced ts } := by
  have hsplit := splitMark_spaced hm ts
  obtain ⟨c, cs, htext, hstart, hdigit, hquote, htick, _, _, hparen, _⟩ := m.text_cons
  have hhead : (if (c = '(' && p.startsArrow) = true then splitArrowHead? (cs ++ spaced ts)
      else none) = none := by
    by_cases hc : (c = '(' && p.startsArrow) = true
    · rw [Bool.and_eq_true, decide_eq_true_eq] at hc
      have hleft := hparen hc.1
      rw [hleft] at htext
      cases htext
      simpa [hc] using harrow hleft hc.2
    · rw [if_neg hc]
  rw [htext, List.cons_append] at hsplit ⊢
  rw [Place.lexeme?, hstart, hdigit, hquote]
  simp only [htick, hhead, hsplit, if_false, Bool.false_eq_true]
  rfl

theorem mem_innerText (h : ∀ x ∈ params, isName x = true) (hc : c ∈ innerText params) :
    isWordChar c = true ∨ c = ' ' ∨ c = ',' := by
  induction params with
  | nil => cases hc
  | cons x params ih =>
    obtain ⟨hx, hparams⟩ := List.forall_mem_cons.1 h
    obtain ⟨_, _, _, _, hword, _⟩ := isName_iff.1 hx
    have hown : c ∈ ' ' :: (x.toList ++ [' ']) → isWordChar c = true ∨ c = ' ' ∨ c = ',' := by
      simp only [List.mem_cons, List.mem_append, List.not_mem_nil, or_false]
      rintro (rfl | hc | rfl)
      · exact .inr (.inl rfl)
      · exact .inl (hword c hc)
      · exact .inr (.inl rfl)
    cases params with
    | nil =>
      rw [innerText, List.map_singleton, List.intercalate_singleton] at hc
      exact hown hc
    | cons y params =>
      rw [innerText, List.map_cons, List.map_cons, List.intercalate_cons_cons, List.mem_append,
        List.mem_append, List.mem_singleton] at hc
      rcases hc with (hc | rfl) | hc
      · exact hown hc
      · exact .inr (.inr rfl)
      · exact ih hparams hc

/-- Behind the first of them, a text without blanks has none to drop. -/
theorem dropWhile_isBlank (hw : ∀ c ∈ w, Text.isBlank c = false) (hne : w ≠ []) (cs : List Char) :
    (w ++ cs).dropWhile Text.isBlank = w ++ cs := by
  cases w with
  | nil => exact absurd rfl hne
  | cons c w => rw [List.cons_append, List.dropWhile_cons_of_neg (by simp [hw])]

theorem trimBlanks_name {x : String} (h : isName x = true) :
    Text.trimBlanks (' ' :: (x.toList ++ [' '])) = x.toList := by
  obtain ⟨c, cs, hx, _, hword, _⟩ := isName_iff.1 h
  have hblank : ∀ d ∈ x.toList, Text.isBlank d = false :=
    fun d hd => isBlank_of_isWordChar (hword d hd)
  have hne : x.toList ≠ [] := by simp [hx]
  have hspace : Text.isBlank ' ' = true := by decide
  have hback := dropWhile_isBlank (w := x.toList.reverse) (by simpa using hblank)
    (by simpa using hne) []
  rw [List.append_nil] at hback
  rw [Text.trimBlanks, List.dropWhile_cons_of_pos hspace, dropWhile_isBlank hblank hne,
    List.reverse_append, List.reverse_singleton, List.singleton_append,
    List.dropWhile_cons_of_pos hspace, hback, List.reverse_reverse]

theorem paramNames_innerText (h : ∀ x ∈ params, isName x = true) :
    paramNames (innerText params) = params := by
  cases params with
  | nil => rfl
  | cons x params =>
    have hcomma : ∀ l ∈ (x :: params).map (fun x => ' ' :: (x.toList ++ [' '])), ',' ∉ l := by
      intro l hl
      obtain ⟨y, hy, rfl⟩ := List.mem_map.1 hl
      obtain ⟨_, _, _, _, hword, _⟩ := isName_iff.1 (h y hy)
      simp only [List.mem_cons, List.mem_append, List.not_mem_nil, or_false, not_or]
      exact ⟨by decide, fun hc => absurd (hword ',' hc) (by decide), by decide⟩
    rw [paramNames, splitCommas, innerText, List.splitOn_intercalate ',' hcomma (by simp),
      List.map_map, List.filterMap_map]
    have hnames : ∀ y ∈ x :: params, ((fun p : List Char => if p.isEmpty then none
        else some (String.ofList p)) ∘ Text.trimBlanks ∘ fun y : String =>
          ' ' :: (y.toList ++ [' '])) y = some y := by
      intro y hy
      obtain ⟨c, cs, hy', _⟩ := isName_iff.1 (h y hy)
      simp only [Function.comp_apply, trimBlanks_name (h y hy), String.ofList_toList]
      simp [hy']
    rw [List.filterMap_congr hnames, List.filterMap_some]

theorem splitArrowHead_innerText (h : ∀ x ∈ params, isName x = true) (ts : List Token) :
    splitArrowHead? (innerText params ++ [')', ' ', '=', '>'] ++ spaced ts) =
      some (params, 0, spaced ts) := by
  have hinner : ∀ c ∈ innerText params, (!(c = '(' || c = ')' : Bool)) = true := by
    intro c hc
    rcases mem_innerText h hc with hc | rfl | rfl
    · rcases hparen : (c = '(' || c = ')' : Bool) with _ | _
      · rfl
      · rw [Bool.or_eq_true, decide_eq_true_eq, decide_eq_true_eq] at hparen
        rcases hparen with rfl | rfl <;> exact absurd hc (by decide)
    · rfl
    · rfl
  have hbreaks : (innerText params).count '\n' = 0 := by
    rw [List.count_eq_zero]
    intro hc
    rcases mem_innerText h hc with hc | hc | hc <;> exact absurd hc (by decide)
  rw [List.append_assoc, splitArrowHead?]
  simp only [List.takeWhile_append_of_pos hinner, List.dropWhile_append_of_pos hinner]
  have hrest : [')', ' ', '=', '>'] ++ spaced ts = ')' :: ' ' :: '=' :: '>' :: spaced ts := rfl
  have hblank : Text.isBlank ' ' = true := by decide
  have hequals : Text.isBlank '=' = false := by decide
  simp [hrest, hblank, hequals, hbreaks, paramNames_innerText h, lineBreaks]

theorem Place.lexeme_arrowHead (hp : p.startsArrow = true) (h : ∀ x ∈ params, isName x = true)
    (ts : List Token) : p.lexeme? ((Token.arrowHead params).spelling ++ spaced ts) =
      some { token := .arrowHead params, rest := spaced ts } := by
  have hsplit := splitArrowHead_innerText h ts
  have hhead : (if ('(' = '(' && p.startsArrow) = true then
      splitArrowHead? (innerText params ++ [')', ' ', '=', '>'] ++ spaced ts) else none) =
      some (params, 0, spaced ts) := by
    rw [if_pos (by simp [hp]), hsplit]
  rw [Token.spelling, List.cons_append, Place.lexeme?, if_neg (by decide), if_neg (by decide),
    if_neg (by decide), if_neg (by decide), hhead]

/-! ## Reading tokens back -/

/-- Whether a token can be printed in an expression. -/
def Token.isProper : Token → Bool
  | .name x => isName x
  | .keyword _ | .mark _ => true
  | .number digits => !digits.isEmpty && digits.all Char.isDigit
  | .arrowHead params => params.all isName
  | .text _ | .template _ | .finish => false

/-- Whether a token is one token at this place. -/
def Place.takes (p : Place) : Token → Bool
  | .name _ | .number _ => true
  | .keyword k => p.reserved.contains k
  | .arrowHead _ => p.startsArrow
  | .mark m => p.joinsSigns || !m.isUpdate
  | .text _ | .template _ | .finish => false

/-- Whether the tokens behind an opening parenthesis make it the head of a function: the first
    parenthesis closes it, and something other than a mark, or an arrow, comes next. -/
def opensArrow : List Token → Bool
  | [] => false
  | .mark .leftParen :: _ | .arrowHead _ :: _ => false
  | .mark .rightParen :: [] => false
  | .mark .rightParen :: .mark m :: _ => m == .arrow
  | .mark .rightParen :: _ => true
  | _ :: ts => opensArrow ts

/-- No head of a function is found behind a text without parentheses if there is none behind
    that. -/
theorem splitArrowHead_append (hw : ∀ c ∈ w, c ≠ '(' ∧ c ≠ ')') (h : splitArrowHead? cs = none) :
    splitArrowHead? (w ++ cs) = none := by
  have hw' : ∀ c ∈ w, (!(c = '(' || c = ')' : Bool)) = true := by
    intro c hc
    simp [hw c hc]
  rw [splitArrowHead?] at h ⊢
  simp only [List.dropWhile_append_of_pos hw']
  split
  next rest hrest =>
    simp only [hrest] at h
    split
    next more hmore => simp [hmore] at h
    next => rfl
  next => rfl

theorem ne_paren_of_isWordChar (h : isWordChar c = true) : c ≠ '(' ∧ c ≠ ')' :=
  ⟨fun hc => absurd (hc ▸ h) (by decide), fun hc => absurd (hc ▸ h) (by decide)⟩

/-- Parentheses stand only in the marks for them and in heads of functions. -/
theorem Token.spelling_no_paren (h : t.isProper = true) (hleft : t ≠ .mark .leftParen)
    (hright : t ≠ .mark .rightParen) (hhead : ∀ params, t ≠ .arrowHead params) :
    ∀ c ∈ t.spelling, c ≠ '(' ∧ c ≠ ')' := by
  cases t with
  | name x =>
    obtain ⟨_, _, _, _, hword, _⟩ := isName_iff.1 h
    exact fun c hc => ne_paren_of_isWordChar (hword c hc)
  | keyword k =>
    obtain ⟨_, _, _, _, hword⟩ := k.text_word
    exact fun c hc => ne_paren_of_isWordChar (hword c hc)
  | number digits =>
    rw [isProper, Bool.and_eq_true, List.all_eq_true] at h
    intro c hc
    have hdigit := toNat_of_isDigit (h.2 c hc)
    constructor <;> rintro rfl <;> exact absurd hdigit (by decide)
  | arrowHead params => exact absurd rfl (hhead params)
  | mark m =>
    have hnot : '(' ∉ m.text.toList ∧ ')' ∉ m.text.toList := by
      cases m with
      | leftParen => exact absurd rfl hleft
      | rightParen => exact absurd rfl hright
      | assign op | update op | binary op => cases op <;> decide
      | _ => decide
    intro c hc
    exact ⟨fun h => hnot.1 (h ▸ hc), fun h => hnot.2 (h ▸ hc)⟩
  | text | template | finish => cases h

theorem Mark.spelling_ne_arrow (h : m ≠ .arrow) (ts : List Token) (cs : List Char) :
    m.text.toList ++ spaced ts ≠ '=' :: '>' :: cs := by
  intro heq
  have hprefix : ['=', '>'].isPrefixOf m.text.toList = true := by
    rw [← isPrefixOf_spaced (by decide) m.text.toList ts, heq]
    rfl
  have hnone : ['=', '>'].isPrefixOf m.text.toList = false := by
    cases m with
    | arrow => exact absurd rfl h
    | assign op | update op | binary op => cases op <;> decide
    | _ => decide
  rw [hnone] at hprefix
  cases hprefix

/-- A parenthesis that is closed in front of another mark is no head of a function. -/
theorem splitArrowHead_rightParen (h : m ≠ .arrow) (ts : List Token) :
    splitArrowHead? (spaced (.mark .rightParen :: .mark m :: ts)) = none := by
  obtain ⟨c, cs, htext, _, _, _, _, hblank, _⟩ := m.text_cons
  have hspace : Text.isBlank ' ' = true := by decide
  have hne := Mark.spelling_ne_arrow h ts
  have htokens : spaced (.mark .rightParen :: .mark m :: ts) =
      [' '] ++ ')' :: ' ' :: (m.text.toList ++ spaced ts) := rfl
  have hdrop : (' ' :: (m.text.toList ++ spaced ts)).dropWhile Text.isBlank =
      m.text.toList ++ spaced ts := by
    rw [List.dropWhile_cons_of_pos hspace, htext, List.cons_append,
      List.dropWhile_cons_of_neg (by simp [hblank])]
  have hclosed : (')' :: ' ' :: (m.text.toList ++ spaced ts)).dropWhile
      (fun c => !(c = '(' || c = ')' : Bool)) = ')' :: ' ' :: (m.text.toList ++ spaced ts) := rfl
  rw [htokens]
  refine splitArrowHead_append (by simp) ?_
  rw [splitArrowHead?]
  -- that no arrow comes next, `hne`, rules out the other branch
  simp only [hclosed, hdrop]

/-- Tokens that open no arrow function are not taken for its head. -/
theorem splitArrowHead_spaced (hts : ∀ t ∈ ts, t.isProper = true) (h : opensArrow ts = false) :
    splitArrowHead? (spaced ts) = none := by
  induction ts with
  | nil => rfl
  | cons t ts ih =>
    obtain ⟨ht, hts⟩ := List.forall_mem_cons.1 hts
    -- all other tokens have no parentheses, and the search goes on behind them
    have hskip (hleft : t ≠ .mark .leftParen) (hright : t ≠ .mark .rightParen)
        (hhead : ∀ params, t ≠ .arrowHead params) (hopens : opensArrow ts = false) :
        splitArrowHead? (spaced (t :: ts)) = none := by
      have hparen := Token.spelling_no_paren ht hleft hright hhead
      have hspace : ∀ c ∈ ' ' :: t.spelling, c ≠ '(' ∧ c ≠ ')' :=
        List.forall_mem_cons.2 ⟨by decide, hparen⟩
      rw [spaced_cons, ← List.cons_append]
      exact splitArrowHead_append hspace (ih hts hopens)
    cases t with
    | mark m =>
      cases m with
      | leftParen => rfl
      | rightParen =>
        cases ts with
        | nil => rfl
        | cons t' ts =>
          cases t' with
          | mark m =>
            have hm : m ≠ .arrow := by
              rw [opensArrow, beq_eq_false_iff_ne] at h
              exact h
            exact splitArrowHead_rightParen hm ts
          | _ => cases h
      | _ => exact hskip nofun nofun nofun h
    | arrowHead params => rfl
    | _ => exact hskip nofun nofun nofun h

/-- What a place takes is read there as it was written. -/
theorem Place.meets_of_takes (hproper : ∀ t' ∈ t :: ts, t'.isProper = true) (ht : p.takes t = true)
    (harrow : t = .mark .leftParen → p.startsArrow = true → opensArrow ts = false) :
    p.Meets (t :: ts) := by
  obtain ⟨hproper, hts⟩ := List.forall_mem_cons.1 hproper
  cases t with
  | name x =>
    obtain ⟨c, cs, hx, hc, hword, _⟩ := isName_iff.1 hproper
    have hspace := isSpace_of_isBlank (isBlank_of_isWordChar (isWordChar_of_isWordStart hc))
    refine meets_cons hx hspace ?_
    rw [Token.spelling, p.lexeme_word hx hc hword, p.word_name hproper]
  | keyword k =>
    obtain ⟨c, cs, hk, hc, hword⟩ := k.text_word
    have hspace := isSpace_of_isBlank (isBlank_of_isWordChar (isWordChar_of_isWordStart hc))
    have hreserved : k ∈ p.reserved := by simpa [takes] using ht
    refine meets_cons hk hspace ?_
    rw [Token.spelling, p.lexeme_word hk hc hword, p.word_keyword hreserved]
  | number digits =>
    rw [Token.isProper, Bool.and_eq_true, List.all_eq_true] at hproper
    cases digits with
    | nil => cases hproper.1
    | cons c cs =>
      have hword : isWordChar c = true := by
        simp [isWordChar, Char.isAlphanum, hproper.2 c List.mem_cons_self]
      have hspace := isSpace_of_isBlank (isBlank_of_isWordChar hword)
      exact meets_cons rfl hspace (p.lexeme_number hproper.2 ts)
  | arrowHead params =>
    rw [Token.isProper, List.all_eq_true] at hproper
    exact meets_cons rfl (by decide) (p.lexeme_arrowHead ht hproper ts)
  | mark m =>
    obtain ⟨c, cs, hm, _, _, _, _, hblank, _⟩ := m.text_cons
    have hjoins : p.joinsSigns = true ∨ m.isUpdate = false := by simpa [takes] using ht
    refine meets_cons hm (isSpace_of_isBlank hblank) (p.lexeme_mark hjoins ts ?_)
    rintro rfl hp
    exact splitArrowHead_spaced hts (harrow rfl hp)
  | text | template | finish => cases hproper

end EventLoop.Script
