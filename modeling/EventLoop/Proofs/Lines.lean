/-
  The nodes of a program: their lines, and the parameters of functions.

  A program that is read is laid out as its source is (`IsLaid`): nodes are on lines of the source,
  and no node is before the one above it, except that a template counts the lines of its expressions
  from one.  The heads of functions, with their parameters, stand in the text that is read
  (`FunctionHead`, `ArrowHead`).

  The readers are followed with what holds of a cursor at all times: its line, and all lines that
  are still to come, are lines of the source, and its token is written in the text in front of what
  is still to come (`Cursor.Within`).  They call each other with less and less fuel, so what they do
  is shown for all of them together: `Readers` holds one statement for each, and the step is from
  one fuel to the next.
-/
import EventLoop.Generator
import EventLoop.Proofs.Insertion
import EventLoop.Proofs.Template

namespace EventLoop.Script

variable {body cs rest : List Char} {n : Node} {program : Program} {source : String} {e : Expr}
  {m : Mark}

/-! ## Nodes -/

/-- Pieces of programs, which consist of nodes.  A block is a statement, also where it is the body
    of something. -/
class HasNodes (α : Type) where
  nodes : α → List Node

export HasNodes (nodes)

section

variable {α : Type} [HasNodes α]

instance : HasNodes (List α) := ⟨fun parts => parts.flatMap nodes⟩
instance : HasNodes (Option α) := ⟨fun part => nodes part.toList⟩

end

instance : HasNodes Expr := ⟨fun e => [.expr e]⟩
instance : HasNodes Stmt := ⟨fun s => [.stmt s]⟩
instance : HasNodes Block := ⟨fun b => [.stmt (.block b)]⟩

instance : HasNodes Span where
  nodes | .mk _ e => nodes e

instance : HasNodes Body where
  nodes
    | .block b => nodes b
    | .value e => nodes e

instance : HasNodes Declarator where
  nodes | .mk _ init => nodes init

instance : HasNodes LoopInit where
  nodes
    | .nothing => []
    | .declare kind decls line => [.stmt (.declare kind decls line)]
    | .expr e => nodes e

namespace Node

/-- The line of a node. -/
def line : Node → Nat
  | .expr e => e.line
  | .stmt s => s.line

/-- The nodes directly below a node. -/
def children : Node → List Node
  | .expr (.literal ..) | .expr (.ident ..) | .expr (.update ..) => []
  | .expr (.template spans ..) => nodes spans
  | .expr (.array items _) => nodes items
  | .expr (.binary _ left right _) => nodes left ++ nodes right
  | .expr (.unary _ e _) | .expr (.assign _ _ e _) | .expr (.member e ..) | .expr (.await e _)
  | .stmt (.expr e _) => nodes e
  | .expr (.call callee args _) => nodes callee ++ nodes args
  | .expr (.function _ body ..) => nodes body
  | .stmt (.declare _ decls _) => nodes decls
  | .stmt (.function _ _ body ..) => nodes body
  | .stmt (.block b) => nodes b.stmts
  | .stmt (.branch condition body otherwise _) =>
    nodes condition ++ (nodes body ++ nodes otherwise)
  | .stmt (.loop init condition update body _) =>
    nodes init ++ (nodes condition ++ (nodes update ++ nodes body))
  | .stmt (.ret value _) => nodes value

/-- Whether a node is a template. -/
def isTemplate : Node → Bool
  | .expr (.template ..) => true
  | _ => false

end Node

/-- A line of a source with so many lines. -/
def IsLine (last n : Nat) : Prop := 1 ≤ n ∧ n ≤ last

/-- Whether a text is an identifier: letters, digits, `_` and `$`, and no digit in front. -/
def isIdentifier (s : String) : Bool :=
  match s.toList with
  | [] => false
  | c :: cs => isWordStart c && cs.all isWordChar

/-- A text of nothing but space. -/
def AllSpace (cs : List Char) : Prop := ∀ c ∈ cs, isSpace c = true

/-- Identifiers with single commas between them, and nothing but space around the commas. -/
inductive NamesList : List String → List Char → Prop
  | one {x : String} {space : List Char} (hx : isIdentifier x = true) (hspace : AllSpace space) :
      NamesList [x] (x.toList ++ space)
  | more {x : String} {xs : List String} {space space' cs : List Char} (hx : isIdentifier x = true)
      (hspace : AllSpace space) (hspace' : AllSpace space') (h : NamesList xs cs) :
      NamesList (x :: xs) (x.toList ++ space ++ ',' :: space' ++ cs)

/-- What stands between the parentheses of a function: nothing, or names. -/
inductive ParamList : List String → List Char → Prop
  | nil {space : List Char} (hspace : AllSpace space) : ParamList [] space
  | names {params : List String} {space cs : List Char} (hspace : AllSpace space)
      (h : NamesList params cs) : ParamList params (space ++ cs)

theorem ParamList.isIdentifier {params : List String} (h : ParamList params cs) :
    ∀ p ∈ params, isIdentifier p = true := by
  cases h with
  | nil => simp
  | names _ h =>
    induction h with
    | one hx => simpa using hx
    | more hx _ _ _ ih => exact List.forall_mem_cons.2 ⟨hx, ih⟩

/-- The word `function`, the name of the function if it has one, and its parameters in parentheses. -/
def FunctionHead (name : Option String) (params : List String) (cs : List Char) : Prop :=
  ∃ space space' list, AllSpace space ∧ AllSpace space' ∧ ParamList params list ∧
    cs = "function".toList ++ space ++ (name.getD "").toList ++ space' ++ '(' :: list ++ [')']

/-- The parameters of an arrow and the arrow: one identifier, or any text without parentheses in
    parentheses, whose parts between commas are taken for parameters. -/
inductive ArrowHead : List String → List Char → Prop
  | name {x : String} {space : List Char} (hx : isIdentifier x = true) (hspace : AllSpace space) :
      ArrowHead [x] (x.toList ++ space ++ "=>".toList)
  | list {cs blanks : List Char} (hcs : ∀ c ∈ cs, c ≠ '(' ∧ c ≠ ')')
      (hblanks : ∀ c ∈ blanks, Text.isBlank c = true) :
      ArrowHead (paramNames cs) ('(' :: cs ++ ')' :: blanks ++ "=>".toList)

/-- The parameters of a function are those of a head that stands in the text, and unless it is an
    arrow, they are identifiers. -/
def Node.ParamsRead (text : List Char) : Node → Prop
  | .expr (.function params _ _ true _ _) => ∃ cs, cs <:+: text ∧ ArrowHead params cs
  | .expr (.function params _ name false _ _) =>
    (∀ p ∈ params, isIdentifier p = true) ∧ ∃ cs, cs <:+: text ∧ FunctionHead name params cs
  | .stmt (.function name params _ _ _) =>
    (∀ p ∈ params, isIdentifier p = true) ∧ ∃ cs, cs <:+: text ∧ FunctionHead (some name) params cs
  | _ => True

/-- A property of all nodes from a node downwards. -/
inductive Node.All (Q : Node → Prop) : Node → Prop
  | mk {n : Node} (here : Q n) (below : ∀ m ∈ n.children, Node.All Q m) : Node.All Q n

theorem Node.All.imp {Q Q' : Node → Prop} (hQ : ∀ n, Q n → Q' n) (h : n.All Q) : n.All Q' := by
  induction h with
  | mk here _ ih => exact .mk (hQ _ here) ih

section

variable {α : Type} [HasNodes α] {Q : Node → Prop} {a : α} {as bs : List α}

/-- A property of the nodes of a piece of a program. -/
def Each (Q : Node → Prop) (a : α) : Prop := ∀ n ∈ nodes a, Q n

theorem each_nil : Each Q ([] : List α) := by simp [Each, nodes]

theorem each_cons : Each Q (a :: as) ↔ Each Q a ∧ Each Q as := List.forall_mem_append

theorem each_list : Each Q as ↔ ∀ a ∈ as, Each Q a := by
  simp only [Each, nodes, List.mem_flatMap]
  grind

theorem each_append : Each Q (as ++ bs) ↔ Each Q as ∧ Each Q bs := by
  simp only [each_list, List.forall_mem_append]

theorem Each.reverse (h : Each Q as) : Each Q as.reverse :=
  each_list.2 fun a ha => each_list.1 h a (List.mem_reverse.1 ha)

theorem each_none : Each Q (none : Option α) := each_nil

theorem Each.some (h : Each Q a) : Each Q (some a) := each_cons.2 ⟨h, each_nil⟩

theorem Each.head? (h : Each Q as) : Each Q as.head? := by
  cases as with
  | nil => exact each_none
  | cons a as => exact (each_cons.1 h).1.some

/-- All nodes of a piece of a program are on lines with the property. -/
abbrev LinesIn (P : Nat → Prop) (a : α) : Prop := Each (Node.All (P ·.line)) a

end

/-- The last line of a text. -/
def lastLine (text : List Char) : Nat := 1 + lineBreaks text

/-- A node is on a line of the text, the nodes directly below it are not on lines before it, except
    in a template, and its parameters are as they are read. -/
structure Node.IsLaid (text : List Char) (n : Node) : Prop where
  line : IsLine (lastLine text) n.line
  order : n.isTemplate = false → ∀ m ∈ n.children, n.line ≤ m.line
  params : n.ParamsRead text

/-- The nodes of a piece of a program are laid so, from the line `first` on. -/
abbrev AllLaid {α : Type} [HasNodes α] (text : List Char) (first : Nat) (a : α) : Prop :=
  Each (fun n => first ≤ n.line ∧ n.All (Node.IsLaid text)) a

/-! ## Line breaks -/

theorem lineBreaks_split (p : Char → Bool) (cs : List Char) :
    lineBreaks (cs.takeWhile p) + lineBreaks (cs.dropWhile p) = lineBreaks cs := by
  rw [← lineBreaks_append, List.takeWhile_append_dropWhile]

theorem numberFraction_suffix (cs : List Char) : (numberFraction cs).2 <:+ cs := by
  unfold numberFraction
  split
  · split
    · exact (List.dropWhile_suffix _).trans ((List.suffix_cons _ _).trans (List.suffix_cons _ _))
    · exact List.suffix_rfl
  · exact List.suffix_rfl

theorem numberExponent_suffix (cs : List Char) : (numberExponent cs).2 <:+ cs := by
  cases cs with
  | nil => exact List.suffix_rfl
  | cons e rest =>
    -- for any sign
    have hpower (sign : List Char) :
        (if ((rest.drop sign.length).takeWhile Text.isDigit).isEmpty then ([], e :: rest)
          else (e :: sign ++ (rest.drop sign.length).takeWhile Text.isDigit,
            (rest.drop sign.length).dropWhile Text.isDigit)).2 <:+ e :: rest := by
      split
      · exact List.suffix_rfl
      · exact (List.dropWhile_suffix _).trans
          ((List.drop_suffix _ _).trans (List.suffix_cons _ _))
    simp only [numberExponent]
    split
    · exact hpower _
    · exact List.suffix_rfl

theorem splitNumber_suffix (cs : List Char) : (splitNumber cs).2 <:+ cs :=
  (numberExponent_suffix _).trans ((numberFraction_suffix _).trans (List.dropWhile_suffix _))

theorem splitText?_suffix {quote : Char} {done : List Char}
    (h : splitText? quote done cs = some (body, rest)) : rest <:+ cs := by
  fun_induction splitText? quote done cs with
  | case1 => cases h
  | case2 => cases h
  | case3 done c cs hc ih =>
    exact (ih h).trans ((List.suffix_cons _ _).trans (List.suffix_cons _ _))
  | case4 done cs =>
    cases h
    exact List.suffix_cons _ _
  | case5 => cases h
  | case6 done c cs _ _ _ ih => exact (ih h).trans (List.suffix_cons _ _)

theorem splitTemplateBody?_eq (h : splitTemplateBody? cs = some (body, rest)) :
    cs = body ++ '\x60' :: rest := by
  rw [splitTemplateBody?] at h
  cases hdrop : cs.dropWhile (· != '\x60') with
  | nil =>
    rw [hdrop] at h
    cases h
  | cons c more =>
    have hc : c = '\x60' := by
      have hhead := List.head?_dropWhile_not (· != '\x60') cs
      simpa [hdrop] using hhead
    rw [hdrop] at h
    cases h
    have hsplit := List.takeWhile_append_dropWhile (p := (· != '\x60')) (l := cs)
    rw [hdrop, hc] at hsplit
    exact hsplit.symm

theorem splitArrowHead?_eq {params : List String} {breaks : Nat}
    (h : splitArrowHead? cs = some (params, breaks, rest)) :
    ∃ inner blanks, cs = inner ++ ')' :: blanks ++ "=>".toList ++ rest ∧
      params = paramNames inner ∧ breaks = lineBreaks inner + lineBreaks blanks ∧
      (∀ c ∈ inner, c ≠ '(' ∧ c ≠ ')') ∧ ∀ c ∈ blanks, Text.isBlank c = true := by
  simp only [splitArrowHead?] at h
  split at h
  next behind hdrop =>
    split at h
    next more hblank =>
      cases h
      refine ⟨_, _, ?_, rfl, rfl, fun c hc => ?_, List.all_eq_true.1 List.all_takeWhile⟩
      · have hbehind := List.takeWhile_append_dropWhile (p := Text.isBlank) (l := behind)
        rw [hblank] at hbehind
        conv_lhs => rw [← List.takeWhile_append_dropWhile
          (p := fun c => !(decide (c = '(') || decide (c = ')'))) (l := cs), hdrop, ← hbehind]
        simp
      · simpa using List.all_eq_true.1 List.all_takeWhile c hc
    next => cases h
  next => cases h

theorem splitMark?_eq {joins : Bool} (h : splitMark? joins cs = some (m, rest)) :
    cs = m.text.toList ++ rest := by
  simp only [splitMark?, Option.map_eq_some_iff, Prod.mk.injEq] at h
  obtain ⟨m', hfind, rfl, rfl⟩ := h
  have hfits := List.find?_some hfind
  obtain ⟨rest, rfl⟩ := List.isPrefixOf_iff_prefix.1 (Bool.and_eq_true_iff.1 hfits).2
  rw [← String.length_toList, List.drop_left]

/-- How a token is written. -/
def Token.Spells : Token → List Char → Prop
  | .name x, cs => isIdentifier x = true ∧ cs = x.toList
  | .keyword k, cs => cs = k.text.toList
  | .template body, cs => cs = '\x60' :: body ++ ['\x60']
  | .arrowHead params, cs => ArrowHead params cs
  | .mark m, cs => cs = m.text.toList
  | .number _, _ | .text _, _ | .finish, _ => True

theorem isIdentifier_word {c : Char} (h : isWordStart c = true) (cs : List Char) :
    isIdentifier (String.ofList ((c :: cs).takeWhile isWordChar)) = true := by
  have hc : isWordChar c = true := by
    simp only [isWordStart, isWordChar, Char.isAlphanum, Bool.or_eq_true] at h ⊢
    exact h.imp_left (Or.imp_left Or.inl)
  rw [List.takeWhile_cons_of_pos hc, isIdentifier, String.toList_ofList]
  simp [h]

theorem Place.word_spells (p : Place) {s : String} (h : isIdentifier s = true) :
    (p.word s).Spells s.toList := by
  rw [Place.word]
  split
  next k hk =>
    have hs : k.text = s := by simpa using List.find?_some hk
    exact congrArg String.toList hs.symm
  · exact ⟨h, rfl⟩

/-- A token stands at the start of the text as it is written, and has the line breaks that are
    counted for it. -/
theorem Place.lexeme?_spells {p : Place} {l : Lexeme} (h : p.lexeme? cs = some l) :
    ∃ spelling, cs = spelling ++ l.rest ∧ l.token.Spells spelling ∧
      l.breaks ≤ lineBreaks spelling := by
  cases cs with
  | nil =>
    cases h
    exact ⟨[], rfl, trivial, Nat.le_refl 0⟩
  | cons c cs =>
    simp only [Place.lexeme?] at h
    split at h
    -- a word
    next hc =>
      cases h
      refine ⟨_, List.takeWhile_append_dropWhile.symm, ?_, Nat.zero_le _⟩
      simpa using p.word_spells (isIdentifier_word hc cs)
    split at h
    · -- a number
      cases h
      obtain ⟨spelling, hspelling⟩ := splitNumber_suffix (c :: cs)
      exact ⟨spelling, hspelling.symm, trivial, Nat.zero_le _⟩
    split at h
    · -- a quoted text
      obtain ⟨⟨body, rest⟩, hsplit, rfl⟩ := Option.map_eq_some_iff.1 h
      obtain ⟨spelling, rfl⟩ := splitText?_suffix hsplit
      exact ⟨c :: spelling, rfl, trivial, Nat.zero_le _⟩
    split at h
    -- a template, which may go over several lines
    next hc =>
      obtain ⟨⟨body, rest⟩, hsplit, rfl⟩ := Option.map_eq_some_iff.1 h
      rw [splitTemplateBody?_eq hsplit, hc]
      refine ⟨'\x60' :: body ++ ['\x60'], by simp, rfl, ?_⟩
      simp [lineBreaks]
    split at h
    -- the head of a function, which may do so, too
    next params breaks rest hhead =>
      cases h
      split at hhead
      next hparen =>
        have hc : c = '(' := by simpa using (Bool.and_eq_true_iff.1 hparen).1
        obtain ⟨inner, blanks, rfl, rfl, rfl, hinner, hblanks⟩ := splitArrowHead?_eq hhead
        refine ⟨'(' :: inner ++ ')' :: blanks ++ "=>".toList, by simp [hc],
          .list hinner hblanks, ?_⟩
        simp [lineBreaks]
      · cases hhead
    -- a mark
    next =>
      obtain ⟨⟨m, rest⟩, hsplit, rfl⟩ := Option.map_eq_some_iff.1 h
      exact ⟨_, splitMark?_eq hsplit, rfl, Nat.zero_le _⟩

/-! ## Cursors -/

/-- The line of a cursor, and all lines that it will come to, are lines of the text, and none of them
    is before `first`.  Its token stands in the text, and behind that what is still to come. -/
structure Cursor.Within (first : Nat) (text : List Char) (c : Cursor) : Prop where
  start : first ≤ c.line
  line : IsLine (lastLine text) c.line
  order : c.line ≤ c.restLine
  rest : c.restLine + lineBreaks c.rest ≤ lastLine text
  spelled : ∃ spelling, c.token.Spells spelling ∧ spelling ++ c.rest <:+: text

variable {first : Nat} {text : List Char}

/-- Before the next token there is nothing but space. -/
theorem Place.next_spells {p : Place} {line : Nat} {c : Cursor} (h : p.next line cs = some c) :
    ∃ space spelling, AllSpace space ∧ c.token.Spells spelling ∧
      cs = space ++ (spelling ++ c.rest) := by
  obtain ⟨l, hl, rfl⟩ := Option.map_eq_some_iff.1 h
  obtain ⟨spelling, hcs, hspells, -⟩ := Place.lexeme?_spells hl
  refine ⟨cs.takeWhile isSpace, spelling, List.all_eq_true.1 List.all_takeWhile, hspells, ?_⟩
  rw [← hcs, List.takeWhile_append_dropWhile]

theorem Place.next_within {p : Place} {line : Nat} {c : Cursor} (hstart : first ≤ line)
    (hfirst : 1 ≤ line) (hlast : line + lineBreaks cs ≤ lastLine text) (hcs : cs <:+: text)
    (h : p.next line cs = some c) : c.Within first text := by
  have hspelled : ∃ spelling, c.token.Spells spelling ∧ spelling ++ c.rest <:+: text := by
    obtain ⟨space, spelling, -, hspells, rfl⟩ := next_spells h
    exact ⟨spelling, hspells, (List.suffix_append _ _).isInfix.trans hcs⟩
  obtain ⟨l, hl, rfl⟩ := Option.map_eq_some_iff.1 h
  obtain ⟨spelling, hsplit', -, hbreaks⟩ := Place.lexeme?_spells hl
  have hsplit := lineBreaks_split isSpace cs
  rw [hsplit', lineBreaks_append] at hsplit
  refine ⟨?_, ⟨?_, ?_⟩, Nat.le_add_right _ _, ?_, hspelled⟩ <;> dsimp only <;> omega

theorem token_of_expect {c c' : Cursor} {p : Place} (h : c.expect m p = some c') :
    c.token = .mark m := by
  rw [Cursor.expect] at h
  split at h
  · assumption
  · cases h

namespace Cursor.Within

variable {c c' : Cursor} {p : Place}

theorem here (h : c.Within first text) : c.Within c.line text := { h with start := Nat.le_refl _ }

theorem advance (h : c.Within first text) (hadvance : c.advance p = some c') :
    c'.Within first text := by
  obtain ⟨spelling, -, hinfix⟩ := h.spelled
  exact Place.next_within (Nat.le_trans h.start h.order) (Nat.le_trans h.line.1 h.order) h.rest
    ((List.suffix_append _ _).isInfix.trans hinfix) hadvance

theorem expect (h : c.Within first text) (hexpect : c.expect m p = some c') :
    c'.Within first text := by
  rw [Cursor.expect] at hexpect
  split at hexpect
  · exact h.advance hexpect
  · cases hexpect

end Cursor.Within

/-! ## Readers -/

/-- What a reader gives, if it gives anything, has the property, and the cursor behind it is within
    the source. -/
def ReadsIn {α : Type} (first : Nat) (text : List Char) (R : α → Prop)
    (o : Option (α × Cursor)) : Prop :=
  ∀ a c, o = some (a, c) → R a ∧ c.Within first text

namespace ReadsIn

variable {α β : Type} {R : α → Prop} {S : β → Prop} {c : Cursor} {p : Place}

theorem none : ReadsIn first text R none := by
  intro a c h
  cases h

theorem some {a : α} (ha : R a) (hc : c.Within first text) :
    ReadsIn first text R (some (a, c)) := by
  intro a' c' h
  cases h
  exact ⟨ha, hc⟩

theorem bind {o : Option (α × Cursor)} {f : α × Cursor → Option (β × Cursor)}
    (h : ReadsIn first text R o)
    (hf : ∀ a c, R a → c.Within first text → ReadsIn first text S (f (a, c))) :
    ReadsIn first text S (o >>= f) := by
  cases o with
  | none => exact ReadsIn.none
  | some r =>
    obtain ⟨ha, hc⟩ := h r.1 r.2 rfl
    exact hf r.1 r.2 ha hc

theorem lower {first' : Nat} {R' : α → Prop} {o : Option (α × Cursor)}
    (h : ReadsIn first' text R' o) (hle : first ≤ first') (hR : ∀ a, R' a → R a) :
    ReadsIn first text R o := by
  intro a c heq
  obtain ⟨ha, hc⟩ := h a c heq
  exact ⟨hR a ha, { hc with start := Nat.le_trans hle hc.start }⟩

theorem of_value {o : Option α} {f : α → Option (β × Cursor)}
    (hf : ∀ a, o = .some a → ReadsIn first text S (f a)) : ReadsIn first text S (o >>= f) := by
  cases o with
  | none => exact ReadsIn.none
  | some a => exact hf a rfl

theorem advance {f : Cursor → Option (β × Cursor)} (h : c.Within first text)
    (hf : ∀ c', c'.Within first text → ReadsIn first text S (f c')) :
    ReadsIn first text S (c.advance p >>= f) :=
  of_value fun c' hc' => hf c' (h.advance hc')

theorem expect {f : Cursor → Option (β × Cursor)} (h : c.Within first text)
    (hf : ∀ c', c'.Within first text → ReadsIn first text S (f c')) :
    ReadsIn first text S (c.expect m p >>= f) :=
  of_value fun c' hc' => hf c' (h.expect hc')

end ReadsIn

/-- A reader gives nodes that are laid as they should be. -/
def Reads {α : Type} [HasNodes α] (first : Nat) (text : List Char) (o : Option (α × Cursor)) :
    Prop :=
  ReadsIn first text (AllLaid text first) o

section

variable {α : Type} [HasNodes α]

theorem AllLaid.mono {first' : Nat} {a : α} (h : AllLaid text first' a) (hle : first ≤ first') :
    AllLaid text first a :=
  fun n hn => ⟨Nat.le_trans hle (h n hn).1, (h n hn).2⟩

/-- It is enough that a reader lays all nodes behind the line on which it starts. -/
theorem Reads.from_here {o : Option (α × Cursor)} {c : Cursor} (hc : c.Within first text)
    (h : c.Within c.line text → Reads c.line text o) : Reads first text o :=
  (h hc.here).lower hc.start fun _ ha => ha.mono hc.start

end

/-- A node is laid as it should be if the nodes below it are. -/
theorem Node.laid {n : Node} (here : IsLine (lastLine text) n.line) (params : n.ParamsRead text)
    (below : ∀ m ∈ n.children,
      (if n.isTemplate then 1 else n.line) ≤ m.line ∧ m.All (Node.IsLaid text)) :
    ∀ m ∈ [n], n.line ≤ m.line ∧ m.All (Node.IsLaid text) := by
  have horder (h : n.isTemplate = false) (m : Node) (hm : m ∈ n.children) : n.line ≤ m.line := by
    simpa [h] using (below m hm).1
  exact List.forall_mem_singleton.2
    ⟨Nat.le_refl _, .mk ⟨here, horder, params⟩ fun m hm => (below m hm).2⟩

/-- What may stand before an arrow. -/
def ArrowParams (text : List Char) (params : List String) : Prop :=
  ∃ cs, cs <:+: text ∧ ArrowHead params cs

/-- What all readers do with the same fuel. -/
structure Readers (text : List Char) (fuel : Nat) : Prop where
  expression {first c} : c.Within first text → Reads first text (expression fuel c)
  arrowBody {line c params} (isAsync) : ArrowParams text params → IsLine (lastLine text) line →
    c.Within line text → Reads line text (arrowBody fuel params isAsync line c)
  binary {first c} (level) : c.Within first text → Reads first text (binary fuel level c)
  binaryRest {line left c} (level) : IsLine (lastLine text) line → AllLaid text line left →
    c.Within line text → Reads line text (binaryRest fuel level line left c)
  unary {first c} : c.Within first text → Reads first text (unary fuel c)
  operand {first c} : c.Within first text → Reads first text (operand fuel c)
  variableRest {line c} (x) : IsLine (lastLine text) line → c.Within line text →
    Reads line text (variableRest fuel x line c)
  operandRest {line e c} : IsLine (lastLine text) line → AllLaid text line e → c.Within line text →
    Reads line text (operandRest fuel line e c)
  arguments {first c} (closer) : c.Within first text → Reads first text (arguments fuel closer c)
  argumentsRest {first done c} (closer) : AllLaid text first done → c.Within first text →
    Reads first text (argumentsRest fuel closer done c)
  functionRest {line c} (isAsync) : IsLine (lastLine text) line → c.Within line text →
    Reads line text (functionRest fuel isAsync line c)
  templateSpans {spans ss} : (∀ s ∈ spans, s.2 <:+: text) →
    templateSpans fuel spans = some ss → AllLaid text 1 ss
  block {first c} : c.Within first text → Reads first text (block fuel c)
  statements {first done c} : AllLaid text first done → c.Within first text →
    Reads first text (statements fuel done c)
  statement {first c} : c.Within first text → Reads first text (statement fuel c)
  declarators {first done c} : AllLaid text first done → c.Within first text →
    Reads first text (declarators fuel done c)
  branch {first c} : c.Within first text → Reads first text (branch fuel c)
  loop {first c} : c.Within first text → Reads first text (loop fuel c)
  optionalExpression {first c} (closer) : c.Within first text →
    Reads first text (optionalExpression fuel closer c)

namespace Readers

variable {fuel line : Nat} {c : Cursor}

theorem zero : Readers text 0 where
  expression _ := by rw [Script.expression]; exact .none
  arrowBody _ _ _ _ := by rw [Script.arrowBody]; exact .none
  binary _ _ := by rw [Script.binary]; exact .none
  binaryRest _ _ _ _ := by rw [Script.binaryRest]; exact .none
  unary _ := by rw [Script.unary]; exact .none
  operand _ := by rw [Script.operand]; exact .none
  variableRest _ _ _ := by rw [Script.variableRest]; exact .none
  operandRest _ _ _ := by rw [Script.operandRest]; exact .none
  arguments _ _ := by rw [Script.arguments]; exact .none
  argumentsRest _ _ _ := by rw [Script.argumentsRest]; exact .none
  functionRest _ _ _ := by rw [Script.functionRest]; exact .none
  templateSpans _ h := by rw [Script.templateSpans] at h; cases h
  block _ := by rw [Script.block]; exact .none
  statements _ _ := by rw [Script.statements]; exact .none
  statement _ := by rw [Script.statement]; exact .none
  declarators _ _ := by rw [Script.declarators]; exact .none
  branch _ := by rw [Script.branch]; exact .none
  loop _ := by rw [Script.loop]; exact .none
  optionalExpression _ _ := by rw [Script.optionalExpression]; exact .none

theorem arrowParams_of_name (hc : c.Within first text) {x : String} (h : c.token = .name x)
    {next : Cursor} {p : Place} (hnext : c.advance p = some next)
    (harrow : next.token = .mark .arrow) : ArrowParams text [x] := by
  obtain ⟨_, hspells, hinfix⟩ := hc.spelled
  obtain ⟨space, _, hspace, hspells', hrest⟩ := Place.next_spells hnext
  rw [h] at hspells
  rw [harrow] at hspells'
  obtain ⟨hx, rfl⟩ := hspells
  obtain rfl := hspells'
  rw [hrest] at hinfix
  refine ⟨_, List.IsInfix.trans (List.IsPrefix.isInfix ⟨next.rest, ?_⟩) hinfix, .name hx hspace⟩
  simp [Mark.text]

theorem arrowParams_of_head (hc : c.Within first text) {params : List String}
    (h : c.token = .arrowHead params) : ArrowParams text params := by
  obtain ⟨spelling, hspells, hinfix⟩ := hc.spelled
  rw [h] at hspells
  exact ⟨spelling, (List.prefix_append _ _).isInfix.trans hinfix, hspells⟩

section

variable (ih : Readers text fuel)

include ih

theorem expression_succ (hc : c.Within first text) :
    Reads first text (Script.expression (fuel + 1) c) := by
  refine .from_here hc fun hc => ?_
  rw [Script.expression]
  split
  next x hx =>
    refine .of_value fun next hadvance => ?_
    have hnext := hc.advance hadvance
    split
    · refine .advance hnext fun next' hnext' => .bind (ih.expression hnext') ?_
      exact fun e rest he hrest => .some (Node.laid hc.line trivial he) hrest
    next harrow =>
      exact .advance hnext fun next' =>
        ih.arrowBody _ (arrowParams_of_name hc hx hadvance harrow) hc.line
    · refine .bind (ih.variableRest _ hc.line hnext) ?_
      exact fun e rest => ih.binaryRest _ hc.line
  next params hparams =>
    exact .advance hc fun next => ih.arrowBody _ (arrowParams_of_head hc hparams) hc.line
  · refine .advance hc fun next hnext => ?_
    split
    next params hparams =>
      exact .advance hnext fun next' =>
        ih.arrowBody _ (arrowParams_of_head hnext hparams) hc.line
    next x hx =>
      refine .of_value fun next' hadvance => .of_value fun next2 hexpect => ?_
      have hnext2 := (hnext.advance hadvance).expect hexpect
      exact ih.arrowBody _ (arrowParams_of_name hnext hx hadvance (token_of_expect hexpect)) hc.line
        hnext2
    · refine .bind (ih.functionRest _ hc.line hnext) fun f rest hf hrest => ?_
      refine .bind (ih.operandRest hc.line hf hrest) ?_
      exact fun e rest => ih.binaryRest _ hc.line
  · exact ih.binary _ hc

theorem arrowBody_succ {params : List String} (isAsync : Bool) (hparams : ArrowParams text params)
    (hline : IsLine (lastLine text) line) (hc : c.Within line text) :
    Reads line text (Script.arrowBody (fuel + 1) params isAsync line c) := by
  rw [Script.arrowBody]
  split
  · exact .bind (ih.block hc) fun b rest hb hrest => .some (Node.laid hline hparams hb) hrest
  · exact .bind (ih.expression hc) fun e rest he hrest => .some (Node.laid hline hparams he) hrest

theorem binary_succ (level : Nat) (hc : c.Within first text) :
    Reads first text (Script.binary (fuel + 1) level c) := by
  refine .from_here hc fun hc => ?_
  rw [Script.binary]
  exact .bind (ih.unary hc) fun e rest => ih.binaryRest _ hc.line

theorem binaryRest_succ {left : Expr} (level : Nat)
    (hline : IsLine (lastLine text) line) (hleft : AllLaid text line left) (hc : c.Within line text) :
    Reads line text (Script.binaryRest (fuel + 1) level line left c) := by
  rw [Script.binaryRest]
  split
  · split
    · refine .advance hc fun next hnext => .bind (ih.binary _ hnext) fun e rest he => ?_
      exact ih.binaryRest _ hline (Node.laid hline trivial (List.forall_mem_append.2 ⟨hleft, he⟩))
    · exact .some hleft hc
  · exact .some hleft hc

theorem unary_succ (hc : c.Within first text) : Reads first text (Script.unary (fuel + 1) c) := by
  refine .from_here hc fun hc => ?_
  have hunary (f : Expr → Expr) (hf : ∀ e, AllLaid text c.line e → AllLaid text c.line (f e)) :
      Reads c.line text ((c.advance .operand).bind fun next =>
        (Script.unary fuel next).bind fun operand => some (f operand.1, operand.2)) :=
    .advance hc fun next hnext => .bind (ih.unary hnext) fun e rest he => .some (hf e he)
  rw [Script.unary]
  split
  · exact hunary (.unary .not · c.line) fun e he => Node.laid hc.line trivial he
  · exact hunary (.unary .neg · c.line) fun e he => Node.laid hc.line trivial he
  · exact hunary (.unary .pos · c.line) fun e he => Node.laid hc.line trivial he
  · exact hunary (.await · c.line) fun e he => Node.laid hc.line trivial he
  · refine .advance hc fun next hnext => ?_
    split
    · exact .advance hnext fun rest => .some (Node.laid hc.line trivial (by simp [Node.children]))
    · exact .none
  · exact ih.operand hc

omit ih in
/-- The sources that a template holds stand in it. -/
theorem infix_of_splitTemplate {parts : Source.TemplateParts}
    (h : Source.splitTemplate? body = some parts) : ∀ s ∈ parts.spans, s.2 <:+: body := by
  intro s hs
  have hparts : Source.Decomposition body parts.texts parts.sources :=
    Source.yields_splitTemplate?_iff.1 ⟨parts, h, rfl, rfl⟩
  rw [← hparts.whole]
  exact Source.source_infix (List.mem_map_of_mem hs) hparts.count

theorem operand_succ (hc : c.Within first text) :
    Reads first text (Script.operand (fuel + 1) c) := by
  refine .from_here hc fun hc => ?_
  have hliteral (value : Literal) : Reads c.line text (do
      Script.operandRest fuel c.line (.literal value c.line) (← c.advance .afterOperand)) :=
    .advance hc fun next => ih.operandRest hc.line
      (Node.laid hc.line trivial (by simp [Node.children]))
  rw [Script.operand]
  split
  · exact .advance hc fun next => ih.variableRest _ hc.line
  · exact .of_value fun n _ => hliteral (.number n)
  · exact .of_value fun s _ => hliteral (.text (String.ofList s))
  next body htoken =>
    refine .of_value fun parts hparts => .of_value fun spans hspans => ?_
    refine .advance hc fun next => ih.operandRest hc.line (Node.laid hc.line trivial ?_)
    refine ih.templateSpans (fun s hs => ?_) hspans
    obtain ⟨spelling, hspells, hinfix⟩ := hc.spelled
    rw [htoken] at hspells
    obtain rfl := hspells
    have hbody : body <:+: '\x60' :: body ++ ['\x60'] := ⟨['\x60'], ['\x60'], rfl⟩
    exact (infix_of_splitTemplate hparts s hs).trans
      (hbody.trans ((List.prefix_append _ _).isInfix.trans hinfix))
  · exact hliteral _
  · exact hliteral _
  · exact hliteral _
  · exact .bind (ih.functionRest _ hc.line hc) fun f next => ih.operandRest hc.line
  · refine .advance hc fun next hnext => .bind (ih.functionRest _ hc.line hnext) ?_
    exact fun f next => ih.operandRest hc.line
  · refine .advance hc fun next hnext => .bind (ih.expression hnext) fun e next he hnext => ?_
    exact .expect hnext fun next' => ih.operandRest hc.line he
  · refine .advance hc fun next hnext => .bind (ih.arguments _ hnext) fun items next hitems => ?_
    exact ih.operandRest hc.line (Node.laid hc.line trivial hitems)
  · exact .none

theorem variableRest_succ (x : String) (hline : IsLine (lastLine text) line)
    (hc : c.Within line text) : Reads line text (Script.variableRest (fuel + 1) x line c) := by
  rw [Script.variableRest]
  split
  · refine .advance hc fun next => ih.operandRest hline ?_
    exact Node.laid hline trivial (by simp [Node.children])
  · exact ih.operandRest hline (Node.laid hline trivial (by simp [Node.children])) hc

theorem operandRest_succ (hline : IsLine (lastLine text) line)
    (he : AllLaid text line e) (hc : c.Within line text) :
    Reads line text (Script.operandRest (fuel + 1) line e c) := by
  rw [Script.operandRest]
  split
  · refine .advance hc fun next hnext => .bind (ih.arguments _ hnext) fun args rest hargs => ?_
    exact ih.operandRest hline (Node.laid hline trivial (List.forall_mem_append.2 ⟨he, hargs⟩))
  · refine .advance hc fun next hnext => ?_
    split
    · exact .advance hnext fun rest => ih.operandRest hline (Node.laid hline trivial he)
    · exact .none
  · exact .some he hc

theorem arguments_succ (closer : Mark) (hc : c.Within first text) :
    Reads first text (Script.arguments (fuel + 1) closer c) := by
  rw [Script.arguments]
  split
  · rw [Option.map_eq_bind]
    exact .advance hc fun rest => .some each_nil
  · exact ih.argumentsRest _ each_nil hc

theorem argumentsRest_succ {done : List Expr} (closer : Mark)
    (hdone : AllLaid text first done) (hc : c.Within first text) :
    Reads first text (Script.argumentsRest (fuel + 1) closer done c) := by
  rw [Script.argumentsRest]
  refine .bind (ih.expression hc) fun e rest he hrest => ?_
  dsimp only
  split
  · exact .advance hrest fun next => ih.argumentsRest _ (each_cons.2 ⟨he, hdone⟩)
  · exact .expect hrest fun next => .some (each_cons.2 ⟨he, hdone⟩).reverse

omit ih in
/-- The names of parameters are read up to a closing parenthesis, with single commas between them. -/
theorem paramsRest_within (fuel : Nat) {done : List String} {spelling : List Char}
    (hc : c.Within first text) (hspells : c.token.Spells spelling) :
    ReadsIn first text (fun ps => ∃ names list behind, ps = done.reverse ++ names ∧
      NamesList names list ∧ spelling ++ c.rest = list ++ ')' :: behind)
      (paramsRest fuel done c) := by
  induction fuel generalizing done c spelling with
  | zero => exact .none
  | succ fuel ih =>
    rw [paramsRest]
    split
    next x hx =>
      rw [hx] at hspells
      obtain ⟨hname, rfl⟩ := hspells
      refine .of_value fun next hadvance => ?_
      have hnext := hc.advance hadvance
      obtain ⟨space, _, hspace, hspells, hrest⟩ := Place.next_spells hadvance
      rw [hrest]
      split
      next hcomma =>
        rw [hcomma] at hspells
        obtain rfl := hspells
        refine .of_value fun next' hadvance' => ?_
        obtain ⟨space', spelling', hspace', hspells', hrest'⟩ := Place.next_spells hadvance'
        refine (ih (hnext.advance hadvance') hspells').lower (Nat.le_refl _) ?_
        rintro ps ⟨names, list, behind, rfl, hnames, hlist⟩
        refine ⟨x :: names, _, behind, by simp, .more hname hspace hspace' hnames, ?_⟩
        rw [hrest', hlist]
        simp [Mark.text]
      next hparen =>
        rw [hparen] at hspells
        obtain rfl := hspells
        refine .advance hnext fun rest => .some ⟨[x], _, next.rest, by simp, .one hname hspace, ?_⟩
        simp [Mark.text]
      · exact .none
    next => exact .none

omit ih in
/-- Behind an opening parenthesis, what a function takes for its parameters is a list of names up to
    the closing one. -/
theorem params_within (fuel : Nat) {p : Place} {next : Cursor} (hc : c.Within first text)
    (hnext : c.advance p = some next) : ReadsIn first text
      (fun ps => ∃ list behind, ParamList ps list ∧ c.rest = list ++ ')' :: behind)
      (params fuel next) := by
  obtain ⟨space, spelling, hspace, hspells, hrest⟩ := Place.next_spells hnext
  rw [params, hrest]
  split
  next hparen =>
    rw [hparen] at hspells
    obtain rfl := hspells
    rw [Option.map_eq_bind]
    exact .advance (hc.advance hnext) fun rest => .some ⟨space, next.rest, .nil hspace, by
      simp [Mark.text]⟩
  · refine (paramsRest_within fuel (hc.advance hnext) hspells).lower (Nat.le_refl _) ?_
    rintro ps ⟨names, list, behind, rfl, hnames, hlist⟩
    exact ⟨space ++ list, behind, .names hspace hnames, by rw [hlist]; simp⟩

/-- The head of a function stands in the text, and its body is laid out. -/
theorem functionRest_succ (isAsync : Bool) (hline : IsLine (lastLine text) line)
    (hc : c.Within line text) :
    Reads line text (Script.functionRest (fuel + 1) isAsync line c) := by
  rw [Script.functionRest]
  split
  · exact .none
  next hword =>
  obtain ⟨spelling, hspells, hinfix⟩ := hc.spelled
  rw [not_not.1 hword] at hspells
  obtain rfl := hspells
  refine .of_value fun next hadvance => ?_
  have hnext := hc.advance hadvance
  obtain ⟨space, spelling, hspace, hspells, hrest⟩ := Place.next_spells hadvance
  extract_lets code
  -- behind the name, if there is one, only a list of parameters may come
  have hcode (name : Option String) {next : Cursor} {space' spelling : List Char}
      (hnext : next.Within line text) (hspace' : AllSpace space')
      (hspells : next.token.Spells spelling) (hat : c.rest =
        space ++ (name.getD "").toList ++ space' ++ (spelling ++ next.rest)) :
      Reads line text (code (name, next)) := by
    refine .of_value fun next' hexpect => ?_
    have hparen := token_of_expect hexpect
    rw [Cursor.expect, if_pos hparen] at hexpect
    rw [hparen] at hspells
    obtain rfl := hspells
    refine .bind (params_within fuel hnext hexpect) ?_
    rintro ps next ⟨list, behind, hlist, hbehind⟩ hnext
    refine .bind (ih.block hnext) fun b rest hb hrest => .some (Node.laid hline ?_ hb) hrest
    refine ⟨hlist.isIdentifier, _, List.IsInfix.trans (List.IsPrefix.isInfix ⟨behind, ?_⟩) hinfix,
      space, space', list, hspace, hspace', hlist, rfl⟩
    rw [hat, hbehind]
    simp [Keyword.text, Mark.text]
  split
  next x hx =>
    rw [hx] at hspells
    obtain ⟨-, rfl⟩ := hspells
    refine .of_value fun next' hadvance' => ?_
    obtain ⟨space', spelling', hspace', hspells', hrest'⟩ := Place.next_spells hadvance'
    refine hcode (some x) (hnext.advance hadvance') hspace' hspells' ?_
    simp [hrest, hrest']
  · exact @hcode none next [] spelling hnext (by simp [AllSpace]) hspells (by simp [hrest])

theorem templateSpans_succ {spans : List (List Char × List Char)}
    {ss : List Span} (hspans : ∀ s ∈ spans, s.2 <:+: text)
    (h : Script.templateSpans (fuel + 1) spans = some ss) : AllLaid text 1 ss := by
  cases spans with
  | nil =>
    rw [Script.templateSpans] at h
    cases h
    exact each_nil
  | cons span spans =>
    rw [List.forall_mem_cons] at hspans
    rw [Script.templateSpans] at h
    obtain ⟨c, hc, h⟩ := Option.bind_eq_some_iff.1 h
    obtain ⟨⟨e, rest⟩, he, h⟩ := Option.bind_eq_some_iff.1 h
    have hbreaks : 1 + lineBreaks span.2 ≤ lastLine text :=
      Nat.add_le_add_left (hspans.1.sublist.count_le '\n') 1
    have hwithin := Place.next_within (Nat.le_refl 1) (Nat.le_refl 1) hbreaks hspans.1 hc
    obtain ⟨he, -⟩ := ih.expression hwithin e rest he
    dsimp only at h
    split at h
    · cases h
    · obtain ⟨more, hmore, h⟩ := Option.bind_eq_some_iff.1 h
      cases h
      exact each_cons.2 ⟨he, ih.templateSpans hspans.2 hmore⟩

theorem block_succ (hc : c.Within first text) : Reads first text (Script.block (fuel + 1) c) := by
  refine .from_here hc fun hc => ?_
  rw [Script.block]
  refine .expect hc fun next hnext => .bind (ih.statements each_nil hnext) ?_
  exact fun stmts rest hstmts hrest => .expect hrest fun next =>
    .some (Node.laid hc.line trivial hstmts)

theorem statements_succ {done : List Stmt}
    (hdone : AllLaid text first done) (hc : c.Within first text) :
    Reads first text (Script.statements (fuel + 1) done c) := by
  rw [Script.statements]
  split
  · exact .some hdone.reverse hc
  · split
    · exact .advance hc fun next => ih.statements hdone
    · exact .bind (ih.statement hc) fun s rest hs => ih.statements (each_cons.2 ⟨hs, hdone⟩)

omit ih in
theorem ofExpr_laid (he : AllLaid text line e) (hline : IsLine (lastLine text) line) :
    AllLaid text line (Stmt.ofExpr e line) := by
  unfold Stmt.ofExpr
  split
  · obtain ⟨first, here, below⟩ := he _ List.mem_cons_self
    exact List.forall_mem_singleton.2 ⟨first, .mk ⟨here.line, here.order, here.params⟩ below⟩
  · exact Node.laid hline trivial he

theorem statement_succ (hc : c.Within first text) :
    Reads first text (Script.statement (fuel + 1) c) := by
  refine .from_here hc fun hc => ?_
  rw [Script.statement]
  split
  · refine .advance hc fun next hnext => .bind (ih.declarators each_nil hnext) ?_
    exact fun decls rest hdecls hrest => .expect hrest fun next =>
      .some (Node.laid hc.line trivial hdecls)
  · exact ih.branch hc
  · exact ih.loop hc
  · refine .advance hc fun next hnext => ?_
    split
    · exact .advance hnext fun rest => .some (Node.laid hc.line trivial each_none)
    · refine .bind (ih.expression hnext) fun e rest he hrest => .expect hrest fun next => ?_
      exact .some (Node.laid hc.line trivial he.some)
  · exact .bind (ih.block hc) fun b rest hb hrest => .some hb hrest
  · refine .bind (ih.expression hc) fun e rest he hrest => ?_
    exact .expect hrest fun next => .some (ofExpr_laid he hc.line)

theorem declarators_succ {done : List Declarator}
    (hdone : AllLaid text first done) (hc : c.Within first text) :
    Reads first text (Script.declarators (fuel + 1) done c) := by
  rw [Script.declarators]
  split
  next x _ =>
    refine .advance hc fun next hnext => ?_
    extract_lets more
    have hmore {init : Option Expr} (hinit : AllLaid text first init) {rest : Cursor}
        (hrest : rest.Within first text) : Reads first text (more (init, rest)) := by
      have hall : AllLaid text first (Declarator.mk x init :: done) := each_cons.2 ⟨hinit, hdone⟩
      simp only [more]
      split
      · exact .advance hrest fun next => ih.declarators hall
      · exact .some hall.reverse hrest
    split
    · refine .advance hnext fun next hnext => .bind (ih.expression hnext) ?_
      exact fun e rest he => hmore he.some
    · exact hmore each_none hnext
  · exact .none

theorem branch_succ (hc : c.Within first text) : Reads first text (Script.branch (fuel + 1) c) := by
  refine .from_here hc fun hc => ?_
  rw [Script.branch]
  refine .advance hc fun next hnext => .expect hnext fun next hnext => ?_
  refine .bind (ih.expression hnext) fun condition rest hcondition hrest => ?_
  refine .expect hrest fun next hnext => .bind (ih.block hnext) fun body rest hbody hrest => ?_
  have hnode {other : Option Stmt} (hother : AllLaid text c.line other) :
      AllLaid text c.line (Stmt.branch condition body other c.line) :=
    Node.laid hc.line trivial
      (List.forall_mem_append.2 ⟨hcondition, List.forall_mem_append.2 ⟨hbody, hother⟩⟩)
  dsimp only
  split
  · refine .advance hrest fun next hnext => ?_
    split
    · exact .bind (ih.branch hnext) fun other rest h => .some (hnode h.some)
    · refine .bind (ih.block hnext) fun other rest h => .some (hnode (Each.some ?_))
      exact h
  · exact .some (hnode each_none) hrest

theorem loop_succ (hc : c.Within first text) : Reads first text (Script.loop (fuel + 1) c) := by
  refine .from_here hc fun hc => ?_
  rw [Script.loop]
  refine .advance hc fun next hnext => .expect hnext fun next hnext => ?_
  extract_lets rest
  have hrest {init : LoopInit} (hinit : AllLaid text c.line init) {next : Cursor}
      (hnext : next.Within c.line text) : Reads c.line text (rest (init, next)) := by
    refine .expect hnext fun next hnext => .bind (ih.optionalExpression _ hnext) ?_
    refine fun condition next hcondition hnext => .expect hnext fun next hnext => ?_
    refine .bind (ih.optionalExpression _ hnext) fun update next hupdate hnext => ?_
    refine .expect hnext fun next hnext => .bind (ih.block hnext) fun body rest hbody => ?_
    exact .some (Node.laid hc.line trivial (List.forall_mem_append.2 ⟨hinit,
      List.forall_mem_append.2 ⟨hcondition, List.forall_mem_append.2 ⟨hupdate, hbody⟩⟩⟩))
  split
  · exact hrest (by simp [Each, nodes]) hnext
  next kind _ =>
    refine .of_value fun next' hnext' => ?_
    have hdecls := ih.declarators each_nil (hnext.here.advance hnext')
    refine .bind (ReadsIn.lower hdecls hnext.start fun _ => id) fun decls rest hdecls => ?_
    have hinit : AllLaid text next.line (LoopInit.declare kind decls next.line) :=
      Node.laid hnext.line trivial hdecls
    exact hrest (hinit.mono hnext.start)
  · exact .bind (ih.expression hnext) fun e rest he => hrest he

theorem optionalExpression_succ (closer : Mark) (hc : c.Within first text) :
    Reads first text (Script.optionalExpression (fuel + 1) closer c) := by
  rw [Script.optionalExpression]
  split
  · exact .some each_none hc
  · exact .bind (ih.expression hc) fun e rest he => .some he.some

/-- With more fuel, the readers do what they do because the others do it with less. -/
theorem succ : Readers text (fuel + 1) where
  expression := ih.expression_succ
  arrowBody := ih.arrowBody_succ
  binary := ih.binary_succ
  binaryRest := ih.binaryRest_succ
  unary := ih.unary_succ
  operand := ih.operand_succ
  variableRest := ih.variableRest_succ
  operandRest := ih.operandRest_succ
  arguments := ih.arguments_succ
  argumentsRest := ih.argumentsRest_succ
  functionRest := ih.functionRest_succ
  templateSpans := ih.templateSpans_succ
  block := ih.block_succ
  statements := ih.statements_succ
  statement := ih.statement_succ
  declarators := ih.declarators_succ
  branch := ih.branch_succ
  loop := ih.loop_succ
  optionalExpression := ih.optionalExpression_succ

end

theorem all (text : List Char) : ∀ fuel, Readers text fuel
  | 0 => zero
  | fuel + 1 => (all text fuel).succ

end Readers

/-! ## Programs -/

theorem lineBreaks_prepare (source : List Char) :
    lineBreaks (Source.prepare source) = lineBreaks source := by
  obtain ⟨due, hout, -⟩ := Source.behind_eq_terminated [] [] none (Source.blankComments source)
  rw [Source.prepare_eq_behind, hout, Source.lineBreaks_terminated,
    lineBreaks_of_blanked (Source.blankComments_blanked source)]

/-- The number of lines of a source. -/
def lineCount (source : String) : Nat := 1 + lineBreaks source.toList

theorem lastLine_prepare (source : String) :
    lastLine (Source.prepare source.toList) = lineCount source :=
  congrArg (1 + ·) (lineBreaks_prepare source.toList)

theorem parse?_laid (h : parse? source = some program) :
    AllLaid (Source.prepare source.toList) 1 program.body := by
  obtain ⟨c, hc, h⟩ := Option.bind_eq_some_iff.1 h
  obtain ⟨⟨stmts, rest⟩, hstmts, h⟩ := Option.bind_eq_some_iff.1 h
  have hwithin := Place.next_within (Nat.le_refl 1) (Nat.le_refl 1) (Nat.le_refl _) List.infix_rfl hc
  obtain ⟨hlaid, -⟩ := (Readers.all _ _).statements each_nil hwithin stmts rest hstmts
  dsimp only at h
  split at h
  · cases h
    exact hlaid
  · cases h

theorem parse?_lines (h : parse? source = some program) :
    LinesIn (IsLine (lineCount source)) program.body :=
  fun n hn => (parse?_laid h n hn).2.imp fun _ hn => lastLine_prepare source ▸ hn.line

/-- The nodes of a program: its statements, and the nodes below them. -/
inductive Program.HasNode (program : Program) : Node → Prop
  | stmt {s : Stmt} (hs : s ∈ program.body) : HasNode program (.stmt s)
  | child {n m : Node} (hn : HasNode program n) (hm : m ∈ n.children) : HasNode program m

theorem Program.HasNode.isLaid (hn : program.HasNode n) (h : parse? source = some program) :
    n.IsLaid (Source.prepare source.toList) := by
  have hall : n.All (Node.IsLaid (Source.prepare source.toList)) := by
    induction hn with
    | stmt hs => exact (each_list.1 (parse?_laid h) _ hs _ List.mem_cons_self).2
    | child _ hm ih =>
      obtain ⟨_, below⟩ := ih
      exact below _ hm
  obtain ⟨here, _⟩ := hall
  exact here

/-- Every node of a program is on a line of its source, and no node is on a line before the one that
    it is directly below.  Only templates make an exception: the lines of the expressions in one are
    counted from one. -/
theorem node_lines_follow_source {source : String} {program : Program} {n : Node}
    (h : parse? source = some program) (hn : program.HasNode n) :
    IsLine (lineCount source) n.line ∧
    (n.isTemplate = false → ∀ m ∈ n.children, n.line ≤ m.line) :=
  ⟨lastLine_prepare source ▸ (hn.isLaid h).line, (hn.isLaid h).order⟩

/-- An argument on a later line than its call. -/
theorem node_lines_follow_source_call :
    let n : Node := .expr (.call (.ident "f" 1) [.ident "a" 2] 1)
    IsLine (lineCount "f(\na)") n.line ∧
    (n.isTemplate = false → ∀ m ∈ n.children, n.line ≤ m.line) := by
  have hparse : parse? "f(\na)" = some ⟨[.expr (.call (.ident "f" 1) [.ident "a" 2] 1) 1]⟩ := by
    with_unfolding_all rfl
  exact node_lines_follow_source hparse (.child (.stmt List.mem_cons_self) List.mem_cons_self)

/-- The expression in a template on the second line is on the first one. -/
theorem template_restarts_lines :
    ∃ program n m, parse? "\n`$\x7ba\x7d`" = some program ∧ program.HasNode n ∧
      m ∈ n.children ∧ m.line < n.line := by
  refine ⟨⟨[.expr (.template [.mk "" (.ident "a" 1)] "" 2) 2]⟩, _, _, ?_,
    .child (.stmt List.mem_cons_self) List.mem_cons_self, List.mem_cons_self, by decide⟩
  with_unfolding_all rfl

/-- The parameters of every function of a program are identifiers, and its head stands in the source
    that is prepared for the reader: between its parentheses there are these names with single
    commas, and nothing else but space.  Only the parameters of an arrow may be anything else that
    stands between commas in parentheses. -/
theorem parameters_are_identifiers {source : String} {program : Program} {n : Node}
    (h : parse? source = some program) (hn : program.HasNode n) :
    n.ParamsRead (Source.prepare source.toList) :=
  (hn.isLaid h).params

theorem parameters_are_identifiers_declared :
    (Node.stmt (.function "f" ["a", "b"] (.mk [] 1) false 1)).ParamsRead
      (Source.prepare "function f(a, b) \x7b\x7d".toList) := by
  have hparse : parse? "function f(a, b) \x7b\x7d" =
      some ⟨[.function "f" ["a", "b"] (.mk [] 1) false 1]⟩ := by
    with_unfolding_all rfl
  exact parameters_are_identifiers hparse (.stmt List.mem_cons_self)

/-- A number is taken for a parameter of an arrow. -/
theorem arrow_takes_number_for_parameter :
    ∃ program params body, parse? "(1) => 2" = some program ∧
      program.HasNode (.expr (.function params body none true false 1)) ∧
      ∃ p ∈ params, isIdentifier p = false := by
  refine ⟨⟨[.expr (.function ["1"] (.value (.literal (.number (.int 2)) 1)) none true false 1) 1]⟩,
    _, _, ?_, .child (.stmt List.mem_cons_self) List.mem_cons_self, "1", List.mem_cons_self, rfl⟩
  with_unfolding_all rfl

end EventLoop.Script
