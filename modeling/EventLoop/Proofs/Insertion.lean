/-
  Preparing a source blanks its comments and inserts terminators, and does nothing else.

  `terminated due` is a text with a terminator at each place that is due.  The output of the pass is
  of this form, and the places are boundaries: before a newline or a closing brace or at the end,
  outside of quoted texts, and not directly in parentheses or brackets.  So every character stays on
  its line.

  A line that is complete, with quotes and brackets of its own only, may have its terminator written
  or not.  The two passes write the same for the line itself, and then the one inserts what the
  other one reads.
-/
import EventLoop.Proofs.Preparation
import EventLoop.Script.Parser

namespace EventLoop.Script

/-! ## Line breaks -/

theorem lineBreaks_append (cs ds : List Char) :
    lineBreaks (cs ++ ds) = lineBreaks cs + lineBreaks ds :=
  List.count_append

theorem lineBreaks_cons (c : Char) (cs : List Char) :
    lineBreaks (c :: cs) = lineBreaks [c] + lineBreaks cs :=
  lineBreaks_append [c] cs

theorem lineBreaks_cons_of_ne {c : Char} (h : c ≠ '\n') (cs : List Char) :
    lineBreaks (c :: cs) = lineBreaks cs :=
  List.count_cons_of_ne h

theorem lineBreaks_of_blanked {cs out : List Char} (h : List.Forall₂ Source.BlankedTo cs out) :
    lineBreaks out = lineBreaks cs := by
  induction h with
  | nil => rfl
  | @cons c d cs out hd _ ih =>
    rcases hd with rfl | ⟨hc, rfl⟩
    · rw [lineBreaks_cons, ih, ← lineBreaks_cons]
    · rw [lineBreaks_cons_of_ne (by decide), lineBreaks_cons_of_ne hc, ih]

end EventLoop.Script

namespace EventLoop.Source

open Script (lineBreaks lineBreaks_cons lineBreaks_cons_of_ne lineBreaks_of_blanked parse?)

/-! ## Places of terminators -/

/-- A text with a terminator at each place that is due.  A place is given by the number of
    characters before it. -/
def terminated (due : Nat → Bool) : List Char → List Char
  | [] => if due 0 then [';'] else []
  | c :: cs => (if due 0 then [';'] else []) ++ c :: terminated (fun i => due (i + 1)) cs

/-- The places of a text with one more character in front. -/
def shifted (first : Bool) (due : Nat → Bool) : Nat → Bool
  | 0 => first
  | i + 1 => due i

theorem terminated_append_cons (due : Nat → Bool) (before : List Char) (c : Char)
    (rest : List Char) :
    ∃ rest', terminated due (before ++ c :: rest) = terminated due before ++ c :: rest' := by
  induction before generalizing due with
  | nil => exact ⟨_, rfl⟩
  | cons b before ih =>
    obtain ⟨rest', hrest⟩ := ih fun i => due (i + 1)
    exact ⟨rest', by simp [terminated, hrest]⟩

theorem lineBreaks_terminated (due : Nat → Bool) (cs : List Char) :
    lineBreaks (terminated due cs) = lineBreaks cs := by
  induction cs generalizing due with
  | nil =>
    rw [terminated]
    split <;> rfl
  | cons c cs ih =>
    rw [terminated, lineBreaks_cons c cs, ← ih fun i => due (i + 1), ← lineBreaks_cons]
    split
    · exact lineBreaks_cons_of_ne (by decide) _
    · rfl

/-- The brackets that are open behind a text, innermost first, and the quoted text. -/
def openBehind (brackets : List Char) (quoted : Option (Char × Bool)) :
    List Char → List Char × Option (Char × Bool)
  | [] => (brackets, quoted)
  | c :: cs => openBehind (bracketsAfter brackets quoted c) (quotedAfter quoted c) cs

/-- A place where a statement may end: directly before a newline or a closing brace or at the end,
    in no quoted text, and with no parenthesis or bracket as the innermost that is open. -/
def IsBoundary (brackets : List Char) (quoted : Option (Char × Bool)) (cs : List Char) (i : Nat) :
    Prop :=
  (i = cs.length ∨ cs[i]? = some '\n' ∨ cs[i]? = some '\x7d') ∧
    (openBehind brackets quoted (cs.take i)).2 = none ∧
    (openBehind brackets quoted (cs.take i)).1.head? ≠ some '(' ∧
    (openBehind brackets quoted (cs.take i)).1.head? ≠ some '['

theorem isBoundary_of_endsBefore {done brackets rest : List Char} {quoted : Option (Char × Bool)}
    {c : Char} (h : endsBefore done brackets quoted c rest = true) :
    IsBoundary brackets quoted (c :: rest) 0 := by
  obtain ⟨rfl, hc⟩ := endsBefore_cases h
  refine ⟨.inr (hc.symm.imp (congrArg some) (congrArg some)), rfl, ?_⟩
  simp only [endsBefore, inBlock, List.isEmpty_iff, Bool.and_eq_true, Bool.or_eq_true,
    decide_eq_true_eq] at h
  rcases h.2 with ⟨_, hbrace, _⟩ | ⟨_, rfl | hbrace, _⟩
  · simp [openBehind, hbrace]
  · simp [openBehind]
  · simp [openBehind, hbrace]

/-- What is written for a text is that text with terminators at boundaries. -/
theorem behind_eq_terminated (done brackets : List Char) (quoted : Option (Char × Bool))
    (cs : List Char) : ∃ due, behind done brackets quoted cs = terminated due cs ∧
      ∀ i, due i = true → IsBoundary brackets quoted cs i := by
  induction cs generalizing done brackets quoted with
  | nil =>
    refine ⟨shifted (quoted.isNone && brackets.isEmpty && needsTerminator done []) fun _ => false,
      rfl, fun i hi => ?_⟩
    cases i with
    | zero =>
      simp only [shifted, Bool.and_eq_true, Option.isNone_iff_eq_none, List.isEmpty_iff] at hi
      obtain ⟨⟨rfl, rfl⟩, _⟩ := hi
      exact ⟨.inl rfl, rfl, by simp [openBehind], by simp [openBehind]⟩
    | succ i => cases hi
  | cons c rest ih =>
    obtain ⟨due, hout, hdue⟩ :=
      ih (c :: ((if endsBefore done brackets quoted c rest then [';'] else []) ++ done))
        (bracketsAfter brackets quoted c) (quotedAfter quoted c)
    refine ⟨shifted (endsBefore done brackets quoted c rest) due, ?_, fun i hi => ?_⟩
    · rw [behind, hout]
      rfl
    · cases i with
      | zero => exact isBoundary_of_endsBefore hi
      | succ i => simpa [IsBoundary, openBehind] using hdue i hi

theorem prepare_eq_behind (source : List Char) :
    prepare source = behind [] [] none (blankComments source) :=
  terminateFrom_eq [] [] none _

/-- Blanking keeps the length of a source and its newlines, and every other character of it or
    writes a space in its place.  Then some terminators are inserted, each of them at a boundary, so
    every character stays on its line. -/
theorem preparation_blanks_and_inserts (source : List Char) :
    (blankComments source).length = source.length ∧
    (∀ (i : Nat) (c : Char), source[i]? = some c →
      (blankComments source)[i]? = some c ∨ c ≠ '\n' ∧ (blankComments source)[i]? = some ' ') ∧
    ∃ due, prepare source = terminated due (blankComments source) ∧
      (∀ i, due i = true → IsBoundary [] none (blankComments source) i) ∧
      ∀ before c rest, blankComments source = before ++ c :: rest →
        ∃ rest', prepare source = terminated due before ++ c :: rest' ∧
          lineBreaks (terminated due before) = lineBreaks (source.take before.length) := by
  have hchars := blankComments_blanked source
  obtain ⟨due, hout, hdue⟩ := behind_eq_terminated [] [] none (blankComments source)
  refine ⟨hchars.length_eq.symm, fun i c hc => ?_, due, (prepare_eq_behind source).trans hout, hdue,
    fun before c rest hsplit => ?_⟩
  · obtain ⟨hi, rfl⟩ := List.getElem?_eq_some_iff.1 hc
    have hi' : i < (blankComments source).length := hchars.length_eq ▸ hi
    rw [List.getElem?_eq_getElem hi']
    exact (hchars.get hi hi').imp (congrArg some) fun h => ⟨h.1, congrArg some h.2⟩
  · obtain ⟨rest', hrest⟩ := terminated_append_cons due before c rest
    refine ⟨rest', ?_, ?_⟩
    · rw [prepare_eq_behind, hout, hsplit, hrest]
    · have hbefore := List.forall₂_take before.length hchars
      rw [hsplit, List.take_left] at hbefore
      rw [lineBreaks_terminated, lineBreaks_of_blanked hbefore]

/-! ## Complete lines -/

/-- A closing bracket closes the innermost open one.  All other characters fit. -/
def fits (brackets : List Char) (c : Char) : Bool :=
  if c = ')' then brackets.head? = some '('
  else if c = ']' then brackets.head? = some '['
  else if c = '\x7d' then brackets.head? = some '\x7b'
  else true

/-- Whether the brackets of a text are well nested and its quotes closed, behind those that are open
    before it. -/
def closes (brackets : List Char) (quoted : Option (Char × Bool)) : List Char → Bool
  | [] => brackets.isEmpty && quoted.isNone
  | c :: cs => (quoted.isSome || fits brackets c) &&
      closes (bracketsAfter brackets quoted c) (quotedAfter quoted c) cs

/-- A line without comments that opens and closes its own quotes and brackets, and whose last
    character asks for no more, or completes a double sign. -/
structure IsComplete (line : List Char) : Prop where
  single : '\n' ∉ line
  uncommented : blankComments line = line
  closed : closes [] none line = true
  ends : ∃ before last blanks, line = before ++ last :: blanks ∧ isLayout last = false ∧
    (∀ c ∈ blanks, isLayout c = true) ∧
    (last ∉ continuationChars ∨ (last = '+' ∨ last = '-') ∧ before.getLast? = some last)

/-- A line that does not start by continuing the one before it. -/
def StartsAnew (line : List Char) : Prop :=
  ∃ blanks first rest, line = blanks ++ first :: rest ∧ isLayout first = false ∧
    (∀ c ∈ blanks, isLayout c = true) ∧
    ((first = '+' ∨ first = '-') ∧ rest.head? = some first ∨
      first ∉ leadingContinuationChars ∧ first ≠ '+' ∧ first ≠ '-' ∧ first ≠ '\x7b' ∧
        startsWithElse (first :: rest) = false)

/-- Lines of a source. -/
def joined (lines : List (List Char)) : List Char := ['\n'].intercalate lines

theorem joined_cons (line : List Char) (lines : List (List Char)) :
    joined (line :: lines) = line ++ (if lines.isEmpty then [] else '\n' :: joined lines) := by
  cases lines <;> simp [joined, List.intercalate, List.intersperse]

/-- Behind a text that closes what it opens, a comment opens only if one does in what follows. -/
theorem uncommented_append {cs rest brackets : List Char} {quoted : Option (Char × Bool)}
    (h : Uncommented (Region.ofQuoted quoted) cs) (hclosed : closes brackets quoted cs = true)
    (hrest : Uncommented .code rest) (hhead : opensComment '/' rest.head? = false) :
    Uncommented (Region.ofQuoted quoted) (cs ++ rest) := by
  induction cs generalizing brackets quoted with
  | nil =>
    simp only [closes, Bool.and_eq_true, Option.isNone_iff_eq_none] at hclosed
    rw [hclosed.2]
    exact hrest
  | cons c cs ih =>
    simp only [closes, Bool.and_eq_true] at hclosed
    have hmore (h : Uncommented ((Region.ofQuoted quoted).after c) cs) :
        Uncommented ((Region.ofQuoted quoted).after c) (cs ++ rest) := by
      rw [Region.after_ofQuoted] at h ⊢
      exact ih h hclosed.2
    cases quoted with
    | none =>
      obtain _ | ⟨hopens, hcs⟩ := h
      refine .code ?_ (hmore hcs)
      -- only the last character can open a comment with what follows
      cases cs with
      | nil =>
        refine opensComment_eq_false.2 ?_
        rintro rfl
        exact opensComment_eq_false.1 hhead rfl
      | cons d cs => exact hopens
    | some q =>
      obtain _ | _ | hcs := h
      exact .quoted (hmore hcs)

/-- What a statement may end with does not depend on what stands before a closing brace. -/
theorem mayEndAfter_append_brace (cs done done' : List Char) :
    mayEndAfter (cs ++ '\x7d' :: done) = mayEndAfter (cs ++ '\x7d' :: done') := by
  induction cs with
  | nil => rfl
  | cons c cs ih =>
    cases hc : isLayout c with
    | true => simpa [mayEndAfter, hc] using ih
    | false => cases cs <;> simp [mayEndAfter, hc]

/-- What is written for a text without newlines does not depend on what follows, and a statement may
    end behind it if one may end behind the text. -/
theorem behind_append {cs brackets : List Char} {quoted : Option (Char × Bool)}
    (hsingle : '\n' ∉ cs) (hclosed : closes brackets quoted cs = true) (done : List Char) :
    ∃ out, (∀ rest, behind done brackets quoted (cs ++ rest) =
        out ++ behind (out.reverse ++ done) [] none rest) ∧
      (mayEndAfter (cs.reverse ++ done) = true → mayEndAfter (out.reverse ++ done) = true) := by
  induction cs generalizing brackets quoted done with
  | nil =>
    simp only [closes, Bool.and_eq_true, List.isEmpty_iff, Option.isNone_iff_eq_none] at hclosed
    rw [hclosed.1, hclosed.2]
    exact ⟨[], fun rest => rfl, id⟩
  | cons c cs ih =>
    obtain ⟨hc, hcs⟩ := not_or.1 (fun h => hsingle (List.mem_cons.2 h))
    simp only [closes, Bool.and_eq_true] at hclosed
    -- what follows matters only before a line break
    have hsame (rest : List Char) :
        endsBefore done brackets quoted c rest = endsBefore done brackets quoted c [] := by
      simp [endsBefore, Ne.symm hc]
    cases hends : endsBefore done brackets quoted c [] with
    | false =>
      obtain ⟨out, hout, hend⟩ := ih hcs hclosed.2 (c :: done)
      refine ⟨c :: out, fun rest => ?_, by simpa using hend⟩
      rw [List.cons_append, behind_cons_of_goes_on ((hsame _).trans hends), hout]
      simp
    | true =>
      obtain ⟨out, hout, hend⟩ := ih hcs hclosed.2 (c :: ';' :: done)
      refine ⟨';' :: c :: out, fun rest => ?_, fun h => ?_⟩
      · rw [List.cons_append, behind_cons_of_ends ((hsame _).trans hends), hout]
        simp
      · -- without line breaks, it is a closing brace
        obtain rfl := (endsBefore_cases hends).2.resolve_right (Ne.symm hc)
        simpa using hend ((mayEndAfter_append_brace _ _ _).trans (by simpa using h))

theorem mayEndAfter_layout {blanks : List Char} (h : ∀ c ∈ blanks, isLayout c = true)
    (done : List Char) : mayEndAfter (blanks ++ done) = mayEndAfter done := by
  rw [mayEndAfter, List.dropWhile_append_of_pos h, mayEndAfter]

theorem IsComplete.mayEndAfter {line : List Char} (h : IsComplete line) (done : List Char) :
    mayEndAfter (line.reverse ++ done) = true := by
  obtain ⟨before, last, blanks, rfl, hlast, hblanks, hend⟩ := h.ends
  rw [List.reverse_append, List.append_assoc, List.reverse_cons, List.append_assoc,
    mayEndAfter_layout (by simpa using hblanks), List.singleton_append, Source.mayEndAfter,
    List.dropWhile_cons_of_neg (by simp [hlast])]
  rcases hend with hend | ⟨hsign, hdouble⟩
  · simp [hend]
  · have hhead : (before.reverse ++ done).head? = some last := by
      rw [List.head?_append, List.head?_reverse, hdouble, Option.some_or]
    simp [hhead, hsign]

theorem startsWithElse_append {cs : List Char} (h : startsWithElse cs = false) (rest : List Char) :
    startsWithElse (cs ++ '\n' :: rest) = false := by
  refine Bool.eq_false_iff.2 fun hword => ?_
  unfold startsWithElse at hword
  split at hword
  next more heq =>
    -- the newline is no letter, so the word ends before it
    rcases cs with _ | ⟨c1, _ | ⟨c2, _ | ⟨c3, _ | ⟨c4, _ | ⟨c5, cs⟩⟩⟩⟩⟩ <;> simp at heq
    · obtain ⟨rfl, rfl, rfl, rfl, -⟩ := heq
      cases h
    · obtain ⟨rfl, rfl, rfl, rfl, rfl⟩ := heq
      exact Bool.false_ne_true (h.symm.trans hword)
  next => cases hword

theorem StartsAnew.mayStartWith {line : List Char} (h : StartsAnew line)
    (lines : List (List Char)) : mayStartWith (joined (line :: lines)) = true := by
  obtain ⟨blanks, first, rest, rfl, hfirst, hblanks, hstart⟩ := h
  rw [joined_cons, List.append_assoc, Source.mayStartWith, List.dropWhile_append_of_pos hblanks,
    ← Source.mayStartWith, List.cons_append, mayStartWith_cons hfirst]
  rcases hstart with ⟨hsign, hdouble⟩ | ⟨hlead, hplus, hminus, hbrace, helse⟩
  · simp [hsign, hdouble]
  · cases lines with
    | nil => simp [hlead, hplus, hminus, hbrace, helse]
    | cons line lines =>
      have helse' := startsWithElse_append helse (joined (line :: lines))
      rw [List.cons_append] at helse'
      simp [hlead, hplus, hminus, hbrace, helse']

/-- The same is written for lines with terminators and without. -/
theorem behind_joined {lines : List (List Char)} (hlines : ∀ line ∈ lines, IsComplete line)
    (hstart : ∀ line ∈ lines.tail, StartsAnew line) (done : List Char) :
    behind done [] none (joined lines) =
      behind done [] none (joined (lines.map (· ++ [';']))) := by
  induction lines generalizing done with
  | nil => rfl
  | cons line lines ih =>
    obtain ⟨hline, hlines⟩ := List.forall_mem_cons.1 hlines
    obtain ⟨out, hout, hend⟩ := behind_append hline.single hline.closed done
    have hend := hend (hline.mayEndAfter done)
    rw [List.map_cons, joined_cons, joined_cons, List.append_assoc, hout, hout,
      List.singleton_append, behind_cons_terminator]
    cases lines with
    | nil =>
      -- the first pass inserts a terminator at the end
      have hlast : mayEndAfter (';' :: (out.reverse ++ done)) = false := rfl
      simp [behind, needsTerminator, hend, hlast, Source.mayStartWith]
    | cons line' lines =>
      have hends :
          endsBefore (out.reverse ++ done) [] none '\n' (joined (line' :: lines)) = true := by
        have hnext := (hstart line' List.mem_cons_self).mayStartWith lines
        simp [endsBefore, inBlock, needsTerminator, hend, hnext]
      have hrest := ih hlines (fun l hl => hstart l (List.mem_cons_of_mem _ hl))
        ('\n' :: ';' :: (out.reverse ++ done))
      simp only [List.isEmpty_cons, List.map_cons, Bool.false_eq_true, if_false] at hrest ⊢
      rw [behind_cons_of_ends hends, behind_cons_of_goes_on endsBefore_of_terminated]
      exact congrArg (fun cs => out ++ ';' :: '\n' :: cs) hrest

theorem uncommented_joined {lines : List (List Char)} {mark : List Char}
    (hmark : mark = [] ∨ mark = [';']) (hlines : ∀ line ∈ lines, IsComplete line) :
    Uncommented .code (joined (lines.map (· ++ mark))) := by
  induction lines with
  | nil => exact .nil _
  | cons line lines ih =>
    obtain ⟨hline, hlines⟩ := List.forall_mem_cons.1 hlines
    have hplain : Uncommented .code line := hline.uncommented ▸ uncommented_blankComments line
    have hbreak : Uncommented .code
        (if (lines.map (· ++ mark)).isEmpty then [] else
          '\n' :: joined (lines.map (· ++ mark))) := by
      split
      · exact .nil _
      · exact .blank (.inr rfl) (ih hlines)
    rw [List.map_cons, joined_cons, List.append_assoc]
    refine @uncommented_append _ _ _ none hplain hline.closed ?_ ?_
    · rcases hmark with rfl | rfl
      · exact hbreak
      · exact .code rfl hbreak
    · rcases hmark with rfl | rfl
      · split <;> rfl
      · rfl

/-- The terminator at the end of a line may be left out. -/
theorem line_terminators_optional (lines : List (List Char))
    (hlines : ∀ line ∈ lines, IsComplete line) (hstart : ∀ line ∈ lines.tail, StartsAnew line) :
    prepare (joined lines) = prepare (joined (lines.map (· ++ [';']))) ∧
    parse? (String.ofList (joined lines)) =
      parse? (String.ofList (joined (lines.map (· ++ [';'])))) := by
  have hplain : Uncommented .code (joined lines) := by
    simpa using uncommented_joined (.inl rfl) hlines
  have hsame : prepare (joined lines) = prepare (joined (lines.map (· ++ [';']))) := by
    rw [prepare_eq_behind, prepare_eq_behind, hplain.blankComments_eq,
      (uncommented_joined (.inr rfl) hlines).blankComments_eq, behind_joined hlines hstart]
  refine ⟨hsame, ?_⟩
  rw [parse?, parse?, String.toList_ofList, String.toList_ofList, hsame]

/-- A line that ends in a double sign, one with a parenthesis in quotes, and one that starts with a
    double sign. -/
theorem line_terminators_optional_signs :
    let lines := [['i', '+', '+', ' '], ['f', '(', '\'', ')', '\'', ')'], ['-', '-', 'i']]
    prepare (joined lines) = prepare (joined (lines.map (· ++ [';']))) ∧
    parse? (String.ofList (joined lines)) =
      parse? (String.ofList (joined (lines.map (· ++ [';'])))) := by
  refine line_terminators_optional _ (List.forall_mem_cons.2 ⟨?_, List.forall_mem_cons.2
    ⟨?_, List.forall_mem_singleton.2 ?_⟩⟩) (List.forall_mem_cons.2 ⟨?_,
      List.forall_mem_singleton.2 ?_⟩)
  · exact ⟨by decide, rfl, rfl, ['i', '+'], '+', [' '], rfl, rfl, List.forall_mem_singleton.2 rfl,
      .inr ⟨.inl rfl, rfl⟩⟩
  · exact ⟨by decide, rfl, rfl, ['f', '(', '\'', ')', '\''], ')', [], rfl, rfl,
      List.forall_mem_nil _, .inl (by decide)⟩
  · exact ⟨by decide, rfl, rfl, ['-', '-'], 'i', [], rfl, rfl, List.forall_mem_nil _,
      .inl (by decide)⟩
  · exact ⟨[], 'f', ['(', '\'', ')', '\'', ')'], rfl, rfl, List.forall_mem_nil _,
      .inr (by decide)⟩
  · exact ⟨[], '-', ['-', 'i'], rfl, rfl, List.forall_mem_nil _, .inl ⟨.inr rfl, rfl⟩⟩

end EventLoop.Source
