/-
  Preparing a source a second time changes nothing.

  Both passes over a source know more than the character before them: whether it stands in a quoted
  text or a comment, which brackets are open, and what was written last.  So that a second pass
  changes nothing means that it is in the same state at every character.

  A source is `Uncommented` if no comment opens in it outside of quoted texts.  Blanking gives such
  a source, blanking leaves it alone, and terminators do not spoil it.  For terminators, `behind` is
  what is written behind a given part of the output.  Behind a terminator that was written, none is
  due, and one that was not due before does not become due: what comes next starts in the same way
  (`mayStartWith_behind`).
-/
import Mathlib.Data.List.Forall2
import EventLoop.Source.Terminator

namespace EventLoop.Source

variable {c : Char} {cs : List Char}

/-! ## Sources without comments -/

/-- Whether a character outside of quoted texts opens a comment together with the next one. -/
def opensComment (c : Char) (next : Option Char) : Bool :=
  c = '/' && (next = some '/' || next = some '*')

namespace Region

/-- Where the next character stands, in a source without comments. -/
def after : Region → Char → Region
  | .code, c => if isQuote c then .quoted c false else .code
  | .quoted quote escaped, c =>
    match quoteStep quote escaped c with
    | some next => .quoted quote next
    | none => .code
  | r, _ => r

/-- Where a character stands once the comments are blanked. -/
def blanked : Region → Region
  | .quoted quote escaped => .quoted quote escaped
  | .code | .lineComment | .blockComment => .code

end Region

/-- No comment opens in the rest of a source. -/
inductive Uncommented : Region → List Char → Prop
  | nil (r : Region) : Uncommented r []
  | code {c : Char} {rest : List Char} (hopens : opensComment c rest.head? = false)
      (h : Uncommented (Region.code.after c) rest) : Uncommented .code (c :: rest)
  | quoted {quote : Char} {escaped : Bool} {c : Char} {rest : List Char}
      (h : Uncommented ((Region.quoted quote escaped).after c) rest) :
      Uncommented (.quoted quote escaped) (c :: rest)

theorem opensComment_eq_false {next : Option Char} :
    opensComment c next = false ↔ (c = '/' → next ≠ some '/' ∧ next ≠ some '*') := by
  simp [opensComment]

/-- Outside of quoted texts and comments, what opens no comment is written as it is. -/
theorem blankFrom_code_cons (done : List Char) {rest : List Char}
    (h : opensComment c rest.head? = false) :
    blankFrom done .code (c :: rest) = blankFrom (c :: done) (Region.code.after c) rest := by
  have hopens := opensComment_eq_false.1 h
  have hline : ∀ more, c = '/' → rest = '/' :: more → False := by
    rintro more hc rfl
    exact (hopens hc).1 rfl
  have hblock : ∀ more, c = '/' → rest = '*' :: more → False := by
    rintro more hc rfl
    exact (hopens hc).2 rfl
  rw [blankFrom.eq_8 _ _ _ hline hblock, Region.after]
  split <;> rfl

namespace Uncommented

theorem blank (hc : c = ' ' ∨ c = '\n') (h : Uncommented .code cs) :
    Uncommented .code (c :: cs) := by
  rcases hc with rfl | rfl <;> exact .code rfl h

theorem blankFrom_eq {r : Region} (h : Uncommented r cs) (done : List Char) :
    blankFrom done r cs = done.reverse ++ cs := by
  induction h generalizing done with
  | nil r => simp [blankFrom]
  | code hopens _ ih =>
    rw [blankFrom_code_cons done hopens, ih, List.reverse_cons, List.append_assoc]
    rfl
  | @quoted quote escaped c rest _ ih =>
    rw [Region.after] at ih
    rw [blankFrom]
    cases hstep : quoteStep quote escaped c <;> simp_all

end Uncommented

/-- What blanking may make of a character: it stays, or becomes a space if it is no newline. -/
def BlankedTo (c d : Char) : Prop := d = c ∨ c ≠ '\n' ∧ d = ' '

/-- Blanking writes a source without comments, character by character, behind what was written
    before.  Outside of quoted texts and comments, the first character of it is a blank or that of
    the source. -/
theorem blankFrom_cases (done : List Char) (r : Region) (cs : List Char) :
    ∃ out, blankFrom done r cs = done.reverse ++ out ∧ List.Forall₂ BlankedTo cs out ∧
      Uncommented r.blanked out ∧
      (r = .code → ∀ c, out.head? = some c → c = ' ' ∨ cs.head? = some c) := by
  have hspace {c : Char} (hc : c ≠ '\n') : BlankedTo c ' ' := .inr ⟨hc, rfl⟩
  fun_induction blankFrom done r cs with
  | case1 done r => exact ⟨[], by simp, .nil, .nil _, by simp⟩
  -- two characters that open or close a comment
  | case2 done rest ih | case8 done rest ih | case9 done rest ih =>
    obtain ⟨out, hout, hchars, hfree, _⟩ := ih
    exact ⟨' ' :: ' ' :: out, by simpa using hout,
      .cons (hspace (by decide)) (.cons (hspace (by decide)) hchars),
      .blank (.inl rfl) (.blank (.inl rfl) hfree), by simp⟩
  -- inside a comment: line breaks stay
  | case3 done c rest _ ih =>
    obtain ⟨out, hout, hchars, hfree, _⟩ := ih
    refine ⟨(if c = '\n' then c else ' ') :: out, by simpa using hout, .cons ?_ hchars,
      .blank ?_ hfree, by simp⟩
    · by_cases hc : c = '\n' <;> simp [BlankedTo, hc]
    · by_cases hc : c = '\n' <;> simp [hc]
  | case4 done rest ih =>
    obtain ⟨out, hout, hchars, hfree, _⟩ := ih
    exact ⟨'\n' :: out, by simpa using hout, .cons (.inl rfl) hchars, .blank (.inr rfl) hfree,
      by simp⟩
  | case5 done c rest hc ih =>
    obtain ⟨out, hout, hchars, hfree, _⟩ := ih
    exact ⟨' ' :: out, by simpa using hout, .cons (hspace hc) hchars, .blank (.inl rfl) hfree,
      by simp⟩
  -- inside a quoted text
  | case6 done quote escaped c rest next hstep ih
  | case7 done quote escaped c rest hstep ih =>
    obtain ⟨out, hout, hchars, hfree, _⟩ := ih
    refine ⟨c :: out, by simpa using hout, .cons (.inl rfl) hchars, .quoted ?_, by simp⟩
    simpa [Region.after, Region.blanked, hstep] using hfree
  | case10 done c rest _ _ hquote ih =>
    obtain ⟨out, hout, hchars, hfree, _⟩ := ih
    refine ⟨c :: out, by simpa using hout, .cons (.inl rfl) hchars, .code ?_ ?_, by simp⟩
    · refine opensComment_eq_false.2 ?_
      rintro rfl
      cases hquote
    · simpa [Region.after, Region.blanked, hquote] using hfree
  | case11 done c rest hline hblock hquote ih =>
    obtain ⟨out, hout, hchars, hfree, hhead⟩ := ih
    refine ⟨c :: out, by simpa using hout, .cons (.inl rfl) hchars, .code ?_ ?_, by simp⟩
    · -- a blank that stands for a comment does not open one behind a slash
      refine opensComment_eq_false.2 fun hc => ?_
      have hnext (d : Char) (hd : d ≠ ' ') (hrest : ∀ more, c = '/' → rest = d :: more → False) :
          out.head? ≠ some d := by
        intro hfirst
        obtain ⟨more, rfl⟩ := List.head?_eq_some_iff.1 ((hhead rfl d hfirst).resolve_left hd)
        exact hrest more hc rfl
      exact ⟨hnext '/' (by decide) hline, hnext '*' (by decide) hblock⟩
    · simpa [Region.after, Region.blanked, hquote] using hfree

theorem blankComments_blanked (source : List Char) :
    List.Forall₂ BlankedTo source (blankComments source) := by
  obtain ⟨out, hout, hchars, _⟩ := blankFrom_cases [] .code source
  rw [blankComments, hout]
  exact hchars

theorem uncommented_blankComments (source : List Char) :
    Uncommented .code (blankComments source) := by
  obtain ⟨out, hout, -, hfree, _⟩ := blankFrom_cases [] .code source
  rw [blankComments, hout]
  exact hfree

theorem Uncommented.blankComments_eq {source : List Char} (h : Uncommented .code source) :
    blankComments source = source := h.blankFrom_eq []

/-! ## What is written behind a part of the output -/

/-- Whether a terminator is written before a character, given what was written so far and what comes
    behind it. -/
def endsBefore (done brackets : List Char) (quoted : Option (Char × Bool)) (c : Char)
    (rest : List Char) : Bool :=
  quoted.isNone &&
    ((c = '\x7d' && (brackets.head? = some '\x7b' && openBeforeBrace done)) ||
      (c = '\n' && (inBlock brackets && needsTerminator done rest)))

/-- The brackets that are open behind a character. -/
def bracketsAfter (brackets : List Char) (quoted : Option (Char × Bool)) (c : Char) : List Char :=
  if quoted.isSome then brackets
  else if c = '(' || c = '[' || c = '\x7b' then c :: brackets
  else if c = ')' || c = ']' || c = '\x7d' then brackets.tail
  else brackets

/-- The quoted text that is open behind a character. -/
def quotedAfter (quoted : Option (Char × Bool)) (c : Char) : Option (Char × Bool) :=
  match quoted with
  | some (quote, escaped) => (quoteStep quote escaped c).map (quote, ·)
  | none => if isQuote c then some (c, false) else none

/-- What is written for the rest of a source behind `done`, which is given last character first. -/
def behind (done brackets : List Char) (quoted : Option (Char × Bool)) : List Char → List Char
  | [] => if quoted.isNone && brackets.isEmpty && needsTerminator done [] then [';'] else []
  | c :: rest =>
    let mark := if endsBefore done brackets quoted c rest then [';'] else []
    mark ++ c :: behind (c :: (mark ++ done)) (bracketsAfter brackets quoted c)
      (quotedAfter quoted c) rest

theorem terminateFrom_cons (done brackets : List Char) (quoted : Option (Char × Bool)) (c : Char)
    (rest : List Char) : terminateFrom done brackets quoted (c :: rest) =
      terminateFrom (c :: ((if endsBefore done brackets quoted c rest then [';'] else []) ++ done))
        (bracketsAfter brackets quoted c) (quotedAfter quoted c) rest := by
  cases quoted with
  | some q => simp [terminateFrom, endsBefore, bracketsAfter, quotedAfter]
  | none =>
    by_cases hquote : isQuote c = true
    · have hc : c = '\'' ∨ c = '"' ∨ c = '\x60' := by
        simpa [isQuote, or_assoc] using hquote
      rcases hc with rfl | rfl | rfl <;> rfl
    · by_cases hopen : c = '(' ∨ c = '[' ∨ c = '\x7b'
      · rcases hopen with rfl | rfl | rfl <;> rfl
      · by_cases hclose : c = ')' ∨ c = ']'
        · rcases hclose with rfl | rfl <;> rfl
        · by_cases hbrace : c = '\x7d'
          · subst hbrace
            simp [terminateFrom, endsBefore, bracketsAfter, quotedAfter, isQuote]
            split <;> simp
          · by_cases hline : c = '\n'
            · subst hline
              simp [terminateFrom, endsBefore, bracketsAfter, quotedAfter, isQuote]
              split <;> simp
            · simp only [not_or] at hopen hclose
              simp [terminateFrom, endsBefore, bracketsAfter, quotedAfter, hquote, hopen, hclose,
                hbrace, hline]

theorem terminateFrom_eq (done brackets : List Char) (quoted : Option (Char × Bool))
    (cs : List Char) :
    terminateFrom done brackets quoted cs = done.reverse ++ behind done brackets quoted cs := by
  induction cs generalizing done brackets quoted with
  | nil =>
    simp only [terminateFrom, behind]
    split <;> simp
  | cons c rest ih =>
    rw [terminateFrom_cons, ih, behind]
    split <;> simp

section

variable {done brackets rest : List Char} {quoted : Option (Char × Bool)} {c : Char}

theorem behind_cons_of_ends (h : endsBefore done brackets quoted c rest = true) :
    behind done brackets quoted (c :: rest) =
      ';' :: c :: behind (c :: ';' :: done) (bracketsAfter brackets quoted c)
        (quotedAfter quoted c) rest := by
  rw [behind, h]
  rfl

theorem behind_cons_of_goes_on (h : endsBefore done brackets quoted c rest = false) :
    behind done brackets quoted (c :: rest) =
      c :: behind (c :: done) (bracketsAfter brackets quoted c) (quotedAfter quoted c) rest := by
  rw [behind, h]
  rfl

/-- A terminator is written only before a newline or a closing brace outside of quoted texts. -/
theorem endsBefore_cases (h : endsBefore done brackets quoted c rest = true) :
    quoted = none ∧ (c = '\x7d' ∨ c = '\n') := by
  simp only [endsBefore, Bool.and_eq_true, Bool.or_eq_true, decide_eq_true_eq,
    Option.isNone_iff_eq_none] at h
  exact ⟨h.1, h.2.imp And.left And.left⟩

theorem endsBefore_of_terminated : endsBefore (';' :: done) brackets quoted c rest = false := by
  have hbrace : openBeforeBrace (';' :: done) = false := rfl
  have hend : needsTerminator (';' :: done) rest = false := rfl
  simp [endsBefore, hbrace, hend]

theorem behind_cons_terminator :
    behind done brackets none (';' :: rest) = ';' :: behind (';' :: done) brackets none rest :=
  behind_cons_of_goes_on (by simp [endsBefore])

/-- What is written starts with a terminator or with the first character of the source. -/
theorem head?_behind (h : (behind done brackets quoted cs).head? = some c) :
    c = ';' ∨ cs.head? = some c := by
  cases cs with
  | nil =>
    rw [behind] at h
    split at h
    · exact .inl (by simpa using h.symm)
    · cases h
  | cons d rest =>
    cases hends : endsBefore done brackets quoted d rest with
    | true =>
      rw [behind_cons_of_ends hends] at h
      exact .inl (by simpa using h.symm)
    | false =>
      rw [behind_cons_of_goes_on hends] at h
      exact .inr h

end

/-! ## A second pass -/

theorem mayStartWith_cons_of_layout (h : isLayout c = true) (rest : List Char) :
    mayStartWith (c :: rest) = mayStartWith rest := by
  rw [mayStartWith, List.dropWhile_cons_of_pos h, mayStartWith]

/-- A statement starts with a double sign, or with anything that does not continue a line. -/
theorem mayStartWith_cons (h : isLayout c = false) (rest : List Char) : mayStartWith (c :: rest) =
      ((c = '+' || c = '-') && rest.head? = some c ||
        !(leadingContinuationChars.contains c || c = '+' || c = '-' || c = '\x7b') &&
          !startsWithElse (c :: rest)) := by
  rw [mayStartWith, List.dropWhile_cons_of_neg (by simp [h])]
  split
  · next heq => cases heq
  · next heq =>
      obtain ⟨rfl, rfl⟩ := List.cons.inj heq
      simp
  · next heq =>
      obtain ⟨rfl, rfl⟩ := List.cons.inj heq
      simp
  · next hplus hminus heq =>
      obtain ⟨rfl, rfl⟩ := List.cons.inj heq
      have hsingle : ((c = '+' || c = '-') && rest.head? = some c) = false := by
        refine Bool.eq_false_iff.2 fun hdouble => ?_
        simp only [Bool.and_eq_true, Bool.or_eq_true, decide_eq_true_eq] at hdouble
        obtain ⟨more, rfl⟩ := List.head?_eq_some_iff.1 hdouble.2
        rcases hdouble.1 with rfl | rfl
        · exact hplus more rfl rfl
        · exact hminus more rfl rfl
      rw [hsingle, Bool.false_or]

theorem startsWithElse_behind (h : startsWithElse cs = true) (done brackets : List Char) :
    startsWithElse (behind done brackets none cs) = true := by
  unfold startsWithElse at h
  split at h
  · next rest =>
      have hletter (c : Char) (hc : c = 'e' ∨ c = 'l' ∨ c = 's') (done rest : List Char) :
          behind done brackets none (c :: rest) = c :: behind (c :: done) brackets none rest := by
        rcases hc with rfl | rfl | rfl <;> rfl
      rw [hletter 'e' (by simp), hletter 'l' (by simp), hletter 's' (by simp),
        hletter 'e' (by simp)]
      cases hout : behind _ brackets none rest with
      | nil => rfl
      | cons c more =>
        rcases head?_behind (congrArg List.head? hout) with rfl | hhead
        · rfl
        · obtain ⟨more', rfl⟩ := List.head?_eq_some_iff.1 hhead
          exact h
  · cases h

/-- What does not start a statement of its own does not start one in what is written, either. -/
theorem mayStartWith_behind (h : mayStartWith cs = false) (done brackets : List Char) :
    mayStartWith (behind done brackets none cs) = false := by
  induction cs generalizing done with
  | nil => cases h
  | cons c rest ih =>
    cases hc : isLayout c with
    | true =>
      -- the first character that is no layout decides about every newline before it
      rw [mayStartWith_cons_of_layout hc] at h
      have hcases : c = ' ' ∨ c = '\t' ∨ c = '\r' ∨ c = '\n' := by
        simpa [isLayout, or_assoc] using hc
      have hends : endsBefore done brackets none c rest = false := by
        rcases hcases with rfl | rfl | rfl | rfl <;> simp [endsBefore, needsTerminator, h]
      have hplain : bracketsAfter brackets none c = brackets ∧ quotedAfter none c = none := by
        rcases hcases with rfl | rfl | rfl | rfl <;> exact ⟨rfl, rfl⟩
      rw [behind_cons_of_goes_on hends, hplain.1, hplain.2, mayStartWith_cons_of_layout hc]
      exact ih h (c :: done)
    | false =>
      have hends : endsBefore done brackets none c rest = false := by
        refine Bool.eq_false_iff.2 fun hends => ?_
        rcases (endsBefore_cases hends).2 with rfl | rfl
        · cases h
        · cases hc
      have helse (h : startsWithElse (c :: rest) = true) :=
        startsWithElse_behind h done brackets
      rw [behind_cons_of_goes_on hends] at helse ⊢
      rw [mayStartWith_cons hc, Bool.or_eq_false_iff] at h ⊢
      constructor
      · -- a sign that stands alone is not followed by the same one
        refine Bool.eq_false_iff.2 fun hdouble => ?_
        simp only [Bool.and_eq_true, Bool.or_eq_true, decide_eq_true_eq] at hdouble
        have hsame : rest.head? = some c := by
          refine (head?_behind hdouble.2).resolve_left ?_
          rintro rfl
          simp at hdouble
        rcases hdouble.1 with rfl | rfl <;> simp [hsame] at h
      · have hword := h.2
        simp only [Bool.and_eq_false_iff, Bool.not_eq_false'] at hword ⊢
        exact hword.imp id helse

/-- Where no terminator is due before a character, none is due before it in what is written. -/
theorem endsBefore_behind {done brackets rest : List Char} {quoted : Option (Char × Bool)}
    (h : endsBefore done brackets quoted c rest = false) (done' : List Char) :
    endsBefore done brackets quoted c
      (behind done' (bracketsAfter brackets quoted c) (quotedAfter quoted c) rest) = false := by
  refine Bool.eq_false_iff.2 fun hends => ?_
  obtain ⟨rfl, rfl | rfl⟩ := endsBefore_cases hends
  · -- what comes behind a closing brace does not matter
    have hsame (out : List Char) : endsBefore done brackets none '\x7d' out =
        endsBefore done brackets none '\x7d' rest := by simp [endsBefore]
    rw [hsame, h] at hends
    cases hends
  · have hline (out : List Char) : endsBefore done brackets none '\n' out =
        (inBlock brackets && mayEndAfter done && mayStartWith out) := by
      simp [endsBefore, needsTerminator, Bool.and_assoc]
    rw [hline, Bool.and_eq_true] at hends
    rw [hline, hends.1, Bool.true_and] at h
    have hout := mayStartWith_behind h done' brackets
    exact Bool.false_ne_true (hout.symm.trans hends.2)

theorem behind_behind (done brackets : List Char) (quoted : Option (Char × Bool)) (cs : List Char) :
    behind done brackets quoted (behind done brackets quoted cs) =
      behind done brackets quoted cs := by
  induction cs generalizing done brackets quoted with
  | nil =>
    simp only [behind]
    split
    · next h =>
        simp only [Bool.and_eq_true, Option.isNone_iff_eq_none, List.isEmpty_iff] at h
        obtain ⟨⟨rfl, rfl⟩, _⟩ := h
        rfl
    · next h => rw [behind, if_neg h]
  | cons c rest ih =>
    cases hends : endsBefore done brackets quoted c rest with
    | true =>
      obtain ⟨rfl, _⟩ := endsBefore_cases hends
      rw [behind_cons_of_ends hends, behind_cons_terminator,
        behind_cons_of_goes_on endsBefore_of_terminated, ih]
    | false =>
      rw [behind_cons_of_goes_on hends, behind_cons_of_goes_on (endsBefore_behind hends _), ih]

theorem terminate_terminate (source : List Char) :
    terminate (terminate source) = terminate source := by
  have hterminate (cs : List Char) : terminate cs = behind [] [] none cs :=
    terminateFrom_eq [] [] none cs
  rw [hterminate, hterminate, behind_behind]

/-- The region in which a pass over terminators stands. -/
def Region.ofQuoted : Option (Char × Bool) → Region
  | none => .code
  | some (quote, escaped) => .quoted quote escaped

theorem Region.after_ofQuoted (quoted : Option (Char × Bool)) (c : Char) :
    (Region.ofQuoted quoted).after c = Region.ofQuoted (quotedAfter quoted c) := by
  cases quoted with
  | none =>
    simp only [ofQuoted, after, quotedAfter]
    split <;> rfl
  | some q =>
    simp only [ofQuoted, after, quotedAfter]
    cases quoteStep q.1 q.2 c <;> rfl

theorem opensComment_behind (h : opensComment c cs.head? = false) (done brackets : List Char)
    (quoted : Option (Char × Bool)) :
    opensComment c (behind done brackets quoted cs).head? = false := by
  refine opensComment_eq_false.2 fun hc => ?_
  have hsource := opensComment_eq_false.1 h hc
  exact ⟨fun hnext => hsource.1 ((head?_behind hnext).resolve_left (by decide)),
    fun hnext => hsource.2 ((head?_behind hnext).resolve_left (by decide))⟩

/-- Inserted semicolons open no comment. -/
theorem uncommented_behind {cs : List Char} {quoted : Option (Char × Bool)}
    (h : Uncommented (Region.ofQuoted quoted) cs) (done brackets : List Char) :
    Uncommented (Region.ofQuoted quoted) (behind done brackets quoted cs) := by
  induction cs generalizing done brackets quoted with
  | nil =>
    rw [behind]
    split
    · next hends =>
        simp only [Bool.and_eq_true, Option.isNone_iff_eq_none] at hends
        rw [hends.1.1]
        exact .code rfl (.nil _)
    · exact .nil _
  | cons c rest ih =>
    have hrest (h : Uncommented ((Region.ofQuoted quoted).after c) rest)
        (done brackets : List Char) : Uncommented ((Region.ofQuoted quoted).after c)
          (behind done brackets (quotedAfter quoted c) rest) := by
      rw [Region.after_ofQuoted] at h ⊢
      exact ih h done brackets
    cases quoted with
    | none =>
      obtain _ | ⟨hopens, hcs⟩ := h
      have hfree (done brackets : List Char) :
          Uncommented .code (c :: behind done brackets (quotedAfter none c) rest) :=
        .code (opensComment_behind hopens _ _ _) (hrest hcs done brackets)
      cases hends : endsBefore done brackets none c rest with
      | true =>
        rw [behind_cons_of_ends hends]
        exact .code rfl (hfree _ _)
      | false =>
        rw [behind_cons_of_goes_on hends]
        exact hfree _ _
    | some q =>
      obtain _ | _ | hcs := h
      rw [behind_cons_of_goes_on (by simp [endsBefore])]
      exact .quoted (hrest hcs _ _)

/-! ## Main statement -/

theorem uncommented_prepare (source : List Char) : Uncommented .code (prepare source) := by
  rw [prepare, terminate, terminateFrom_eq]
  exact @uncommented_behind _ none (uncommented_blankComments source) [] []

/-- Blanking comments a second time changes nothing, and neither does preparing a source that is
    prepared.  This holds of every text, also with brackets that do not match, and with quoted texts
    and comments that are not closed. -/
theorem preparation_idempotent (source : List Char) :
    blankComments (blankComments source) = blankComments source ∧
    prepare (prepare source) = prepare source := by
  constructor
  · exact (uncommented_blankComments source).blankComments_eq
  · calc prepare (prepare source)
      _ = terminate (prepare source) := by
          rw [prepare, (uncommented_prepare source).blankComments_eq]
      _ = prepare source := terminate_terminate (blankComments source)

end EventLoop.Source
