/-
  Reading a written JSON text gives back the data.

  `Json.Legible` is the data for which this is so: no doubles, no negative integers and none with
  more digits than the reader takes, and no key twice in one object.  The argument follows the
  writer.  A written value is read back whatever comes behind it, as long as that does not go on
  with a number (`Unjoined`), so the reader of a list of items or of fields can be followed from one
  to the next.  The length of a text is enough fuel to read it.

  The last section shows that a written text has no carriage return, which is what a file of text
  would not give back.
-/
import EventLoop.Json.Reader
import EventLoop.Json.Writer
import EventLoop.Proofs.RoundTrip

namespace EventLoop.Json

open Script (readable)
open Text.Quoted

variable {c : Char} {rest : List Char} {j : Json} {n : Nat}

/-- Data that is read back as it is written. -/
inductive Legible : Json → Prop
  | null : Legible .null
  | bool (b : Bool) : Legible (.bool b)
  | int {n : Nat} (readable : readable n = true) : Legible (.int n)
  | str (s : String) : Legible (.str s)
  | arr {items : List Json} (values : ∀ x ∈ items, Legible x) : Legible (.arr items)
  | obj {fields : List (String × Json)} (keys : (fields.map Prod.fst).Nodup)
      (values : ∀ f ∈ fields, Legible f.2) : Legible (.obj fields)

/-! ## Strings -/

theorem letterEscape?_of_shortEscape? {e : Char} (h : shortEscape? c = some e) :
    letterEscape? e = some c ∧ e ≠ 'u' := by
  unfold shortEscape? at h
  split at h
  case h_6 =>
    split at h
    next hc =>
      cases h
      refine ⟨?_, by decide⟩
      rw [← Char.ofNat_toNat c, hc]
      rfl
    next =>
      split at h
      next hc =>
        cases h
        refine ⟨?_, by decide⟩
        rw [← Char.ofNat_toNat c, hc]
        rfl
      next => cases h
  all_goals
    cases h
    exact ⟨rfl, by decide⟩

theorem hexDigitsValue?_hexDigits : ∀ n < 0x20,
    Text.hexDigitsValue? (Text.hexDigits 4 n) = some n := by
  decide

theorem unitChar_toNat (c : Char) : unitChar c.toNat = c := by
  have hvalid : c.toNat.isValidChar := c.valid
  rw [unitChar, if_pos hvalid, Char.ofNat_toNat]

theorem readString_letter {e : Char} (h : letterEscape? e = some c) (hu : e ≠ 'u')
    (done rest : List Char) :
    readString done none ('\\' :: e :: rest) = readString (c :: done) none rest := by
  rw [readString]
  · rw [h]
  · exact fun _ _ _ _ _ he _ => hu he

theorem readString_unit {a b d : Char} (h : Text.hexDigitsValue? [a, b, c, d] = some n)
    (hlead : isLeadUnit n = false) (done rest : List Char) :
    readString done none ('\\' :: 'u' :: a :: b :: c :: d :: rest) =
      readString (unitChar n :: done) none rest := by
  rw [readString.eq_def]
  simp only [h, hlead, Bool.false_eq_true, if_false]

theorem readString_dataChar (c : Char) (done rest : List Char) :
    readString done none (dataChar false c ++ rest) =
      readString (c :: done) none rest := by
  rw [dataChar]
  cases hshort : shortEscape? c with
  | some e =>
    obtain ⟨hletter, hu⟩ := letterEscape?_of_shortEscape? hshort
    exact readString_letter hletter hu done rest
  | none =>
    by_cases hlow : c.toNat < 0x20
    · -- a control character is written by its number
      have hvalue := hexDigitsValue?_hexDigits c.toNat hlow
      have hlead : isLeadUnit c.toNat = false := by
        simp only [isLeadUnit, Bool.and_eq_false_iff, decide_eq_false_iff_not]
        omega
      have hunit : c.toNat < 0x10000 := Nat.lt_trans hlow (by decide)
      simp only [if_pos hlow, unitEscape, if_pos hunit, hexEscape]
      simp only [Text.hexDigits, List.nil_append, List.cons_append] at hvalue ⊢
      rw [readString_unit hvalue hlead, unitChar_toNat]
    · -- any other character stands for itself
      have hquote : c ≠ '"' := by
        rintro rfl
        cases hshort
      have hslash : c ≠ '\\' := by
        rintro rfl
        cases hshort
      simp only [if_neg hlow, Bool.false_and, Bool.false_eq_true, if_false]
      show readString done none (c :: rest) = _
      rw [readString]
      · simp only [hlow, hslash, decide_false, Bool.or_false, Bool.false_eq_true, if_false]
      · exact hquote
      · exact fun _ _ _ _ _ he _ => hslash he
      · exact fun _ _ he _ => hslash he

/-- A written text is read as itself, up to its closing quote. -/
theorem readString_data (s : List Char) (done rest : List Char) :
    readString done none (s.flatMap (dataChar false) ++ '"' :: rest) =
      .ok (String.ofList (done.reverse ++ s), rest) := by
  induction s generalizing done with
  | nil =>
    rw [List.flatMap_nil, List.nil_append, readString, List.append_nil]
  | cons c s ih =>
    rw [List.flatMap_cons, List.append_assoc, readString_dataChar, ih, List.reverse_cons,
      List.append_assoc, List.singleton_append]

theorem toList_data (s : String) : (data false s).toList =
    '"' :: (s.toList.flatMap (dataChar false) ++ ['"']) := by
  rw [data, String.toList_ofList]

theorem readString_quoted (s : String) (rest : List Char) :
    readString [] none (s.toList.flatMap (dataChar false) ++ ['"'] ++ rest) =
      .ok (s, rest) := by
  rw [List.append_assoc, List.singleton_append, readString_data, List.reverse_nil,
    List.nil_append, String.ofList_toList]

/-! ## Numbers -/

/-- Text that does not go on with a number in front of it. -/
def Unjoined (rest : List Char) : Prop :=
  ∀ c ∈ rest.head?, Binary64.isPlainDigit c = false ∧ c ≠ '.' ∧ c ≠ 'e' ∧ c ≠ 'E'

theorem unjoined_nil : Unjoined [] := by
  intro c hc
  cases hc

theorem unjoined_cons (rest : List Char)
    (h : Binary64.isPlainDigit c = false ∧ c ≠ '.' ∧ c ≠ 'e' ∧ c ≠ 'E') : Unjoined (c :: rest) := by
  intro d hd
  cases hd
  exact h

theorem isPlainDigit_of_isDigit (h : c.isDigit = true) : Binary64.isPlainDigit c = true := by
  simp only [Char.isDigit, ge_iff_le, Bool.and_eq_true, decide_eq_true_eq] at h
  rw [Binary64.isPlainDigit, Bool.and_eq_true, decide_eq_true_eq, decide_eq_true_eq]
  exact h

theorem fractionPart_of_unjoined (h : Unjoined rest) : fractionPart rest = ([], rest) := by
  cases rest with
  | nil => rfl
  | cons c rest =>
    have hc := (h c rfl).2.1
    rw [fractionPart]
    intro d rest' he
    simp only [List.cons.injEq] at he
    exact absurd he.1 hc

theorem exponentPart_of_unjoined (h : Unjoined rest) : exponentPart rest = ([], rest) := by
  cases rest with
  | nil => rfl
  | cons c rest =>
    obtain ⟨-, -, he, hE⟩ := h c rfl
    have hmark : ¬ (c = 'e' || c = 'E') = true := by simp [he, hE]
    simp only [exponentPart, if_neg hmark]

theorem takeWhile_unjoined (h : Unjoined rest) :
    rest.takeWhile Binary64.isPlainDigit = [] ∧ rest.dropWhile Binary64.isPlainDigit = rest := by
  cases rest with
  | nil => exact ⟨rfl, rfl⟩
  | cons c rest =>
    have hc := (h c rfl).1
    exact ⟨List.takeWhile_cons_of_neg (by simp [hc]), List.dropWhile_cons_of_neg (by simp [hc])⟩

/-- Digits of which the first is a zero only if it is alone. -/
theorem wholePart?_digits {ds : List Char} (hdigits : ∀ d ∈ c :: ds, d.isDigit = true)
    (hzero : c = '0' → ds = []) (hrest : Unjoined rest) :
    wholePart? (c :: ds ++ rest) = some (c :: ds, rest) := by
  obtain ⟨htake, hdrop⟩ := takeWhile_unjoined hrest
  have hplain : ∀ d ∈ ds, Binary64.isPlainDigit d = true := fun d hd =>
    isPlainDigit_of_isDigit (hdigits d (List.mem_cons_of_mem _ hd))
  by_cases hc : c = '0'
  · subst hc
    rw [hzero rfl]
    rfl
  · rw [List.cons_append, wholePart?]
    · rw [if_pos (isPlainDigit_of_isDigit (hdigits c List.mem_cons_self)),
        List.takeWhile_append_of_pos hplain, List.dropWhile_append_of_pos hplain, htake, hdrop,
        List.append_nil]
    · exact hc

theorem head_toDigits_ne_zero (hn : 0 < n) : (Nat.toDigits 10 n).head? ≠ some '0' := by
  induction n using Nat.strongRecOn with
  | ind n ih =>
    by_cases hsmall : n < 10
    · have hdigit : ∀ d < 10, 0 < d → [Nat.digitChar d].head? ≠ some '0' := by decide
      rw [Nat.toDigits_of_lt_base hsmall]
      exact hdigit n hsmall hn
    · have hle : 10 ≤ n := Nat.le_of_not_lt hsmall
      have hpos : 0 < n / 10 := Nat.div_pos hle (by decide)
      have hhead := ih (n / 10) (Nat.div_lt_self hn (by decide)) hpos
      rw [Nat.toDigits_of_base_le (by decide) hle, List.head?_append_of_ne_nil]
      · exact hhead
      · exact Nat.toDigits_ne_nil

/-- The digits of a number start with a zero only if the number is zero. -/
theorem toDigits_of_zero_head {ds : List Char} (h : Nat.toDigits 10 n = '0' :: ds) : ds = [] := by
  by_cases hn : 0 < n
  · exact absurd (by rw [h]; rfl) (head_toDigits_ne_zero hn)
  · have hzero : n = 0 := Nat.eq_zero_of_not_pos hn
    subst hzero
    exact (List.cons.inj h).2.symm

theorem toString_natCast (n : Nat) : (toString (n : Int)).toList = Nat.toDigits 10 n := by
  show (toString n).toList = _
  simp

theorem readNumber_toDigits (hn : readable n = true) (hrest : Unjoined rest) :
    readNumber false (Nat.toDigits 10 n ++ rest) = .ok (.int n, rest) := by
  have hdigits : ∀ c ∈ Nat.toDigits 10 n, c.isDigit = true := fun c =>
    Nat.isDigit_of_mem_toDigits (by decide) (by decide)
  have hvalue : Text.digitsValue (Nat.toDigits 10 n) = n := by
    rw [Script.digitsValue_eq hdigits, Nat.ofDigitChars_toDigits (by decide) (by decide)]
  have hlength (k : Nat) (hk : 0 < k) : (Nat.toDigits 10 n).length ≤ k ↔ n < Nat.pow 10 k :=
    Nat.length_toDigits_le_iff (by decide) hk
  have hfits : (Nat.toDigits 10 n).length ≤ Number.maxDigits := by
    rw [readable, decide_eq_true_eq] at hn
    exact (hlength Number.maxDigits (by decide)).2 hn
  have hwhole : wholePart? (Nat.toDigits 10 n ++ rest) = some (Nat.toDigits 10 n, rest) := by
    cases hds : Nat.toDigits 10 n with
    | nil => exact absurd hds Nat.toDigits_ne_nil
    | cons c ds =>
      refine wholePart?_digits (hds ▸ hdigits) ?_ hrest
      rintro rfl
      exact toDigits_of_zero_head hds
  simp only [readNumber, hwhole, fractionPart_of_unjoined hrest, exponentPart_of_unjoined hrest,
    List.isEmpty_nil, Bool.and_self, if_true, gt_iff_lt, if_neg (Nat.not_lt.2 hfits), hvalue,
    Binary64.signed, Bool.false_eq_true, if_false]

theorem toDigits_head (n : Nat) : ∃ c ds, Nat.toDigits 10 n = c :: ds ∧ c.isDigit = true := by
  cases hds : Nat.toDigits 10 n with
  | nil => exact absurd hds Nat.toDigits_ne_nil
  | cons c ds =>
    have hmem : c ∈ Nat.toDigits 10 n := by
      rw [hds]
      exact List.mem_cons_self
    exact ⟨c, ds, rfl, Nat.isDigit_of_mem_toDigits (by decide) (by decide) hmem⟩

/-- No value that is a word starts with a digit. -/
theorem readScalar_toDigits (hn : readable n = true) (hrest : Unjoined rest) :
    readScalar (Nat.toDigits 10 n ++ rest) = .ok (.int n, rest) := by
  rw [← readNumber_toDigits hn hrest]
  obtain ⟨c, ds, hds, hc⟩ := toDigits_head n
  have hword : words.find? (fun w => w.1.isPrefixOf (c :: ds ++ rest)) = none := by
    rw [List.find?_eq_none]
    intro w hw hstart
    have hhead : ∀ w ∈ words, ∃ d t, w.1 = d :: t ∧ d.isDigit = false := by
      simp [words]
    obtain ⟨d, t, hwt, hd⟩ := hhead w hw
    rw [hwt, List.cons_append, List.isPrefixOf_cons_cons, Bool.and_eq_true, beq_iff_eq]
      at hstart
    rw [hstart.1, hc] at hd
    cases hd
  have hminus : c ≠ '-' := by
    rintro rfl
    cases hc
  rw [hds, readScalar, hword]
  exact fun _ he => hminus (List.cons.inj he).1

/-! ## Values -/

/-- The characters of a value at the given depth, one item to a line. -/
def chars (depth : Nat) (j : Json) : List Char :=
  (pieces .indented depth j).flatMap String.toList

/-- The characters of the items after the first one. -/
def itemChars (depth : Nat) (xs : List Json) : List Char :=
  (itemPieces .indented depth xs).flatMap String.toList

/-- The characters of the fields after the first one. -/
def fieldChars (depth : Nat) (fs : List (String × Json)) : List Char :=
  (fieldPieces .indented depth fs).flatMap String.toList

/-- The characters at a line break. -/
def breakChars (depth : Nat) : List Char := (Style.indented.lineBreak depth).toList

theorem toList_pushn (s : String) (c : Char) (n : Nat) :
    (s.pushn c n).toList = s.toList ++ List.replicate n c := by
  induction n with
  | zero => simp [String.pushn_eq_repeat_push, Nat.repeat]
  | succ n ih =>
    rw [String.pushn_eq_repeat_push, Nat.repeat, ← String.pushn_eq_repeat_push,
      String.toList_push, ih, List.append_assoc, List.replicate_succ']

theorem breakChars_eq (depth : Nat) :
    breakChars depth = '\n' :: List.replicate (2 * depth) ' ' := by
  rw [breakChars, Style.indented]
  simp only [String.toList_append, toList_pushn]
  rfl

theorem chars_int (depth n : Nat) : chars depth (.int n) = Nat.toDigits 10 n := by
  rw [← toString_natCast]
  simp [chars, pieces]

theorem chars_str (depth : Nat) (s : String) : chars depth (.str s) =
    '"' :: (s.toList.flatMap (dataChar false) ++ ['"']) := by
  simp [chars, pieces, toList_data]

@[simp]
theorem chars_arr (depth : Nat) (x : Json) (xs : List Json) : chars depth (.arr (x :: xs)) =
    '[' :: (breakChars (depth + 1) ++ (chars (depth + 1) x ++ (itemChars (depth + 1) xs ++
      (breakChars depth ++ [']'])))) := by
  simp [chars, itemChars, breakChars, pieces]

@[simp]
theorem chars_obj (depth : Nat) (k : String) (x : Json) (fs : List (String × Json)) :
    chars depth (.obj ((k, x) :: fs)) =
      '\x7b' :: (breakChars (depth + 1) ++ ((data false k).toList ++ (':' :: ' ' ::
        (chars (depth + 1) x ++ (fieldChars (depth + 1) fs ++
          (breakChars depth ++ ['\x7d'])))))) := by
  simp [chars, fieldChars, breakChars, pieces, Style.indented]

@[simp]
theorem itemChars_cons (depth : Nat) (x : Json) (xs : List Json) : itemChars depth (x :: xs) =
    ',' :: (breakChars depth ++ (chars depth x ++ itemChars depth xs)) := by
  simp [chars, itemChars, breakChars, itemPieces]

@[simp]
theorem fieldChars_cons (depth : Nat) (k : String) (x : Json) (fs : List (String × Json)) :
    fieldChars depth ((k, x) :: fs) =
      ',' :: (breakChars depth ++ ((data false k).toList ++ (':' :: ' ' ::
        (chars depth x ++ fieldChars depth fs)))) := by
  simp [chars, fieldChars, breakChars, fieldPieces, Style.indented]

theorem skipSpace_cons (h : isSpace c = false) (rest : List Char) :
    skipSpace (c :: rest) = c :: rest :=
  List.dropWhile_cons_of_neg (by simp [h])

@[simp]
theorem skipSpace_breakChars (depth : Nat) (rest : List Char) :
    skipSpace (breakChars depth ++ rest) = skipSpace rest := by
  refine List.dropWhile_append_of_pos fun c hc => ?_
  rw [breakChars_eq, List.mem_cons, List.mem_replicate] at hc
  rcases hc with rfl | ⟨-, rfl⟩ <;> rfl

theorem unjoined_breakChars (depth : Nat) (rest : List Char) :
    Unjoined (breakChars depth ++ rest) := by
  rw [breakChars_eq, List.cons_append]
  exact unjoined_cons _ (by decide)

/-- How a written value starts: with no space, and with nothing that closes a list. -/
theorem Legible.head (h : j.Legible) (depth : Nat) : ∃ c cs, chars depth j = c :: cs ∧
    isSpace c = false ∧ c ≠ ']' ∧ c ≠ '\x7d' := by
  cases h with
  | null => exact ⟨_, _, rfl, by decide⟩
  | bool b => cases b <;> exact ⟨_, _, rfl, by decide⟩
  | @int n hn =>
    obtain ⟨c, ds, hds, hc⟩ := toDigits_head n
    refine ⟨c, ds, by rw [chars_int, hds], ?_, ?_, ?_⟩
    · cases hspace : isSpace c with
      | false => rfl
      | true =>
        simp only [isSpace, Bool.or_eq_true, decide_eq_true_eq] at hspace
        rcases hspace with ((rfl | rfl) | rfl) | rfl <;> cases hc
    · rintro rfl
      cases hc
    · rintro rfl
      cases hc
  | str s => exact ⟨_, _, chars_str depth s, by decide⟩
  | @arr items _ =>
    cases items with
    | nil => exact ⟨_, _, rfl, by decide⟩
    | cons x xs => exact ⟨_, _, chars_arr depth x xs, by decide⟩
  | @obj fields _ _ =>
    cases fields with
    | nil => exact ⟨_, _, rfl, by decide⟩
    | cons f fs => exact ⟨_, _, chars_obj depth f.1 f.2 fs, by decide⟩

theorem Legible.skipSpace_chars (h : j.Legible) (depth : Nat) (rest : List Char) :
    skipSpace (chars depth j ++ rest) = chars depth j ++ rest := by
  obtain ⟨c, cs, hchars, hspace, -, -⟩ := h.head depth
  rw [hchars, List.cons_append, skipSpace_cons hspace]

/-- A value that is read back wherever it stands. -/
structure Reads (j : Json) : Prop where
  legible : j.Legible
  reads : ∀ depth fuel rest, (chars depth j).length ≤ fuel → Unjoined rest →
    readValue fuel (chars depth j ++ rest) = .ok (j, rest)

theorem itemChars_nil (depth : Nat) : itemChars depth [] = [] := rfl

theorem fieldChars_nil (depth : Nat) : fieldChars depth [] = [] := rfl

/-- The reader of items goes through all of them and stops behind the bracket that closes them. -/
theorem readItems_chars (depth outer : Nat) (xs : List Json) (x : Json) (done : List Json)
    (fuel : Nat) (rest : List Char) (hitems : ∀ y ∈ x :: xs, y.Reads)
    (hfuel : (chars depth x).length + (itemChars depth xs).length < fuel) :
    readItems fuel done (chars depth x ++ (itemChars depth xs ++ (breakChars outer ++
      ']' :: rest))) = .ok (.arr (done.reverse ++ x :: xs), rest) := by
  induction xs generalizing x done fuel with
  | nil =>
    cases fuel with
    | zero => cases hfuel
    | succ fuel =>
      rw [itemChars_nil, List.nil_append]
      have hx := (hitems x List.mem_cons_self).reads depth fuel
        (breakChars outer ++ ']' :: rest) (by omega) (unjoined_breakChars outer _)
      have hclose : skipSpace (']' :: rest) = ']' :: rest := skipSpace_cons rfl rest
      simp only [readItems, hx, bind, Except.bind, skipSpace_breakChars, hclose, pure,
        Except.pure, List.reverse_cons]
  | cons y ys ih =>
    cases fuel with
    | zero => cases hfuel
    | succ fuel =>
      rw [itemChars_cons, List.length_cons, List.length_append, List.length_append] at hfuel
      rw [itemChars_cons, List.cons_append, List.append_assoc, List.append_assoc]
      have hy := hitems y (List.mem_cons_of_mem x List.mem_cons_self)
      have hx := (hitems x List.mem_cons_self).reads depth fuel
        (',' :: (breakChars depth ++ (chars depth y ++ (itemChars depth ys ++
          (breakChars outer ++ ']' :: rest))))) (by omega) (unjoined_cons _ (by decide))
      have hcomma (cs : List Char) : skipSpace (',' :: cs) = ',' :: cs := skipSpace_cons rfl cs
      have hys := ih y (x :: done) fuel (fun z hz => hitems z (List.mem_cons_of_mem x hz))
        (by omega)
      simp only [readItems, hx, bind, Except.bind, hcomma, skipSpace_breakChars,
        hy.legible.skipSpace_chars, hys, List.reverse_cons, List.append_assoc,
        List.singleton_append]

theorem insert_append {α : Type} {l : List (String × α)} {key : String}
    (h : key ∉ l.map Prod.fst) (a : α) : Assoc.insert l key a = l ++ [(key, a)] := by
  induction l with
  | nil => rfl
  | cons f l ih =>
    rw [List.map_cons, List.mem_cons, not_or] at h
    have hkey : (f.1 == key) = false := beq_false_of_ne (Ne.symm h.1)
    rw [Assoc.insert, hkey, ih h.2]
    rfl

theorem skipSpace_quoted (k : String) (cs : List Char) :
    skipSpace ((data false k).toList ++ cs) =
      (data false k).toList ++ cs := by
  rw [toList_data]
  exact skipSpace_cons rfl _

theorem skipSpace_blank (cs : List Char) : skipSpace (' ' :: cs) = skipSpace cs := rfl

/-- The reader of fields takes the last field and the brace behind it. -/
theorem readFields_last {x : Json} (hx : x.Reads) (k : String) (depth outer fuel : Nat)
    (done : List (String × Json)) (rest : List Char) (hfuel : (chars depth x).length ≤ fuel) :
    readFields (fuel + 1) done ((data false k).toList ++ (':' :: ' ' ::
      (chars depth x ++ (breakChars outer ++ '\x7d' :: rest)))) =
        .ok (.obj (Assoc.insert done k x), rest) := by
  have hvalue := hx.reads depth fuel (breakChars outer ++ '\x7d' :: rest) hfuel
    (unjoined_breakChars outer _)
  have hcolon (cs : List Char) : skipSpace (':' :: cs) = ':' :: cs := skipSpace_cons rfl cs
  have hclose : skipSpace ('\x7d' :: rest) = '\x7d' :: rest := skipSpace_cons rfl rest
  rw [toList_data, List.cons_append]
  simp only [readFields, readString_quoted, hcolon, skipSpace_blank, hx.legible.skipSpace_chars,
    hvalue, bind, Except.bind, skipSpace_breakChars, hclose, pure, Except.pure]

/-- The reader of fields takes a field and goes on with the next one. -/
theorem readFields_more {x : Json} (hx : x.Reads) (k k' : String) (depth fuel : Nat)
    (done : List (String × Json)) (cs : List Char) (hfuel : (chars depth x).length ≤ fuel) :
    readFields (fuel + 1) done ((data false k).toList ++ (':' :: ' ' ::
      (chars depth x ++ (',' :: (breakChars depth ++
        ((data false k').toList ++ cs)))))) =
          readFields fuel (Assoc.insert done k x) ((data false k').toList ++ cs) := by
  have hvalue := hx.reads depth fuel
    (',' :: (breakChars depth ++ ((data false k').toList ++ cs))) hfuel
    (unjoined_cons _ (by decide))
  have hcolon (cs : List Char) : skipSpace (':' :: cs) = ':' :: cs := skipSpace_cons rfl cs
  have hcomma (cs : List Char) : skipSpace (',' :: cs) = ',' :: cs := skipSpace_cons rfl cs
  rw [toList_data k, List.cons_append]
  simp only [readFields, readString_quoted, hcolon, skipSpace_blank, hx.legible.skipSpace_chars,
    hvalue, bind, Except.bind, skipSpace_breakChars, hcomma, skipSpace_quoted]

/-- The reader of fields goes through all of them and stops behind the brace that closes them.  No
    key stands among the fields that were read before. -/
theorem readFields_chars (depth outer : Nat) (fs : List (String × Json)) (k : String) (x : Json)
    (done : List (String × Json)) (fuel : Nat) (rest : List Char)
    (hkeys : ((done ++ (k, x) :: fs).map Prod.fst).Nodup) (hfields : ∀ f ∈ (k, x) :: fs, f.2.Reads)
    (hfuel : (chars depth x).length + (fieldChars depth fs).length < fuel) :
    readFields fuel done ((data false k).toList ++ (':' :: ' ' :: (chars depth x ++
      (fieldChars depth fs ++ (breakChars outer ++ '\x7d' :: rest))))) =
        .ok (.obj (done ++ (k, x) :: fs), rest) := by
  have hfresh {k : String} {x : Json} {done fs : List (String × Json)}
      (hkeys : ((done ++ (k, x) :: fs).map Prod.fst).Nodup) : k ∉ done.map Prod.fst := by
    rw [List.map_append, List.nodup_append] at hkeys
    exact fun hk => hkeys.2.2 k hk k List.mem_cons_self rfl
  induction fs generalizing k x done fuel with
  | nil =>
    have hx : x.Reads := hfields (k, x) List.mem_cons_self
    cases fuel with
    | zero => cases hfuel
    | succ fuel =>
      rw [fieldChars_nil, List.nil_append, readFields_last hx k depth outer fuel done rest
        (by omega), insert_append (hfresh hkeys)]
  | cons f fs ih =>
    obtain ⟨k', y⟩ := f
    have hx : x.Reads := hfields (k, x) List.mem_cons_self
    cases fuel with
    | zero => cases hfuel
    | succ fuel =>
      rw [fieldChars_cons] at hfuel ⊢
      simp only [List.length_cons, List.length_append] at hfuel
      have hmore := ih k' y (done ++ [(k, x)]) fuel
        (by rw [List.append_assoc]; exact hkeys)
        (fun f hf => hfields f (List.mem_cons_of_mem _ hf)) (by omega)
      simp only [List.cons_append, List.append_assoc]
      rw [readFields_more hx k k' depth fuel done _ (by omega), insert_append (hfresh hkeys), hmore,
        List.append_assoc, List.singleton_append]

/-! ## Texts -/

theorem readValue_scalar {c : Char} (h : c ≠ '"' ∧ c ≠ '[' ∧ c ≠ '\x7b') (fuel : Nat)
    (cs : List Char) : readValue (fuel + 1) (c :: cs) = readScalar (c :: cs) := by
  rw [readValue]
  · exact fun _ he => h.1 (List.cons.inj he).1
  · exact fun _ he => h.2.1 (List.cons.inj he).1
  · exact fun _ he => h.2.2 (List.cons.inj he).1

theorem readValue_bracket {cs items : List Char} (h : skipSpace cs = items)
    (hitems : items.head? ≠ some ']') (fuel : Nat) :
    readValue (fuel + 1) ('[' :: cs) = readItems fuel [] items := by
  rw [readValue, h]
  split
  · exact absurd rfl hitems
  · rfl

theorem readValue_brace {cs fields : List Char} (h : skipSpace cs = fields)
    (hfields : fields.head? ≠ some '\x7d') (fuel : Nat) :
    readValue (fuel + 1) ('\x7b' :: cs) = readFields fuel [] fields := by
  rw [readValue, h]
  split
  · exact absurd rfl hfields
  · rfl

/-- By induction on the value, whatever the indentation and whatever follows it. -/
theorem Legible.reads (h : j.Legible) : j.Reads := by
  induction h with
  | null =>
    refine ⟨.null, fun depth fuel rest hfuel hrest => ?_⟩
    cases fuel with
    | zero => cases hfuel
    | succ fuel => rfl
  | bool b =>
    refine ⟨.bool b, fun depth fuel rest hfuel hrest => ?_⟩
    cases fuel with
    | zero => cases b <;> cases hfuel
    | succ fuel => cases b <;> rfl
  | @int n hn =>
    refine ⟨.int hn, fun depth fuel rest hfuel hrest => ?_⟩
    obtain ⟨c, ds, hds, hc⟩ := toDigits_head n
    rw [chars_int] at hfuel ⊢
    cases fuel with
    | zero =>
      rw [hds] at hfuel
      cases hfuel
    | succ fuel =>
      have hread := readScalar_toDigits hn hrest
      rw [hds, List.cons_append] at hread ⊢
      rw [readValue_scalar _ fuel, hread]
      refine ⟨?_, ?_, ?_⟩ <;> rintro rfl <;> cases hc
  | str s =>
    refine ⟨.str s, fun depth fuel rest hfuel hrest => ?_⟩
    rw [chars_str] at hfuel ⊢
    cases fuel with
    | zero => cases hfuel
    | succ fuel =>
      rw [List.cons_append, readValue, readString_quoted]
      rfl
  | @arr items values ih =>
    refine ⟨.arr values, fun depth fuel rest hfuel hrest => ?_⟩
    cases items with
    | nil =>
      cases fuel with
      | zero => cases hfuel
      | succ fuel => rfl
    | cons x xs =>
      have hx := values x List.mem_cons_self
      -- no value starts with the bracket by which an empty list is known
      obtain ⟨c, cs, hchars, -, hc, -⟩ := hx.head (depth + 1)
      rw [chars_arr] at hfuel ⊢
      cases fuel with
      | zero => cases hfuel
      | succ fuel =>
        have hitems := readItems_chars (depth + 1) depth xs x [] fuel rest ih (by
          simp only [List.length_cons, List.length_append, breakChars_eq] at hfuel
          omega)
        simp only [List.cons_append, List.append_assoc, List.nil_append]
        rw [readValue_bracket (by rw [skipSpace_breakChars, hx.skipSpace_chars]) ?_ fuel,
          hitems, List.reverse_nil, List.nil_append]
        rw [hchars]
        exact fun he => hc (Option.some.inj he)
  | @obj fields keys values ih =>
    refine ⟨.obj keys values, fun depth fuel rest hfuel hrest => ?_⟩
    cases fields with
    | nil =>
      cases fuel with
      | zero => cases hfuel
      | succ fuel => rfl
    | cons f fs =>
      obtain ⟨k, x⟩ := f
      rw [chars_obj] at hfuel ⊢
      cases fuel with
      | zero => cases hfuel
      | succ fuel =>
        have hfields := readFields_chars (depth + 1) depth fs k x [] fuel rest keys ih (by
          simp only [List.length_cons, List.length_append, breakChars_eq] at hfuel
          omega)
        simp only [List.cons_append, List.append_assoc, List.nil_append]
        rw [readValue_brace (by rw [skipSpace_breakChars, skipSpace_quoted]) ?_ fuel,
          hfields, List.nil_append]
        rw [toList_data]
        exact fun he => absurd (Option.some.inj he) (by decide)

theorem read_render (h : j.Legible) : read (j.render .indented) = .ok j := by
  have hchars : (j.render .indented).toList = chars 0 j := by
    rw [render, String.toList_join, chars]
  have hskip := h.skipSpace_chars 0 []
  have hread := h.reads.reads 0 ((chars 0 j).length + 1) [] (Nat.le_succ _) unjoined_nil
  rw [List.append_nil] at hskip hread
  simp only [read, hchars, hskip, hread, bind, Except.bind]
  rfl

/-! ## Carriage returns -/

theorem return_not_mem_dataChar (c : Char) : '\r' ∉ dataChar false c := by
  have hlow : ∀ n < 0x20, '\r' ∉ hexEscape 'u' 4 n := by decide
  rw [dataChar]
  cases hshort : shortEscape? c with
  | some e =>
    obtain ⟨hletter, -⟩ := letterEscape?_of_shortEscape? hshort
    have he : e ≠ '\r' := by
      rintro rfl
      cases hletter
    simp only [List.mem_cons, List.not_mem_nil, or_false, not_or]
    exact ⟨by decide, he.symm⟩
  | none =>
    have hc : c ≠ '\r' := by
      rintro rfl
      cases hshort
    by_cases hn : c.toNat < 0x20
    · have hunit : c.toNat < 0x10000 := Nat.lt_trans hn (by decide)
      simp only [if_pos hn, unitEscape, if_pos hunit]
      exact hlow c.toNat hn
    · simp only [if_neg hn, Bool.false_and, Bool.false_eq_true, if_false, List.mem_singleton]
      exact hc.symm

@[simp]
theorem return_not_mem_data (s : String) : '\r' ∉ (data false s).toList := by
  rw [toList_data]
  simp only [List.mem_cons, List.mem_append, List.mem_flatMap, List.not_mem_nil, or_false, not_or]
  refine ⟨by decide, ?_, by decide⟩
  rintro ⟨c, -, hc⟩
  exact return_not_mem_dataChar c hc

@[simp]
theorem return_not_mem_breakChars (depth : Nat) : '\r' ∉ breakChars depth := by
  simp [breakChars_eq, List.mem_replicate]

theorem return_not_mem_itemChars {depth : Nat} {xs : List Json}
    (h : ∀ x ∈ xs, '\r' ∉ chars depth x) : '\r' ∉ itemChars depth xs := by
  induction xs with
  | nil => exact List.not_mem_nil
  | cons x xs ih => simp_all

theorem return_not_mem_fieldChars {depth : Nat} {fs : List (String × Json)}
    (h : ∀ f ∈ fs, '\r' ∉ chars depth f.2) : '\r' ∉ fieldChars depth fs := by
  induction fs with
  | nil => exact List.not_mem_nil
  | cons f fs ih =>
    obtain ⟨k, x⟩ := f
    rw [List.forall_mem_cons] at h
    simp [h.1, ih h.2]

/-- No carriage return is printed, at any depth. -/
theorem Legible.return_not_mem (h : j.Legible) (depth : Nat) : '\r' ∉ chars depth j := by
  induction h generalizing depth with
  | null => exact (by decide : '\r' ∉ "null".toList)
  | bool b =>
    cases b with
    | false => exact (by decide : '\r' ∉ "false".toList)
    | true => exact (by decide : '\r' ∉ "true".toList)
  | @int n hn =>
    rw [chars_int]
    intro hc
    exact absurd (Nat.isDigit_of_mem_toDigits (by decide) (by decide) hc) (by decide)
  | str s =>
    rw [chars_str, ← toList_data]
    exact return_not_mem_data s
  | @arr items values ih =>
    cases items with
    | nil => exact (by decide : '\r' ∉ "[]".toList)
    | cons x xs =>
      rw [List.forall_mem_cons] at ih
      simp [ih.1, return_not_mem_itemChars fun y hy => ih.2 y hy _]
  | @obj fields keys values ih =>
    cases fields with
    | nil => exact (by decide : '\r' ∉ "\x7b\x7d".toList)
    | cons f fs =>
      obtain ⟨k, x⟩ := f
      rw [List.forall_mem_cons] at ih
      simp [ih.1, return_not_mem_fieldChars fun g hg => ih.2 g hg _]

end EventLoop.Json
