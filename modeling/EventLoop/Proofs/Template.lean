/-
  Splitting a template finds its one decomposition.

  A `Decomposition` is a way to read a template: texts without the mark of an embedded source, and
  between them sources whose braces are balanced, so that the template is what they give together.
  How a decomposition starts is decided by the first characters (`decomposition_nil`,
  `decomposition_mark`, `decomposition_cons`), and where a source ends is decided by the first brace
  that closes more than was opened in it (`Closes`).  The scanner takes these decisions one character
  at a time; it fails exactly if there is no decomposition.
-/
import EventLoop.Source.Template

namespace EventLoop.Source

variable {raw cs rest : List Char} {texts sources : List (List Char)}

/-! ## Balanced braces -/

/-- A text that closes `depth` braces which are open in front of it: no beginning of it closes more
    braces than are open, and behind the whole none is open. -/
structure Balances (depth : Nat) (s : List Char) : Prop where
  opens_first : ∀ front, front <+: s → front.count '\x7d' ≤ front.count '\x7b' + depth
  closes_all : s.count '\x7d' = s.count '\x7b' + depth

/-- A character takes the number of open braces from `d` to `d'`. -/
theorem balances_cons {c : Char} {d d' : Nat}
    (h : d + [c].count '\x7b' = d' + [c].count '\x7d') : Balances d (c :: cs) ↔ Balances d' cs := by
  have hcount (x : Char) (l : List Char) : (c :: l).count x = [c].count x + l.count x := by
    rw [← List.singleton_append, List.count_append]
  constructor
  · rintro ⟨hfirst, hall⟩
    rw [hcount _ cs, hcount _ cs] at hall
    refine ⟨fun front hfront => ?_, by omega⟩
    have hle := hfirst (c :: front) (List.cons_prefix_cons.2 ⟨rfl, hfront⟩)
    rw [hcount _ front, hcount _ front] at hle
    omega
  · rintro ⟨hfirst, hall⟩
    refine ⟨fun front hfront => ?_, by rw [hcount _ cs, hcount _ cs]; omega⟩
    rcases List.prefix_cons_iff.1 hfront with rfl | ⟨tail, rfl, htail⟩
    · exact Nat.zero_le _
    · have hle := hfirst tail htail
      rw [hcount _ tail, hcount _ tail]
      omega

/-- The text up to the brace that closes `depth` open braces and one more, and what follows it. -/
def Closes (depth : Nat) (cs : List Char) (P : List Char → List Char → Prop) : Prop :=
  ∃ s rest, cs = s ++ '\x7d' :: rest ∧ Balances depth s ∧ P s rest

variable {P : List Char → List Char → Prop}

theorem not_closes_nil {depth : Nat} : ¬ Closes depth [] P := by
  rintro ⟨s, rest, h, -⟩
  simp at h

theorem closes_now : Closes 0 ('\x7d' :: cs) P ↔ P [] cs := by
  constructor
  · rintro ⟨s, rest, h, hs, hP⟩
    cases s with
    | nil =>
      obtain rfl : cs = rest := by simpa using h
      exact hP
    | cons c s =>
      obtain ⟨rfl, -⟩ : '\x7d' = c ∧ cs = s ++ '\x7d' :: rest := by simpa using h
      exact absurd (hs.opens_first ['\x7d'] (by simp)) (by decide)
  · exact fun hP => ⟨[], cs, rfl, ⟨by simp, rfl⟩, hP⟩

theorem closes_cons {c : Char} {d : Nat} (d' : Nat)
    (h : d + [c].count '\x7b' = d' + [c].count '\x7d') (hc : 0 < d ∨ c ≠ '\x7d') :
    Closes d (c :: cs) P ↔ Closes d' cs fun s rest => P (c :: s) rest := by
  constructor
  · rintro ⟨s, rest, hcs, hs, hP⟩
    cases s with
    | nil =>
      have hopen : 0 = d := by simpa using hs.closes_all
      obtain ⟨rfl, -⟩ : c = '\x7d' ∧ cs = rest := by simpa using hcs
      exact absurd hc (by simp [← hopen])
    | cons c' s =>
      obtain ⟨rfl, hrest⟩ : c = c' ∧ cs = s ++ '\x7d' :: rest := by simpa using hcs
      exact ⟨s, rest, hrest, (balances_cons h).1 hs, hP⟩
  · rintro ⟨s, rest, rfl, hs, hP⟩
    exact ⟨c :: s, rest, rfl, (balances_cons h).2 hs, hP⟩

/-! ## Decompositions -/

/-- The template with the given texts, between which the sources stand in marked braces. -/
def interleaved : List (List Char) → List (List Char) → List Char
  | text :: texts, source :: sources =>
    text ++ '$' :: '\x7b' :: source ++ '\x7d' :: interleaved texts sources
  | texts, _ => texts.flatten

/-- The texts and sources of a template: no text has the mark of an embedded source, and the braces
    of each source are balanced. -/
structure Decomposition (raw : List Char) (texts sources : List (List Char)) : Prop where
  count : texts.length = sources.length + 1
  whole : interleaved texts sources = raw
  unmarked : ∀ text ∈ texts, ¬ ['$', '\x7b'] <:+: text
  balanced : ∀ source ∈ sources, Balances 0 source

theorem decomposition_nil : Decomposition [] texts sources ↔ texts = [[]] ∧ sources = [] := by
  constructor
  · rintro ⟨hcount, hwhole, -, -⟩
    cases texts with
    | nil => simp at hcount
    | cons text texts =>
      cases sources with
      | nil =>
        obtain rfl : texts = [] := by simpa using hcount
        simpa [interleaved] using hwhole
      | cons source sources => simp [interleaved] at hwhole
  · rintro ⟨rfl, rfl⟩
    exact ⟨rfl, rfl, by simp, by simp⟩

theorem decomposition_mark : Decomposition ('$' :: '\x7b' :: rest) texts sources ↔
    Closes 0 rest fun s rest' => ∃ ts ss, Decomposition rest' ts ss ∧
      texts = [] :: ts ∧ sources = s :: ss := by
  constructor
  · rintro ⟨hcount, hwhole, hunmarked, hbalanced⟩
    cases texts with
    | nil => simp at hcount
    | cons text texts =>
      have htext := hunmarked text List.mem_cons_self
      cases sources with
      | nil =>
        obtain rfl : texts = [] := by simpa using hcount
        obtain rfl : text = '$' :: '\x7b' :: rest := by simpa [interleaved] using hwhole
        exact absurd ⟨[], rest, rfl⟩ htext
      | cons source sources =>
        -- a longer first text would have the mark
        have hempty : text = [] := by
          cases text with
          | nil => rfl
          | cons c text =>
            cases text with
            | nil => simp [interleaved] at hwhole
            | cons c' text =>
              obtain ⟨rfl, rfl, -⟩ : c = '$' ∧ c' = '\x7b' ∧ _ := by
                simpa [interleaved] using hwhole
              exact absurd ⟨[], text, rfl⟩ htext
        subst hempty
        refine ⟨source, interleaved texts sources, ?_, hbalanced source List.mem_cons_self, texts,
          sources, ⟨by simpa using hcount, rfl, ?_, ?_⟩, rfl, rfl⟩
        · simpa [interleaved] using hwhole.symm
        · exact fun t ht => hunmarked t (List.mem_cons_of_mem _ ht)
        · exact fun s hs => hbalanced s (List.mem_cons_of_mem _ hs)
  · rintro ⟨s, rest', rfl, hs, ts, ss, h, rfl, rfl⟩
    refine ⟨by simp [h.count], by simp [interleaved, h.whole], ?_, ?_⟩
    · exact List.forall_mem_cons.2 ⟨by simp, h.unmarked⟩
    · exact List.forall_mem_cons.2 ⟨hs, h.balanced⟩

theorem decomposition_cons {c : Char} (hc : ∀ rest', c :: rest ≠ '$' :: '\x7b' :: rest') :
    Decomposition (c :: rest) texts sources ↔
      ∃ t ts, texts = (c :: t) :: ts ∧ Decomposition rest (t :: ts) sources := by
  have hcons (text : List Char) (ts ss : List (List Char)) :
      interleaved ((c :: text) :: ts) ss = c :: interleaved (text :: ts) ss := by
    cases ss <;> simp [interleaved]
  constructor
  · rintro ⟨hcount, hwhole, hunmarked, hbalanced⟩
    cases texts with
    | nil => simp at hcount
    | cons text texts =>
      cases text with
      | nil =>
        -- without a text in front, the whole would start with a source
        cases sources with
        | nil =>
          obtain rfl : texts = [] := by simpa using hcount
          simp [interleaved] at hwhole
        | cons source sources => exact absurd hwhole.symm (hc _)
      | cons c' text =>
        rw [List.forall_mem_cons] at hunmarked
        obtain ⟨rfl, hrest⟩ : c' = c ∧ interleaved (text :: texts) sources = rest := by
          cases sources <;> simpa [interleaved] using hwhole
        refine ⟨text, texts, rfl, hcount, hrest, List.forall_mem_cons.2 ⟨?_, hunmarked.2⟩, hbalanced⟩
        exact fun h => hunmarked.1 (List.infix_cons h)
  · rintro ⟨t, ts, rfl, hcount, rfl, hunmarked, hbalanced⟩
    rw [List.forall_mem_cons] at hunmarked
    refine ⟨hcount, hcons t ts sources, List.forall_mem_cons.2 ⟨fun h => ?_, hunmarked.2⟩, hbalanced⟩
    rcases List.infix_cons_iff.1 h with ⟨t', ht⟩ | h
    · -- the character and the next one would open a source
      obtain ⟨rfl, rfl⟩ : '$' = c ∧ '\x7b' :: t' = t := by simpa using ht
      exact hc (interleaved (t' :: ts) sources) (by cases sources <;> simp [interleaved])
    · exact hunmarked.1 h

/-! ## The scanner -/

/-- The texts and sources that a scanner finds. -/
def Yields (found : Option TemplateParts) (texts sources : List (List Char)) : Prop :=
  ∃ p, found = some p ∧ p.texts = texts ∧ p.sources = sources

/-- What the rest of a template adds to what was split off before. -/
def Continues (done : List (List Char × List Char)) (text rest : List Char)
    (texts sources : List (List Char)) : Prop :=
  ∃ t ts ss, Decomposition rest (t :: ts) ss ∧
    texts = done.reverse.map (·.1) ++ (text.reverse ++ t) :: ts ∧
    sources = done.reverse.map (·.2) ++ ss

/-- What the rest of a template has to be, in a text or inside a source. -/
def Scanned (done : List (List Char × List Char)) (text rest : List Char)
    (texts sources : List (List Char)) : Option (Nat × List Char) → Prop
  | none => Continues done text rest texts sources
  | some (depth, source) =>
    Closes (depth - 1) rest fun s rest' =>
      Continues ((text.reverse, source.reverse ++ s) :: done) [] rest' texts sources

/-- The scan yields exactly what the rest of the text can be decomposed into. -/
theorem splitFrom_yields (done : List (List Char × List Char)) (text : List Char)
    (inner : Option (Nat × List Char)) (cs : List Char) (hinner : ∀ d ∈ inner, 0 < d.1) :
    Yields (splitFrom done text inner cs) texts sources ↔
      Scanned done text cs texts sources inner := by
  -- by the cases of the scanner: the end, then in a text, and last inside of a source
  fun_induction splitFrom done text inner cs with
  | case1 done text =>
    constructor
    · rintro ⟨p, ⟨⟩, rfl, rfl⟩
      exact ⟨[], [], [], decomposition_nil.2 ⟨rfl, rfl⟩, by simp [TemplateParts.texts],
        by simp [TemplateParts.sources]⟩
    · rintro ⟨t, ts, ss, h, rfl, rfl⟩
      obtain ⟨⟨⟩, rfl⟩ := decomposition_nil.1 h
      exact ⟨_, rfl, by simp [TemplateParts.texts], by simp [TemplateParts.sources]⟩
  | case2 => simp [Yields, Scanned, not_closes_nil]
  | case3 done text rest ih =>
    rw [ih (by simp)]
    constructor
    · rintro ⟨s, rest', hrest, hs, t, ts, ss, h, rfl, rfl⟩
      refine ⟨[], t :: ts, s :: ss, decomposition_mark.2 ⟨s, rest', hrest, hs, _, _, h, rfl, rfl⟩, ?_⟩
      simp
    · rintro ⟨t, ts, ss, h, rfl, rfl⟩
      obtain ⟨s, rest', hrest, hs, ts, ss, h', ⟨⟩, rfl⟩ := decomposition_mark.1 h
      cases ts with
      | nil => exact absurd h'.count (by simp)
      | cons t ts => exact ⟨s, rest', hrest, hs, t, ts, ss, h', by simp, by simp⟩
  | case4 done text c rest hc ih =>
    rw [ih (by simp)]
    have hc (rest' : List Char) : c :: rest ≠ '$' :: '\x7b' :: rest' := by
      rintro ⟨⟩
      exact hc rest' rfl rfl
    constructor
    · rintro ⟨t, ts, ss, h, rfl, rfl⟩
      exact ⟨c :: t, ts, ss, (decomposition_cons hc).2 ⟨t, ts, rfl, h⟩, by simp, rfl⟩
    · rintro ⟨t, ts, ss, h, rfl, rfl⟩
      obtain ⟨t, ts, ⟨⟩, h⟩ := (decomposition_cons hc).1 h
      exact ⟨t, ts, ss, h, by simp, rfl⟩
  | case5 done text depth source rest ih =>
    have hdepth := hinner _ rfl
    rw [ih (by simp)]
    simp only [Scanned]
    rw [closes_cons depth (by simp; omega) (by simp)]
    simp
  | case6 done text depth source rest hdepth _ ih =>
    rw [ih (by simp)]
    simp only [Scanned]
    rw [Nat.sub_eq_zero_of_le hdepth, closes_now]
    simp
  | case7 done text depth source rest _ hdepth ih =>
    rw [ih (by simp; omega)]
    simp only [Scanned]
    rw [closes_cons (depth - 1 - 1) (by simp; omega) (by omega)]
    simp
  | case8 done text depth source c rest hopen hclose ih =>
    rw [ih (by simpa using hinner)]
    simp only [Scanned]
    rw [closes_cons (depth - 1) (by simp [hopen, hclose]) (.inr hclose)]
    simp

theorem yields_splitTemplate?_iff :
    Yields (splitTemplate? raw) texts sources ↔ Decomposition raw texts sources := by
  rw [splitTemplate?, splitFrom_yields [] [] none raw (by simp)]
  constructor
  · rintro ⟨t, ts, ss, h, rfl, rfl⟩
    exact h
  · intro h
    cases texts with
    | nil => exact absurd h.count (by simp)
    | cons t ts => exact ⟨t, ts, sources, h, rfl, rfl⟩

theorem source_infix {source : List Char} (h : source ∈ sources)
    (hcount : texts.length = sources.length + 1) : source <:+: interleaved texts sources := by
  induction sources generalizing texts with
  | nil => cases h
  | cons s sources ih =>
    cases texts with
    | nil => cases hcount
    | cons text texts =>
      rcases List.mem_cons.1 h with rfl | h
      · exact ⟨text ++ ['$', '\x7b'], '\x7d' :: interleaved texts sources, by simp [interleaved]⟩
      · refine (ih h (by simpa using hcount)).trans (List.IsSuffix.isInfix ?_)
        exact ⟨text ++ '$' :: '\x7b' :: s ++ ['\x7d'], by simp [interleaved]⟩

/-- A template is split into the texts and sources of its one decomposition.  If it has none, then
    an embedded source is not closed. -/
theorem splitTemplate_finds_decomposition (raw : List Char) :
    (∀ p, splitTemplate raw = .ok p → Decomposition raw p.texts p.sources ∧
      ∀ texts sources, Decomposition raw texts sources → texts = p.texts ∧ sources = p.sources) ∧
    (splitTemplate raw = .error .unclosed ↔ ∀ texts sources, ¬ Decomposition raw texts sources) ∧
    TemplateError.unclosed.message = "unterminated template expression" := by
  rw [splitTemplate]
  cases hsplit : splitTemplate? raw with
  | none =>
    refine ⟨by simp, ⟨fun _ texts sources h => ?_, fun _ => rfl⟩, rfl⟩
    obtain ⟨p, hp, -⟩ := yields_splitTemplate?_iff.2 h
    cases hsplit.symm.trans hp
  | some p =>
    have hp : Decomposition raw p.texts p.sources :=
      yields_splitTemplate?_iff.1 ⟨p, hsplit, rfl, rfl⟩
    refine ⟨?_, ⟨by simp, fun h => absurd hp (h _ _)⟩, rfl⟩
    rintro _ ⟨⟩
    refine ⟨hp, fun texts sources h => ?_⟩
    obtain ⟨p', hp', rfl, rfl⟩ := yields_splitTemplate?_iff.2 h
    cases hsplit.symm.trans hp'
    exact ⟨rfl, rfl⟩

/-- Braces inside of a source are part of it, and a closing brace outside is text. -/
example : splitTemplate? "a\x7d$$\x7bf(\x7b\x7d)\x7d!".toList =
    some ⟨[("a\x7d$".toList, "f(\x7b\x7d)".toList)], "!".toList⟩ := by
  decide

end EventLoop.Source
