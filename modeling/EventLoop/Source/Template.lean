/-
  The parts of a template: literal text, and the sources of the expressions embedded in it.
-/
namespace EventLoop.Source

/-- A template taken apart: each embedded source with the text before it, and the text after the
last one. -/
structure TemplateParts where
  spans : List (List Char × List Char)
  tail : List Char
  deriving DecidableEq, Repr

/-- The literal texts, one more than there are sources. -/
def TemplateParts.texts (p : TemplateParts) : List (List Char) := p.spans.map (·.1) ++ [p.tail]

/-- The embedded sources. -/
def TemplateParts.sources (p : TemplateParts) : List (List Char) := p.spans.map (·.2)

/-- Splits the rest of a template. `done` holds the spans so far, last one first, and `text` the
literal text since, last character first. Inside an embedded source, `inner` gives the number of
open braces and the source so far, last character first. -/
def splitFrom (done : List (List Char × List Char)) (text : List Char) :
    Option (Nat × List Char) → List Char → Option TemplateParts
  | none, [] => some ⟨done.reverse, text.reverse⟩
  | some _, [] => none
  | none, '$' :: '\x7b' :: rest => splitFrom done text (some (1, [])) rest
  | none, c :: rest => splitFrom done (c :: text) none rest
  | some (depth, source), c :: rest =>
    if c = '\x7b' then splitFrom done text (some (depth + 1, c :: source)) rest
    else if c = '\x7d' then
      if depth ≤ 1 then splitFrom ((text.reverse, source.reverse) :: done) [] none rest
      else splitFrom done text (some (depth - 1, c :: source)) rest
    else splitFrom done text (some (depth, c :: source)) rest

/-- Splits the text between the quotes of a template; `none` if an embedded source is not closed. -/
def splitTemplate? (raw : List Char) : Option TemplateParts := splitFrom [] [] none raw

/-- Why a template cannot be split: an embedded source is not closed. -/
inductive TemplateError
  | unclosed
  deriving DecidableEq, Repr

def TemplateError.message : TemplateError → String
  | .unclosed => "unterminated template expression"

/-- Splits the text between the quotes of a template, or says why this is not possible. -/
def splitTemplate (raw : List Char) : Except TemplateError TemplateParts :=
  match splitTemplate? raw with
  | some parts => .ok parts
  | none => .error .unclosed

end EventLoop.Source
