/-
  What can go wrong: the causes of failure, and the reports shown for them.
-/
namespace EventLoop

/-- The family a report belongs to. -/
inductive Category where
  /-- The source could not be read. -/
  | source
  /-- A ceiling on steps, length, depth or microtasks was exceeded. -/
  | complexity
  /-- A program that was read could not be carried out. -/
  | analysis
  /-- A step sequence could not be replayed. -/
  | replay
  deriving DecidableEq, Repr, Inhabited

/-- The word that opens a report of this family. -/
def Category.label : Category → String
  | .source => "SyntaxError"
  | .complexity => "ComplexityError"
  | .analysis => "AnalysisError"
  | .replay => "RuntimeReplayError"

/-- A failure as it is reported: its family and its text. -/
structure Report where
  category : Category
  message : String
  deriving DecidableEq, Repr, Inhabited

/-- The report on one line. -/
def Report.text (r : Report) : String := r.category.label ++ ": " ++ r.message

/-- The causes of failure. -/
inductive Fault where
  /-- The source is no text, or a blank one. -/
  | invalidSource
  /-- The source is longer than the limit. -/
  | sourceTooLong
  /-- The source is no program of the language. -/
  | malformedSource
  /-- A generation was asked for while another one was running. -/
  | generationActive
  /-- No further step fits under the step limit. -/
  | stepLimit
  /-- More microtasks were run than the limit allows. -/
  | microtaskLimit
  /-- A call was made with as many frames active as the limit allows. -/
  | callDepth
  /-- A node that is no statement was executed. -/
  | unsupportedStatement (node : String)
  /-- A node that is no expression was evaluated. -/
  | unsupportedExpression (node : String)
  /-- An operator that does not exist was applied. -/
  | unsupportedOperator (operator : String)
  /-- A number has no double near it, or no integer. -/
  | numberTooLarge
  /-- An integer has more digits than are turned to text. -/
  | tooManyDigits
  /-- The text of an array that contains itself has no end. -/
  | endlessText
  /-- A frame callback was due that is no longer registered. -/
  | frameMissing
  deriving DecidableEq, Repr, Inhabited

/-- How a failed generation is reported. A failure of the evaluation itself, such as a number that
is too large, is not shown in detail. -/
def Fault.report : Fault → Report
  | .invalidSource => ⟨.source, "Invalid code input"⟩
  | .sourceTooLong => ⟨.complexity, "Code exceeds maximum length"⟩
  | .malformedSource => ⟨.source, "Syntax error in code"⟩
  | .generationActive => ⟨.analysis, "Generation already in progress"⟩
  | .stepLimit => ⟨.complexity, "Code complexity exceeds limit"⟩
  | .microtaskLimit => ⟨.complexity, "Too many microtasks"⟩
  | .callDepth | .endlessText => ⟨.complexity, "Maximum call stack size exceeded"⟩
  | .unsupportedStatement node => ⟨.analysis, "Unsupported statement: " ++ node⟩
  | .unsupportedExpression node => ⟨.analysis, "Unsupported expression: " ++ node⟩
  | .unsupportedOperator operator => ⟨.analysis, "Unsupported operator: " ++ operator⟩
  | .numberTooLarge | .tooManyDigits | .frameMissing => ⟨.analysis, "Error analyzing code"⟩

end EventLoop
