import ParetoSweep.Formula.Grammar

/-!
# Formulas

A formula is a text together with the term that it was read as. It is read once and may then be evaluated under many
bindings; `Formula.check` tells beforehand whether an evaluation would succeed when just the given names are bound.
-/

namespace ParetoSweep

/-- A text and its term. -/
structure Formula where
  source : String
  term : Term

namespace Formula

/-- Reads a formula. -/
def parse (source : String) : Except Fault Formula := do
  let tokens ← Token.scan source
  let term ← Term.ofTokens tokens
  return ⟨source, term⟩

/-- A formula in writing is the text it was read from. -/
instance : ToString Formula := ⟨Formula.source⟩

/-- The value of a formula. -/
def eval (formula : Formula) (bindings : Bindings) : Evaluation Float := formula.term.eval bindings

/-- Reads and evaluates a text. -/
def evaluate (source : String) (bindings : Bindings) : Evaluation Float :=
  match parse source with
  | .ok formula => formula.eval bindings
  | .error fault => throw fault

/-- The outcome of an evaluation as a number, NaN standing for every failure. -/
def orNaN : Except Fault Float → Float
  | .ok value => value
  | .error _ => Number.nan

/-- Whether a text is a formula over the given names. -/
def check (source : String) (names : List String) : Except Fault Unit :=
  let (outcome, _) := (evaluate source (names.map fun name => (name, 1.0))).run (.ofSeed 0)
  outcome.map fun _ => ()

/-- The result of a check in words. -/
def diagnosis (source : String) (names : List String) : String :=
  match check source names with
  | .ok () => "Valid Expression"
  | .error fault => "Error: " ++ fault.message

end Formula
end ParetoSweep
