import ParetoSweep.Formula.Fault
import ParetoSweep.Formula.Operator
import ParetoSweep.Number.Numeral
import ParetoSweep.Number.Text

/-!
# Tokens of a formula

A formula is made of numerals, words, operators, brackets and commas, with blanks anywhere between them. Everything but
a stray character is ASCII, so the offset of a token in characters is its offset in bytes.
-/

namespace ParetoSweep

/-- What a token is. -/
inductive Token.Kind where
  | number (value : Float)
  | word (name : String)
  | operator (op : Operator)
  | opening (bracket : Bracket)
  | closing (bracket : Bracket)
  | comma
deriving DecidableEq

/-- A token and where it starts. -/
structure Token where
  kind : Token.Kind
  position : Nat
deriving DecidableEq

namespace Token

/-- The text that messages show for a token; a number is shown by its value. -/
def Kind.text : Kind → String
  | number value => Number.text value
  | word name => name
  | operator op => op.symbol.toString
  | opening bracket => bracket.opening.toString
  | closing bracket => bracket.closing.toString
  | comma => ","

/-- Space, tab, line feed, form feed and carriage return. -/
def isBlank (c : Char) : Bool := c == ' ' || c == '\t' || c == '\n' || c == '\x0c' || c == '\r'

/-- What a word starts with. -/
def startsWord (c : Char) : Bool := c.isAlpha || c == '_'

/-- What a word goes on with. -/
def continuesWord (c : Char) : Bool := c.isAlphanum || c == '_'

/-- The token of one character that a sign stands for. -/
def Kind.ofSign? : Char → Option Kind
  | '(' => some (opening .round)
  | '[' => some (opening .square)
  | ')' => some (closing .round)
  | ']' => some (closing .square)
  | ',' => some comma
  | c => (Operator.ofSymbol? c).map operator

/-- The tokens of a text that starts at a given offset. -/
def scanFrom (offset : Nat) : List Char → Except Fault (List Token)
  | [] => .ok []
  | c :: cs =>
    if isBlank c then scanFrom (offset + 1) cs
    else if startsWord c then do
      let tail := cs.takeWhile continuesWord
      let tokens ← scanFrom (offset + 1 + tail.length) (cs.dropWhile continuesWord)
      return ⟨.word (String.ofList (c :: tail)), offset⟩ :: tokens
    else if c.isDigit ∨ c = '.' then
      let numeral := (Numeral.scan (c :: cs)).1
      match numeral.value? with
      | none => .error (.invalidNumber (String.ofList numeral.text) offset)
      | some value => do
        let tokens ← scanFrom (offset + numeral.text.length) (Numeral.scan (c :: cs)).2
        return ⟨.number value, offset⟩ :: tokens
    else
      match Kind.ofSign? c with
      | none => .error (.unexpectedChar c offset)
      | some kind => do
        let tokens ← scanFrom (offset + 1) cs
        return ⟨kind, offset⟩ :: tokens
termination_by cs => cs.length
decreasing_by
  · simp
  · exact Nat.lt_succ_of_le (List.dropWhile_suffix continuesWord).length_le
  · exact Numeral.length_scan_lt cs (by assumption)
  · simp

/-- The tokens of a formula. -/
def scan (source : String) : Except Fault (List Token) := scanFrom 0 source.toList

end Token
end ParetoSweep
