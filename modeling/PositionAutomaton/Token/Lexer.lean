import PositionAutomaton.Error
import PositionAutomaton.Token.Basic

/-!
# Reading tokens

Each character of an expression is one token. The first character that is none is reported
with its offset.
-/

namespace PositionAutomaton

/-- The kind of token a character is written for in an expression: operators, parentheses
and the letters of ASCII. -/
def Kind.ofChar? : Char → Option Kind
  | '(' => some opening
  | ')' => some closing
  | '*' => some star
  | '|' => some bar
  | c => if c.isAlpha then some letter else none

namespace Token

/-- The token that the character `c` at `offset` is, in lower case if case is folded. -/
def ofChar (foldCase : Bool) (offset : Offset) (c : Char) : Except Error Token :=
  match Kind.ofChar? c with
  | some kind => .ok ⟨kind, if foldCase then c.toLower else c, offset⟩
  | none =>
    .error (.malformed offset (if c = endSign then .reservedCharacter c else .invalidCharacter c))

/-- The tokens of some characters, of which the first is at `offset`. -/
def scanFrom (foldCase : Bool) (offset : Offset) : List Char → Except Error (List Token)
  | [] => .ok []
  | c :: cs => do
    let token ← ofChar foldCase offset c
    let tokens ← scanFrom foldCase ⟨offset.bytes + c.utf8Size⟩ cs
    return token :: tokens

/-- The tokens of the text `expression`. -/
def scan (foldCase : Bool) (expression : String) : Except Error (List Token) :=
  scanFrom foldCase {} expression.toList

end Token

end PositionAutomaton
