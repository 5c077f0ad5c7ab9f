import Calculator.Parser.Rules

/-!
# Parsing a text

A text is parsed as one expression. Spaces may follow it, and nothing else.
-/

namespace Calculator.Parser

/-- Parse a whole text as one expression, with at most `limit` factors open at once. -/
def parse (limit : Nat) (text : List Char) : Reply Expr :=
  match (chain .sum (.start limit text)).reply with
  | ⟨.error failure, s⟩ => ⟨.error failure, s⟩
  | ⟨.ok e, s⟩ =>
    let t := s.skipSpaces
    if t.cursor.atEnd then ⟨.ok e, t⟩
    else ⟨.error ⟨.trailingInput (String.ofList t.cursor.rest), t.cursor.position⟩, t⟩

end Calculator.Parser
