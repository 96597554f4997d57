import Tally.Program

namespace Tally

/-- The four lower-case hexadecimal digits of a code point below `16 ^ 4`. -/
def fourHexDigits (n : Nat) : List Char :=
  [n / 4096 % 16, n / 256 % 16, n / 16 % 16, n % 16].map Nat.digitChar

def escapeChar (c : Char) : List Char :=
  match c with
  | '"' => ['\\', '"']
  | '\\' => ['\\', '\\']
  | '\x08' => ['\\', 'b']
  | '\t' => ['\\', 't']
  | '\n' => ['\\', 'n']
  | '\x0c' => ['\\', 'f']
  | '\r' => ['\\', 'r']
  | c => if c.toNat < 0x20 then '\\' :: 'u' :: fourHexDigits c.toNat else [c]

def quoted (s : String) : String :=
  String.ofList ('"' :: s.toList.flatMap escapeChar ++ ['"'])

def commaSeparated (parts : List String) : String := String.intercalate ", " parts

mutual

def Expr.text : Expr → String
  | .int digits _ => digits
  | .ident name => name.text
  | .add left _ right => "(" ++ left.text ++ " + " ++ right.text ++ ")"
  | .call callee _ args => callee.text ++ "(" ++ commaSeparated (Expr.texts args) ++ ")"

def Expr.texts : List Expr → List String
  | [] => []
  | e :: es => e.text :: Expr.texts es

end

def inBraces (parts : List String) : String := "\x7b " ++ String.intercalate "; " parts ++ " \x7d"

mutual

def Stmt.text : Stmt → String
  | .block _ body => inBraces (Stmt.texts body)
  | .loop _ condition body => "while (" ++ condition.text ++ ") " ++ body.text
  | .ret _ value => "return " ++ value.text
  | .eval e => e.text

def Stmt.texts : List Stmt → List String
  | [] => []
  | s :: ss => s.text :: Stmt.texts ss

end

def Param.text (p : Param) : String := p.name.text ++ ": " ++ p.type.text

def Header.text (h : Header) : String :=
  "func " ++ h.name.text ++ "(" ++ commaSeparated (h.params.map Param.text) ++ "): " ++ h.result.text

def Item.text : Item → String
  | .definition d => d.header.text ++ " " ++ d.block.text
  | .prototype p => p.header.text ++ " = " ++ quoted p.primitive
  | .stmt s => s.text

def Program.text (p : Program) : String := String.intercalate "\n" (p.items.map Item.text)

end Tally
