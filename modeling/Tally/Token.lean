import Tally.Position

namespace Tally

inductive Token.Kind where
  | int | string | ident
  | plus | assign
  | lparen | rparen | lbrace | rbrace | comma | semicolon | colon
  | funcWord | returnWord | whileWord
  | eof
deriving DecidableEq, Repr

namespace Token.Kind

def text : Kind → String
  | int => "INT"
  | string => "STRING"
  | ident => "IDENT"
  | plus => "+"
  | assign => "="
  | lparen => "("
  | rparen => ")"
  | lbrace => "\x7b"
  | rbrace => "\x7d"
  | comma => ","
  | semicolon => ";"
  | colon => ":"
  | funcWord => "func"
  | returnWord => "return"
  | whileWord => "while"
  | eof => "EOF"

def ofWord (word : String) : Kind :=
  if word = "func" then funcWord
  else if word = "return" then returnWord
  else if word = "while" then whileWord
  else ident

def ofChar? : Char → Option Kind
  | '+' => some plus
  | '=' => some assign
  | '(' => some lparen
  | ')' => some rparen
  | '\x7b' => some lbrace
  | '\x7d' => some rbrace
  | ',' => some comma
  | ';' => some semicolon
  | ':' => some colon
  | _ => none

end Token.Kind

namespace Precedence

def lowest : Nat := 1

def sum : Nat := 2

def call : Nat := 3

end Precedence

def Token.Kind.precedence : Token.Kind → Nat
  | .plus => Precedence.sum
  | .lparen => Precedence.call
  | _ => Precedence.lowest

structure Token where
  kind : Token.Kind
  text : String
  start : Position
deriving DecidableEq, Repr

end Tally
