/-!
# Tokens

The words of the formula language.
-/

namespace PetriReach

/-- The classes of tokens. -/
inductive Token.Kind where
  | identifier | integer | tt | ff
  | and | or | minus | plus | star
  | le | lt | ge | gt | eq | ne
  | lparen | rparen | eof
  deriving DecidableEq, Repr

/-- A word with its class and the byte column of its first character, counted from 1. -/
structure Token where
  kind : Token.Kind
  text : String
  column : Nat
  deriving DecidableEq, Repr

namespace Token.Kind

/-- The name of a class in messages. -/
def name : Kind → String
  | identifier => "identifier"
  | integer => "integer"
  | tt => "T"
  | ff => "F"
  | and => "/\\"
  | or => "\\/"
  | minus => "-"
  | plus => "+"
  | star => "*"
  | le => "<="
  | lt => "<"
  | ge => ">="
  | gt => ">"
  | eq => "="
  | ne => "!="
  | lparen => "("
  | rparen => ")"
  | eof => "EOF"

/-- All classes. -/
def all : List Kind :=
  [identifier, integer, tt, ff, and, or, minus, plus, star, le, lt, ge, gt, eq, ne, lparen, rparen,
    eof]

/-- The class with a given name. -/
def ofName? (s : String) : Option Kind :=
  all.find? (·.name = s)

end Token.Kind

end PetriReach
