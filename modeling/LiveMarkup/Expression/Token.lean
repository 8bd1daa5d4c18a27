/-!
The tokens of embedded code: identifiers, punctuation, literals and groups in brackets.
-/

namespace LiveMarkup.Expression

/-- The value of a literal as far as it can be told from its spelling. Numbers keep their suffix; a float
keeps its spelling beside its digits. -/
inductive Literal where
  | text (value : String)
  | char (value : Char)
  | bool (value : Bool)
  | int (value : Nat) (suffix : String)
  | float (digits suffix spelling : String)
  /-- A byte, a byte string or a null-terminated string. -/
  | bytes
  deriving Repr, BEq, DecidableEq

inductive Delimiter where
  | paren | bracket | brace
  deriving Repr, BEq, DecidableEq

/-- A token; `joint` says that more punctuation follows without a gap. -/
inductive Token where
  | ident (name : String)
  | punct (char : Char) (joint : Bool)
  | literal (value : Literal)
  | group (delimiter : Delimiter) (content : List Token)
  deriving Repr, Inhabited

namespace Token

def size : Token → Nat
  | .group _ content => 2 + sizes content
  | _ => 1
where
  sizes : List Token → Nat
    | [] => 0
    | token :: rest => size token + sizes rest

end Token
end LiveMarkup.Expression
