/-!
Where the code between braces ends. Braces in string, raw-string and character literals do not count;
a quote that opens no literal is an ordinary character.
-/

namespace LiveMarkup.Template.Code

def stringLength? : List Char → Option Nat
  | [] => none
  | '"' :: _ => some 1
  | '\\' :: _ :: rest => (stringLength? rest).map (· + 2)
  | _ :: rest => (stringLength? rest).map (· + 1)

/-- The length of a raw string's text and closing quote, with `hashes` behind that quote. -/
def rawLength? (hashes : Nat) : List Char → Option Nat
  | [] => none
  | c :: rest =>
    if c = '"' ∧ rest.take hashes = List.replicate hashes '#' then some (1 + hashes)
    else (rawLength? hashes rest).map (· + 1)

/-- The length of a character literal after the opening quote: one character or an escape. -/
def charLength? : List Char → Option Nat
  | '\\' :: rest =>
    let escaped := rest.takeWhile (· ≠ '\'')
    if (rest.drop escaped.length).isEmpty then none else some (escaped.length + 2)
  | c :: '\'' :: _ => if c = '\'' then none else some 2
  | _ => none

def unitLength (c : Char) (rest : List Char) : Nat :=
  if c = 'r' then
    let hashes := (rest.takeWhile (· = '#')).length
    match rest.drop hashes with
    | '"' :: body => match rawLength? hashes body with
      | some n => 2 + hashes + n
      | none => 1
    | _ => 1
  else if c = '"' then
    match stringLength? rest with
    | some n => 1 + n
    | none => 1
  else if c = '\'' then
    match charLength? rest with
    | some n => 1 + n
    | none => 1
  else 1

/-- The length of code up to the brace that closes it, from inside `depth` open braces. -/
def lengthToClose? (depth : Nat) : List Char → Option Nat
  | [] => none
  | c :: rest =>
    if c = '\x7d' then
      match depth with
      | 0 => some 0
      | depth + 1 => (lengthToClose? depth rest).map (· + 1)
    else if c = '\x7b' then (lengthToClose? (depth + 1) rest).map (· + 1)
    else
      let n := unitLength c rest - 1
      (lengthToClose? depth (rest.drop n)).map (· + (n + 1))
termination_by cs => cs.length
decreasing_by all_goals (simp only [List.length_cons, List.length_drop]; omega)

end LiveMarkup.Template.Code
