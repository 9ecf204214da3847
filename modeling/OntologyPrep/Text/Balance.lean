/-!
# Balanced texts

`Balance.isBalanced` holds of a text in which every parenthesis and every quote has its partner.
Parentheses inside string literals and comments do not count, and neither do quotes inside comments.
-/

namespace OntologyPrep.Balance

/-- what the characters read so far leave open besides parentheses -/
inductive Within where
  | code
  | comment
  | quoted
  | escape
  deriving DecidableEq, Repr

/-- the number of open parentheses, and what else is open -/
structure State where
  depth : Nat
  within : Within
  deriving DecidableEq, Repr

/-- one more character; nothing after a closing parenthesis without a partner -/
def step (s : State) (c : Char) : Option State :=
  match s.within with
  | .comment => some ⟨s.depth, if c = '\n' then .code else .comment⟩
  | .escape => some ⟨s.depth, .quoted⟩
  | .quoted =>
    some ⟨s.depth, if c = '\\' then .escape else if c = '\x22' then .code else .quoted⟩
  | .code =>
    if c = '\x22' then some ⟨s.depth, .quoted⟩
    else if c = ';' then some ⟨s.depth, .comment⟩
    else if c = '(' then some ⟨s.depth + 1, .code⟩
    else if c = ')' then if s.depth = 0 then none else some ⟨s.depth - 1, .code⟩
    else some s

/-- nothing is left open; a comment may end with the text -/
def State.closed (s : State) : Bool :=
  s.depth = 0 && (s.within = .code || s.within = .comment)

/-- parentheses and quotes pair up -/
def isBalanced (text : String) : Bool :=
  (text.toList.foldlM step ⟨0, .code⟩).any State.closed

end OntologyPrep.Balance
