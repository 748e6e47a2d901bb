/-!
# Comments

A comment is written in braces or between `(*` and `*)`.  The two forms nest in
each other; a closer counts only when it matches the innermost open form, and
is ordinary text otherwise.  `Comment.length?` measures a comment with a stack
of open forms.
-/

namespace SimFront.Comment

/-- The two ways of writing a comment. -/
inductive Form where
  | brace
  | paren
deriving DecidableEq, Repr

/-- Number of characters up to the closer that empties the stack of open forms,
added to `n`; none when the text ends first. -/
def skip? : List Form → Nat → List Char → Option Nat
  | [], n, _ => some n
  | _ :: _, _, [] => none
  | .brace :: outer, n, '\x7d' :: cs => skip? outer (n + 1) cs
  | .paren :: outer, n, '*' :: ')' :: cs => skip? outer (n + 2) cs
  | form :: outer, n, '\x7b' :: cs => skip? (.brace :: form :: outer) (n + 1) cs
  | form :: outer, n, '(' :: '*' :: cs => skip? (.paren :: form :: outer) (n + 2) cs
  | form :: outer, n, _ :: cs => skip? (form :: outer) (n + 1) cs

/-- Length of the comment text that follows an opener of the given form, its
closer included; none when the comment is never closed. -/
def length? (form : Form) (cs : List Char) : Option Nat := skip? [form] 0 cs

end SimFront.Comment
