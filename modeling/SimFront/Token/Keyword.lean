/-!
# Reserved words

The reserved words of the language.  Only the spelling in capitals is reserved:
`begin` and `Begin` are ordinary names.  `Keyword.ofText?` reads a spelling and
`Keyword.text` writes it; each is the other's inverse.
-/

namespace SimFront

/-- The reserved words, each named by its own spelling. -/
inductive Keyword where
  | AND | ARRAY | AS | ASK | BEGIN | BY | CASE | CLASS | CONST | DEFINITION | DISPOSE | DIV
  | DO | DOWNTO | DURATION | ELSE | ELSIF | END | ENUM | EXIT | EXPORT | FALSE | FOR | FOREACH
  | FROM | IF | IMPLEMENTATION | IMPORT | IN | INHERITED | INOUT | INTERRUPT | LOOP | MAIN
  | METHOD | MOD | MODULE | NEW | NIL | NILARRAY | NILOBJ | NILREC | NOT | OBJECT | OF | ON
  | OR | OTHERWISE | OUT | OVERRIDE | POINTER | PRIVATE | PROCEDURE | RECORD | REPEAT | RETURN
  | SELF | SET | TELL | TERMINATE | THEN | TO | TRUE | TYPE | UNTIL | VAR | WAIT | WAITFOR
  | WHEN | WHILE | WITH
deriving DecidableEq, Repr, Inhabited

namespace Keyword

/-- All reserved words, in alphabetical order. -/
def all : List Keyword :=
  [AND, ARRAY, AS, ASK, BEGIN, BY, CASE, CLASS, CONST, DEFINITION, DISPOSE, DIV, DO, DOWNTO,
   DURATION, ELSE, ELSIF, END, ENUM, EXIT, EXPORT, FALSE, FOR, FOREACH, FROM, IF,
   IMPLEMENTATION, IMPORT, IN, INHERITED, INOUT, INTERRUPT, LOOP, MAIN, METHOD, MOD, MODULE,
   NEW, NIL, NILARRAY, NILOBJ, NILREC, NOT, OBJECT, OF, ON, OR, OTHERWISE, OUT, OVERRIDE,
   POINTER, PRIVATE, PROCEDURE, RECORD, REPEAT, RETURN, SELF, SET, TELL, TERMINATE, THEN, TO,
   TRUE, TYPE, UNTIL, VAR, WAIT, WAITFOR, WHEN, WHILE, WITH]

/-- The spelling of a reserved word. -/
def text : Keyword → String
  | AND => "AND" | ARRAY => "ARRAY" | AS => "AS" | ASK => "ASK" | BEGIN => "BEGIN"
  | BY => "BY" | CASE => "CASE" | CLASS => "CLASS" | CONST => "CONST"
  | DEFINITION => "DEFINITION" | DISPOSE => "DISPOSE" | DIV => "DIV" | DO => "DO"
  | DOWNTO => "DOWNTO" | DURATION => "DURATION" | ELSE => "ELSE" | ELSIF => "ELSIF"
  | END => "END" | ENUM => "ENUM" | EXIT => "EXIT" | EXPORT => "EXPORT" | FALSE => "FALSE"
  | FOR => "FOR" | FOREACH => "FOREACH" | FROM => "FROM" | IF => "IF"
  | IMPLEMENTATION => "IMPLEMENTATION" | IMPORT => "IMPORT" | IN => "IN"
  | INHERITED => "INHERITED" | INOUT => "INOUT" | INTERRUPT => "INTERRUPT" | LOOP => "LOOP"
  | MAIN => "MAIN" | METHOD => "METHOD" | MOD => "MOD" | MODULE => "MODULE" | NEW => "NEW"
  | NIL => "NIL" | NILARRAY => "NILARRAY" | NILOBJ => "NILOBJ" | NILREC => "NILREC"
  | NOT => "NOT" | OBJECT => "OBJECT" | OF => "OF" | ON => "ON" | OR => "OR"
  | OTHERWISE => "OTHERWISE" | OUT => "OUT" | OVERRIDE => "OVERRIDE" | POINTER => "POINTER"
  | PRIVATE => "PRIVATE" | PROCEDURE => "PROCEDURE" | RECORD => "RECORD" | REPEAT => "REPEAT"
  | RETURN => "RETURN" | SELF => "SELF" | SET => "SET" | TELL => "TELL"
  | TERMINATE => "TERMINATE" | THEN => "THEN" | TO => "TO" | TRUE => "TRUE" | TYPE => "TYPE"
  | UNTIL => "UNTIL" | VAR => "VAR" | WAIT => "WAIT" | WAITFOR => "WAITFOR" | WHEN => "WHEN"
  | WHILE => "WHILE" | WITH => "WITH"

/-- The reserved word with exactly this spelling. -/
def ofText? (s : String) : Option Keyword := all.find? (·.text == s)

end Keyword

/-- Whether a name is reserved. -/
def isReserved (s : String) : Bool := (Keyword.ofText? s).isSome

/-! ## Lemmas -/

namespace Keyword

theorem mem_all (k : Keyword) : k ∈ all := by cases k <;> decide

/-- No two reserved words share a spelling. -/
theorem ofText?_text_of_mem : ∀ k ∈ all, ofText? k.text = some k := by decide +kernel

theorem ofText?_text (k : Keyword) : ofText? k.text = some k := ofText?_text_of_mem k (mem_all k)

theorem text_of_ofText? {s : String} {k : Keyword} (h : ofText? s = some k) : k.text = s := by
  simpa using List.find?_some h

end Keyword

end SimFront
