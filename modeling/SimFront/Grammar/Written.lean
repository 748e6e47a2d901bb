import SimFront.Numeral.Binary64
import SimFront.Token.Basic
import SimFront.Tree.Stmt

/-!
# How trees are written

The tokens that a tree can be written as.  An expression is written on a level: an operand on
a looser level than its place allows stands in parentheses, and any other may.  After each
statement stands a semicolon, and before each arm of a CASE statement WHEN.  What may be left
out, may be left out at each place: the word of the construct after END, DO after the head of
a loop, OF after that of a CASE, TO before a method, and the parentheses of a method call
without arguments where no other parenthesis follows.  The spans of the tokens are free.

The relations take the one for nested trees as their first argument; `WrittenExpr` and
`WrittenBlock` tie them together.
-/

namespace SimFront

variable {α : Type}

/-! ## Operators -/

namespace UnaryOp

/-- The kind of the token that writes an operator. -/
def kind : UnaryOp → TokenKind
  | not => .word .NOT
  | neg => .mark .minus
  | plus => .mark .plus

end UnaryOp

namespace BinaryOp

/-- How tightly an operator binds. -/
def precedence : BinaryOp → Nat
  | or => 0
  | and => 1
  | eq | notEq => 2
  | lt | ltEq | gt | gtEq | in_ => 3
  | add | sub => 4
  | mul | div | intDiv | mod => 5

/-- The kinds of the tokens that write an operator. -/
def kinds : BinaryOp → List TokenKind
  | or => [.word .OR]
  | and => [.word .AND]
  | eq => [.mark .eq]
  | notEq => [.mark .notEq, .mark .hash]
  | lt => [.mark .lt]
  | ltEq => [.mark .ltEq]
  | gt => [.mark .gt]
  | gtEq => [.mark .gtEq]
  | in_ => [.word .IN]
  | add => [.mark .plus]
  | sub => [.mark .minus]
  | mul => [.mark .star]
  | div => [.mark .slash]
  | intDiv => [.word .DIV]
  | mod => [.word .MOD]

end BinaryOp

namespace NilKind

/-- The word that writes NIL or one of its variants. -/
def word : NilKind → Keyword
  | nil => .NIL
  | nilObj => .NILOBJ
  | nilRec => .NILREC
  | nilArray => .NILARRAY

end NilKind

/-! ## Sequences -/

/-- A token that may be left out. -/
inductive WrittenOrNot (k : TokenKind) : List Token → Prop
  | absent : WrittenOrNot k []
  | present {t : Token} (ht : t.kind = k) : WrittenOrNot k [t]

/-- One after the other. -/
inductive WrittenEach (one : α → List Token → Prop) : List α → List Token → Prop
  | nil : WrittenEach one [] []
  | cons {a : α} {as : List α} {ts us : List Token} (ha : one a ts)
      (has : WrittenEach one as us) : WrittenEach one (a :: as) (ts ++ us)

/-- One or more with commas between them. -/
inductive WrittenList (one : α → List Token → Prop) : List α → List Token → Prop
  | last {a : α} {ts : List Token} (ha : one a ts) : WrittenList one [a] ts
  | more {a : α} {as : List α} {ts us : List Token} {comma : Token} (ha : one a ts)
      (hcomma : comma.kind = .mark .comma) (has : WrittenList one as us) :
      WrittenList one (a :: as) (ts ++ comma :: us)

/-- A part that is there or not, after words that announce it. -/
inductive WrittenOption (leads : List (List TokenKind)) (one : α → List Token → Prop) :
    Option α → List Token → Prop
  | none : WrittenOption leads one none []
  | some {a : α} {ls ts : List Token} (hlead : ls.map (·.kind) ∈ leads) (ha : one a ts) :
      WrittenOption leads one (some a) (ls ++ ts)

/-! ## Expressions -/

/-- The expressions that are one token. -/
inductive WrittenToken : Expr → Token → Prop
  | name {t : Token} (ht : t.kind = .ident) (span : Span) : WrittenToken (.name ⟨t.text, span⟩) t
  | integer {t : Token} {value : Nat} (ht : t.kind = .integer)
      (hvalue : Numeral.integer? t.text = some value) (span : Span) :
      WrittenToken (.integer value span) t
  | real {t : Token} {bits : UInt64} (ht : t.kind = .real)
      (hbits : Numeral.realBits t.text = bits) (span : Span) : WrittenToken (.real bits span) t
  | string {t : Token} {value : String} (ht : t.kind = .string)
      (hvalue : t.stringValue? = some value) (span : Span) : WrittenToken (.string value span) t
  | char {t : Token} {value : Char} (ht : t.kind = .char) (hvalue : t.charValue? = some value)
      (span : Span) : WrittenToken (.char value span) t
  | true {t : Token} (ht : t.kind = .word .TRUE) (span : Span) : WrittenToken (.bool true span) t
  | false {t : Token} (ht : t.kind = .word .FALSE) (span : Span) :
      WrittenToken (.bool false span) t
  | nil {t : Token} {kind : NilKind} (ht : t.kind = .word kind.word) (span : Span) :
      WrittenToken (.nil kind span) t
  | selfRef {t : Token} (ht : t.kind = .word .SELF) (span : Span) : WrittenToken (.selfRef span) t

section Nested

variable (expr : Expr → List Token → Prop)

/-- Arguments in parentheses. -/
inductive WrittenArgs : List Expr → List Token → Prop
  | none {opener closer : Token} (hopener : opener.kind = .mark .lParen)
      (hcloser : closer.kind = .mark .rParen) : WrittenArgs [] [opener, closer]
  | some {opener closer : Token} {es : List Expr} {ts : List Token}
      (hopener : opener.kind = .mark .lParen) (hes : WrittenList expr es ts)
      (hcloser : closer.kind = .mark .rParen) : WrittenArgs es (opener :: (ts ++ [closer]))

/-- The name of a method, its arguments, and the level on which they stand.  If there are no
arguments the parentheses can be left out, but then none can follow. -/
inductive WrittenMethod : Ident → List Expr → List Token → (level : Nat) → Prop
  | called {name : Token} {args : List Expr} {ts : List Token} (hname : name.kind = .ident)
      (hargs : WrittenArgs expr args ts) (span : Span) :
      WrittenMethod ⟨name.text, span⟩ args (name :: ts) 8
  | bare {name : Token} (hname : name.kind = .ident) (span : Span) :
      WrittenMethod ⟨name.text, span⟩ [] [name] 7

/-- The selectors that can follow a value: indices, a field or a dereference. -/
inductive WrittenSelector : (Expr → Expr) → List Token → Prop
  | index {opener closer : Token} {es : List Expr} {ts : List Token}
      (hopener : opener.kind = .mark .lBracket) (hes : WrittenList expr es ts)
      (hcloser : closer.kind = .mark .rBracket) (span : Span) :
      WrittenSelector (fun base => .index base es span) (opener :: (ts ++ [closer]))
  | field {dot name : Token} (hdot : dot.kind = .mark .dot) (hname : name.kind = .ident)
      (nameSpan span : Span) :
      WrittenSelector (fun base => .field base ⟨name.text, nameSpan⟩ span) [dot, name]
  | deref {caret : Token} (hcaret : caret.kind = .mark .caret) (span : Span) :
      WrittenSelector (fun base => .deref base span) [caret]

/-- The object of a method call: a name or SELF with selectors. -/
inductive WrittenDesignator : Expr → List Token → Prop
  | name {t : Token} (ht : t.kind = .ident) (span : Span) :
      WrittenDesignator (.name ⟨t.text, span⟩) [t]
  | selfRef {t : Token} (ht : t.kind = .word .SELF) (span : Span) :
      WrittenDesignator (.selfRef span) [t]
  | select {base : Expr} {select : Expr → Expr} {ts us : List Token}
      (hbase : WrittenDesignator base ts) (hselect : WrittenSelector expr select us) :
      WrittenDesignator (select base) (ts ++ us)

/-- A method call, and the level on which it stands. -/
inductive WrittenCall : MethodCall → List Token → (level : Nat) → Prop
  | mk {target : Expr} {method : Ident} {args : List Expr} {ts ls us : List Token} {level : Nat}
      (htarget : WrittenDesignator expr target ts) (hto : WrittenOrNot (.word .TO) ls)
      (hmethod : WrittenMethod expr method args us level) (span : Span) :
      WrittenCall ⟨target, method, args, span⟩ (ts ++ (ls ++ us)) level

/-- A value, or a range of values. -/
inductive WrittenElement : Expr → List Token → Prop
  | value {e : Expr} {ts : List Token} (he : expr e ts) : WrittenElement e ts
  | range {low high : Expr} {ts us : List Token} {mark : Token} (hlow : expr low ts)
      (hmark : mark.kind = .mark .range) (hhigh : expr high us) (span : Span) :
      WrittenElement (.range low high span) (ts ++ mark :: us)

/-- An expression on a level.  Levels 0 to 5 are those of the binary operators, whose left
operand stands on their own level and whose right one on the next.  On level 6 stand signs and
NOT, on level 7 values with selectors, on level 8 those that arguments can follow. -/
inductive WrittenAt : (level : Nat) → Expr → List Token → Prop
  | token {e : Expr} {t : Token} (ht : WrittenToken e t) : WrittenAt 8 e [t]
  | parens {e : Expr} {opener closer : Token} {ts : List Token}
      (hopener : opener.kind = .mark .lParen) (he : expr e ts)
      (hcloser : closer.kind = .mark .rParen) : WrittenAt 8 e (opener :: (ts ++ [closer]))
  | emptySet {opener closer : Token} (hopener : opener.kind = .mark .lBracket)
      (hcloser : closer.kind = .mark .rBracket) (span : Span) :
      WrittenAt 8 (.set [] span) [opener, closer]
  | set {opener closer : Token} {es : List Expr} {ts : List Token}
      (hopener : opener.kind = .mark .lBracket) (hes : WrittenList (WrittenElement expr) es ts)
      (hcloser : closer.kind = .mark .rBracket) (span : Span) :
      WrittenAt 8 (.set es span) (opener :: (ts ++ [closer]))
  | ask {level : Nat} {word : Token} {call : MethodCall} {ts : List Token}
      (hword : word.kind = .word .ASK) (hcall : WrittenCall expr call ts level) :
      WrittenAt level (.ask call) (word :: ts)
  | inherited {level : Nat} {word : Token} {method : Ident} {args : List Expr}
      {ts : List Token} (hword : word.kind = .word .INHERITED)
      (hmethod : WrittenMethod expr method args ts level) (span : Span) :
      WrittenAt level (.inherited method args span) (word :: ts)
  | call {callee : Expr} {args : List Expr} {ts us : List Token}
      (hcallee : WrittenAt 8 callee ts) (hargs : WrittenArgs expr args us) (span : Span) :
      WrittenAt 8 (.call callee args span) (ts ++ us)
  | select {base : Expr} {select : Expr → Expr} {ts us : List Token}
      (hbase : WrittenAt 7 base ts) (hselect : WrittenSelector expr select us) :
      WrittenAt 8 (select base) (ts ++ us)
  | unary {op : UnaryOp} {sign : Token} {operand : Expr} {ts : List Token}
      (hsign : sign.kind = op.kind) (hoperand : WrittenAt 6 operand ts) (span : Span) :
      WrittenAt 6 (.unary op operand span) (sign :: ts)
  | binary {op : BinaryOp} {mark : Token} {left right : Expr} {ts us : List Token}
      (hleft : WrittenAt op.precedence left ts) (hmark : mark.kind ∈ op.kinds)
      (hright : WrittenAt (op.precedence + 1) right us) (span : Span) :
      WrittenAt op.precedence (.binary op left right span) (ts ++ mark :: us)
  | looser {level : Nat} {e : Expr} {ts : List Token} (he : WrittenAt (level + 1) e ts) :
      WrittenAt level e ts

end Nested

/-- An expression. -/
inductive WrittenExpr : Expr → List Token → Prop
  | mk {e : Expr} {ts : List Token} (he : WrittenAt WrittenExpr 0 e ts) : WrittenExpr e ts

/-! ## Statements -/

/-- END, and the word of the construct after it or not. -/
inductive WrittenEnd (construct : Keyword) : List Token → Prop
  | mk {close : Token} {ts : List Token} (hclose : close.kind = .word .END)
      (hword : WrittenOrNot (.word construct) ts) : WrittenEnd construct (close :: ts)

/-- A name or SELF with calls and selectors, not in parentheses as a whole. -/
def WrittenPlace (e : Expr) (ts : List Token) : Prop :=
  WrittenAt WrittenExpr 7 e ts ∧ ∃ t us, ts = t :: us ∧ (t.kind = .ident ∨ t.kind = .word .SELF)

inductive WrittenSubject : WaitSubject → List Token → Prop
  | method {word : Token} {call : MethodCall} {ts : List Token} {level : Nat}
      (hword : word.kind = .word .FOR) (hcall : WrittenCall WrittenExpr call ts level) :
      WrittenSubject (.method call) (word :: ts)
  | duration {word : Token} {time : Expr} {ts : List Token}
      (hword : word.kind = .word .DURATION) (htime : WrittenExpr time ts) :
      WrittenSubject (.duration time) (word :: ts)

namespace Direction

def word : Direction → Keyword
  | up => .TO
  | down => .DOWNTO

end Direction

section Nested

variable (block : List Stmt → List Token → Prop)

/-- IF or ELSIF, a condition, THEN and statements. -/
inductive WrittenBranch (word : Keyword) : CondBranch → List Token → Prop
  | mk {opener then_ : Token} {condition : Expr} {body : List Stmt} {ts us : List Token}
      (hopener : opener.kind = .word word) (hcondition : WrittenExpr condition ts)
      (hthen : then_.kind = .word .THEN) (hbody : block body us) (span : Span) :
      WrittenBranch word ⟨condition, body, span⟩ (opener :: (ts ++ then_ :: us))

/-- WHEN, labels, a colon and statements. -/
inductive WrittenArm : CaseArm → List Token → Prop
  | mk {opener colon : Token} {labels : List Expr} {body : List Stmt} {ts us : List Token}
      (hopener : opener.kind = .word .WHEN)
      (hlabels : WrittenList (WrittenElement WrittenExpr) labels ts)
      (hcolon : colon.kind = .mark .colon) (hbody : block body us) (span : Span) :
      WrittenArm ⟨labels, body, span⟩ (opener :: (ts ++ colon :: us))

/-- DO or not, statements and END: what the head of a loop is followed by. -/
inductive WrittenLoop (construct : Keyword) : List Token → List Stmt → Prop
  | mk {body : List Stmt} {do_ ts close : List Token} (hdo : WrittenOrNot (.word .DO) do_)
      (hbody : block body ts) (hclose : WrittenEnd construct close) :
      WrittenLoop construct (do_ ++ (ts ++ close)) body

inductive WrittenStmt : Stmt → List Token → Prop
  | assign {target value : Expr} {mark : Token} {ts us : List Token}
      (htarget : WrittenPlace target ts) (hmark : mark.kind = .mark .assign)
      (hvalue : WrittenExpr value us) (span : Span) :
      WrittenStmt (.assign target value span) (ts ++ mark :: us)
  | call {call : Expr} {ts : List Token} (hcall : WrittenPlace call ts) (span : Span) :
      WrittenStmt (.call call span) ts
  | if_ {first : CondBranch} {more : List CondBranch} {else? : Option (List Stmt)}
      {ts us vs close : List Token} (hfirst : WrittenBranch block .IF first ts)
      (hmore : WrittenEach (WrittenBranch block .ELSIF) more us)
      (helse : WrittenOption [[.word .ELSE]] block else? vs) (hclose : WrittenEnd .IF close)
      (span : Span) : WrittenStmt (.if_ (first :: more) else? span) (ts ++ (us ++ (vs ++ close)))
  | while_ {opener : Token} {condition : Expr} {body : List Stmt} {ts us : List Token}
      (hopener : opener.kind = .word .WHILE) (hcondition : WrittenExpr condition ts)
      (hbody : WrittenLoop block .WHILE us body) (span : Span) :
      WrittenStmt (.while_ condition body span) (opener :: (ts ++ us))
  | for_ {opener var mark word : Token} {first last : Expr} {direction : Direction}
      {step : Option Expr} {body : List Stmt} {ts us vs ws : List Token}
      (hopener : opener.kind = .word .FOR) (hvar : var.kind = .ident)
      (hmark : mark.kind = .mark .assign) (hfirst : WrittenExpr first ts)
      (hto : word.kind = .word direction.word) (hlast : WrittenExpr last us)
      (hstep : WrittenOption [[.word .BY]] WrittenExpr step vs)
      (hbody : WrittenLoop block .FOR ws body) (varSpan span : Span) :
      WrittenStmt (.for_ ⟨var.text, varSpan⟩ first direction last step body span)
        (opener :: var :: mark :: (ts ++ word :: (us ++ (vs ++ ws))))
  | forEach {opener var word : Token} {group : Expr} {body : List Stmt} {ts us : List Token}
      (hopener : opener.kind = .word .FOREACH) (hvar : var.kind = .ident)
      (hword : word.kind = .word .IN) (hgroup : WrittenExpr group ts)
      (hbody : WrittenLoop block .FOREACH us body) (varSpan span : Span) :
      WrittenStmt (.forEach ⟨var.text, varSpan⟩ group body span)
        (opener :: var :: word :: (ts ++ us))
  | repeat_ {opener until_ : Token} {body : List Stmt} {condition : Expr} {ts us : List Token}
      (hopener : opener.kind = .word .REPEAT) (hbody : block body ts)
      (huntil : until_.kind = .word .UNTIL) (hcondition : WrittenExpr condition us)
      (span : Span) :
      WrittenStmt (.repeat_ body condition span) (opener :: (ts ++ until_ :: us))
  | loop {opener : Token} {body : List Stmt} {ts close : List Token}
      (hopener : opener.kind = .word .LOOP) (hbody : block body ts)
      (hclose : WrittenEnd .LOOP close) (span : Span) :
      WrittenStmt (.loop body span) (opener :: (ts ++ close))
  | case {opener : Token} {selector : Expr} {arms : List CaseArm}
      {otherwise : Option (List Stmt)} {ts of_ us vs close : List Token}
      (hopener : opener.kind = .word .CASE) (hselector : WrittenExpr selector ts)
      (hof : WrittenOrNot (.word .OF) of_) (harms : WrittenEach (WrittenArm block) arms us)
      (hotherwise : WrittenOption [[.word .OTHERWISE], [.word .ELSE]] block otherwise vs)
      (hclose : WrittenEnd .CASE close) (span : Span) :
      WrittenStmt (.case selector arms otherwise span)
        (opener :: (ts ++ (of_ ++ (us ++ (vs ++ close)))))
  | return_ {word : Token} {value : Option Expr} {ts : List Token}
      (hword : word.kind = .word .RETURN) (hvalue : WrittenOption [[]] WrittenExpr value ts)
      (span : Span) : WrittenStmt (.return_ value span) (word :: ts)
  | exit {word : Token} (hword : word.kind = .word .EXIT) (span : Span) :
      WrittenStmt (.exit span) [word]
  | new {word opener closer : Token} {target : Expr} {ts : List Token}
      (hword : word.kind = .word .NEW) (hopener : opener.kind = .mark .lParen)
      (htarget : WrittenExpr target ts) (hcloser : closer.kind = .mark .rParen) (span : Span) :
      WrittenStmt (.new target span) (word :: opener :: (ts ++ [closer]))
  | dispose {word opener closer : Token} {target : Expr} {ts : List Token}
      (hword : word.kind = .word .DISPOSE) (hopener : opener.kind = .mark .lParen)
      (htarget : WrittenExpr target ts) (hcloser : closer.kind = .mark .rParen) (span : Span) :
      WrittenStmt (.dispose target span) (word :: opener :: (ts ++ [closer]))
  | ask {word : Token} {call : MethodCall} {ts : List Token} {level : Nat}
      (hword : word.kind = .word .ASK) (hcall : WrittenCall WrittenExpr call ts level)
      (span : Span) : WrittenStmt (.ask call span) (word :: ts)
  | tell {word : Token} {call : MethodCall} {delay : Option Expr} {ts us : List Token}
      {level : Nat} (hword : word.kind = .word .TELL)
      (hcall : WrittenCall WrittenExpr call ts level)
      (hdelay : WrittenOption [[.word .IN]] WrittenExpr delay us) (span : Span) :
      WrittenStmt (.tell call delay span) (word :: (ts ++ us))
  | wait {opener : Token} {subject : WaitSubject} {body : List Stmt}
      {interrupt : Option (List Stmt)} {ts us vs close : List Token}
      (hopener : opener.kind = .word .WAIT) (hsubject : WrittenSubject subject ts)
      (hbody : block body us)
      (hinterrupt : WrittenOption [[.word .ON, .word .INTERRUPT]] block interrupt vs)
      (hclose : WrittenEnd .WAIT close) (span : Span) :
      WrittenStmt (.wait subject body interrupt span)
        (opener :: (ts ++ (us ++ (vs ++ close))))
  | terminate {word : Token} (hword : word.kind = .word .TERMINATE) (span : Span) :
      WrittenStmt (.terminate span) [word]
  | inherited {word : Token} {method : Ident} {args : List Expr} {ts : List Token} {level : Nat}
      (hword : word.kind = .word .INHERITED)
      (hmethod : WrittenMethod WrittenExpr method args ts level) (span : Span) :
      WrittenStmt (.inherited method args span) (word :: ts)
  | with_ {opener : Token} {subject : Expr} {body : List Stmt} {ts us : List Token}
      (hopener : opener.kind = .word .WITH) (hsubject : WrittenExpr subject ts)
      (hbody : WrittenLoop block .WITH us body) (span : Span) :
      WrittenStmt (.with_ subject body span) (opener :: (ts ++ us))

end Nested

/-- A statement list, with a semicolon after each statement. -/
inductive WrittenBlock : List Stmt → List Token → Prop
  | nil : WrittenBlock [] []
  | cons {stmt : Stmt} {rest : List Stmt} {ts us : List Token} {semicolon : Token}
      (hstmt : WrittenStmt WrittenBlock stmt ts) (hsemicolon : semicolon.kind = .mark .semicolon)
      (hrest : WrittenBlock rest us) : WrittenBlock (stmt :: rest) (ts ++ semicolon :: us)

end SimFront
