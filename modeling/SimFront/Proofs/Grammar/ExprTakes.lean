import SimFront.Grammar.Expr
import SimFront.Proofs.Grammar.Takes
import SimFront.Tree.Shape

/-!
# Reading expressions back

A token can continue an expression on one level only (`joins`): an operator on its own, a
selector on level 7, arguments on level 8.  What is written on a level is read by the rule of
the level up to a token that continues no expression of that level or a tighter one (`Ends`).

The rule of a level reads a first value and goes round (`parserAt`, `loopAt`).  So the
induction on how an expression is written says how far the rule has come when it has read the
expression: it goes round from a value of the same shape (`WrittenAt.takes`).
-/

namespace SimFront.Grammar

open SimFront.Parser

variable {α : Type} {p : Parser Expr} {n level : Nat} {e base : Expr} {args : List Expr} {t : Token}
  {ts us rest : List Token} {Q : Expr → Prop}

/-! ## Levels -/

/-- The level on which a token of some kind continues an expression. -/
@[grind =] def joins : TokenKind → Option Nat
  | .word .OR => some 0
  | .word .AND => some 1
  | .mark .eq | .mark .notEq | .mark .hash => some 2
  | .mark .lt | .mark .ltEq | .mark .gt | .mark .gtEq | .word .IN => some 3
  | .mark .plus | .mark .minus => some 4
  | .mark .star | .mark .slash | .word .DIV | .word .MOD => some 5
  | .mark .lBracket | .mark .dot | .mark .caret => some 7
  | .mark .lParen => some 8
  | _ => none

/-- The first token does not continue an expression of the level or a tighter one. -/
def Ends (level : Nat) : List Token → Prop := Begins fun k => ∀ l, joins k = some l → l < level

theorem Ends.mono {level' : Nat} (h : Ends level us) (hl : level ≤ level') : Ends level' us :=
  Begins.mono h fun _ hk l hj => Nat.lt_of_lt_of_le (hk l hj) hl

theorem Ends.of_joins (h : joins t.kind = none) : Ends level (t :: us) :=
  .cons fun l hl => by simp [h] at hl

/-- A token on a level ends an expression of the next. -/
theorem Ends.next (h : joins t.kind = some level) : Ends (level + 1) (t :: us) :=
  .cons fun l hl => by
    rw [h] at hl
    cases hl
    exact Nat.lt_succ_self _

theorem joins_of_mem_kinds {op : BinaryOp} {k : TokenKind} (h : k ∈ op.kinds) :
    joins k = some op.precedence := by
  cases op <;> simp only [BinaryOp.kinds, List.mem_cons, List.not_mem_nil, or_false] at h <;>
    rcases h with rfl | rfl <;> rfl

theorem precedence_lt (op : BinaryOp) : op.precedence < 6 := by
  cases op <;> decide

/-- A level reads the operators of its precedence. -/
theorem level_reads {op : BinaryOp} {k : TokenKind} (h : k ∈ op.kinds) :
    ∃ op?, levels[op.precedence]? = some op? ∧ op? k = some op := by
  cases op <;> simp only [BinaryOp.kinds, List.mem_cons, List.not_mem_nil, or_false] at h <;>
    rcases h with rfl | rfl <;> exact ⟨_, rfl, rfl⟩

/-- A level reads no tokens of other levels. -/
theorem level_stops {op? : TokenKind → Option BinaryOp} {k : TokenKind}
    (h : levels[level]? = some op?) (hk : joins k ≠ some level) : op? k = none := by
  rcases level with _ | _ | _ | _ | _ | _ | level <;> cases h <;> dsimp only <;>
    split <;> first | rfl | exact absurd rfl hk

/-! ## First tokens -/

/-- The kinds of tokens that a value can begin with. -/
@[grind =] def opensValue : TokenKind → Bool
  | .ident | .integer | .real | .string | .char => true
  | .word .TRUE | .word .FALSE | .word .NIL | .word .NILOBJ | .word .NILREC | .word .NILARRAY => true
  | .word .SELF | .word .ASK | .word .INHERITED | .mark .lParen | .mark .lBracket => true
  | _ => false

/-- The kinds of tokens that an expression can begin with. -/
def opensExpr (k : TokenKind) : Bool := opensValue k || (unaryOp? k).isSome

theorem unaryOp?_kind (op : UnaryOp) : unaryOp? op.kind = some op := by cases op <;> rfl

theorem opensValue_token (h : WrittenToken e t) : opensValue t.kind = true := by
  cases h with
  | nil ht span => rw [ht]; cases ‹NilKind› <;> rfl
  | _ => simp [opensValue, *]

/-- What an expression is written as begins as an expression does, and a value as a value. -/
theorem begins_of_written {W : Expr → List Token → Prop} (h : WrittenAt W level e ts) :
    Begins (opensExpr · = true) ts ∧ (7 ≤ level → Begins (opensValue · = true) ts) := by
  have hvalue {t : Token} {us : List Token} {c : Prop} (ht : opensValue t.kind = true) :
      Begins (opensExpr · = true) (t :: us) ∧ (c → Begins (opensValue · = true) (t :: us)) :=
    ⟨.cons (by simp [opensExpr, ht]), fun _ => .cons ht⟩
  induction h with
  | token ht => exact hvalue (opensValue_token ht)
  | parens hopener => exact hvalue (by simp [hopener, opensValue])
  | emptySet hopener => exact hvalue (by simp [hopener, opensValue])
  | set hopener => exact hvalue (by simp [hopener, opensValue])
  | ask hword => exact hvalue (by simp [hword, opensValue])
  | inherited hword => exact hvalue (by simp [hword, opensValue])
  | call _ _ _ ih => exact ⟨ih.1.append _, fun _ => (ih.2 (by omega)).append _⟩
  | select _ _ ih => exact ⟨ih.1.append _, fun _ => (ih.2 (by omega)).append _⟩
  | unary hsign => exact ⟨.cons (by simp [hsign, opensExpr, unaryOp?_kind]), by omega⟩
  | @binary op _ _ _ _ _ _ _ _ _ ih _ =>
    exact ⟨ih.1.append _, fun h => absurd h (by have := precedence_lt op; omega)⟩
  | looser _ ih => exact ⟨ih.1, fun h => ih.2 (by omega)⟩

theorem begins_of_writtenExpr (h : WrittenExpr e ts) : Begins (opensExpr · = true) ts := by
  obtain ⟨he⟩ := h
  exact (begins_of_written he).1

/-! ## Lists of expressions -/

/-- What may follow an element: no operator or selector, and no mark of a range. -/
def EndsElement (us : List Token) : Prop := Ends 0 us ∧ Begins (· ≠ .mark .range) us

section Nested

variable (hp : ReadsBack WrittenExpr (Ends 0) Expr.shape n p)

include hp

theorem arguments_takes (h : WrittenArgs WrittenExpr args ts) (hl : (ts ++ rest).length ≤ n) :
    Takes (arguments p) ts rest fun as => exprShapes as = exprShapes args := by
  cases h with
  | none hopener hcloser =>
    refine .bump (by simp [hopener]) ?_
    refine Takes.bindNone (P := (· = [])) ?_ ?_
    · refine Takes.within (.atKind (.cons hcloser) ?_)
      exact .pure rfl
    · rintro _ rfl
      exact .eatMark hcloser (.pure rfl)
  | @some opener closer es ts hopener hes hcloser =>
    have hbegins : Begins (opensExpr · = true) ts := by
      cases hes with
      | last he => exact begins_of_writtenExpr he
      | more he => exact (begins_of_writtenExpr he).append _
    refine .bump (by simp [hopener]) ?_
    refine Takes.bind (P := fun as => as.map Expr.shape = args.map Expr.shape) ?_ fun as has => ?_
    · refine Takes.within (.notAtKind ((hbegins.append _).mono ?_) ?_)
      · rintro _ hk rfl
        simp [opensExpr, opensValue, unaryOp?] at hk
      · refine hp.commaSeparated (fun _ _ h => .of_joins (by simp [h, joins])) hes
          (.of_joins (by simp [hcloser, joins])) (.cons (by simp [hcloser])) ?_
        simp only [List.length_append, List.length_cons, List.length_nil] at hl ⊢
        omega
    · refine .eatMark hcloser (.pure ?_)
      rw [exprShapes_eq_map, exprShapes_eq_map, has]

/-! ## Selectors -/

theorem selector?_takes {select : Expr → Expr} {base base' : Expr} {start : Position}
    (h : WrittenSelector WrittenExpr select ts) (hbase : base'.shape = base.shape)
    (hl : (ts ++ rest).length ≤ n) :
    Takes (selector? p start base') ts rest
      fun r => ∃ e, r = some e ∧ e.shape = (select base).shape := by
  cases h with
  | @index opener closer es ts hopener hes hcloser span =>
    refine .kindIs (.cons hopener) ?_
    refine .bump (by simp [hopener]) ?_
    refine Takes.bind (P := fun is => is.map Expr.shape = es.map Expr.shape) ?_ fun is his => ?_
    · refine hp.commaSeparated (fun _ _ h => .of_joins (by simp [h, joins])) hes
        (.of_joins (by simp [hcloser, joins])) (.cons (by simp [hcloser])) ?_
      simp only [List.length_append, List.length_cons, List.length_nil] at hl ⊢
      omega
    · refine .expectMark hcloser (.finish fun _ => ⟨_, rfl, ?_⟩)
      simp only [Expr.shape, exprShapes_eq_map, hbase, his]
  | @field dot name hdot hname nameSpan span =>
    refine .kindIs (.cons hdot) ?_
    refine .inspect fun s hs => ?_
    have hnext : (s.token 1).kind = .ident := by simp [ParserState.token, hs, hname]
    rw [if_pos hnext]
    refine .bump (by simp [hdot]) (.ident hname (.finish fun _ => ⟨_, rfl, ?_⟩))
    simp only [Expr.shape, Ident.shape, hbase]
  | @deref caret hcaret span =>
    refine .kindIs (.cons hcaret) ?_
    refine .bump (by simp [hcaret]) (.finish fun _ => ⟨_, rfl, ?_⟩)
    simp only [Expr.shape, hbase]

omit hp in
theorem selector?_stops {start : Position} (h : Begins (fun k => joins k ≠ some 7) rest) :
    Takes (selector? p start base) [] rest (· = none) := by
  refine .kind h fun k hk => ?_
  split
  iterate 3 exact absurd rfl hk
  exact .pure rfl

omit hp in
theorem begins_of_selector {select : Expr → Expr} {W : Expr → List Token → Prop}
    (h : WrittenSelector W select ts) : Begins (fun k => joins k = some 7) ts := by
  cases h with
  | index hopener => exact .cons (by simp [hopener, joins])
  | field hdot => exact .cons (by simp [hdot, joins])
  | deref hcaret => exact .cons (by simp [hcaret, joins])

omit hp in
/-- A step over a value: arguments in parentheses, if the value can take them, or a selector. -/
theorem postfixStep?_selector {select : Expr → Expr} {start : Position} {us : List Token}
    {P : Option Expr → Prop} (h : WrittenSelector WrittenExpr select ts)
    (htakes : Takes (selector? p start base) ts us P) :
    Takes (postfixStep? p start base) ts us P := by
  refine .notAtKind (((begins_of_selector h).append us).mono ?_) htakes
  rintro _ hk rfl
  simp [joins] at hk

theorem postfixStep?_arguments {base' : Expr} {start : Position} (h : WrittenArgs WrittenExpr args ts)
    (hbase : base'.shape = base.shape) (span : Span) (hl : (ts ++ rest).length ≤ n) :
    Takes (postfixStep? p start base') ts rest
      fun r => ∃ e, r = some e ∧ e.shape = (Expr.call base args span).shape := by
  have hbegins : Begins (· = .mark .lParen) ts := by
    cases h with
    | none hopener => exact .cons hopener
    | some hopener => exact .cons hopener
  refine .atKind (hbegins.append _) ((arguments_takes hp h hl).bindLast fun as has => ?_)
  refine .finish fun _ => ⟨_, rfl, ?_⟩
  simp only [Expr.shape, hbase, has]

omit hp in
theorem postfixStep?_stops {start : Position}
    (h : Begins (fun k => joins k ≠ some 7 ∧ joins k ≠ some 8) rest) :
    Takes (postfixStep? p start base) [] rest (· = none) := by
  refine .notAtKind (h.mono ?_) (selector?_stops (h.mono fun _ hk => hk.1))
  rintro _ hk rfl
  exact hk.2 rfl

/-- When the object of a method call has been read, selectors may follow. -/
theorem designator_takes (h : WrittenDesignator WrittenExpr e ts) :
    ∀ us, (ts ++ (us ++ rest)).length ≤ n →
      (∀ start e', e'.shape = e.shape → Takes (iterate (selector? p start) e') us rest Q) →
      Takes (designator p) (ts ++ us) rest Q := by
  induction h with
  | @name t ht span =>
    intro us _ hloop
    refine .inspect fun s _ => ?_
    refine .notAtKind (.cons (by simp [ht])) (.ident ht ?_)
    exact hloop _ _ (by simp only [Expr.shape, Ident.shape])
  | @selfRef t ht span =>
    intro us _ hloop
    refine .inspect fun s _ => ?_
    refine .atKind (.cons ht) (.bump (by simp [ht]) ?_)
    exact hloop _ _ (by simp only [Expr.shape])
  | @select base select ts us' _ hselect ih =>
    intro us hl hloop
    rw [List.append_assoc]
    simp only [List.append_assoc] at hl
    refine ih _ (by simpa only [List.append_assoc] using hl) fun start e' he' => ?_
    obtain ⟨t, vs, hvs, -⟩ := begins_of_selector hselect
    refine .nextStep (by simp [hvs]) (selector?_takes hp hselect he' ?_) fun e'' he'' => ?_
    · simp only [List.length_append] at hl ⊢
      omega
    · exact hloop start e'' he''

/-- The name of a method and its arguments, which stand on some level. -/
theorem method_takes {method : Ident} {f : Ident → List Expr → Parser α} {Q : α → Prop}
    (h : WrittenMethod WrittenExpr method args ts level) (hends : Ends (level + 1) rest)
    (hl : (ts ++ rest).length ≤ n)
    (hf : ∀ m as, m.shape = method.shape → exprShapes as = exprShapes args →
      Takes (f m as) [] rest Q) :
    Takes (do f (← ident) (← arguments? p)) ts rest Q := by
  cases h with
  | @called name args ts hname hargs span =>
    have hbegins : Begins (· = .mark .lParen) ts := by
      cases hargs with
      | none hopener => exact .cons hopener
      | some hopener => exact .cons hopener
    refine .ident hname (Takes.bindLast (P := fun as => exprShapes as = exprShapes args) ?_ ?_)
    · refine .atKind (hbegins.append _) (arguments_takes hp hargs ?_)
      simp only [List.length_append, List.length_cons] at hl ⊢
      omega
    · exact fun as has => hf _ as rfl has
  | @bare name hname span =>
    refine .ident hname (Takes.bindLast (P := fun as => as = []) ?_ ?_)
    · refine .notAtKind (Begins.mono hends ?_) (.pure rfl)
      rintro _ hk rfl
      exact absurd (hk 8 rfl) (by simp)
    · rintro _ rfl
      exact hf _ _ rfl rfl

theorem methodCall_takes {call : MethodCall} {start : Position}
    (h : WrittenCall WrittenExpr call ts level) (hends : Ends (level + 1) rest)
    (hl : (ts ++ rest).length ≤ n) :
    Takes (methodCall p start) ts rest fun c => c.shape = call.shape := by
  cases h with
  | @mk target method args ts ls us level htarget hto hmethod span =>
    have hname : Begins (· = .ident) us := by
      cases hmethod with
      | called hname => exact .cons hname
      | bare hname => exact .cons hname
    have hnext : Begins (fun k => k = .word .TO ∨ k = .ident) (ls ++ us ++ rest) := by
      cases hto with
      | absent => exact (hname.append _).mono fun _ => .inr
      | present ht => exact .cons (.inl ht)
    refine Takes.bind (P := fun e => e.shape = target.shape) ?_ fun e he => ?_
    · rw [← List.append_nil ts]
      refine designator_takes hp htarget [] (by simpa [List.append_assoc] using hl) ?_
      intro start e he
      refine .lastStep (selector?_stops (hnext.mono ?_)) he
      rintro _ (rfl | rfl) <;> simp [joins]
    · refine .eatOrNot (by simp) hto ((hname.append _).mono (by rintro _ rfl; simp)) fun _ => ?_
      refine method_takes hp hmethod hends ?_ fun m as hm has => .finish fun _ => ?_
      · simp only [List.length_append] at hl ⊢
        omega
      · simp only [MethodCall.shape, he, hm, has]

/-! ## Values -/

theorem rangeOrValue_readsBack :
    ReadsBack (WrittenElement WrittenExpr) EndsElement Expr.shape n (rangeOrValue p) := by
  intro e ts rest h hrest hl
  refine .inspect fun s _ => ?_
  cases h with
  | value he =>
    refine (hp _ _ _ he hrest.1 hl).bindLast fun e' he' => ?_
    exact .notEat hrest.2 (.pure he')
  | @range low high ts us mark hlow hmark hhigh span =>
    rw [List.append_assoc] at hl
    refine (hp _ _ _ hlow (.of_joins (by simp [hmark, joins])) hl).bind fun low' hlow' => ?_
    refine .eatMark hmark ((hp _ _ _ hhigh hrest.1 ?_).bindLast fun high' hhigh' => ?_)
    · simp only [List.length_append, List.length_cons] at hl ⊢
      omega
    · refine .finish fun _ => ?_
      simp only [Expr.shape, hlow', hhigh']

theorem setLiteral_takes {es : List Expr} {opener closer : Token}
    (hopener : opener.kind = .mark .lBracket) (hes : WrittenList (WrittenElement WrittenExpr) es ts)
    (hcloser : closer.kind = .mark .rBracket) (span : Span)
    (hl : (opener :: (ts ++ [closer]) ++ rest).length ≤ n) :
    Takes (setLiteral p) (opener :: (ts ++ [closer])) rest
      fun e => e.shape = (Expr.set es span).shape := by
  have hbegins : Begins (opensExpr · = true) ts := by
    have hone {e : Expr} {ts : List Token} (h : WrittenElement WrittenExpr e ts) :
        Begins (opensExpr · = true) ts := by
      cases h with
      | value he => exact begins_of_writtenExpr he
      | range hlow => exact (begins_of_writtenExpr hlow).append _
    cases hes with
    | last he => exact hone he
    | more he => exact (hone he).append _
  refine .inspect fun s _ => .bump (by simp [hopener]) ?_
  refine .notAtKind ((hbegins.append _).append _ |>.mono ?_) ?_
  · rintro _ hk rfl
    simp [opensExpr, opensValue, unaryOp?] at hk
  · refine Takes.bind (P := fun is => is.map Expr.shape = es.map Expr.shape) ?_ fun is his => ?_
    · refine (rangeOrValue_readsBack hp).commaSeparated ?_ hes ?_ (.cons (by simp [hcloser])) ?_
      · exact fun _ _ h => ⟨.of_joins (by simp [h, joins]), .cons (by simp [h])⟩
      · exact ⟨.of_joins (by simp [hcloser, joins]), .cons (by simp [hcloser])⟩
      · simp only [List.length_append, List.length_cons, List.length_nil] at hl ⊢
        omega
    · refine .expectMark hcloser (.finish fun _ => ?_)
      simp only [Expr.shape, exprShapes_eq_map, his]

omit hp in
theorem primary_token (h : WrittenToken e t) :
    Takes (primary p) [t] rest fun e' => e'.shape = e.shape := by
  refine .inspect fun s _ => ?_
  cases h with
  | name ht span => exact .kindIs (.cons ht) (.ident ht (.pure rfl))
  | integer ht hvalue span =>
    refine .kindIs (.cons ht) (.bump (by simp [ht]) ?_)
    rw [hvalue]
    exact .pure rfl
  | real ht hbits span =>
    refine .kindIs (.cons ht) (.bump (by simp [ht]) (.pure ?_))
    simp only [Expr.shape, hbits]
  | string ht hvalue span =>
    refine .kindIs (.cons ht) (.bump (by simp [ht]) (.pure ?_))
    simp only [Expr.shape, hvalue, Option.getD_some]
  | char ht hvalue span =>
    refine .kindIs (.cons ht) (.bump (by simp [ht]) (.pure ?_))
    simp only [Expr.shape, hvalue, Option.getD_some]
  | @nil t kind ht span =>
    cases kind <;> exact .kindIs (.cons ht) (.bump (by simp [ht]) (.pure rfl))
  | _ ht span => exact .kindIs (.cons ht) (.bump (by simp [ht]) (.pure rfl))

/-! ## Operators -/

omit hp in
/-- A sign before what is read as a value with or without signs. -/
theorem unary_sign {op : UnaryOp} {sign : Token} (hsign : sign.kind = op.kind)
    (h : Takes (unary p) ts rest fun e' => e'.shape = e.shape) (span : Span) :
    Takes (unary p) (sign :: ts) rest fun e' => e'.shape = (Expr.unary op e span).shape := by
  have hcons (o : UnaryOp × Position) (os : List (UnaryOp × Position)) :
      (do let operand ← postfixed p; (o :: os).foldrM signed operand) = (do
        let e' ← (do let operand ← postfixed p; os.foldrM signed operand)
        signed o e') := by
    simp only [List.foldrM_cons, bind_assoc]
  rw [← List.singleton_append]
  refine .nextRoundBind (P := fun o => ∃ start, o = some (op, start)) (by simp) ?_ ?_
  · refine .kindIs (.cons hsign) ?_
    rw [unaryOp?_kind]
    exact .bump (by rw [hsign]; cases op <;> simp [UnaryOp.kind]) (.pure ⟨_, rfl, _, rfl⟩)
  · rintro _ ⟨start, rfl⟩
    simp only [Option.toList_some, List.singleton_append, hcons]
    rw [← bind_assoc]
    refine h.bindLast fun e' he' => .finish fun _ => ?_
    simp only [Expr.shape, he']

omit hp in
/-- Without a sign before it, a value is read alone. -/
theorem unary_value (hbegins : Begins (opensValue · = true) ts)
    (h : Takes (postfixed p) ts rest fun e' => e'.shape = e.shape) :
    Takes (unary p) ts rest fun e' => e'.shape = e.shape := by
  have hsigns : Takes signs [] (ts ++ rest) (· = []) := by
    refine .stopRound (.kind (hbegins.append _) fun k hk => ?_)
    split
    · next hop =>
      unfold unaryOp? at hop
      split at hop <;> simp_all [opensValue]
    · exact .pure ⟨none, rfl, rfl⟩
  refine hsigns.bindNone ?_
  rintro _ rfl
  exact h.bindLast fun e' he' => .pure he'

/-! ## Levels as parsers -/

/-- The rule of a level. -/
def parserAt (p : Parser Expr) (level : Nat) : Parser Expr :=
  if level ≤ 6 then binary p (levels.drop level) else postfixed p

/-- What the rule of a level does from a first value on. -/
def loopAt (p : Parser Expr) (level : Nat) (start : Position) (e : Expr) : Parser Expr :=
  match levels[level]? with
  | some op? => iterate (operatorStep? op? (parserAt p (level + 1)) start) e
  | none => if level = 6 then pure e else iterate (postfixStep? p start) e

omit hp in
theorem parserAt_operator {op? : TokenKind → Option BinaryOp} (h : levels[level]? = some op?) :
    parserAt p level = leftAssociative op? (parserAt p (level + 1)) := by
  obtain ⟨hlevel, rfl⟩ := List.getElem?_eq_some_iff.1 h
  have hlevel' : level < 6 := hlevel
  unfold parserAt
  rw [if_pos (by omega), if_pos (by omega), List.drop_eq_getElem_cons hlevel]
  rfl

omit hp in
theorem parserAt_value (h : 6 < level) : parserAt p level = postfixed p := if_neg (by omega)

omit hp in
theorem loopAt_operator {op? : TokenKind → Option BinaryOp} {start : Position}
    (h : levels[level]? = some op?) :
    loopAt p level start e = iterate (operatorStep? op? (parserAt p (level + 1)) start) e := by
  unfold loopAt
  rw [h]

omit hp in
theorem loopAt_value {start : Position} (h : 6 < level) :
    loopAt p level start e = iterate (postfixStep? p start) e := by
  have hnone : levels[level]? = none := List.getElem?_eq_none (by simp [levels]; omega)
  unfold loopAt
  rw [hnone]
  exact if_neg (by omega)

omit hp in
/-- The rule of a level goes no further at a token that continues no expression of the level
or a tighter one. -/
theorem loopAt_stops {start : Position} (hlevel : level ≤ 7) (h : Ends level rest) :
    Takes (loopAt p level start e) [] rest fun e' => e' = e := by
  unfold loopAt
  split
  · next op? hop =>
    refine .lastStep (.kind h fun k hk => ?_) rfl
    rw [level_stops hop fun hj => absurd (hk _ hj) (Nat.lt_irrefl _)]
    exact .pure rfl
  · split
    · exact .pure rfl
    · refine .lastStep (postfixStep?_stops (Begins.mono h fun k hk => ⟨fun hj => ?_, fun hj => ?_⟩)) rfl
      · have := hk 7 hj
        omega
      · have := hk 8 hj
        omega

/-! ## Expressions -/

/-- When the rule of a level has read `ts`, it goes round from a value of the shape of `e`. -/
def Loops (p : Parser Expr) (n level : Nat) (e : Expr) (ts : List Token) : Prop :=
  ∀ us rest Q, (ts ++ (us ++ rest)).length ≤ n → Ends (level + 1) (us ++ rest) →
    (∀ start e', e'.shape = e.shape → Takes (loopAt p level start e') us rest Q) →
    Takes (parserAt p level) (ts ++ us) rest Q

omit hp in
/-- Where it cannot go on, the rule has read a value. -/
theorem Loops.takes (h : Loops p n level e ts) (hlevel : level ≤ 7)
    (hl : (ts ++ rest).length ≤ n) (hends : Ends level rest) :
    Takes (parserAt p level) ts rest fun e' => e'.shape = e.shape := by
  rw [← List.append_nil ts]
  refine h [] rest _ hl (hends.mono (Nat.le_succ _)) fun start e' he' => ?_
  refine (loopAt_stops hlevel hends).mono ?_
  rintro _ rfl
  exact he'

omit hp in
/-- An operator and its right operand, after a left one. -/
theorem operatorStep?_takes {op : BinaryOp} {mark : Token} {left left' right : Expr}
    {op? : TokenKind → Option BinaryOp} {start : Position} (hop : op? mark.kind = some op)
    (hmark : mark.kind ∈ op.kinds) (hleft : left'.shape = left.shape)
    (hbegins : Begins (opensExpr · = true) us)
    (hright : Takes (parserAt p (op.precedence + 1)) us rest fun e' => e'.shape = right.shape)
    (span : Span) : Takes (operatorStep? op? (parserAt p (op.precedence + 1)) start left')
      (mark :: us) rest fun r => ∃ e, r = some e ∧ e.shape = (Expr.binary op left right span).shape := by
  refine .kindIs (.cons rfl) ?_
  rw [hop]
  refine .bump ?_ (.notAtAny ((hbegins.append _).mono ?_) ?_)
  · intro heof
    rw [heof] at hmark
    have := joins_of_mem_kinds hmark
    simp [joins] at this
  · rintro _ hk hmem
    simp only [List.mem_cons, List.not_mem_nil, or_false] at hmem
    rcases hmem with rfl | rfl | rfl <;> simp [opensExpr, opensValue, unaryOp?] at hk
  · refine hright.bindLast fun right' hright' => .finish fun _ => ⟨_, rfl, ?_⟩
    simp only [Expr.shape, hleft, hright']

omit hp in
/-- A value that is read as a whole, before its selectors. -/
theorem primary_loops (hlevel : 6 < level)
    (h : Takes (primary p) ts (us ++ rest) fun e' => e'.shape = e.shape)
    (hloop : ∀ start e', e'.shape = e.shape → Takes (loopAt p level start e') us rest Q) :
    Takes (parserAt p level) (ts ++ us) rest Q := by
  rw [parserAt_value hlevel]
  refine .inspect fun s _ => h.bind fun e' he' => ?_
  rw [← loopAt_value hlevel]
  exact hloop _ e' he'

omit hp in
theorem level_of_method {W : Expr → List Token → Prop} {method : Ident}
    (h : WrittenMethod W method args ts level) : 6 < level := by
  cases h <;> decide

/-- When the rule of a level has read an expression of the level, it goes round from a value of
the same shape. -/
theorem parserAt_loops (h : WrittenAt WrittenExpr level e ts) : Loops p n level e ts := by
  induction h with
  | token ht =>
    intro us rest Q _ _ hloop
    exact primary_loops (by decide) (primary_token ht) hloop
  | @parens e opener closer ts hopener he hcloser =>
    intro us rest Q hl _ hloop
    refine primary_loops (by decide) (.inspect fun _ _ => .kindIs (.cons hopener) ?_) hloop
    refine .bump (by simp [hopener]) (Takes.bind (P := fun e' => e'.shape = e.shape) ?_ ?_)
    · refine hp _ _ _ he (.of_joins (by simp [hcloser, joins])) ?_
      simp only [List.length_append, List.length_cons, List.length_nil] at hl ⊢
      omega
    · exact fun e' he' => .expectMark hcloser (.pure he')
  | @emptySet opener closer hopener hcloser span =>
    intro us rest Q _ _ hloop
    refine primary_loops (by decide) (.inspect fun _ _ => .kindIs (.cons hopener) ?_) hloop
    refine .inspect fun _ _ => .bump (by simp [hopener]) (.atKind (.cons hcloser) ?_)
    exact .expectMark hcloser (.finish fun _ => rfl)
  | @set opener closer es ts hopener hes hcloser span =>
    intro us rest Q hl _ hloop
    refine primary_loops (by decide) (.inspect fun _ _ => .kindIs (.cons hopener) ?_) hloop
    exact setLiteral_takes hp hopener hes hcloser span hl
  | @ask level word call ts hword hcall =>
    intro us rest Q hl hends hloop
    have hlevel : 6 < level := by
      cases hcall with
      | mk _ _ hmethod => exact level_of_method hmethod
    refine primary_loops hlevel (.inspect fun _ _ => .kindIs (.cons hword) ?_) hloop
    refine .bump (by simp [hword]) ((methodCall_takes hp hcall hends ?_).bindLast fun c hc => ?_)
    · simp only [List.length_append, List.length_cons] at hl ⊢
      omega
    · exact .pure (by simp only [Expr.shape, hc])
  | @inherited level word method args ts hword hmethod span =>
    intro us rest Q hl hends hloop
    refine primary_loops (level_of_method hmethod) (.inspect fun _ _ => .kindIs (.cons hword) ?_) hloop
    refine .bump (by simp [hword]) (method_takes hp hmethod hends ?_ fun m as hm has => ?_)
    · simp only [List.length_append, List.length_cons] at hl ⊢
      omega
    · exact .finish fun _ => by simp only [Expr.shape, hm, has]
  | @call callee args ts vs _ hargs span ih =>
    intro us rest Q hl hends hloop
    rw [List.append_assoc]
    have hbegins : Begins (· = .mark .lParen) vs := by
      cases hargs with
      | none hopener => exact .cons hopener
      | some hopener => exact .cons hopener
    refine ih _ _ _ (by simpa only [List.append_assoc] using hl) ?_ fun start e' he' => ?_
    · refine Begins.mono ((hbegins.append _).append _) ?_
      rintro _ rfl l ⟨⟩
      decide
    · obtain ⟨t, ws, hws, -⟩ := hbegins
      rw [loopAt_value (by decide)]
      refine .nextStep (by simp [hws]) (postfixStep?_arguments hp hargs he' span ?_) fun e'' he'' => ?_
      · simp only [List.length_append] at hl ⊢
        omega
      · rw [← loopAt_value (show 6 < 8 by decide)]
        exact hloop start e'' he''
  | @select base select ts vs _ hselect ih =>
    intro us rest Q hl hends hloop
    rw [List.append_assoc]
    have hbegins := begins_of_selector hselect
    refine ih _ _ _ (by simpa only [List.append_assoc] using hl) ?_ fun start e' he' => ?_
    · refine Begins.mono ((hbegins.append _).append _) fun k hk l hj => ?_
      rw [hk] at hj
      cases hj
      decide
    · obtain ⟨t, ws, hws, -⟩ := hbegins
      rw [loopAt_value (by decide)]
      refine .nextStep (by simp [hws])
        (postfixStep?_selector hselect (selector?_takes hp hselect he' ?_)) fun e'' he'' => ?_
      · simp only [List.length_append] at hl ⊢
        omega
      · rw [← loopAt_value (show 6 < 8 by decide)]
        exact hloop start e'' he''
  | @unary op sign operand ts hsign hoperand span ih =>
    intro us rest Q hl hends hloop
    have hoperand : Takes (unary p) ts (us ++ rest) fun e' => e'.shape = operand.shape := by
      rw [← List.append_nil ts]
      refine ih [] _ _ ?_ hends fun start e' he' => .pure he'
      simp only [List.length_append, List.length_cons, List.length_nil] at hl ⊢
      omega
    show Takes (unary p) _ _ _
    rw [← bind_pure (unary p)]
    exact (unary_sign hsign hoperand span).bind fun e' he' => hloop .start e' he'
  | @binary op mark left right ts vs _ hmark hright span ihleft ihright =>
    intro us rest Q hl hends hloop
    obtain ⟨op?, hlevel, hop⟩ := level_reads hmark
    have hprecedence := precedence_lt op
    rw [List.append_assoc]
    refine ihleft _ _ _ (by simpa only [List.append_assoc] using hl)
      (.next (joins_of_mem_kinds hmark)) fun start e' he' => ?_
    rw [loopAt_operator hlevel]
    have hright : Takes (parserAt p (op.precedence + 1)) vs (us ++ rest)
        fun e' => e'.shape = right.shape := by
      refine ihright.takes (by omega) ?_ hends
      simp only [List.length_append, List.length_cons] at hl ⊢
      omega
    refine .nextStep (by simp) (operatorStep?_takes hop hmark he' ?_ hright span) fun e'' he'' => ?_
    · exact (begins_of_written ‹_›).1
    · rw [← loopAt_operator hlevel]
      exact hloop start e'' he''
  | @looser level e ts he ih =>
    intro us rest Q hl hends hloop
    rcases Nat.lt_trichotomy level 6 with hlevel | rfl | hlevel
    · obtain ⟨op?, hop⟩ : ∃ op?, levels[level]? = some op? := ⟨_, List.getElem?_eq_getElem hlevel⟩
      rw [parserAt_operator hop]
      refine .inspect fun s _ => (ih.takes (by omega) hl hends).bind fun e' he' => ?_
      rw [← loopAt_operator hop]
      exact hloop _ e' he'
    · show Takes (unary p) _ _ _
      rw [← bind_pure (unary p)]
      have hvalue := unary_value ((begins_of_written he).2 (by decide)) (ih.takes (by decide) hl hends)
      exact hvalue.bind fun e' he' => hloop .start e' he'
    · rw [parserAt_value hlevel, ← parserAt_value (show 6 < level + 1 by omega)]
      refine ih _ _ _ hl (hends.mono (Nat.le_succ _)) fun start e' he' => ?_
      rw [loopAt_value (by omega), ← loopAt_value hlevel]
      exact hloop start e' he'

end Nested

/-- What is written as an expression is read back. -/
theorem expr_readsBack : ReadsBack WrittenExpr (Ends 0) Expr.shape n expr := by
  refine .recurse fun n p hp e ts rest he hends hl => Takes.within ?_
  obtain ⟨he⟩ := he
  exact (parserAt_loops hp he).takes (by decide) (Nat.le_of_lt_succ hl) hends

end SimFront.Grammar
