import SimFront.Proofs.Grammar.Writable

/-!
# Expressions with no more parentheses than they need

`PrintedAt level e ts` says that `ts` writes `e` at a place that asks for a level, where an
expression stands in parentheses only if its own level is looser than the place allows.  What is
printed so is one of the ways in which the expression can be written (`written_of_printedAt`), and
every expression that can be written can be printed (`printable_of_written`).  So an expression
that was read can be printed, and what is printed is read back (`expr_roundtrip`).
-/

namespace SimFront

section Nested

variable (place : Nat → Expr → List Token → Prop)

/-- An expression without parentheses around it, and the tightest level on which it stands so.
The operands stand at the places that the operator asks for: the left one of a binary operator on
the level of the operator, the right one on the next. -/
inductive PrintedBare : (own : Nat) → Expr → List Token → Prop
  | token {e : Expr} {t : Token} (ht : WrittenToken e t) : PrintedBare 8 e [t]
  | emptySet {opener closer : Token} (hopener : opener.kind = .mark .lBracket)
      (hcloser : closer.kind = .mark .rBracket) (span : Span) :
      PrintedBare 8 (.set [] span) [opener, closer]
  | set {opener closer : Token} {es : List Expr} {ts : List Token}
      (hopener : opener.kind = .mark .lBracket) (hes : WrittenList (WrittenElement (place 0)) es ts)
      (hcloser : closer.kind = .mark .rBracket) (span : Span) :
      PrintedBare 8 (.set es span) (opener :: (ts ++ [closer]))
  | ask {own : Nat} {word : Token} {call : MethodCall} {ts : List Token}
      (hword : word.kind = .word .ASK) (hcall : WrittenCall (place 0) call ts own) :
      PrintedBare own (.ask call) (word :: ts)
  | inherited {own : Nat} {word : Token} {method : Ident} {args : List Expr} {ts : List Token}
      (hword : word.kind = .word .INHERITED) (hmethod : WrittenMethod (place 0) method args ts own)
      (span : Span) : PrintedBare own (.inherited method args span) (word :: ts)
  | call {callee : Expr} {args : List Expr} {ts us : List Token} (hcallee : place 8 callee ts)
      (hargs : WrittenArgs (place 0) args us) (span : Span) :
      PrintedBare 8 (.call callee args span) (ts ++ us)
  | select {base : Expr} {select : Expr → Expr} {ts us : List Token} (hbase : place 7 base ts)
      (hselect : WrittenSelector (place 0) select us) : PrintedBare 8 (select base) (ts ++ us)
  | unary {op : UnaryOp} {sign : Token} {operand : Expr} {ts : List Token}
      (hsign : sign.kind = op.kind) (hoperand : place 6 operand ts) (span : Span) :
      PrintedBare 6 (.unary op operand span) (sign :: ts)
  | binary {op : BinaryOp} {mark : Token} {left right : Expr} {ts us : List Token}
      (hleft : place op.precedence left ts) (hmark : mark.kind ∈ op.kinds)
      (hright : place (op.precedence + 1) right us) (span : Span) :
      PrintedBare op.precedence (.binary op left right span) (ts ++ mark :: us)

end Nested

/-- An expression at a place that asks for a level, in parentheses only if it needs them there. -/
inductive PrintedAt : (level : Nat) → Expr → List Token → Prop
  | bare {level own : Nat} {e : Expr} {ts : List Token} (he : PrintedBare PrintedAt own e ts)
      (hown : level ≤ own) : PrintedAt level e ts
  | parens {level own : Nat} {e : Expr} {opener closer : Token} {ts : List Token}
      (hopener : opener.kind = .mark .lParen) (he : PrintedBare PrintedAt own e ts)
      (hcloser : closer.kind = .mark .rParen) (hown : own < level) :
      PrintedAt level e (opener :: (ts ++ [closer]))

namespace Grammar

open SimFront.Parser

/-! ## One writing for another -/

/-- What corresponds part by part corresponds as a whole. -/
structure PartByPart (R : List Token → List Token → Prop) : Prop where
  refl (ts : List Token) : R ts ts
  append {ts us ts' us' : List Token} (h : R ts us) (h' : R ts' us') : R (ts ++ ts') (us ++ us')

theorem PartByPart.cons {R : List Token → List Token → Prop} (hR : PartByPart R) (t : Token)
    {ts us : List Token} (h : R ts us) : R (t :: ts) (t :: us) := hR.append (hR.refl [t]) h

/-- For fewer than `n` tokens of one writing there are corresponding ones of another. -/
def Rewrites (R : List Token → List Token → Prop) (n : Nat) (P P' : List Token → Prop) : Prop :=
  ∀ ts, ts.length < n → P ts → ∃ us, R ts us ∧ P' us

section Rewrites

variable {R : List Token → List Token → Prop} {n : Nat} {W W' : Expr → List Token → Prop}

theorem rewrites_list {α : Type} {one one' : α → List Token → Prop} (hR : PartByPart R)
    (h : ∀ a, Rewrites R n (one a) (one' a)) (as : List α) :
    Rewrites R n (WrittenList one as) (WrittenList one' as) := by
  intro ts hn hts
  induction hts with
  | last ha =>
    obtain ⟨us, hus, ha'⟩ := h _ _ hn ha
    exact ⟨us, hus, .last ha'⟩
  | @more a as ts ts' comma ha hcomma has ih =>
    rw [List.length_append, List.length_cons] at hn
    obtain ⟨us, hus, ha'⟩ := h _ _ (by omega) ha
    obtain ⟨us', hus', has'⟩ := ih (by omega)
    exact ⟨_, hR.append hus (hR.cons comma hus'), .more ha' hcomma has'⟩

variable (hR : PartByPart R) (hW : ∀ e, Rewrites R n (W e) (W' e))

include hR hW

theorem rewrites_args (args : List Expr) :
    Rewrites R n (WrittenArgs W args) (WrittenArgs W' args) := by
  intro ts hn hts
  cases hts with
  | none hopener hcloser => exact ⟨_, hR.refl _, .none hopener hcloser⟩
  | @some opener closer _ ts hopener hes hcloser =>
    simp only [List.length_cons, List.length_append] at hn
    obtain ⟨us, hus, hes'⟩ := rewrites_list hR hW args ts (by omega) hes
    exact ⟨_, hR.cons opener (hR.append hus (hR.refl [closer])), .some hopener hes' hcloser⟩

theorem rewrites_method (method : Ident) (args : List Expr) (level : Nat) :
    Rewrites R n (WrittenMethod W method args · level) (WrittenMethod W' method args · level) := by
  intro ts hn hts
  cases hts with
  | @called name _ ts hname hargs span =>
    obtain ⟨us, hus, hargs'⟩ := rewrites_args hR hW args ts (Nat.lt_of_succ_lt hn) hargs
    exact ⟨_, hR.cons name hus, .called hname hargs' span⟩
  | bare hname span => exact ⟨_, hR.refl _, .bare hname span⟩

theorem rewrites_selector (select : Expr → Expr) :
    Rewrites R n (WrittenSelector W select) (WrittenSelector W' select) := by
  intro ts hn hts
  cases hts with
  | @index opener closer es ts hopener hes hcloser span =>
    simp only [List.length_cons, List.length_append] at hn
    obtain ⟨us, hus, hes'⟩ := rewrites_list hR hW es ts (by omega) hes
    exact ⟨_, hR.cons opener (hR.append hus (hR.refl [closer])), .index hopener hes' hcloser span⟩
  | field hdot hname nameSpan span => exact ⟨_, hR.refl _, .field hdot hname nameSpan span⟩
  | deref hcaret span => exact ⟨_, hR.refl _, .deref hcaret span⟩

theorem rewrites_designator (e : Expr) :
    Rewrites R n (WrittenDesignator W e) (WrittenDesignator W' e) := by
  intro ts hn hts
  induction hts with
  | name ht span => exact ⟨_, hR.refl _, .name ht span⟩
  | selfRef ht span => exact ⟨_, hR.refl _, .selfRef ht span⟩
  | @select base select ts ts' _ hselect ih =>
    rw [List.length_append] at hn
    obtain ⟨us, hus, hbase'⟩ := ih (by omega)
    obtain ⟨us', hus', hselect'⟩ := rewrites_selector hR hW select ts' (by omega) hselect
    exact ⟨_, hR.append hus hus', .select hbase' hselect'⟩

theorem rewrites_call (call : MethodCall) (level : Nat) :
    Rewrites R n (WrittenCall W call · level) (WrittenCall W' call · level) := by
  intro ts hn hts
  cases hts with
  | @mk target method args ts ls ts' _ htarget hto hmethod span =>
    simp only [List.length_append] at hn
    obtain ⟨us, hus, htarget'⟩ := rewrites_designator hR hW target ts (by omega) htarget
    obtain ⟨us', hus', hmethod'⟩ := rewrites_method hR hW method args level ts' (by omega) hmethod
    exact ⟨_, hR.append hus (hR.append (hR.refl ls) hus'), .mk htarget' hto hmethod' span⟩

theorem rewrites_element (e : Expr) :
    Rewrites R n (WrittenElement W e) (WrittenElement W' e) := by
  intro ts hn hts
  cases hts with
  | value he =>
    obtain ⟨us, hus, he'⟩ := hW e ts hn he
    exact ⟨us, hus, .value he'⟩
  | @range low high ts ts' mark hlow hmark hhigh span =>
    rw [List.length_append, List.length_cons] at hn
    obtain ⟨us, hus, hlow'⟩ := hW low ts (by omega) hlow
    obtain ⟨us', hus', hhigh'⟩ := hW high ts' (by omega) hhigh
    exact ⟨_, hR.append hus (hR.cons mark hus'), .range hlow' hmark hhigh' span⟩

end Rewrites

/-! ## What is printed is written so -/

theorem eq_partByPart : PartByPart Eq where
  refl _ := rfl
  append h h' := by rw [h, h']

theorem Rewrites.of_imp {n : Nat} {P P' : List Token → Prop}
    (h : ∀ ts, ts.length < n → P ts → P' ts) : Rewrites Eq n P P' :=
  fun ts hn hts => ⟨ts, rfl, h ts hn hts⟩

theorem Rewrites.imp {n : Nat} {P P' : List Token → Prop} (h : Rewrites Eq n P P')
    {ts : List Token} (hn : ts.length < n) (hts : P ts) : P' ts := by
  obtain ⟨_, rfl, hts'⟩ := h ts hn hts
  exact hts'

theorem args_length_pos {W : Expr → List Token → Prop} {args : List Expr} {ts : List Token}
    (h : WrittenArgs W args ts) : 0 < ts.length := by cases h <;> exact Nat.succ_pos _

theorem selector_length_pos {W : Expr → List Token → Prop} {select : Expr → Expr}
    {ts : List Token} (h : WrittenSelector W select ts) : 0 < ts.length := by
  cases h <;> exact Nat.succ_pos _

theorem written_length_pos {W : Expr → List Token → Prop} {level : Nat} {e : Expr}
    {ts : List Token} (h : WrittenAt W level e ts) : 0 < ts.length := by
  obtain ⟨t, us, rfl, -⟩ := (begins_of_written h).1
  exact Nat.succ_pos _

theorem level_le_of_method {W : Expr → List Token → Prop} {method : Ident} {args : List Expr}
    {ts : List Token} {level : Nat} (h : WrittenMethod W method args ts level) : level ≤ 8 := by
  cases h <;> decide

theorem level_le_of_call {W : Expr → List Token → Prop} {call : MethodCall} {ts : List Token}
    {level : Nat} (h : WrittenCall W call ts level) : level ≤ 8 := by
  cases h with
  | mk _ _ hmethod => exact level_le_of_method hmethod

/-- Without parentheses, when what stands at each of its places is written there. -/
theorem writtenAt_of_bare {place : Nat → Expr → List Token → Prop} {own : Nat} {e : Expr}
    {ts : List Token} (h : PrintedBare place own e ts)
    (hplace : ∀ level e us, level ≤ 8 → us.length < ts.length → place level e us →
      WrittenAt WrittenExpr level e us) : own ≤ 8 ∧ WrittenAt WrittenExpr own e ts := by
  have hexpr (e : Expr) : Rewrites Eq ts.length (place 0 e) (WrittenExpr e) :=
    .of_imp fun us hn hus => .mk (hplace 0 e us (Nat.zero_le 8) hn hus)
  cases h with
  | token ht => exact ⟨by decide, .token ht⟩
  | emptySet hopener hcloser span => exact ⟨by decide, .emptySet hopener hcloser span⟩
  | set hopener hes hcloser span =>
    have hes' := (rewrites_list eq_partByPart (rewrites_element eq_partByPart hexpr) _).imp
      (by simp only [List.length_cons, List.length_append]; omega) hes
    exact ⟨by decide, .set hopener hes' hcloser span⟩
  | ask hword hcall =>
    have hcall' := (rewrites_call eq_partByPart hexpr _ _).imp (Nat.lt_succ_self _) hcall
    exact ⟨level_le_of_call hcall, .ask hword hcall'⟩
  | inherited hword hmethod span =>
    have hmethod' := (rewrites_method eq_partByPart hexpr _ _ _).imp (Nat.lt_succ_self _) hmethod
    exact ⟨level_le_of_method hmethod, .inherited hword hmethod' span⟩
  | @call callee args ts us hcallee hargs span =>
    have hpos := args_length_pos hargs
    rw [List.length_append] at hplace hexpr
    have hcallee' := hplace 8 callee ts (Nat.le_refl 8) (by omega) hcallee
    have hargs' := (rewrites_args eq_partByPart hexpr args).imp
      (by have := written_length_pos hcallee'; omega) hargs
    exact ⟨by decide, .call hcallee' hargs' span⟩
  | @select base select ts us hbase hselect =>
    have hpos := selector_length_pos hselect
    rw [List.length_append] at hplace hexpr
    have hbase' := hplace 7 base ts (by decide) (by omega) hbase
    have hselect' := (rewrites_selector eq_partByPart hexpr select).imp
      (by have := written_length_pos hbase'; omega) hselect
    exact ⟨by decide, .select hbase' hselect'⟩
  | unary hsign hoperand span =>
    exact ⟨by decide, .unary hsign (hplace 6 _ _ (by decide) (Nat.lt_succ_self _) hoperand) span⟩
  | @binary op mark left right ts us hleft hmark hright span =>
    have hprecedence := precedence_lt op
    rw [List.length_append, List.length_cons] at hplace
    have hleft' := hplace _ left ts (by omega) (by omega) hleft
    have hright' := hplace _ right us (by omega) (by omega) hright
    exact ⟨by omega, .binary hleft' hmark hright' span⟩

/-- Parentheses that are not needed are left out, but none are added: what is printed is one of
the ways to write the expression. -/
theorem written_of_printedAt {level : Nat} {e : Expr} {ts : List Token} (hlevel : level ≤ 8)
    (h : PrintedAt level e ts) : WrittenAt WrittenExpr level e ts := by
  -- On the number of tokens, since expressions stand in each other through lists and calls.
  induction hlen : ts.length using Nat.strong_induction_on generalizing level e ts with
  | _ n ih =>
    subst hlen
    cases h with
    | bare he hown =>
      obtain ⟨-, hwritten⟩ := writtenAt_of_bare he fun _ _ us hl hn hus => ih _ hn hl hus rfl
      exact WrittenAt.loosen _ (by rwa [Nat.add_sub_cancel' hown])
    | @parens _ own _ opener closer ts hopener he hcloser hown =>
      have hshort : ts.length < (opener :: (ts ++ [closer])).length := by
        simp only [List.length_cons, List.length_append]
        omega
      obtain ⟨-, hwritten⟩ :=
        writtenAt_of_bare he fun _ _ us hl hn hus => ih _ (hn.trans hshort) hl hus rfl
      have hinner := WrittenAt.loosen (n := 0) own (by rwa [Nat.zero_add])
      exact WrittenAt.loosen (8 - level) (by
        rw [Nat.add_sub_cancel' hlevel]
        exact .parens hopener (.mk hinner) hcloser)

/-! ## What can be written can be printed -/

/-- An expression that can be printed. -/
def Printable (e : Expr) : Prop := ∃ own ts, PrintedBare PrintedAt own e ts

/-- If need be in parentheses, it can be printed at every place. -/
theorem Printable.at_place {e : Expr} (h : Printable e) (level : Nat) :
    ∃ ts, PrintedAt level e ts := by
  obtain ⟨own, ts, hts⟩ := h
  by_cases hown : level ≤ own
  · exact ⟨ts, .bare hts hown⟩
  · exact ⟨_, .parens (blank_kind (.mark .lParen)) hts (blank_kind (.mark .rParen))
      (Nat.lt_of_not_le hown)⟩

theorem any_partByPart : PartByPart fun _ _ => True where
  refl _ := trivial
  append _ _ := trivial

theorem printable_of_writtenAt {n level : Nat} {e : Expr} {ts : List Token}
    (hexpr : ∀ e us, us.length < n → WrittenExpr e us → Printable e)
    (h : WrittenAt WrittenExpr level e ts) (hn : ts.length ≤ n) : Printable e := by
  have hplace (e : Expr) : Rewrites (fun _ _ => True) n (WrittenExpr e) (PrintedAt 0 e) := by
    intro us hus he
    obtain ⟨vs, hvs⟩ := (hexpr e us hus he).at_place 0
    exact ⟨vs, trivial, hvs⟩
  induction h with
  | token ht => exact ⟨_, _, .token ht⟩
  | @parens e opener closer ts hopener he hcloser =>
    simp only [List.length_cons, List.length_append] at hn
    exact hexpr e ts (by omega) he
  | emptySet hopener hcloser span => exact ⟨_, _, .emptySet hopener hcloser span⟩
  | @set opener closer es ts hopener hes hcloser span =>
    simp only [List.length_cons, List.length_append] at hn
    obtain ⟨us, -, hes'⟩ := rewrites_list any_partByPart (rewrites_element any_partByPart hplace) es
      ts (by omega) hes
    exact ⟨_, _, .set hopener hes' hcloser span⟩
  | @ask level word call ts hword hcall =>
    obtain ⟨us, -, hcall'⟩ := rewrites_call any_partByPart hplace call level ts hn hcall
    exact ⟨_, _, .ask hword hcall'⟩
  | @inherited level word method args ts hword hmethod span =>
    obtain ⟨us, -, hmethod'⟩ :=
      rewrites_method any_partByPart hplace method args level ts hn hmethod
    exact ⟨_, _, .inherited hword hmethod' span⟩
  | @call callee args ts us hcallee hargs span ih =>
    have hpos := written_length_pos hcallee
    rw [List.length_append] at hn
    obtain ⟨_, hcallee'⟩ := (ih (by omega)).at_place 8
    obtain ⟨_, -, hargs'⟩ := rewrites_args any_partByPart hplace args us (by omega) hargs
    exact ⟨_, _, .call hcallee' hargs' span⟩
  | @select base select ts us hbase hselect ih =>
    have hpos := written_length_pos hbase
    rw [List.length_append] at hn
    obtain ⟨_, hbase'⟩ := (ih (by omega)).at_place 7
    obtain ⟨_, -, hselect'⟩ := rewrites_selector any_partByPart hplace select us (by omega) hselect
    exact ⟨_, _, .select hbase' hselect'⟩
  | @unary op sign operand ts hsign hoperand span ih =>
    obtain ⟨_, hoperand'⟩ := (ih (Nat.le_of_succ_le hn)).at_place 6
    exact ⟨_, _, .unary hsign hoperand' span⟩
  | @binary op mark left right ts us hleft hmark hright span ihleft ihright =>
    rw [List.length_append, List.length_cons] at hn
    obtain ⟨_, hleft'⟩ := (ihleft (by omega)).at_place op.precedence
    obtain ⟨_, hright'⟩ := (ihright (by omega)).at_place (op.precedence + 1)
    exact ⟨_, _, .binary hleft' hmark hright' span⟩
  | looser _ ih => exact ih hn

theorem printable_of_written {e : Expr} {ts : List Token} (h : WrittenExpr e ts) : Printable e := by
  induction hlen : ts.length using Nat.strong_induction_on generalizing e ts with
  | _ n ih =>
    subst hlen
    obtain ⟨he⟩ := h
    exact printable_of_writtenAt (fun e us hn hus => ih _ hn hus rfl) he (Nat.le_refl _)

/-! ## The round trip -/

/-- An expression that strict mode reads can be printed, and however it is printed, with a token
behind it that continues no expression, strict mode reads it back, up to spans, and stops at that
token. -/
theorem expr_roundtrip {s s' : ParserState} {e : Expr} (h : expr .strict s = .ok (e, s')) :
    (∃ ts, PrintedAt 0 e ts) ∧
      ∀ (ts rest : List Token) (next : Token) (start : ParserState), PrintedAt 0 e ts →
        joins next.kind = none → start.rest = ts ++ next :: rest →
        ∃ e' last, expr .strict start = .ok (e', last) ∧ e'.shape = e.shape ∧
          last.rest = next :: rest := by
  obtain ⟨written, hwritten⟩ := expr_makes s e s' h
  refine ⟨(printable_of_written hwritten).at_place 0, fun ts rest next start hts hnext hstart => ?_⟩
  have hexpr : WrittenExpr e ts := .mk (written_of_printedAt (Nat.zero_le 8) hts)
  have htakes := expr_readsBack e ts (next :: rest) hexpr (.of_joins hnext) (Nat.lt_succ_self _)
  obtain ⟨e', last, hrun, hlast, hshape⟩ := htakes start hstart
  exact ⟨e', last, hrun, hshape, hlast⟩

/-- A name as a token. -/
def nameToken (name : String) : Token := ⟨.ident, name, .none, {}⟩

/-- `(a + b) * -ASK c m` -/
def product : Expr :=
  .binary .mul (.binary .add (.name ⟨"a", {}⟩) (.name ⟨"b", {}⟩) {})
    (.unary .neg (.ask ⟨.name ⟨"c", {}⟩, ⟨"m", {}⟩, [], {}⟩) {}) {}

def productTokens : List Token :=
  [blank (.mark .lParen), nameToken "a", blank (.mark .plus), nameToken "b", blank (.mark .rParen),
   blank (.mark .star), blank (.mark .minus), blank (.word .ASK), nameToken "c", nameToken "m"]

/-- The sum needs its parentheses as a factor, the negation does not. -/
theorem product_printed : PrintedAt 0 product productTokens := by
  have hname (name : String) (level : Nat) (hlevel : level ≤ 8) :
      PrintedAt level (.name ⟨name, {}⟩) [nameToken name] :=
    .bare (.token (.name (t := nameToken name) rfl {})) hlevel
  have hsum : PrintedBare PrintedAt BinaryOp.add.precedence
      (.binary .add (.name ⟨"a", {}⟩) (.name ⟨"b", {}⟩) {})
      ([nameToken "a"] ++ blank (.mark .plus) :: [nameToken "b"]) :=
    .binary (hname "a" _ (by decide)) (by decide) (hname "b" _ (by decide)) {}
  have hmethod : WrittenMethod (PrintedAt 0) ⟨"m", {}⟩ [] [nameToken "m"] 7 :=
    .bare (show (nameToken "m").kind = .ident from rfl) {}
  have hobject : WrittenDesignator (PrintedAt 0) (.name ⟨"c", {}⟩) [nameToken "c"] :=
    .name (t := nameToken "c") rfl {}
  have hcall : PrintedBare PrintedAt 7 (.ask ⟨.name ⟨"c", {}⟩, ⟨"m", {}⟩, [], {}⟩)
      [blank (.word .ASK), nameToken "c", nameToken "m"] :=
    .ask rfl (.mk hobject .absent hmethod {})
  have hnegation : PrintedAt (BinaryOp.mul.precedence + 1)
      (.unary .neg (.ask ⟨.name ⟨"c", {}⟩, ⟨"m", {}⟩, [], {}⟩) {})
      [blank (.mark .minus), blank (.word .ASK), nameToken "c", nameToken "m"] :=
    .bare (.unary rfl (.bare hcall (by decide)) {}) (by decide)
  have hfactor : PrintedAt BinaryOp.mul.precedence _ _ :=
    .parens (blank_kind (.mark .lParen)) hsum (blank_kind (.mark .rParen)) (by decide)
  have hstar : (blank (.mark .star)).kind ∈ BinaryOp.mul.kinds := List.mem_cons_self
  exact .bare (.binary hfactor hstar hnegation {}) (by decide)

/-- Read with more parentheses than it needs: `((a + b)) * -ASK c m;`. -/
theorem expr_roundtrip_product :
    let source := blank (.mark .lParen) :: productTokens.take 5 ++ blank (.mark .rParen) ::
      (productTokens.drop 5 ++ [blank (.mark .semicolon)])
    ∃ s', expr .strict (.ofTokens source) = .ok (product, s') ∧
      (∃ ts, PrintedAt 0 product ts) ∧
      ∃ e' last, expr .strict (.ofTokens (productTokens ++ [blank (.mark .semicolon)])) =
        .ok (e', last) ∧ e'.shape = product.shape ∧ last.rest = [blank (.mark .semicolon)] := by
  intro source
  have hread : ∃ s', expr .strict (.ofTokens source) = .ok (product, s') := ⟨_, rfl⟩
  obtain ⟨s', hs'⟩ := hread
  obtain ⟨hprints, hback⟩ := expr_roundtrip hs'
  refine ⟨s', hs', hprints, ?_⟩
  exact hback productTokens [] (blank (.mark .semicolon)) _ product_printed rfl rfl

end Grammar

end SimFront
