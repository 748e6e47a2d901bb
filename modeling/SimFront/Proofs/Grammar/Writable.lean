import SimFront.Proofs.Grammar.Gathering
import SimFront.Proofs.Grammar.StmtTakes

/-!
# What is read can be written

A tree that strict mode reads can be written again, if not always with the tokens that it was
read from.  `Makes W p` says that `p` ends in strict mode with values that satisfy `W` only.

In parentheses an expression stands on any level, so the operands of an operator can always be
written.  Only what a statement begins with must not stand in parentheses: there the first
token is kept (`Begun`).
-/

namespace SimFront.Parser

variable {α β σ : Type} {p : Parser α} {f : α → Parser β} {W : α → Prop} {V : β → Prop}

/-- In strict mode `p` ends with values that satisfy `W` only. -/
def Makes (W : α → Prop) (p : Parser α) : Prop := ∀ s, Accepts p s fun a _ => W a

namespace Makes

theorem mono {U : α → Prop} (h : Makes W p) (hWU : ∀ a, W a → U a) : Makes U p := fun s =>
  (h s).mono fun a _ => hWU a

theorem pure {a : α} (h : W a) : Makes W (Pure.pure a : Parser α) := fun _ => .pure h

theorem bind (hp : Makes W p) (hf : ∀ a, W a → Makes V (f a)) : Makes V (p >>= f) := fun s =>
  (hp s).bind fun a s' ha => hf a ha s'

/-- Whatever the first part ends with. -/
theorem after (hf : ∀ a, Makes V (f a)) : Makes V (p >>= f) := fun _ => .anyway hf

theorem ite {c : Prop} [Decidable c] {q : Parser α} (hp : Makes W p) (hq : Makes W q) :
    Makes W (if c then p else q) := by
  split
  · exact hp
  · exact hq

theorem within {c : Context} (hp : Makes W p) : Makes W (within c p) := fun _ => .within (hp _)

theorem whenever {c : Parser Bool} (hp : Makes W p) :
    Makes (fun o => ∀ a, o = some a → W a) (whenever c p) :=
  .after fun _ => .ite (hp.bind fun _ ha => .pure fun _ h => Option.some.inj h ▸ ha) (.pure nofun)

/-- All that the rounds find. -/
theorem many {round : Parser (Round Unit α)} (hr : Makes (fun r => ∀ a, r.found? = some a → W a) round) :
    Makes (fun as => ∀ a ∈ as, W a) (many round) := by
  have key : ∀ fuel, Makes (fun as => ∀ a ∈ as, W a) (gatherAt (fun _ => round) fuel ()) := by
    intro fuel
    induction fuel with
    | zero => exact fun _ => .exhausted
    | succ fuel ih =>
      refine .after fun left => hr.bind fun r hr => ?_
      cases r with
      | stop found => exact .pure fun a ha => hr a (Option.mem_toList.1 ha)
      | next _ found =>
        refine Makes.bind (fun s => (ih s).past) fun more hmore => .pure fun a ha => ?_
        rcases List.mem_append.1 ha with ha | ha
        · exact hr a (Option.mem_toList.1 ha)
        · exact hmore a ha
  exact fun s => key _ s

theorem commaSeparated (hp : Makes W p) :
    Makes (fun as => as ≠ [] ∧ ∀ a ∈ as, W a) (commaSeparated p) := by
  refine hp.bind fun first hfirst => ?_
  have hround : Makes (fun r => ∀ a, r.found? = some a → W a)
      (do if ← eatMark .comma then found (← p) else stopped) :=
    .after fun _ => .ite (hp.bind fun _ ha => .pure fun _ h => Option.some.inj h ▸ ha) (.pure nofun)
  refine (many hround).bind fun more hmore => .pure ⟨by simp, fun a ha => ?_⟩
  rcases List.mem_cons.1 ha with rfl | ha
  · exact hfirst
  · exact hmore a ha

theorem iterate {step : α → Parser (Option α)} {a : α}
    (hstep : ∀ a, W a → Makes (fun r => W (r.getD a)) (step a)) (ha : W a) :
    Makes W (iterate step a) := fun _ => iterate_accepts (fun a s h => hstep a h s) ha

theorem recurse {rule : Parser α → Parser α} (hr : ∀ p, Makes W p → Makes W (rule p)) :
    Makes W (recurse rule) := fun s =>
  recurse_accepts (P := fun _ => True) (fun p hp s _ => hr p (fun s => hp s trivial) s) s trivial

end Makes

end SimFront.Parser

namespace SimFront.Grammar

open SimFront.Parser

variable {p : Parser Expr} {body : Parser (List Stmt)} {e base : Expr} {n : Nat}

/-! ## Writing lists -/

/-- A token of some kind. -/
def blank (k : TokenKind) : Token := .missing k {}

theorem blank_kind (k : TokenKind) : (blank k).kind = k := rfl

theorem exists_writtenList {α : Type} {one : α → List Token → Prop} {as : List α} (hne : as ≠ [])
    (h : ∀ a ∈ as, ∃ ts, one a ts) : ∃ ts, WrittenList one as ts := by
  induction as with
  | nil => exact absurd rfl hne
  | cons a as ih =>
    obtain ⟨ts, hts⟩ := h a List.mem_cons_self
    cases as with
    | nil => exact ⟨ts, .last hts⟩
    | cons b bs =>
      obtain ⟨us, hus⟩ := ih (by simp) fun c hc => h c (List.mem_cons_of_mem _ hc)
      exact ⟨_, .more hts (blank_kind (.mark .comma)) hus⟩

theorem exists_writtenEach {α : Type} {one : α → List Token → Prop} {as : List α}
    (h : ∀ a ∈ as, ∃ ts, one a ts) : ∃ ts, WrittenEach one as ts := by
  induction as with
  | nil => exact ⟨[], .nil⟩
  | cons a as ih =>
    obtain ⟨ts, hts⟩ := h a List.mem_cons_self
    obtain ⟨us, hus⟩ := ih fun c hc => h c (List.mem_cons_of_mem _ hc)
    exact ⟨_, .cons hts hus⟩

theorem exists_writtenOption {α : Type} {one : α → List Token → Prop} {leads : List (List TokenKind)}
    {o : Option α} {lead : List TokenKind} (hlead : lead ∈ leads)
    (h : ∀ a, o = some a → ∃ ts, one a ts) : ∃ ts, WrittenOption leads one o ts := by
  cases o with
  | none => exact ⟨[], .none⟩
  | some a =>
    obtain ⟨ts, hts⟩ := h a rfl
    refine ⟨lead.map blank ++ ts, .some ?_ hts⟩
    have hkinds : (lead.map blank).map (·.kind) = lead := by
      rw [List.map_map]
      exact List.map_id lead
    rwa [hkinds]

/-! ## Writing expressions -/

/-- An expression that can be written. -/
def Writable (e : Expr) : Prop := ∃ ts, WrittenExpr e ts

/-- An expression that can be written with anything behind it, beginning as a value does. -/
def Begun (K : TokenKind → Prop) (e : Expr) : Prop :=
  ∃ ts, WrittenAt WrittenExpr 8 e ts ∧ Begins K ts

theorem WrittenAt.loosen {W : Expr → List Token → Prop} {ts : List Token} (k : Nat)
    (h : WrittenAt W (n + k) e ts) : WrittenAt W n e ts := by
  induction k with
  | zero => exact h
  | succ k ih => exact ih (.looser h)

theorem writable_of_level {ts : List Token} (h : WrittenAt WrittenExpr n e ts) : Writable e :=
  ⟨ts, .mk (WrittenAt.loosen n (by rwa [Nat.zero_add]))⟩

theorem Begun.writable {K : TokenKind → Prop} (h : Begun K e) : Writable e := by
  obtain ⟨ts, hts, -⟩ := h
  exact writable_of_level hts

/-- In parentheses an expression stands on the tightest level. -/
theorem Writable.parens (h : Writable e) : Begun (fun _ => True) e := by
  obtain ⟨ts, hts⟩ := h
  exact ⟨_, .parens (blank_kind (.mark .lParen)) hts (blank_kind (.mark .rParen)), .cons trivial⟩

theorem Writable.onLevel (h : Writable e) (hn : n ≤ 8) : ∃ ts, WrittenAt WrittenExpr n e ts := by
  obtain ⟨ts, hts, -⟩ := h.parens
  exact ⟨ts, WrittenAt.loosen (8 - n) (by rwa [Nat.add_sub_cancel' hn])⟩

theorem exists_writtenArgs {args : List Expr} (h : ∀ a ∈ args, Writable a) :
    ∃ ts, WrittenArgs WrittenExpr args ts := by
  by_cases hne : args = []
  · subst hne
    exact ⟨_, .none (blank_kind (.mark .lParen)) (blank_kind (.mark .rParen))⟩
  · obtain ⟨ts, hts⟩ := exists_writtenList hne h
    exact ⟨_, .some (blank_kind (.mark .lParen)) hts (blank_kind (.mark .rParen))⟩

theorem exists_writtenMethod (method : Ident) {args : List Expr} (h : ∀ a ∈ args, Writable a) :
    ∃ ts, WrittenMethod WrittenExpr method args ts 8 := by
  obtain ⟨ts, hts⟩ := exists_writtenArgs h
  obtain ⟨name, span⟩ := method
  have hname : (⟨.ident, name, .none, {}⟩ : Token).kind = .ident := rfl
  exact ⟨_, .called hname hts span⟩

/-! ## Reading expressions -/

section Nested

variable (hp : Makes Writable p)

include hp

theorem arguments_makes : Makes (fun as => ∀ a ∈ as, Writable a) (arguments p) := by
  have hargs : Makes (fun as => ∀ a ∈ as, Writable a) (do
      if ← atKind (.mark .rParen) then pure [] else commaSeparated p) :=
    .after fun _ => .ite (.pure (by simp)) (hp.commaSeparated.mono fun _ has => has.2)
  refine .after fun opened => hargs.within.bind fun as has => ?_
  · refine .after fun b => ?_
    cases b with
    | true => exact .pure has
    | false => exact .after fun _ => .pure has

theorem arguments?_makes : Makes (fun as => ∀ a ∈ as, Writable a) (arguments? p) :=
  .after fun _ => .ite (arguments_makes hp) (.pure (by simp))

/-- A selector that was read can be written. -/
theorem selector?_makes {start : Position} : Makes (fun r => ∀ e, r = some e →
    ∃ select, e = select base ∧ ∃ ts, WrittenSelector WrittenExpr select ts) (selector? p start base) := by
  refine .after fun k => ?_
  split
  · refine .after fun _ => hp.commaSeparated.bind fun is ⟨hne, his⟩ => ?_
    refine .after fun _ => .after fun span => .pure ?_
    rintro _ ⟨⟩
    obtain ⟨ts, hts⟩ := exists_writtenList hne his
    exact ⟨fun b => .index b is span, rfl, _,
      .index (blank_kind (.mark .lBracket)) hts (blank_kind (.mark .rBracket)) span⟩
  · refine .after fun _ => .ite (.after fun _ => .after fun name => .after fun span => .pure ?_) ?_
    · rintro _ ⟨⟩
      have hname : (⟨.ident, name.name, .none, {}⟩ : Token).kind = .ident := rfl
      exact ⟨fun b => .field b name span, rfl, _,
        .field (blank_kind (.mark .dot)) hname name.span span⟩
    · exact .pure nofun
  · refine .after fun _ => .after fun span => .pure ?_
    rintro _ ⟨⟩
    exact ⟨fun b => .deref b span, rfl, _, .deref (blank_kind (.mark .caret)) span⟩
  · exact .pure nofun

theorem postfixStep?_makes {start : Position} {K : TokenKind → Prop} (hbase : Begun K base) :
    Makes (fun r => Begun K (r.getD base)) (postfixStep? p start base) := by
  obtain ⟨ts, hts, hbegins⟩ := hbase
  refine .after fun _ => .ite ?_ ((selector?_makes hp).mono ?_)
  · refine (arguments_makes hp).bind fun as has => .after fun span => .pure ?_
    obtain ⟨us, hus⟩ := exists_writtenArgs has
    exact ⟨_, .call hts hus span, hbegins.append _⟩
  · intro r hr
    cases r with
    | none => exact ⟨ts, hts, hbegins⟩
    | some e =>
      obtain ⟨select, rfl, us, hus⟩ := hr e rfl
      have hselect := WrittenAt.select (.looser hts) hus
      exact ⟨_, hselect, hbegins.append _⟩

theorem designator_makes :
    Makes (fun e => ∃ ts, WrittenDesignator WrittenExpr e ts) (designator p) := by
  have hselect {start : Position} {base : Expr} (h : ∃ ts, WrittenDesignator WrittenExpr base ts) :
      Makes (fun e => ∃ ts, WrittenDesignator WrittenExpr e ts)
        (iterate (selector? p start) base) := by
    refine .iterate (fun base ⟨ts, hts⟩ => (selector?_makes hp).mono fun r hr => ?_) h
    cases r with
    | none => exact ⟨ts, hts⟩
    | some e =>
      obtain ⟨select, rfl, us, hus⟩ := hr e rfl
      have hselect := WrittenDesignator.select hts hus
      exact ⟨_, hselect⟩
  refine .after fun start => .after fun b => .ite (.after fun t => ?_) (.after fun name => ?_)
  · exact hselect ⟨_, .selfRef (blank_kind (.word .SELF)) t.span⟩
  · have hname : (⟨.ident, name.name, .none, {}⟩ : Token).kind = .ident := rfl
    exact hselect ⟨_, .name hname name.span⟩

theorem methodCall_makes {start : Position} :
    Makes (fun c => ∃ ts, WrittenCall WrittenExpr c ts 8) (methodCall p start) := by
  refine (designator_makes hp).bind fun target ⟨ts, hts⟩ => .after fun _ => .after fun method => ?_
  refine (arguments?_makes hp).bind fun args hargs => .after fun span => .pure ?_
  obtain ⟨us, hus⟩ := exists_writtenMethod method hargs
  exact ⟨_, .mk hts .absent hus span⟩

theorem rangeOrValue_makes :
    Makes (fun e => ∃ ts, WrittenElement WrittenExpr e ts) (rangeOrValue p) := by
  refine .after fun _ => hp.bind fun low ⟨ts, hts⟩ => .after fun _ => .ite ?_ (.pure ⟨ts, .value hts⟩)
  refine hp.bind fun high ⟨us, hus⟩ => .after fun span => .pure ?_
  exact ⟨_, .range hts (blank_kind (.mark .range)) hus span⟩

theorem setLiteral_makes : Makes (Begun fun _ => True) (setLiteral p) := by
  refine .after fun start => .after fun _ => .after fun b => .ite ?_ ?_
  · refine Makes.bind (W := (· = [])) (.pure rfl) ?_
    rintro _ rfl
    refine .after fun _ => .after fun span => .pure ?_
    exact ⟨_, .emptySet (blank_kind (.mark .lBracket)) (blank_kind (.mark .rBracket)) span, .cons trivial⟩
  · refine (rangeOrValue_makes hp).commaSeparated.bind fun es ⟨hne, hes⟩ => ?_
    refine .after fun _ => .after fun span => .pure ?_
    obtain ⟨ts, hts⟩ := exists_writtenList hne hes
    exact ⟨_, .set (blank_kind (.mark .lBracket)) hts (blank_kind (.mark .rBracket)) span, .cons trivial⟩

theorem primary_makes : Makes (Begun fun _ => True) (primary p) := by
  have htoken {e : Expr} {t : Token} (h : WrittenToken e t) : Begun (fun _ => True) e :=
    ⟨_, .token h, .cons trivial⟩
  refine .after fun start => .after fun k => ?_
  split
  · refine .after fun name => .pure ?_
    have hname : (⟨.ident, name.name, .none, {}⟩ : Token).kind = .ident := rfl
    exact htoken (.name hname name.span)
  · refine .after fun t => ?_
    split
    · next value hvalue =>
      have ht : (⟨.integer, t.text, .none, {}⟩ : Token).kind = .integer := rfl
      exact .pure (htoken (.integer ht hvalue t.span))
    · exact fun _ => .after (.report _)
  · refine .after fun t => .pure ?_
    have ht : (⟨.real, t.text, .none, {}⟩ : Token).kind = .real := rfl
    exact htoken (.real ht rfl t.span)
  · refine .after fun t => .pure ?_
    have ht : (⟨.string, "", .string (t.stringValue?.getD ""), {}⟩ : Token).kind = .string := rfl
    exact htoken (.string ht rfl t.span)
  · refine .after fun t => .pure ?_
    have ht : (⟨.char, "", .char (t.charValue?.getD '\x00'), {}⟩ : Token).kind = .char := rfl
    exact htoken (.char ht rfl t.span)
  · exact .after fun t => .pure (htoken (.true (blank_kind _) t.span))
  · exact .after fun t => .pure (htoken (.false (blank_kind _) t.span))
  iterate 4 exact .after fun t => .pure (htoken (.nil (blank_kind _) t.span))
  · exact .after fun t => .pure (htoken (.selfRef (blank_kind _) t.span))
  · exact .after fun _ => hp.bind fun inner hinner => .after fun _ => .pure hinner.parens
  · exact setLiteral_makes hp
  · refine .after fun _ => (methodCall_makes hp).bind fun c ⟨ts, hts⟩ => .pure ?_
    exact ⟨_, .ask (blank_kind (.word .ASK)) hts, .cons trivial⟩
  · refine .after fun _ => .after fun method => (arguments?_makes hp).bind fun args hargs => ?_
    refine .after fun span => .pure ?_
    obtain ⟨ts, hts⟩ := exists_writtenMethod method hargs
    exact ⟨_, .inherited (blank_kind (.word .INHERITED)) hts span, .cons trivial⟩
  · exact fun _ => .after .failInContext

theorem postfixed_makes : Makes Writable (postfixed p) := by
  refine .after fun start => (primary_makes hp).bind fun e he => ?_
  exact (Makes.iterate (fun _ => postfixStep?_makes hp) he).mono fun _ => Begun.writable

/-- What begins with a name or SELF can be written so again, without parentheses around it. -/
theorem postfixed_place {s : ParserState} (hk : s.kind = .ident ∨ s.kind = .word .SELF) :
    Accepts (postfixed p) s fun e _ => ∃ ts, WrittenPlace e ts := by
  have hprimary : Accepts (primary p) s fun e _ =>
      Begun (fun k => k = .ident ∨ k = .word .SELF) e := by
    refine .inspect (.inspect ?_)
    rcases hk with hk | hk
    · rw [hk]
      refine Makes.after (fun name => .pure ?_) s
      have hname : (⟨.ident, name.name, .none, {}⟩ : Token).kind = .ident := rfl
      exact ⟨_, .token (.name hname name.span), .cons (.inl hname)⟩
    · rw [hk]
      refine Makes.after (fun t => .pure ?_) s
      exact ⟨_, .token (.selfRef (blank_kind _) t.span), .cons (.inr rfl)⟩
  refine .inspect (hprimary.bind fun e s' he => ?_)
  refine (Makes.iterate (fun _ => postfixStep?_makes hp) he s').mono ?_
  rintro e _ ⟨ts, hts, t, us, rfl, ht⟩
  exact ⟨_, .looser hts, t, us, rfl, ht⟩

theorem unary_makes : Makes Writable (unary p) := by
  refine .after fun ops => (postfixed_makes hp).bind fun e he => ?_
  induction ops with
  | nil => exact .pure he
  | cons op ops ih =>
    rw [List.foldrM_cons]
    refine ih.bind fun e' he' => .after fun span => .pure ?_
    obtain ⟨ts, hts⟩ := he'.onLevel (show 6 ≤ 8 by decide)
    exact writable_of_level (.unary (blank_kind op.1.kind) hts span)

omit hp in
theorem leftAssociative_makes {op? : TokenKind → Option BinaryOp} {operand : Parser Expr}
    (ho : Makes Writable operand) : Makes Writable (leftAssociative op? operand) := by
  refine .after fun start => ho.bind fun first hfirst => .iterate (fun left hleft => ?_) hfirst
  refine .after fun k => ?_
  split
  · exact .pure hleft
  · next op _ =>
    have hright : Makes (fun r => Writable (r.getD left))
        (do let right ← operand; pure (some (.binary op left right (← spanFrom start)))) := by
      refine ho.bind fun right hright => .after fun span => .pure ?_
      have hprecedence := precedence_lt op
      obtain ⟨ts, hts⟩ := hleft.onLevel (show op.precedence ≤ 8 by omega)
      obtain ⟨us, hus⟩ := hright.onLevel (show op.precedence + 1 ≤ 8 by omega)
      obtain ⟨k, hk⟩ : ∃ k, k ∈ op.kinds := by cases op <;> exact ⟨_, List.mem_cons_self⟩
      exact writable_of_level (.binary hts (show (blank k).kind ∈ op.kinds from hk) hus span)
    refine .after fun _ => .after fun b => .ite (.after fun _ => hright) hright

theorem binary_makes (ops : List (TokenKind → Option BinaryOp)) : Makes Writable (binary p ops) := by
  induction ops with
  | nil => exact unary_makes hp
  | cons op? tighter ih => exact leftAssociative_makes ih

end Nested

/-- Every expression that is read can be written. -/
theorem expr_makes : Makes Writable expr :=
  .recurse fun _ hp => (binary_makes hp levels).within

/-! ## Writing statements -/

/-- A statement list that can be written. -/
def WritableBlock (stmts : List Stmt) : Prop := ∃ ts, WrittenBlock stmts ts

/-- A statement that can be written. -/
def WritableStmt (stmt : Stmt) : Prop := ∃ ts, WrittenStmt WrittenBlock stmt ts

theorem writtenEnd_blank (w : Keyword) : WrittenEnd w [blank (.word .END)] :=
  .mk (blank_kind _) .absent

theorem exists_writtenLoop {stmts : List Stmt} (w : Keyword) (h : WritableBlock stmts) :
    ∃ ts, WrittenLoop WrittenBlock w ts stmts := by
  obtain ⟨ts, hts⟩ := h
  exact ⟨_, .mk .absent hts (writtenEnd_blank w)⟩

theorem writableBlock_of_stmts {stmts : List Stmt} (h : ∀ s ∈ stmts, WritableStmt s) :
    WritableBlock stmts := by
  induction stmts with
  | nil => exact ⟨[], .nil⟩
  | cons s stmts ih =>
    obtain ⟨ts, hts⟩ := h s List.mem_cons_self
    obtain ⟨us, hus⟩ := ih fun s' hs' => h s' (List.mem_cons_of_mem _ hs')
    exact ⟨_, .cons hts (blank_kind (.mark .semicolon)) hus⟩

/-! ## Reading statements -/

section Nested

variable (hb : Makes WritableBlock body)

include hb

theorem condBranch_makes (w : Keyword) :
    Makes (fun b => ∃ ts, WrittenBranch WrittenBlock w b ts) (condBranch body) := by
  refine .after fun _ => .after fun _ => expr_makes.bind fun c ⟨ts, hts⟩ => .after fun _ => ?_
  refine hb.bind fun stmts ⟨us, hus⟩ => .after fun span => .pure ?_
  exact ⟨_, .mk (blank_kind (.word w)) hts (blank_kind (.word .THEN)) hus span⟩

theorem ifStmt_makes : Makes WritableStmt (ifStmt body) := by
  have hround : Makes (fun r => ∀ b, r.found? = some b → ∃ ts, WrittenBranch WrittenBlock .ELSIF b ts)
      (do if ← atKind (.word .ELSIF) then found (← condBranch body) else stopped) :=
    .after fun _ => .ite ((condBranch_makes hb .ELSIF).bind fun _ hb => .pure fun _ h =>
      Option.some.inj h ▸ hb) (.pure nofun)
  refine .after fun _ => (condBranch_makes hb .IF).bind fun first ⟨ts, hts⟩ => ?_
  refine (Makes.many hround).bind fun more hmore => hb.whenever.bind fun else? helse => ?_
  refine .after fun _ => .after fun span => .pure ?_
  obtain ⟨us, hus⟩ := exists_writtenEach hmore
  obtain ⟨vs, hvs⟩ := exists_writtenOption List.mem_cons_self helse
  exact ⟨_, .if_ hts hus hvs (writtenEnd_blank _) span⟩

theorem caseStmt_makes : Makes WritableStmt (caseStmt body) := by
  have harm : Makes (fun a => ∃ ts, WrittenArm WrittenBlock a ts) (caseArm body) := by
    refine .after fun _ => .after fun _ => (rangeOrValue_makes expr_makes).commaSeparated.bind ?_
    intro labels ⟨hne, hlabels⟩
    refine .after fun _ => hb.bind fun stmts ⟨us, hus⟩ => .after fun span => .pure ?_
    obtain ⟨ts, hts⟩ := exists_writtenList hne hlabels
    exact ⟨_, .mk (blank_kind (.word .WHEN)) hts (blank_kind (.mark .colon)) hus span⟩
  have hround : Makes (fun r => ∀ a, r.found? = some a → ∃ ts, WrittenArm WrittenBlock a ts)
      (caseRound body) := by
    refine .after fun _ => .after fun _ => .ite (.pure nofun) (.after fun _ => harm.bind fun a ha => ?_)
    have hfound : Makes (fun r : Round Unit CaseArm => ∀ a, r.found? = some a →
        ∃ ts, WrittenArm WrittenBlock a ts) (found a) :=
      .pure fun _ h => Option.some.inj h ▸ ha
    exact .after fun _ => .ite (.after fun _ => hfound) hfound
  refine .after fun _ => expr_makes.bind fun e ⟨ts, hts⟩ => .after fun _ => ?_
  refine (Makes.many hround).bind fun arms harms => ?_
  have hotherwise : Makes (fun o => ∀ ss, o = some ss → WritableBlock ss) (otherwise? body) :=
    Makes.whenever (.after fun _ => hb)
  refine hotherwise.bind fun otherwise hotherwise => .after fun _ => .after fun span => .pure ?_
  obtain ⟨us, hus⟩ := exists_writtenEach harms
  obtain ⟨vs, hvs⟩ := exists_writtenOption List.mem_cons_self hotherwise
  exact ⟨_, .case (blank_kind (.word .CASE)) hts .absent hus hvs (writtenEnd_blank _) span⟩

/-- DO or not, statements and END, as they are read behind the head of a loop. -/
theorem loop_makes {w : Keyword} {opened : Span} {start : Position} {g : List Stmt → Span → Stmt}
    (hg : ∀ stmts ts span, WrittenLoop WrittenBlock w ts stmts → WritableStmt (g stmts span)) :
    Makes WritableStmt (do
      let _ ← eatWord .DO
      let stmts ← body
      closeWith w opened
      pure (g stmts (← spanFrom start))) := by
  refine .after fun _ => hb.bind fun stmts hstmts => .after fun _ => .after fun span => .pure ?_
  obtain ⟨ts, hts⟩ := exists_writtenLoop w hstmts
  exact hg stmts ts span hts

theorem forStmt_makes : Makes WritableStmt (forStmt body) := by
  refine .after fun _ => .after fun var => .after fun _ => expr_makes.bind fun first ⟨ts, hts⟩ => ?_
  refine .after fun direction => expr_makes.bind fun last ⟨us, hus⟩ => ?_
  refine expr_makes.whenever.bind fun step hstep => loop_makes hb fun stmts ws span hws => ?_
  obtain ⟨vs, hvs⟩ := exists_writtenOption List.mem_cons_self hstep
  have hvar : (⟨.ident, var.name, .none, {}⟩ : Token).kind = .ident := rfl
  exact ⟨_, .for_ (blank_kind (.word .FOR)) hvar (blank_kind (.mark .assign)) hts
    (blank_kind (.word direction.word)) hus hvs hws var.span span⟩

theorem waitStmt_makes : Makes WritableStmt (waitStmt body) := by
  have hsubject : Makes (fun s => ∃ ts, WrittenSubject s ts) waitSubject := by
    refine .after fun _ => .ite (.after fun _ => ?_) (.after fun _ => ?_)
    · refine (methodCall_makes expr_makes).bind fun c ⟨ts, hts⟩ => .pure ?_
      exact ⟨_, .method (blank_kind (.word .FOR)) hts⟩
    · refine expr_makes.bind fun e ⟨ts, hts⟩ => .pure ?_
      exact ⟨_, .duration (blank_kind (.word .DURATION)) hts⟩
  have hinterrupt : Makes (fun o => ∀ ss, o = some ss → WritableBlock ss) (interrupt? body) :=
    Makes.whenever (.after fun _ => hb)
  refine .after fun _ => hsubject.bind fun subject ⟨ts, hts⟩ => hb.bind fun stmts ⟨us, hus⟩ => ?_
  refine hinterrupt.bind fun interrupt hinterrupt => .after fun _ => .after fun span => .pure ?_
  obtain ⟨vs, hvs⟩ := exists_writtenOption List.mem_cons_self hinterrupt
  exact ⟨_, .wait (blank_kind (.word .WAIT)) hts hus hvs (writtenEnd_blank _) span⟩

omit hb in
theorem returnStmt_makes : Makes WritableStmt returnStmt := by
  have hvalue {start : Position} {value : Option Expr} (h : ∀ e, value = some e → Writable e) :
      Makes WritableStmt (do pure (.return_ value (← spanFrom start))) := by
    refine .after fun span => .pure ?_
    obtain ⟨ts, hts⟩ := exists_writtenOption List.mem_cons_self h
    exact ⟨_, .return_ (blank_kind (.word .RETURN)) hts span⟩
  refine .after fun _ => .after fun _ => .after fun _ => .ite ?_ ?_
  · exact Makes.bind (W := (· = none)) (.pure rfl) fun _ h => hvalue (by simp [h])
  · exact expr_makes.bind fun e he => hvalue fun _ h => Option.some.inj h ▸ he

omit hb in
theorem inParens_makes : Makes Writable inParens :=
  .after fun _ => expr_makes.bind fun _ he => .after fun _ => .pure he

omit hb in
theorem assignOrCall_place {s : ParserState} (hk : s.kind = .ident ∨ s.kind = .word .SELF) :
    Accepts assignOrCall s fun t _ => WritableStmt t := by
  refine .inspect ((postfixed_place expr_makes hk).bind ?_)
  rintro e s' ⟨ts, hts⟩
  refine Makes.after (fun b => ?_) s'
  refine .ite (expr_makes.bind fun value ⟨us, hus⟩ => ?_) (.after fun span => .pure ?_)
  · refine .after fun span => .pure ?_
    exact ⟨_, .assign hts (blank_kind (.mark .assign)) hus span⟩
  · exact ⟨_, .call hts span⟩

/-- Every statement that is read can be written. -/
theorem statement_makes : Makes (fun o => ∀ t, o = some t → WritableStmt t) (statement body) := by
  have hsome {q : Parser Stmt} {s : ParserState} (h : Accepts q s fun t _ => WritableStmt t) :
      Accepts (some <$> q) s fun o _ => ∀ t, o = some t → WritableStmt t :=
    .map (h.mono fun _ _ ht _ h => Option.some.inj h ▸ ht)
  refine fun s => .inspect ?_
  split
  · exact hsome (ifStmt_makes hb s)
  · refine hsome (Makes.after (fun _ => expr_makes.bind fun c ⟨ts, hts⟩ => ?_) s)
    exact loop_makes hb fun stmts us span hus => ⟨_, .while_ (blank_kind (.word .WHILE)) hts hus span⟩
  · exact hsome (forStmt_makes hb s)
  · refine hsome (Makes.after (fun _ => .after fun var => .after fun _ => ?_) s)
    refine expr_makes.bind fun group ⟨ts, hts⟩ => loop_makes hb fun stmts us span hus => ?_
    have hvar : (⟨.ident, var.name, .none, {}⟩ : Token).kind = .ident := rfl
    exact ⟨_, .forEach (blank_kind (.word .FOREACH)) hvar (blank_kind (.word .IN)) hts hus var.span span⟩
  · refine hsome (Makes.after (fun _ => hb.bind fun stmts ⟨ts, hts⟩ => .after fun _ => ?_) s)
    refine expr_makes.bind fun c ⟨us, hus⟩ => .after fun span => .pure ?_
    exact ⟨_, .repeat_ (blank_kind (.word .REPEAT)) hts (blank_kind (.word .UNTIL)) hus span⟩
  · refine hsome (Makes.after (fun _ => hb.bind fun stmts ⟨ts, hts⟩ => .after fun _ => ?_) s)
    refine .after fun span => .pure ?_
    exact ⟨_, .loop (blank_kind (.word .LOOP)) hts (writtenEnd_blank _) span⟩
  · exact hsome (caseStmt_makes hb s)
  · exact hsome (returnStmt_makes s)
  · exact hsome (Makes.after (fun _ => .after fun span => .pure ⟨_, .exit (blank_kind _) span⟩) s)
  · exact hsome (Makes.after (fun _ => .after fun span => .pure ⟨_, .terminate (blank_kind _) span⟩) s)
  · refine hsome (Makes.after (fun _ => inParens_makes.bind fun e ⟨ts, hts⟩ => ?_) s)
    refine .after fun span => .pure ?_
    exact ⟨_, .new (blank_kind (.word .NEW)) (blank_kind (.mark .lParen)) hts
      (blank_kind (.mark .rParen)) span⟩
  · refine hsome (Makes.after (fun _ => inParens_makes.bind fun e ⟨ts, hts⟩ => ?_) s)
    refine .after fun span => .pure ?_
    exact ⟨_, .dispose (blank_kind (.word .DISPOSE)) (blank_kind (.mark .lParen)) hts
      (blank_kind (.mark .rParen)) span⟩
  · refine hsome (Makes.after (fun _ => (methodCall_makes expr_makes).bind fun c ⟨ts, hts⟩ => ?_) s)
    exact .after fun span => .pure ⟨_, .ask (blank_kind (.word .ASK)) hts span⟩
  · refine hsome (Makes.after (fun _ => (methodCall_makes expr_makes).bind fun c ⟨ts, hts⟩ => ?_) s)
    refine expr_makes.whenever.bind fun delay hdelay => .after fun span => .pure ?_
    obtain ⟨us, hus⟩ := exists_writtenOption List.mem_cons_self hdelay
    exact ⟨_, .tell (blank_kind (.word .TELL)) hts hus span⟩
  · exact hsome (waitStmt_makes hb s)
  · refine hsome (Makes.after (fun _ => .after fun method => ?_) s)
    refine (arguments?_makes expr_makes).bind fun args hargs => .after fun span => .pure ?_
    obtain ⟨ts, hts⟩ := exists_writtenMethod method hargs
    exact ⟨_, .inherited (blank_kind (.word .INHERITED)) hts span⟩
  · refine hsome (Makes.after (fun _ => expr_makes.bind fun e ⟨ts, hts⟩ => ?_) s)
    exact loop_makes hb fun stmts us span hus => ⟨_, .with_ (blank_kind (.word .WITH)) hts hus span⟩
  · next hk => exact hsome (assignOrCall_place (.inl hk))
  · next hk => exact hsome (assignOrCall_place (.inr hk))
  · exact .after .failInContext

theorem statementRound_makes :
    Makes (fun r => ∀ t, r.found? = some t → WritableStmt t) (statementRound body) := by
  refine .after fun _ => .ite (.after fun _ => .pure nofun) (.after fun _ => .ite (.pure nofun) ?_)
  refine .after fun _ => (statement_makes hb).bind fun stmt hstmt => .after fun _ => ?_
  have hnext : Makes (fun r : Round Unit Stmt => ∀ t, r.found? = some t → WritableStmt t)
      (pure (.next () stmt)) := .pure hstmt
  refine .ite (.after fun _ => hnext) (.after fun _ => .ite hnext (.after fun _ => ?_))
  exact .ite hnext (.after fun _ => hnext)

end Nested

/-- Every statement list that is read can be written. -/
theorem statements_makes : Makes WritableBlock statements :=
  .recurse fun _ hb => ((Makes.many (statementRound_makes hb)).mono fun _ =>
    writableBlock_of_stmts).within

/-! ## Round trips -/

/-- A statement list that strict mode reads can be written, and however it is written, strict
mode reads it back, up to spans, and stops at the token that closes the block. -/
theorem statements_roundtrip {s s' : ParserState} {stmts : List Stmt}
    (h : statements .strict s = .ok (stmts, s')) :
    (∃ ts, WrittenBlock stmts ts) ∧
      ∀ (ts rest : List Token) (closer : Token) (start : ParserState), WrittenBlock stmts ts →
        closer.kind ∈ blockEnds → start.rest = ts ++ closer :: rest →
        ∃ stmts' last, statements .strict start = .ok (stmts', last) ∧
          blockShape stmts' = blockShape stmts ∧ last.rest = closer :: rest := by
  refine ⟨statements_makes s stmts s' h, fun ts rest closer start hts hcloser hstart => ?_⟩
  have htakes := statements_readsBack stmts ts (closer :: rest) hts (.cons hcloser)
    (Nat.lt_succ_self _)
  obtain ⟨stmts', last, hrun, hlast, hshape⟩ := htakes start hstart
  exact ⟨stmts', last, hrun, hshape, hlast⟩

/-- A loop in a block: `WHILE x DO EXIT; END; END`. -/
def whileTokens : List Token :=
  [blank (.word .WHILE), ⟨.ident, "x", .none, {}⟩, blank (.word .DO), blank (.word .EXIT),
   blank (.mark .semicolon), blank (.word .END), blank (.mark .semicolon), blank (.word .END)]

theorem statements_roundtrip_while : ∃ s',
    statements .strict (.ofTokens whileTokens) =
      .ok ([.while_ (.name ⟨"x", {}⟩) [.exit {}] {}], s') ∧
    (∃ ts, WrittenBlock [.while_ (.name ⟨"x", {}⟩) [.exit {}] {}] ts) ∧
    ∀ (ts rest : List Token) (closer : Token) (start : ParserState),
      WrittenBlock [.while_ (.name ⟨"x", {}⟩) [.exit {}] {}] ts → closer.kind ∈ blockEnds →
      start.rest = ts ++ closer :: rest →
      ∃ stmts' last, statements .strict start = .ok (stmts', last) ∧
        blockShape stmts' = [.while_ (.name ⟨"x", {}⟩) [.exit {}] {}] ∧
        last.rest = closer :: rest :=
  ⟨_, rfl, statements_roundtrip (s := .ofTokens whileTokens) rfl⟩

end SimFront.Grammar
