import SimFront.Grammar.Stmt
import SimFront.Proofs.Grammar.ExprTakes

/-!
# Reading statements back

After a statement stands a semicolon, after a list of statements a token that closes a block.
Neither continues an expression, and nor does the first token of a statement: so an expression
ends where a body without a word before it begins.  A construct that is closed with END alone
is followed by a semicolon, not by its own word.
-/

namespace SimFront.Grammar

open SimFront.Parser

variable {α : Type} {body : Parser (List Stmt)} {n : Nat} {ts us rest : List Token} {t : Token}

/-! ## First tokens -/

/-- The kinds of tokens that a statement can begin with. -/
def opensStmt (k : TokenKind) : Prop := k.startsStatement = true ∨ k = .ident ∨ k = .word .SELF

/-- The kinds of tokens that can come first where statements are expected. -/
def opensBody (k : TokenKind) : Prop := opensStmt k ∨ k ∈ blockEnds

theorem joins_of_opensStmt {k : TokenKind} (h : opensStmt k) : joins k = none := by
  rcases h with h | rfl | rfl
  · unfold TokenKind.startsStatement at h
    split at h <;> first | rfl | cases h
  · rfl
  · rfl

theorem joins_of_blockEnds {k : TokenKind} (h : k ∈ blockEnds) : joins k = none := by
  simp only [blockEnds, List.mem_cons, List.not_mem_nil, or_false] at h
  rcases h with rfl | rfl | rfl | rfl | rfl | rfl | rfl | rfl | rfl <;> rfl

theorem opensStmt_not_blockEnds {k : TokenKind} (h : opensStmt k) : k ∉ blockEnds := by
  rcases h with h | rfl | rfl
  · unfold TokenKind.startsStatement at h
    split at h <;> first | decide | cases h
  · decide
  · decide

theorem begins_of_place {e : Expr} (h : WrittenPlace e ts) : Begins opensStmt ts := by
  obtain ⟨-, t, us, rfl, ht⟩ := h
  exact .cons (.inr ht)

theorem begins_of_stmt {block : List Stmt → List Token → Prop} {stmt : Stmt}
    (h : WrittenStmt block stmt ts) : Begins opensStmt ts := by
  cases h with
  | assign htarget => exact (begins_of_place htarget).append _
  | call hcall => exact begins_of_place hcall
  | if_ hfirst =>
    obtain ⟨hopener⟩ := hfirst
    exact .cons (.inl (by rw [hopener]; rfl))
  | while_ ht | for_ ht | forEach ht | repeat_ ht | loop ht | case ht | return_ ht | exit ht
  | new ht | dispose ht | ask ht | tell ht | wait ht | terminate ht | inherited ht | with_ ht =>
    exact .cons (.inl (by rw [ht]; rfl))

theorem begins_of_block {stmts : List Stmt} (h : WrittenBlock stmts ts)
    (hrest : Begins (· ∈ blockEnds) rest) : Begins opensBody (ts ++ rest) := by
  cases h with
  | nil => exact hrest.mono fun _ => .inr
  | cons hstmt => exact ((((begins_of_stmt hstmt).append _).append _)).mono fun _ => .inl

/-! ## What follows an expression -/

theorem Ends.of_kinds {K : TokenKind → Prop} (h : Begins K us) (hK : ∀ k, K k → joins k = none) :
    Ends 0 us :=
  Begins.mono h fun k hk l hl => by simp [hK k hk] at hl

theorem expr_takes {e : Expr} (h : WrittenExpr e ts) (hends : Ends 0 rest) :
    Takes expr ts rest fun e' => e'.shape = e.shape :=
  expr_readsBack e ts rest h hends (Nat.lt_succ_self _)

theorem joins_of_opensBody {k : TokenKind} (h : opensBody k) : joins k = none :=
  h.elim joins_of_opensStmt joins_of_blockEnds

theorem ends_of_body (h : Begins opensBody us) : Ends 0 us :=
  .of_kinds h fun _ hk => joins_of_opensBody hk

section Nested

variable (hb : ReadsBack WrittenBlock (Begins (· ∈ blockEnds)) blockShape n body)

include hb

/-! ## Conditions and cases -/

theorem condBranch_takes {word : Keyword} {b : CondBranch}
    (h : WrittenBranch WrittenBlock word b ts) (hrest : Begins (· ∈ blockEnds) rest)
    (hl : (ts ++ rest).length ≤ n) :
    Takes (condBranch body) ts rest fun b' => b'.shape = b.shape := by
  obtain ⟨hopener, hcondition, hthen, hbody, span⟩ := h
  refine .inspect fun _ _ => .bump (by simp [hopener]) ?_
  refine (expr_takes hcondition (.of_joins (by simp [hthen, joins]))).bind fun c hc => ?_
  refine .expectWord hthen ((hb _ _ _ hbody hrest ?_).bindLast fun stmts hstmts => ?_)
  · simp only [List.length_append, List.length_cons] at hl ⊢
    omega
  · refine .finish fun _ => ?_
    simp only [CondBranch.shape, hc, hstmts]

omit hb in
theorem begins_of_end {w : Keyword} (h : WrittenEnd w ts) : Begins (· = .word .END) ts := by
  obtain ⟨hclose, -⟩ := h
  exact .cons hclose

omit hb in
/-- A part that is announced by some words, or what comes after it. -/
theorem begins_of_option {leads : List (List TokenKind)} {one : α → List Token → Prop}
    {o : Option α} {K : TokenKind → Prop} (h : WrittenOption leads one o ts)
    (hleads : ∀ l ∈ leads, ∃ k ks, l = k :: ks ∧ K k) (hrest : Begins K rest) :
    Begins K (ts ++ rest) := by
  cases h with
  | none => exact hrest
  | @some a ls ts hlead ha =>
    obtain ⟨k, ks, hls, hk⟩ := hleads _ hlead
    obtain ⟨l, ls', rfl, rfl, -⟩ := List.map_eq_cons_iff.1 hls
    exact .cons hk

theorem ifStmt_takes {first : CondBranch} {more : List CondBranch} {else? : Option (List Stmt)}
    {ts us vs close : List Token} (hfirst : WrittenBranch WrittenBlock .IF first ts)
    (hmore : WrittenEach (WrittenBranch WrittenBlock .ELSIF) more us)
    (helse : WrittenOption [[.word .ELSE]] WrittenBlock else? vs) (hclose : WrittenEnd .IF close)
    (span : Span) (hrest : Begins (· = .mark .semicolon) rest)
    (hl : (ts ++ (us ++ (vs ++ close)) ++ rest).length ≤ n) :
    Takes (ifStmt body) (ts ++ (us ++ (vs ++ close))) rest
      fun s => s.shape = (Stmt.if_ (first :: more) else? span).shape := by
  have hend : Begins (· = .word .END) (close ++ rest) := (begins_of_end hclose).append _
  have helse' : Begins (fun k => k = .word .ELSE ∨ k = .word .END) (vs ++ close ++ rest) := by
    rw [List.append_assoc]
    exact begins_of_option helse (by simp) (hend.mono fun _ => .inr)
  have hbranch {b : CondBranch} {ts : List Token}
      (h : WrittenBranch WrittenBlock .ELSIF b ts) : Begins (· = .word .ELSIF) ts := by
    obtain ⟨hopener⟩ := h
    exact .cons hopener
  have hmore' : Begins (· ∈ blockEnds) (us ++ (vs ++ close) ++ rest) := by
    cases hmore with
    | nil => exact helse'.mono (by rintro _ (rfl | rfl) <;> decide)
    | cons hb' =>
      exact ((((hbranch hb').append _).append _).append _).mono (by rintro _ rfl; decide)
  simp only [List.length_append] at hl
  refine .inspect fun _ _ => ?_
  refine (condBranch_takes hb hfirst hmore' ?_).bind fun first' hfirst' => ?_
  · simp only [List.length_append]
    omega
  refine Takes.bind (P := fun bs => bs.map CondBranch.shape = more.map CondBranch.shape)
    (.each (K := (· ∈ blockEnds)) (n := n) hmore ?_ ?_ ?_ ?_ ?_) fun more' hmore' => ?_
  · exact fun b ts h => (hbranch h).mono (by rintro _ rfl; decide)
  · intro b ts rest h hrest hl
    refine .atKind ((hbranch h).append _) ((condBranch_takes hb h hrest hl).bindLast ?_)
    exact fun b' hb' => .pure ⟨b', rfl, hb'⟩
  · refine .notAtKind (helse'.mono ?_) (.pure rfl)
    rintro _ (rfl | rfl) <;> simp
  · exact helse'.mono (by rintro _ (rfl | rfl) <;> decide)
  · simp only [List.length_append]
    omega
  refine Takes.bind (.wheneverWord blockShape helse ?_ ?_) fun else' helse' => ?_
  · intro stmts us hstmts hlt
    refine hb _ _ _ hstmts (hend.mono (by rintro _ rfl; decide)) ?_
    simp only [List.length_append] at hlt ⊢
    omega
  · exact hend.mono (by rintro _ rfl; simp)
  · refine .closeWith hclose (hrest.mono (by rintro _ rfl; simp)) (.finish fun _ => ?_)
    simp only [Stmt.shape, branchShapes_eq_map, blockShape?_eq_map, List.map_cons, hfirst', hmore',
      helse']

theorem caseArm_takes {arm : CaseArm} (h : WrittenArm WrittenBlock arm ts)
    (hrest : Begins (· ∈ blockEnds) rest) (hl : (ts ++ rest).length ≤ n) :
    Takes (caseArm body) ts rest fun a => a.shape = arm.shape := by
  obtain @⟨opener, colon, labels, stmts, ts, us, hopener, hlabels, hcolon, hbody, span⟩ := h
  refine .inspect fun _ _ => .eatWord hopener ?_
  refine Takes.bind (P := fun ls => ls.map Expr.shape = labels.map Expr.shape) ?_ fun ls hls => ?_
  · refine (rangeOrValue_readsBack expr_readsBack).commaSeparated ?_ hlabels ?_
      (.cons (by simp [hcolon])) (Nat.lt_succ_self _)
    · exact fun _ _ h => ⟨.of_joins (by simp [h, joins]), .cons (by simp [h])⟩
    · exact ⟨.of_joins (by simp [hcolon, joins]), .cons (by simp [hcolon])⟩
  · refine .expectMark hcolon ((hb _ _ _ hbody hrest ?_).bindLast fun stmts' hstmts' => ?_)
    · simp only [List.length_append, List.length_cons] at hl ⊢
      omega
    · refine .finish fun _ => ?_
      simp only [CaseArm.shape, exprShapes_eq_map, hls, hstmts']

omit hb in
theorem begins_of_arm {block : List Stmt → List Token → Prop} {arm : CaseArm}
    (h : WrittenArm block arm ts) : Begins (· = .word .WHEN) ts := by
  obtain ⟨hopener⟩ := h
  exact .cons hopener

theorem caseRound_takes {arm : CaseArm} (h : WrittenArm WrittenBlock arm ts)
    (hrest : Begins (· ∈ blockEnds) rest) (hl : (ts ++ rest).length ≤ n) :
    Takes (caseRound body) ts rest fun r => ∃ a, r = .next () (some a) ∧ a.shape = arm.shape := by
  have hwhen := (begins_of_arm h).append rest
  obtain ⟨t, us, hts, -⟩ := begins_of_arm h
  refine .notEat (hwhen.mono (by rintro _ rfl; simp)) (.notAtAny (hwhen.mono (by rintro _ rfl; simp)) ?_)
  refine .inspect fun s hs => (caseArm_takes hb h hrest hl).bindLast fun a ha => ?_
  refine .inspect fun s' hs' => ?_
  have hread : s'.rest.length ≠ s.rest.length := by
    rw [hs, hs', hts]
    simp only [List.length_append, List.length_cons, List.length_nil]
    omega
  rw [if_neg hread]
  exact .pure ⟨a, rfl, ha⟩

omit hb in
/-- After the last arm there is no other. -/
theorem caseRound_stops (h : Begins (fun k => k = .word .OTHERWISE ∨ k = .word .ELSE ∨ k = .word .END) rest) :
    Takes (caseRound body) [] rest (· = .stop none) := by
  refine .notEat (h.mono ?_) (.atAny (h.mono ?_) (.pure rfl))
  · rintro _ (rfl | rfl | rfl) <;> simp
  · rintro _ (rfl | rfl | rfl) <;> simp

theorem otherwise?_takes {otherwise : Option (List Stmt)}
    (h : WrittenOption [[.word .OTHERWISE], [.word .ELSE]] WrittenBlock otherwise ts)
    (hrest : Begins (· = .word .END) rest) (hl : (ts ++ rest).length ≤ n) :
    Takes (otherwise? body) ts rest fun o => o.map blockShape = otherwise.map blockShape := by
  cases h with
  | none =>
    refine (Takes.notWhenever (.notEat (hrest.mono ?_) (.notEaten (hrest.mono ?_)))).mono ?_
    · rintro _ rfl
      simp
    · rintro _ rfl
      simp
    · rintro _ rfl
      rfl
  | @some stmts ls us hlead hstmts =>
    obtain ⟨t, rfl, ht⟩ : ∃ t, ls = [t] ∧ (t.kind = .word .OTHERWISE ∨ t.kind = .word .ELSE) := by
      simpa only [List.mem_cons, List.not_mem_nil, or_false, List.map_eq_singleton_iff, ← exists_or,
        ← and_or_left] using hlead
    have hbegins := begins_of_block hstmts (hrest.mono (by rintro _ rfl; decide))
    have hstmts' : Takes body us rest fun b => blockShape b = blockShape stmts := by
      refine hb _ _ _ hstmts (hrest.mono (by rintro _ rfl; decide)) ?_
      simp only [List.length_append, List.length_cons, List.length_nil] at hl ⊢
      omega
    refine .mono (Takes.whenever ?_ (.notEat (hbegins.mono ?_) hstmts')) ?_
    · rcases ht with ht | ht
      · exact .eatWord ht (.pure rfl)
      · exact .notEat (.cons (by simp [ht])) (.eaten ht (by simp))
    · rintro _ hk rfl
      simp [opensBody, opensStmt, TokenKind.startsStatement, blockEnds] at hk
    · rintro _ ⟨b, rfl, hb⟩
      exact congrArg some hb

theorem caseStmt_takes {opener : Token} {selector : Expr} {arms : List CaseArm}
    {otherwise : Option (List Stmt)} {ts of_ us vs close : List Token}
    (hopener : opener.kind = .word .CASE) (hselector : WrittenExpr selector ts)
    (hof : WrittenOrNot (.word .OF) of_) (harms : WrittenEach (WrittenArm WrittenBlock) arms us)
    (hotherwise : WrittenOption [[.word .OTHERWISE], [.word .ELSE]] WrittenBlock otherwise vs)
    (hclose : WrittenEnd .CASE close) (span : Span) (hrest : Begins (· = .mark .semicolon) rest)
    (hl : (opener :: (ts ++ (of_ ++ (us ++ (vs ++ close)))) ++ rest).length ≤ n) :
    Takes (caseStmt body) (opener :: (ts ++ (of_ ++ (us ++ (vs ++ close))))) rest
      fun s => s.shape = (Stmt.case selector arms otherwise span).shape := by
  have hend : Begins (· = .word .END) (close ++ rest) := (begins_of_end hclose).append _
  have hlast : Begins (fun k => k = .word .OTHERWISE ∨ k = .word .ELSE ∨ k = .word .END)
      (vs ++ close ++ rest) := by
    rw [List.append_assoc]
    exact begins_of_option hotherwise (by simp) (hend.mono fun _ h => .inr (.inr h))
  have harms' : Begins (fun k => k = .word .WHEN ∨ k = .word .OTHERWISE ∨ k = .word .ELSE ∨
      k = .word .END) (us ++ (vs ++ close) ++ rest) := by
    cases harms with
    | nil => exact hlast.mono fun _ => .inr
    | cons harm =>
      exact ((((begins_of_arm harm).append _).append _).append _).mono fun _ => .inl
  have hof' : Ends 0 (of_ ++ (us ++ (vs ++ close)) ++ rest) := by
    cases hof with
    | absent => exact .of_kinds harms' (by rintro _ (rfl | rfl | rfl | rfl) <;> rfl)
    | present ht => exact .of_joins (by simp [ht, joins])
  simp only [List.length_append, List.length_cons] at hl
  refine .bump (by simp [hopener]) ((expr_takes hselector hof').bind fun e he => ?_)
  refine .eatOrNot (by simp) hof (harms'.mono (by rintro _ (rfl | rfl | rfl | rfl) <;> simp)) fun _ => ?_
  refine Takes.bind (P := fun as => as.map CaseArm.shape = arms.map CaseArm.shape)
    (.each (K := (· ∈ blockEnds)) (n := n) harms ?_ ?_ (caseRound_stops hlast) ?_ ?_) fun as has => ?_
  · exact fun a ts h => (begins_of_arm h).mono (by rintro _ rfl; decide)
  · exact fun a ts rest h hrest hl => caseRound_takes hb h hrest hl
  · exact hlast.mono (by rintro _ (rfl | rfl | rfl) <;> decide)
  · simp only [List.length_append]
    omega
  refine Takes.bind (otherwise?_takes hb hotherwise hend ?_) fun o ho => ?_
  · simp only [List.length_append]
    omega
  · refine .closeWith hclose (hrest.mono (by rintro _ rfl; simp)) (.finish fun _ => ?_)
    simp only [Stmt.shape, armShapes_eq_map, blockShape?_eq_map, he, has, ho]

/-! ## Loops -/

omit hb in
theorem begins_of_loop {construct : Keyword} {stmts : List Stmt}
    (h : WrittenLoop WrittenBlock construct ts stmts) :
    Begins (fun k => k = .word .DO ∨ opensBody k) ts := by
  obtain @⟨_, do_, us, close, hdo, hbody, hclose⟩ := h
  have hend := (begins_of_end hclose).mono (L := (· ∈ blockEnds)) (by rintro _ rfl; decide)
  cases hdo with
  | absent => exact (begins_of_block hbody hend).mono fun _ => .inr
  | present ht => exact .cons (.inl ht)

omit hb in
/-- An expression can stand before a loop without DO. -/
theorem ends_of_loop {construct : Keyword} {stmts : List Stmt}
    (h : WrittenLoop WrittenBlock construct ts stmts) : Ends 0 (ts ++ rest) := by
  refine .of_kinds ((begins_of_loop h).append _) ?_
  rintro _ (rfl | hk)
  · rfl
  · exact joins_of_opensBody hk

theorem loop_takes {construct : Keyword} {opened : Span} {stmts : List Stmt}
    {f : List Stmt → Parser α} {Q : α → Prop} (h : WrittenLoop WrittenBlock construct ts stmts)
    (hrest : Begins (· = .mark .semicolon) rest) (hl : (ts ++ rest).length < n)
    (hf : ∀ stmts', blockShape stmts' = blockShape stmts → Takes (f stmts') [] rest Q) :
    Takes (do
      let _ ← eatWord .DO
      let stmts' ← body
      closeWith construct opened
      f stmts') ts rest Q := by
  obtain @⟨_, do_, us, close, hdo, hbody, hclose⟩ := h
  have hend : Begins (· ∈ blockEnds) (close ++ rest) :=
    ((begins_of_end hclose).append _).mono (by rintro _ rfl; decide)
  refine .eatOrNot (by simp) hdo ?_ fun _ => ?_
  · rw [List.append_assoc]
    refine (begins_of_block hbody hend).mono ?_
    rintro _ hk rfl
    simp [opensBody, opensStmt, TokenKind.startsStatement, blockEnds] at hk
  · refine (hb _ _ _ hbody hend ?_).bind fun stmts' hstmts' => ?_
    · simp only [List.length_append] at hl ⊢
      omega
    · exact .closeWith hclose (hrest.mono (by rintro _ rfl; simp)) (hf _ hstmts')

omit hb in
theorem direction_takes {direction : Direction} {word : Token}
    (hto : word.kind = .word direction.word) :
    Takes Grammar.direction [word] rest (· = direction) := by
  cases direction with
  | down => exact .eatWord hto (.pure rfl)
  | up => exact .notEat (.cons (by rw [hto]; simp [Direction.word])) (.expectWord hto (.pure rfl))

theorem forStmt_takes {opener var mark word : Token} {first last : Expr} {direction : Direction}
    {step : Option Expr} {stmts : List Stmt} {ts us vs ws : List Token}
    (hopener : opener.kind = .word .FOR) (hvar : var.kind = .ident)
    (hmark : mark.kind = .mark .assign) (hfirst : WrittenExpr first ts)
    (hto : word.kind = .word direction.word) (hlast : WrittenExpr last us)
    (hstep : WrittenOption [[.word .BY]] WrittenExpr step vs)
    (hbody : WrittenLoop WrittenBlock .FOR ws stmts) (varSpan span : Span)
    (hrest : Begins (· = .mark .semicolon) rest)
    (hl : (opener :: var :: mark :: (ts ++ word :: (us ++ (vs ++ ws))) ++ rest).length ≤ n) :
    Takes (forStmt body) (opener :: var :: mark :: (ts ++ word :: (us ++ (vs ++ ws)))) rest
      fun s => s.shape =
        (Stmt.for_ ⟨var.text, varSpan⟩ first direction last step stmts span).shape := by
  have hbody' : Ends 0 (ws ++ rest) := ends_of_loop hbody
  have hto' : joins word.kind = none := by
    rw [hto]
    cases direction <;> rfl
  simp only [List.length_append, List.length_cons] at hl
  refine .bump (by simp [hopener]) (.ident hvar (.expectMark hmark ?_))
  refine (expr_takes hfirst (.of_joins hto')).bind fun first' hfirst' => ?_
  refine Takes.bindFirst (direction_takes hto) ?_
  rintro _ rfl
  refine (expr_takes hlast ?_).bind fun last' hlast' => ?_
  · rw [List.append_assoc]
    cases hstep with
    | none => exact hbody'
    | some hlead =>
      obtain ⟨t, rfl, ht⟩ := List.map_eq_singleton_iff.1 (List.mem_singleton.1 hlead)
      exact .of_joins (by simp [ht, joins])
  refine Takes.bind (.wheneverWord Expr.shape hstep ?_ ?_) fun step' hstep' => ?_
  · exact fun e us he _ => expr_takes he hbody'
  · refine ((begins_of_loop hbody).append _).mono ?_
    rintro _ (h | h) rfl
    · cases h
    · simp [opensBody, opensStmt, TokenKind.startsStatement, blockEnds] at h
  refine loop_takes hb hbody hrest ?_ fun stmts' hstmts' => .finish fun _ => ?_
  · simp only [List.length_append]
    omega
  · simp only [Stmt.shape, Ident.shape, hfirst', hlast', hstep', hstmts']

/-! ## Methods and time -/

omit hb in
theorem waitSubject_takes {subject : WaitSubject} (h : WrittenSubject subject ts)
    (hrest : Begins opensBody rest) :
    Takes waitSubject ts rest fun s => s.shape = subject.shape := by
  cases h with
  | @method word call ts level hword hcall =>
    refine .eatWord hword (.inspect fun _ _ => ?_)
    have hends : Ends (level + 1) rest := (ends_of_body hrest).mono (Nat.zero_le _)
    refine (methodCall_takes expr_readsBack hcall hends (Nat.le_refl _)).bindLast fun c hc => ?_
    exact .pure (by simp only [WaitSubject.shape, hc])
  | @duration word time ts hword htime =>
    refine .notEat (.cons (by simp [hword])) (.expectWord hword ?_)
    refine (expr_takes htime (ends_of_body hrest)).bindLast fun e he => ?_
    exact .pure (by simp only [WaitSubject.shape, he])

theorem interrupt?_takes {interrupt : Option (List Stmt)}
    (h : WrittenOption [[.word .ON, .word .INTERRUPT]] WrittenBlock interrupt ts)
    (hrest : Begins (· = .word .END) rest) (hl : (ts ++ rest).length ≤ n) :
    Takes (interrupt? body) ts rest fun o => o.map blockShape = interrupt.map blockShape := by
  cases h with
  | none =>
    refine (Takes.notWhenever (.notEaten (hrest.mono ?_))).mono ?_
    · rintro _ rfl
      simp
    · rintro _ rfl
      rfl
  | @some stmts ls us hlead hstmts =>
    obtain ⟨t, us', rfl, ht, hrest'⟩ := List.map_eq_cons_iff.1 (List.mem_singleton.1 hlead)
    obtain ⟨t', rfl, ht'⟩ := List.map_eq_singleton_iff.1 hrest'
    have hstmts' : Takes body us rest fun b => blockShape b = blockShape stmts := by
      refine hb _ _ _ hstmts (hrest.mono (by rintro _ rfl; decide)) ?_
      simp only [List.length_append, List.length_cons, List.length_nil] at hl ⊢
      omega
    refine .mono (Takes.whenever (.eaten ht (by simp)) (.expectWord ht' hstmts')) ?_
    · rintro _ ⟨b, rfl, hb⟩
      exact congrArg some hb

theorem waitStmt_takes {opener : Token} {subject : WaitSubject} {stmts : List Stmt}
    {interrupt : Option (List Stmt)} {ts us vs close : List Token}
    (hopener : opener.kind = .word .WAIT) (hsubject : WrittenSubject subject ts)
    (hbody : WrittenBlock stmts us)
    (hinterrupt : WrittenOption [[.word .ON, .word .INTERRUPT]] WrittenBlock interrupt vs)
    (hclose : WrittenEnd .WAIT close) (span : Span) (hrest : Begins (· = .mark .semicolon) rest)
    (hl : (opener :: (ts ++ (us ++ (vs ++ close))) ++ rest).length ≤ n) :
    Takes (waitStmt body) (opener :: (ts ++ (us ++ (vs ++ close)))) rest
      fun s => s.shape = (Stmt.wait subject stmts interrupt span).shape := by
  have hend : Begins (· = .word .END) (close ++ rest) := (begins_of_end hclose).append _
  have hinterrupt' : Begins (· ∈ blockEnds) (vs ++ close ++ rest) := by
    rw [List.append_assoc]
    exact begins_of_option hinterrupt (by simp [blockEnds]) (hend.mono (by rintro _ rfl; decide))
  have hbody' : Begins opensBody (us ++ (vs ++ close) ++ rest) := by
    rw [List.append_assoc]
    exact begins_of_block hbody hinterrupt'
  simp only [List.length_append, List.length_cons] at hl
  refine .bump (by simp [hopener]) ((waitSubject_takes hsubject hbody').bind fun s hs => ?_)
  refine (hb _ _ _ hbody hinterrupt' ?_).bind fun stmts' hstmts' => ?_
  · simp only [List.length_append]
    omega
  refine (interrupt?_takes hb hinterrupt hend ?_).bind fun o ho => ?_
  · simp only [List.length_append]
    omega
  · refine .closeWith hclose (hrest.mono (by rintro _ rfl; simp)) (.finish fun _ => ?_)
    simp only [Stmt.shape, blockShape?_eq_map, hs, hstmts', ho]

/-! ## All statements -/

omit hb in
theorem inParens_takes {e : Expr} {opener closer : Token} (hopener : opener.kind = .mark .lParen)
    (he : WrittenExpr e ts) (hcloser : closer.kind = .mark .rParen) :
    Takes inParens (opener :: (ts ++ [closer])) rest fun e' => e'.shape = e.shape := by
  refine .expectMark hopener ((expr_takes he (.of_joins (by simp [hcloser, joins]))).bind ?_)
  exact fun e' he' => .expectMark hcloser (.pure he')

omit hb in
/-- A designator or call is read up to a token that continues no expression. -/
theorem place_takes {e : Expr} (h : WrittenPlace e ts) (hrest : Ends 0 rest) :
    Takes (postfixed expr) ts rest fun e' => e'.shape = e.shape :=
  (parserAt_loops expr_readsBack h.1).takes (by decide) (Nat.le_refl _) (hrest.mono (by decide))

omit hb in
theorem returnStmt_takes {word : Token} {value : Option Expr} (hword : word.kind = .word .RETURN)
    (hvalue : WrittenOption [[]] WrittenExpr value ts) (span : Span)
    (hrest : Begins (· = .mark .semicolon) rest) :
    Takes returnStmt (word :: ts) rest fun s => s.shape = (Stmt.return_ value span).shape := by
  refine .bump (by simp [hword]) ?_
  cases hvalue with
  | none =>
    refine .atKind hrest ?_
    refine .inspect fun _ _ => ?_
    exact .finish fun _ => rfl
  | @some e ls ts hlead he =>
    obtain rfl : ls = [] := List.map_eq_nil_iff.1 (List.mem_singleton.1 hlead)
    have hbegins := begins_of_writtenExpr he
    refine .notAtKind ((hbegins.append _).mono ?_) (.notAtAny ((hbegins.append _).mono ?_) ?_)
    · rintro _ hk rfl
      simp [opensExpr, opensValue, unaryOp?] at hk
    · intro k hk hmem
      simp only [blockEnds, List.mem_cons, List.not_mem_nil, or_false] at hmem
      rcases hmem with rfl | rfl | rfl | rfl | rfl | rfl | rfl | rfl | rfl <;>
        simp [opensExpr, opensValue, unaryOp?] at hk
    · refine (expr_takes he (.of_kinds hrest (by rintro _ rfl; rfl))).bindLast fun e' he' => ?_
      refine .finish fun _ => ?_
      simp only [Stmt.shape, Option.map_some, he']

omit hb in
theorem tellStmt_takes {word : Token} {call : MethodCall} {delay : Option Expr} {level : Nat}
    {ts us : List Token} (hword : word.kind = .word .TELL)
    (hcall : WrittenCall WrittenExpr call ts level)
    (hdelay : WrittenOption [[.word .IN]] WrittenExpr delay us) (span : Span)
    (hrest : Begins (· = .mark .semicolon) rest) :
    Takes tellStmt (word :: (ts ++ us)) rest fun s => s.shape = (Stmt.tell call delay span).shape := by
  have hlevel : 6 < level := by
    cases hcall with
    | mk _ _ hmethod => exact level_of_method hmethod
  have hends : Ends (level + 1) (us ++ rest) := by
    refine Begins.mono (begins_of_option (K := fun k => k = .word .IN ∨ k = .mark .semicolon) hdelay
      (by simp) (hrest.mono fun _ => .inr)) ?_
    rintro _ (rfl | rfl) l ⟨⟩
    omega
  refine .bump (by simp [hword]) ?_
  refine (methodCall_takes expr_readsBack hcall hends (Nat.le_refl _)).bind fun c hc => ?_
  refine (Takes.wheneverWord Expr.shape hdelay ?_ ?_).bindLast fun d hd => ?_
  · exact fun e us he _ => expr_takes he (.of_kinds hrest (by rintro _ rfl; rfl))
  · exact hrest.mono (by rintro _ rfl; simp)
  · refine .finish fun _ => ?_
    simp only [Stmt.shape, hc, hd]

/-- A statement is read up to the semicolon behind it. -/
theorem statement_takes {stmt : Stmt} (h : WrittenStmt WrittenBlock stmt ts)
    (hrest : Begins (· = .mark .semicolon) rest) (hl : (ts ++ rest).length ≤ n) :
    Takes (statement body) ts rest fun o => ∃ s, o = some s ∧ s.shape = stmt.shape := by
  have hends : Ends 0 rest := .of_kinds hrest (by rintro _ rfl; rfl)
  have hsome {p : Parser Stmt} (h : Takes p ts rest fun s => s.shape = stmt.shape) :
      Takes (some <$> p) ts rest fun o => ∃ s, o = some s ∧ s.shape = stmt.shape :=
    Takes.map (h.mono fun s hs => ⟨s, rfl, hs⟩)
  have hplace {e : Expr} {ts us : List Token} (h : WrittenPlace e ts) :
      Begins (fun k => k = .ident ∨ k = .word .SELF) (ts ++ us) := by
    obtain ⟨-, t, vs, rfl, ht⟩ := h
    exact .cons ht
  cases h with
  | @assign target value mark ts us htarget hmark hvalue span =>
    have hassign : Takes assignOrCall (ts ++ mark :: us) rest
        fun s => s.shape = (Stmt.assign target value span).shape := by
      refine .inspect fun _ _ => ?_
      refine (place_takes htarget (.of_joins (by simp [hmark, joins]))).bind fun e he => ?_
      refine .eatMark hmark ((expr_takes hvalue hends).bindLast fun v hv => .finish fun _ => ?_)
      simp only [Stmt.shape, he, hv]
    refine .kind ((hplace htarget).append _) ?_
    rintro _ (rfl | rfl) <;> exact hsome hassign
  | @call e ts hcall span =>
    have hcall' : Takes assignOrCall ts rest fun s => s.shape = (Stmt.call e span).shape := by
      refine .inspect fun _ _ => (place_takes hcall hends).bindLast fun e he => ?_
      refine .notEat (hrest.mono (by rintro _ rfl; simp)) (.finish fun _ => ?_)
      simp only [Stmt.shape, he]
    refine .kind (hplace hcall) ?_
    rintro _ (rfl | rfl) <;> exact hsome hcall'
  | @if_ first more else? ts us vs close hfirst hmore helse hclose span =>
    have hopener : Begins (· = .word .IF) (ts ++ (us ++ (vs ++ close)) ++ rest) := by
      obtain ⟨hopener⟩ := hfirst
      exact .cons hopener
    exact .kindIs hopener (hsome (ifStmt_takes hb hfirst hmore helse hclose span hrest hl))
  | while_ hopener hcondition hbody span =>
    refine .kindIs (.cons hopener) (hsome (.bump (by simp [hopener]) ?_))
    refine (expr_takes hcondition (ends_of_loop hbody)).bind fun e he => ?_
    refine loop_takes hb hbody hrest ?_ fun stmts hstmts => .finish fun _ => ?_
    · simp only [List.length_append, List.length_cons] at hl ⊢
      omega
    · simp only [Stmt.shape, he, hstmts]
  | for_ hopener hvar hmark hfirst hto hlast hstep hbody varSpan span =>
    exact .kindIs (.cons hopener) (hsome
      (forStmt_takes hb hopener hvar hmark hfirst hto hlast hstep hbody varSpan span hrest hl))
  | forEach hopener hvar hword hgroup hbody varSpan span =>
    refine .kindIs (.cons hopener) (hsome (.bump (by simp [hopener]) ?_))
    refine .ident hvar (.expectWord hword ?_)
    refine (expr_takes hgroup (ends_of_loop hbody)).bind fun e he => ?_
    refine loop_takes hb hbody hrest ?_ fun stmts hstmts => .finish fun _ => ?_
    · simp only [List.length_append, List.length_cons] at hl ⊢
      omega
    · simp only [Stmt.shape, Ident.shape, he, hstmts]
  | @repeat_ opener until_ stmts condition ts us hopener hbody huntil hcondition span =>
    refine .kindIs (.cons hopener) (hsome (.bump (by simp [hopener]) ?_))
    have hends' : Begins (· ∈ blockEnds) (until_ :: us ++ rest) := .cons (by rw [huntil]; decide)
    refine (hb _ _ _ hbody hends' ?_).bind fun stmts hstmts => ?_
    · simp only [List.length_append, List.length_cons] at hl ⊢
      omega
    · refine .expectWord huntil ((expr_takes hcondition hends).bindLast fun e he => ?_)
      refine .finish fun _ => ?_
      simp only [Stmt.shape, he, hstmts]
  | loop hopener hbody hclose span =>
    refine .kindIs (.cons hopener) (hsome (.bump (by simp [hopener]) ?_))
    have hend := (begins_of_end hclose).append rest
    refine (hb _ _ _ hbody (hend.mono (by rintro _ rfl; decide)) ?_).bind fun stmts hstmts => ?_
    · simp only [List.length_append, List.length_cons] at hl ⊢
      omega
    · refine .closeWith hclose (hrest.mono (by rintro _ rfl; simp)) (.finish fun _ => ?_)
      simp only [Stmt.shape, hstmts]
  | case hopener hselector hof harms hotherwise hclose span =>
    exact .kindIs (.cons hopener) (hsome
      (caseStmt_takes hb hopener hselector hof harms hotherwise hclose span hrest hl))
  | return_ hword hvalue span =>
    exact .kindIs (.cons hword) (hsome (returnStmt_takes hword hvalue span hrest))
  | exit hword span =>
    exact .kindIs (.cons hword) (hsome (.bump (by simp [hword]) (.finish fun _ => rfl)))
  | new hword hopener htarget hcloser span =>
    refine .kindIs (.cons hword) (hsome (.bump (by simp [hword]) ?_))
    refine (inParens_takes hopener htarget hcloser).bindLast fun e he => .finish fun _ => ?_
    simp only [Stmt.shape, he]
  | dispose hword hopener htarget hcloser span =>
    refine .kindIs (.cons hword) (hsome (.bump (by simp [hword]) ?_))
    refine (inParens_takes hopener htarget hcloser).bindLast fun e he => .finish fun _ => ?_
    simp only [Stmt.shape, he]
  | @ask word call ts level hword hcall span =>
    have hends' : Ends (level + 1) rest := hends.mono (Nat.zero_le _)
    refine .kindIs (.cons hword) (hsome (.bump (by simp [hword]) ?_))
    refine (methodCall_takes expr_readsBack hcall hends' (Nat.le_refl _)).bindLast fun c hc => ?_
    refine .finish fun _ => ?_
    simp only [Stmt.shape, hc]
  | tell hword hcall hdelay span =>
    exact .kindIs (.cons hword) (hsome (tellStmt_takes hword hcall hdelay span hrest))
  | wait hopener hsubject hbody hinterrupt hclose span =>
    exact .kindIs (.cons hopener) (hsome
      (waitStmt_takes hb hopener hsubject hbody hinterrupt hclose span hrest hl))
  | terminate hword span =>
    exact .kindIs (.cons hword) (hsome (.bump (by simp [hword]) (.finish fun _ => rfl)))
  | @inherited word method args ts level hword hmethod span =>
    have hends' : Ends (level + 1) rest := hends.mono (Nat.zero_le _)
    refine .kindIs (.cons hword) (hsome (.bump (by simp [hword]) ?_))
    refine method_takes expr_readsBack hmethod hends' (Nat.le_refl _) fun m as hm has => ?_
    refine .finish fun _ => ?_
    simp only [Stmt.shape, hm, has]
  | with_ hopener hsubject hbody span =>
    refine .kindIs (.cons hopener) (hsome (.bump (by simp [hopener]) ?_))
    refine (expr_takes hsubject (ends_of_loop hbody)).bind fun e he => ?_
    refine loop_takes hb hbody hrest ?_ fun stmts hstmts => .finish fun _ => ?_
    · simp only [List.length_append, List.length_cons] at hl ⊢
      omega
    · simp only [Stmt.shape, he, hstmts]

/-! ## Statement lists -/

theorem statementRound_takes {stmt : Stmt} {semicolon : Token}
    (h : WrittenStmt WrittenBlock stmt ts) (hsemicolon : semicolon.kind = .mark .semicolon)
    (hl : (ts ++ semicolon :: rest).length ≤ n) :
    Takes (statementRound body) (ts ++ [semicolon]) rest
      fun r => ∃ o, r = .next () o ∧ ∃ s, o = some s ∧ s.shape = stmt.shape := by
  have hbegins := ((begins_of_stmt h).append [semicolon]).append rest
  refine .notAtKind (hbegins.mono ?_) (.notAtAny (hbegins.mono ?_) ?_)
  · rintro _ hk rfl
    simp [opensStmt, TokenKind.startsStatement] at hk
  · exact fun _ => opensStmt_not_blockEnds
  · refine .inspect fun s hs => ?_
    refine (statement_takes hb h (.cons hsemicolon) hl).bind ?_
    rintro _ ⟨stmt', rfl, hstmt'⟩
    refine .inspect fun s' hs' => ?_
    have hread : s'.rest.length ≠ s.rest.length := by
      obtain ⟨t, us, hts, -⟩ := begins_of_stmt h
      rw [hs, hs', hts]
      simp only [List.length_append, List.length_cons, List.length_nil]
      omega
    rw [if_neg hread]
    refine .eatMark hsemicolon ?_
    exact .pure ⟨_, rfl, stmt', rfl, hstmt'⟩

omit hb in
theorem statementRound_stops (h : Begins (· ∈ blockEnds) rest) :
    Takes (statementRound body) [] rest (· = .stop none) := by
  refine .notAtKind (h.mono ?_) (.atAny h (.pure rfl))
  rintro _ hk rfl
  simp [blockEnds] at hk

theorem rounds_take {stmts : List Stmt} (h : WrittenBlock stmts ts)
    (hrest : Begins (· ∈ blockEnds) rest) (hl : (ts ++ rest).length ≤ n) :
    Takes (many (statementRound body)) ts rest fun ss => blockShape ss = blockShape stmts := by
  induction stmts generalizing ts with
  | nil =>
    cases h
    refine .stopRound ((statementRound_stops hrest).mono ?_)
    rintro _ rfl
    exact ⟨none, rfl, rfl⟩
  | cons stmt stmts ih =>
    cases h with
    | @cons _ _ ts us semicolon hstmt hsemicolon hmore =>
      rw [List.append_assoc] at hl
      have hl' : (us ++ rest).length ≤ n := by
        simp only [List.length_append, List.length_cons] at hl ⊢
        omega
      rw [← List.singleton_append, ← List.append_assoc]
      refine .nextRound (by simp) (statementRound_takes hb hstmt hsemicolon hl) ?_
      rintro _ ⟨stmt', rfl, hstmt'⟩
      refine (ih hmore hl').mono fun ss hss => ?_
      simp only [Option.toList_some, List.singleton_append, blockShape, hstmt', hss]

end Nested

/-- What is written as a statement list is read back, up to a token that closes a block. -/
theorem statements_readsBack :
    ReadsBack WrittenBlock (Begins (· ∈ blockEnds)) blockShape n statements :=
  .recurse fun _ _ hb _ _ _ h hrest hl => (rounds_take hb h hrest (Nat.le_of_lt_succ hl)).within

end SimFront.Grammar
