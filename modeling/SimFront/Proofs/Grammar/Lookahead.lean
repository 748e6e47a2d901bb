import SimFront.Proofs.Grammar.Tally
import SimFront.Proofs.Grammar.Writable

/-!
# Looking ahead for the body of a procedure

Local declarations without procedures and object bodies leave no record or object open
(`locals_counts`).  The scan that looks for BEGIN behind them counts as they do, except that it
skips whatever stands behind an END, and so misses an END there (`scan_run`).  If no END stands
directly behind another, it finds BEGIN just when the declarations end at it
(`localsPrecedeBody_iff`).
-/

namespace SimFront.Grammar

open SimFront.Parser

variable {α β : Type} {p : Parser α} {s s' : ParserState} {g g' : Tally} {k : TokenKind}

/-! ## Types -/

/-- A parser of types leaves the count as it is where a type can stand. -/
def TypeKeeps (p : Parser TypeSpec) : Prop :=
  ∀ g s, g.last ∈ beforeType → Counts g s p (Kept g)

theorem plain_of_beforeType (hk : k ∈ beforeType) : k ∉ structural := by
  simp only [beforeType, List.mem_cons, List.not_mem_nil, or_false] at hk
  rcases hk with rfl | rfl | rfl | rfl <;> decide

section Nested

variable {type : Parser TypeSpec} (ht : TypeKeeps type)

include ht

/-- A token that a type stands behind, and the type. -/
theorem typeBehind_keeps {code : SyntaxCode} {f : TypeSpec → Parser β} (hk : k ∈ beforeType)
    (hf : ∀ t, Keeps (f t)) : Keeps (expectWith code k >>= fun _ => type >>= f) := fun g _ =>
  .expect (plain_of_beforeType hk) fun s' => (ht ⟨g.opened, k⟩ s' hk).keep hf

theorem result?_keeps : Keeps (result? type) := fun g _ =>
  have hcolon : TokenKind.mark .colon ∈ beforeType := List.mem_cons_self
  .eat (.plain (plain_of_beforeType hcolon)) (by simp)
    (fun s' => (ht ⟨g.opened, _⟩ s' hcolon).keep fun _ => .pure _) fun _ => .pure rfl

omit ht in
/-- A token that is read when a name stands behind it. -/
theorem beforeIdent_keeps {q q' : Parser α} (hq : KeepsAt k q) (hq' : Keeps q') :
    Keeps (do if (← atKind k) && (← kindAt 1) = .ident then q else q') := by
  refine fun g s => .inspect (.inspect (.ite (fun h => ?_) fun _ => hq' g s))
  exact hq g s (of_decide_eq_true (Bool.and_eq_true_iff.1 h).1)

omit ht in
theorem qualIdent_keeps : Keeps qualIdent :=
  .inspect fun _ => Keeps.ident.bind fun _ => beforeIdent_keeps
    (.bump (by decide) fun _ => Keeps.ident.bind fun _ => .spanFrom _) (.pure _)

/-! ### Parameters and headings -/

omit ht in
theorem nameRound_keeps : Keeps (do
    if (← atKind (.mark .comma)) && (← kindAt 1) = .ident then
      let _ ← bump
      found (← ident)
    else stopped : Parser (Round Unit Ident)) :=
  beforeIdent_keeps (.bump (by decide) fun _ => Keeps.ident.bind fun _ => .pure _) (.pure _)

theorem param_keeps : Keeps (param type) := by
  have hrest (mode : ParamMode) (start : Position) : Keeps (do
      let first ← ident
      let more ← many do
        if (← atKind (.mark .comma)) && (← kindAt 1) = .ident then
          let _ ← bump
          found (← ident)
        else stopped
      expectMark .colon
      let t ← type
      pure (⟨mode, first :: more, t, ← spanFrom start⟩ : Param)) :=
    Keeps.ident.bind fun _ => (Keeps.many nameRound_keeps).bind fun _ =>
      typeBehind_keeps ht (by decide) fun _ => .spanFrom _
  refine fun g s => .inspect (.inspect ?_)
  split
  iterate 3
    next hk =>
      exact .bumpPlain hk (by decide) fun _ s' => ((Keeps.pure _).bind fun _ => hrest _ _) _ s'
  exact ((Keeps.pure _).bind fun _ => hrest _ _) g s

theorem paramRound_keeps : Keeps (paramRound type) :=
  .inspect fun _ => .ite (.pure _) <| (param_keeps ht).bind fun _ =>
    (Keeps.eatMark _).bind fun _ => .ite (.pure _) <|
      (Keeps.eatMark _).bind fun _ => .ite (.pure _) (.pure _)

theorem params?_keeps : Keeps (params? type) := by
  have hclose (opened : Span) : Keeps (closeParams opened) := .inspect fun _ =>
    .ite ((Keeps.eatMark _).bind fun _ => .pure _) (.after fun _ => .failRelated)
  have hparams : KeepsAt (.mark .lParen) (params type) := by
    refine .within (.bump (by decide) fun _ => ?_)
    exact (Keeps.many (paramRound_keeps ht)).bind fun _ => (hclose _).bind fun _ => .pure _
  exact .atKind hparams (.pure _)

theorem methodHeading_keepsAt (hplain : k ∉ structural) : KeepsAt k (methodHeading type) :=
  .inspect fun _ => .bump hplain fun _ => (Keeps.expectWith (by decide)).bind fun _ =>
    Keeps.ident.bind fun _ => (params?_keeps ht).bind fun _ =>
      (result?_keeps ht).bind fun _ => .spanFrom _

/-! ### Records -/

theorem fieldDecl_keeps : Keeps (fieldDecl type) :=
  .inspect fun _ => (Keeps.commaSeparated .ident).bind fun _ =>
    typeBehind_keeps ht (by decide) fun _ => .spanFrom _

omit ht in
theorem memberEnd_keeps : Keeps memberEnd := .inspect fun _ => .ite (.pure _) .semicolon

theorem recordRound_keeps : Keeps (recordRound type) :=
  .inspect fun _ => .ite (.pure _) <| (Keeps.eatMark _).bind fun _ => .ite (.pure _) <|
    .inspect fun _ => .ite
      ((fieldDecl_keeps ht).bind fun _ => memberEnd_keeps.bind fun _ => .pure _)
      (.after fun _ => .failInContext)

omit ht in
/-- A word that opens a record or an object. -/
theorem opens_counts {w : Keyword} {f : Token → Parser α} {Q : α → Tally → Prop}
    (hw : w ∈ [Keyword.RECORD, .OBJECT]) (hlast : g.last ∈ beforeType) (hk : s.kind = .word w)
    (hf : ∀ t s', Counts ⟨g.opened + 1, .word w⟩ s' (f t) Q) : Counts g s (bump >>= f) Q := by
  have hstep : g.Step s.kind ⟨g.opened + 1, .word w⟩ := by
    rw [hk]
    exact .opener hw hlast
  exact .bump hstep (by simp [hk]) hf

omit ht in
/-- The end of what was opened, with its word or without. -/
theorem closes_counts {w : Keyword} {opened : Span} {f : Unit → Parser α}
    (hw : w ∈ [Keyword.RECORD, .OBJECT]) (hopen : g'.opened = g.opened + 1)
    (hf : ∀ u, Keeps (f u)) : Counts g' s (closeWith w opened >>= f) (Kept g) := by
  obtain ⟨_, last⟩ := g'
  obtain rfl := hopen
  have hclose : Counts ⟨g.opened + 1, last⟩ s (closeWith w opened) (Kept g) := by
    refine .eat .close (by simp) (fun s' => ?_) fun s' =>
      .never (.ite (fun h => nomatch h) fun _ => .failRelated)
    exact .eat (.construct hw) (by simp) (fun _ => .pure rfl) fun _ => .pure rfl
  exact hclose.bind fun u g₂ s₂ h₂ => (hf u g₂ s₂).mono fun _ _ h => h.trans h₂

theorem recordType_counts (hlast : g.last ∈ beforeType) (hk : s.kind = .word .RECORD) :
    Counts g s (recordType type) (Kept g) := by
  refine .inspect (opens_counts (by decide) hlast hk fun _ s₁ => ?_)
  refine ((Keeps.many (recordRound_keeps ht)).within _ s₁).bind fun _ g₂ s₂ h₂ => ?_
  exact closes_counts (by decide) h₂ fun _ => .spanFrom _

/-! ### Objects -/

theorem memberRound_keeps : Keeps (memberRound type) := by
  have hheading {k : TokenKind} (hplain : k ∉ structural) : KeepsAt k (do
      let h ← methodHeading type
      memberEnd
      found (ObjectMember.method h)) :=
    (methodHeading_keepsAt ht hplain).bind fun _ => memberEnd_keeps.bind fun _ => .pure _
  refine fun g s => .inspect ?_
  split
  iterate 5 exact .pure rfl
  · next hk => exact .bumpPlain hk (by decide) fun _ _ => .pure rfl
  iterate 3
    next hk => exact hheading (by decide) g s hk
  · exact ((fieldDecl_keeps ht).bind fun _ => memberEnd_keeps.bind fun _ => .pure _) g s
  · exact .after .failInContext

theorem sections_keeps : Keeps (do
    let first ← publicSection? type
    let more ← many (sectionRound type)
    pure (first.toList ++ more)) := by
  have hpublic : Keeps (publicSection? type) := by
    refine (Keeps.many (memberRound_keeps ht)).bind fun members => ?_
    cases members with
    | nil => exact .pure _
    | cons => exact .spanFrom _
  refine hpublic.bind fun _ => (Keeps.many fun g s => .inspect ?_).bind fun _ => .pure _
  split
  · exact .pure rfl
  · next k hk =>
    have hplain : s.kind ∉ structural := by
      intro hmem
      simp only [structural, List.mem_cons, List.not_mem_nil, or_false] at hmem
      rcases hmem with h | h | h | h | h | h <;> simp [h, sectionKind?] at hk
    refine .bumpPlain rfl hplain fun _ s' => ?_
    exact ((Keeps.many (memberRound_keeps ht)).bind fun _ => .spanFrom _) _ s'

omit ht in
theorem bases?_keeps : Keeps bases? :=
  (Keeps.eatMark _).bind fun _ => .ite ((Keeps.commaSeparated qualIdent_keeps).bind fun _ =>
    (Keeps.expectMark _).bind fun _ => .pure _) (.pure _)

theorem objectType_counts (hlast : g.last ∈ beforeType) (hk : s.kind = .word .OBJECT) :
    Counts g s (objectType type) (Kept g) := by
  refine .inspect (opens_counts (by decide) hlast hk fun _ s₁ => ?_)
  refine (bases?_keeps _ s₁).bind fun _ g₂ s₂ h₂ => ?_
  refine (Keeps.eatMark _ g₂ s₂).bind fun _ g₃ s₃ h₃ => ?_
  refine ((sections_keeps ht).within g₃ s₃).bind fun _ g₄ s₄ h₄ => ?_
  exact closes_counts (by decide) (h₄.trans (h₃.trans h₂)) fun _ => .spanFrom _

/-! ### Other types -/

omit ht in
theorem bounds_keeps : Keeps bounds :=
  expr_keeps.bind fun _ => (Keeps.expectMark _).bind fun _ => expr_keeps.bind fun _ => .pure _

omit ht in
theorem subrange_keeps : Keeps subrange := .inspect fun _ => bounds_keeps.bind fun _ => .spanFrom _

omit ht in
theorem bracketedSubrange_keepsAt : KeepsAt (.mark .lBracket) bracketedSubrange :=
  .inspect fun _ => .bump (by decide) fun _ => bounds_keeps.bind fun _ =>
    (Keeps.expectMark _).bind fun _ => .spanFrom _

omit ht in
theorem arrayIndex_keeps : Keeps arrayIndex :=
  .inspect fun _ => .inspect fun _ => .ite (qualIdent_keeps.bind fun _ => .pure _)
    (bounds_keeps.bind fun _ => .spanFrom _)

theorem arrayType_keepsAt : KeepsAt (.word .ARRAY) (arrayType type) := by
  have helement (indices : List ArrayIndex) (start : Position) : Keeps (do
      expectWord .OF
      let element ← type
      pure (TypeSpec.array indices element (← spanFrom start))) :=
    typeBehind_keeps ht (by decide) fun _ => .spanFrom _
  have hrest (bracketed : Bool) (indices : List ArrayIndex) (start : Position) : Keeps (do
      if bracketed then expectMark .rBracket
      expectWord .OF
      let element ← type
      pure (TypeSpec.array indices element (← spanFrom start))) :=
    .ite ((Keeps.expectMark _).bind fun _ => helement _ _) (helement _ _)
  refine .inspect fun start => .bump (by decide) fun _ => (Keeps.eatMark _).bind fun bracketed => ?_
  refine .inspect fun _ => .inspect fun _ => .ite ((Keeps.pure _).bind fun _ => hrest _ _ _) ?_
  exact (Keeps.commaSeparated arrayIndex_keeps).bind fun _ => hrest _ _ _

omit ht in
theorem enumType_keeps : Keeps enumType :=
  .inspect fun _ => (Keeps.eat (by decide)).bind fun _ => (Keeps.expectMark _).bind fun _ =>
    (Keeps.commaSeparated .ident).bind fun _ => (Keeps.expectMark _).bind fun _ => .spanFrom _

theorem typeRule_keeps : TypeKeeps (typeRule type) := by
  refine fun g s hlast => .within (.inspect (.inspect ?_))
  split
  · refine .inspect (.ite (fun _ => subrange_keeps _ _) fun _ => ?_)
    exact (qualIdent_keeps.bind fun _ => .pure _) _ _
  iterate 3 exact subrange_keeps _ _
  · next hk => exact bracketedSubrange_keepsAt _ _ hk
  · next hk => exact arrayType_keepsAt ht _ _ hk
  · next hk => exact recordType_counts ht hlast hk
  · next hk =>
    refine .bumpPlain hk (by decide) fun _ s' => ?_
    exact typeBehind_keeps ht (by decide) (fun _ => .spanFrom _) _ s'
  · next hk =>
    refine .bumpPlain hk (by decide) fun _ s' => ?_
    exact typeBehind_keeps ht (by decide) (fun _ => .spanFrom _) _ s'
  iterate 2 exact enumType_keeps _ _
  · next hk =>
    refine .bump (hk ▸ Tally.Step.procedure hlast) (by simp [hk]) fun _ s' => ?_
    exact ((params?_keeps ht).bind fun _ => (result?_keeps ht).bind fun _ => .spanFrom _) _ s'
  · next hk => exact (objectType_counts ht hlast hk).keep fun _ => .pure _
  · exact .after .fail

end Nested

/-- Where a type can stand, one leaves the count as it is. -/
theorem typeSpec_keeps : TypeKeeps typeSpec := recurse_counts fun _ hp => typeRule_keeps hp

/-! ## Declarations -/

/-- As many constructs are open as before, and the last token is no END. -/
def Ended (g : Tally) (_ : α) (g' : Tally) : Prop := g'.opened = g.opened ∧ g'.last ≠ .word .END

theorem entryEnd_counts {start : Position} {h : Span → α} (hkept : g'.opened = g.opened) :
    Counts g' s (do
      semicolon
      pure (h (← spanFrom start))) (Ended g) :=
  .expect (by decide) fun _ => .inspect (.pure ⟨hkept, by simp⟩)

theorem typeDecl_counts : Counts g s typeDecl (Ended g) := by
  refine .inspect ((Keeps.ident g s).bind fun _ g₁ s₁ h₁ => .expect (by decide) fun s₂ => ?_)
  have htype := typeSpec_keeps ⟨g₁.opened, .mark .eq⟩ s₂ (by simp [beforeType])
  exact htype.bind fun _ g₃ s₃ h₃ => entryEnd_counts (h₃.trans h₁)

theorem constDecl_counts : Counts g s constDecl (Ended g) := by
  refine .inspect ((Keeps.ident g s).bind fun _ g₁ s₁ h₁ => ?_)
  refine (result?_keeps typeSpec_keeps g₁ s₁).bind fun _ g₂ s₂ h₂ => ?_
  refine (Keeps.expectMark _ g₂ s₂).bind fun _ g₃ s₃ h₃ => ?_
  refine (expr_keeps g₃ s₃).bind fun _ g₄ s₄ h₄ => ?_
  exact entryEnd_counts (h₄.trans (h₃.trans (h₂.trans h₁)))

theorem varDecl_counts : Counts g s varDecl (Ended g) := by
  refine .inspect ((Keeps.commaSeparated .ident g s).bind fun _ g₁ s₁ h₁ => ?_)
  refine .expect (by decide) fun s₂ => ?_
  have htype := typeSpec_keeps ⟨g₁.opened, .mark .colon⟩ s₂ (by simp [beforeType])
  refine htype.bind fun _ g₃ s₃ h₃ => ?_
  refine ((Keeps.eatMark _).whenever expr_keeps g₃ s₃).bind fun _ g₄ s₄ h₄ => ?_
  exact entryEnd_counts (h₄.trans (h₃.trans h₁))

theorem entry_counts (last : Option Section) : Counts g s (entry last) (Ended g) := by
  refine .inspect ?_
  split
  · exact typeDecl_counts.bind fun _ _ _ h => .pure h
  · exact constDecl_counts.bind fun _ _ _ h => .pure h
  · exact varDecl_counts.bind fun _ _ _ h => .pure h
  · exact .after .failInContext

/-- Procedures and the bodies of objects. -/
def IsRoutine : Decl → Prop
  | .procedure _ | .objectImpl _ => True
  | _ => False

theorem ne_end_of_plain (hk : k ∉ structural) : k ≠ .word .END := by
  rintro rfl
  exact hk (by decide)

theorem sectionOf?_plain {section_ : Section} (h : sectionOf? k = some section_) :
    k ∉ structural := by
  unfold sectionOf? at h
  split at h <;> first | decide | cases h

/-- When no routines are among the declarations that `p` reads, they are counted as they end. -/
def CountsDecls (g : Tally) (s : ParserState) (p : Parser α) (decls : α → List Decl) : Prop :=
  s.eof.kind = .eof → Accepts p s fun a s' => (∀ d ∈ decls a, ¬ IsRoutine d) →
    ∃ g', Tallied g s g' s' ∧ Ended g a g'

namespace CountsDecls

variable {decls : α → List Decl}

theorem of_counts (h : Counts g s p (Ended g)) : CountsDecls g s p decls := fun heof =>
  (h heof).mono fun _ _ h _ => h

theorem inspect {γ : Type} {h : ParserState → γ} {f : γ → Parser α}
    (hf : CountsDecls g s (f (h s)) decls) : CountsDecls g s (Parser.inspect h >>= f) decls :=
  fun heof => .inspect (hf heof)

theorem within {c : Context}
    (h : CountsDecls g { s with contexts := c :: s.contexts } p decls) :
    CountsDecls g s (Parser.within c p) decls := fun heof =>
  .within ((h heof).mono fun _ _ h hnone =>
    have ⟨g', hread, hended⟩ := h hnone
    ⟨g', ⟨hread.reads, hread.eof⟩, hended⟩)

/-- Of routines nothing is said. -/
theorem routine {γ : Type} {q : Parser γ} {f : γ → α}
    (hf : ∀ c, ∃ d ∈ decls (f c), IsRoutine d) : CountsDecls g s (do pure (f (← q))) decls :=
  fun _ => .anyway fun c _ => .pure fun hnone =>
    have ⟨d, hd, hroutine⟩ := hf c
    absurd hroutine (hnone d hd)

end CountsDecls

theorem declarationItem_counts {locals : Parser (List Decl)} (last : Option Section)
    (hg : g.last ≠ .word .END) :
    CountsDecls g s (declarationItem locals last) fun r => r.2.toList := by
  refine .within (.inspect ?_)
  split
  · next hsection =>
    have hplain := sectionOf?_plain hsection
    exact .of_counts (.bumpPlain rfl hplain fun _ _ => .pure ⟨rfl, ne_end_of_plain hplain⟩)
  · split
    · exact .routine fun d => ⟨_, List.mem_singleton.2 rfl, trivial⟩
    · exact .routine fun d => ⟨_, List.mem_singleton.2 rfl, trivial⟩
    · exact .of_counts ((entry_counts last).bind fun _ _ _ h => .pure h)
    · exact .of_counts (.pure ⟨rfl, hg⟩)
    · exact .of_counts (.after .failInContext)

/-- What local declarations end at. -/
def localsEnds : List TokenKind := [.word .BEGIN, .word .END, .eof]

/-- A round of the local declarations. -/
def localsRound (locals : Parser (List Decl)) (last : Option Section) :
    Parser (Round (Option Section) Decl) := do
  if ← atAny localsEnds then pure (.stop none)
  else
    let (s, decl) ← declarationItem locals last
    pure (.next s decl)

theorem localsRound_counts {locals : Parser (List Decl)} (last : Option Section)
    (hg : g.last ≠ .word .END) :
    CountsDecls g s (localsRound locals last) fun r => r.found?.toList := by
  refine .inspect fun heof => .ite (fun _ => ?_) fun _ => ?_
  · exact CountsDecls.of_counts (.pure ⟨rfl, hg⟩) heof
  exact (declarationItem_counts last hg heof).bind fun _ _ h => .pure h

theorem gatherAt_counts {locals : Parser (List Decl)} (fuel : Nat) (last : Option Section)
    (hg : g.last ≠ .word .END) : CountsDecls g s (gatherAt (localsRound locals) fuel last) id := by
  induction fuel generalizing last g s with
  | zero => exact fun _ => .exhausted
  | succ fuel ih =>
    refine .inspect fun heof => (localsRound_counts last hg heof).bind fun r s₁ h₁ => ?_
    cases r with
    | stop found => exact .pure h₁
    | next last' found =>
      by_cases hnone : ∀ d ∈ found.toList, ¬ IsRoutine d
      · obtain ⟨g₁, hread, hkept, hend⟩ := h₁ hnone
        have hmore := ih last' hend (by rw [hread.eof, heof])
        refine hmore.past.bind fun more s₂ h₂ => .pure fun hall => ?_
        obtain ⟨g₂, hread', hkept', hend'⟩ := h₂ fun d hd => hall d (List.mem_append_right _ hd)
        exact ⟨g₂, hread.trans hread', hkept'.trans hkept, hend'⟩
      · exact .anyway fun more _ => .pure fun hall =>
          absurd (fun d hd => hall d (List.mem_append_left _ hd)) hnone

/-- Whatever is among them, local declarations go on up to BEGIN, END or the end of the text. -/
theorem gatherAt_ends {locals : Parser (List Decl)} (fuel : Nat) (last : Option Section) :
    Accepts (gatherAt (localsRound locals) fuel last) s fun _ s' => s'.kind ∈ localsEnds := by
  induction fuel generalizing last s with
  | zero => exact .exhausted
  | succ fuel ih =>
    have hround : Accepts (localsRound locals last) s fun r s' => ∀ found, r = .stop found →
        s'.kind ∈ localsEnds := by
      refine .inspect (.ite (fun h => .pure fun _ _ => List.contains_iff_mem.1 h) fun _ => ?_)
      exact .anyway fun _ _ => .pure nofun
    refine .inspect (hround.bind fun r s₁ h₁ => ?_)
    cases r with
    | stop found => exact .pure (h₁ found rfl)
    | next last' found => exact (ih last').past.bind fun _ _ h => .pure h

/-- Local declarations without routines leave nothing open, and they go on up to BEGIN, END or the
end of the text. -/
theorem locals_counts {ds : List Decl} (heof : s.eof.kind = .eof) (hg : g.last ≠ .word .END)
    (h : locals .strict s = .ok (ds, s')) (hds : ∀ d ∈ ds, ¬ IsRoutine d) :
    (∃ g', Tallied g s g' s' ∧ Ended g ds g') ∧ s'.kind ∈ localsEnds :=
  ⟨gatherAt_counts _ none hg heof ds s' h hds, gatherAt_ends _ none ds s' h⟩

/-! ## The scan -/

/-- How many of some tokens are an END directly behind an END, when `last` stands before them. -/
def doubledEnds (last : TokenKind) : List TokenKind → Nat
  | [] => 0
  | k :: ks => (if last = .word .END ∧ k = .word .END then 1 else 0) + doubledEnds k ks

theorem doubledEnds_eq_zero {last : TokenKind} {ks : List TokenKind}
    (h : ¬ [.word .END, .word .END] <:+: last :: ks) : doubledEnds last ks = 0 := by
  induction ks generalizing last with
  | nil => rfl
  | cons k ks ih =>
    have hfirst : ¬ (last = .word .END ∧ k = .word .END) := by
      rintro ⟨rfl, rfl⟩
      exact h ⟨[], ks, rfl⟩
    have hrest := ih fun hdoubled => h (List.IsInfix.trans hdoubled (List.suffix_cons _ _).isInfix)
    rw [doubledEnds, if_neg hfirst, hrest]

/-- Whatever stands behind an END is skipped. -/
theorem scan_behind_end (depth budget : Nat) (us : List TokenKind) :
    localsPrecedeBody depth (.word .END) (budget + 1) (k :: us) =
      localsPrecedeBody depth k budget us := by
  rw [localsPrecedeBody]
  exact if_pos rfl

theorem ne_end_of_beforeType (hk : k ∈ beforeType) : k ≠ .word .END :=
  ne_end_of_plain (plain_of_beforeType hk)

theorem ne_semicolon_of_beforeType (hk : k ∈ beforeType) : k ≠ .mark .semicolon := by
  rintro rfl
  simp [beforeType] at hk

/-- A step of the scan, when the token before is no END or this one is none. -/
theorem scan_step {depth budget : Nat} {us : List TokenKind} (h : g.Step k g')
    (hends : ¬ (g.last = .word .END ∧ k = .word .END)) :
    localsPrecedeBody (depth + g.opened) g.last (budget + 1) (k :: us) =
      localsPrecedeBody (depth + g'.opened) g'.last budget us := by
  cases h with
  | plain hk =>
    simp only [structural, List.mem_cons, List.not_mem_nil, or_false, not_or] at hk
    obtain ⟨h₁, h₂, h₃, h₄, h₅, h₆⟩ := hk
    rw [localsPrecedeBody]
    simp only [List.headD_cons, List.tail_cons, ite_self]
  | @opener _ w hw hlast =>
    have hend := ne_end_of_beforeType hlast
    have hsemicolon := ne_semicolon_of_beforeType hlast
    rw [localsPrecedeBody, if_neg hend]
    simp only [List.mem_cons, List.not_mem_nil, or_false] at hw
    rcases hw with rfl | rfl
    · rfl
    · exact if_neg fun h => hsemicolon h.2
  | procedure hlast =>
    rw [localsPrecedeBody, if_neg (ne_end_of_beforeType hlast)]
    exact if_neg fun h => h.2 hlast
  | @close opened last =>
    rw [localsPrecedeBody, if_neg fun h => hends ⟨h, rfl⟩]
    exact if_neg (Nat.succ_ne_zero _)
  | construct hw => exact scan_behind_end _ _ _

/-- An END is the end of something. -/
theorem opened_of_end (h : g.Step (.word .END) g') : g.opened = g'.opened + 1 := by
  cases h with
  | plain hk => exact absurd rfl (ne_end_of_plain hk)
  | opener hw => simp at hw
  | close => rfl
  | construct hw => simp at hw

/-- The scan counts as a tally does, except that every END directly behind an END leaves one more
construct open. -/
theorem scan_run {ks : List TokenKind} (h : g.Run ks g') (depth budget : Nat)
    (us : List TokenKind) :
    localsPrecedeBody (depth + g.opened) g.last (ks.length + budget) (ks ++ us) =
      localsPrecedeBody (depth + doubledEnds g.last ks + g'.opened) g'.last budget us := by
  induction h generalizing depth with
  | nil => rw [List.length_nil, Nat.zero_add]; rfl
  | @cons g g₁ g' k ks hstep _ ih =>
    have hlast : g₁.last = k := by cases hstep <;> rfl
    rw [List.length_cons, Nat.add_right_comm, List.cons_append, doubledEnds]
    by_cases hends : g.last = .word .END ∧ k = .word .END
    · obtain ⟨hg, rfl⟩ := hends
      rw [if_pos ⟨hg, rfl⟩, hg, scan_behind_end, opened_of_end hstep, ← Nat.add_assoc depth,
        Nat.add_right_comm depth, ← hlast, ih, Nat.add_assoc depth 1]
    · rw [if_neg hends, Nat.zero_add, scan_step hstep hends, ih, hlast]

/-! ## The body of a procedure -/

/-- Behind local declarations without routines the scan goes on from where they end, with as many
constructs open as there were ENDs directly behind an END. -/
theorem scan_locals {ds : List Decl} {read : List Token} (heof : s.eof.kind = .eof)
    (h : locals .strict s = .ok (ds, s')) (hds : ∀ d ∈ ds, ¬ IsRoutine d)
    (hread : s.rest = read ++ s'.rest) (hbudget : read.length < lookahead) :
    ∃ last, last ≠ .word .END ∧
      localsPrecedeBody 0 (.mark .semicolon) lookahead ((s.rest.take lookahead).map (·.kind)) =
        localsPrecedeBody (doubledEnds (.mark .semicolon) (read.map (·.kind))) last
          (lookahead - read.length) ((s'.rest.take (lookahead - read.length)).map (·.kind)) := by
  have hsemicolon : (⟨0, .mark .semicolon⟩ : Tally).last ≠ .word .END := by simp
  obtain ⟨⟨g', htallied, hopened, hlast⟩, -⟩ := locals_counts heof hsemicolon h hds
  obtain ⟨read', hread', hrun⟩ := htallied.reads
  obtain rfl : read = read' := List.append_cancel_right (hread.symm.trans hread')
  have hscan := scan_run hrun 0 (lookahead - read.length)
    ((s'.rest.take (lookahead - read.length)).map (·.kind))
  have htake : s.rest.take lookahead = read ++ s'.rest.take (lookahead - read.length) := by
    rw [hread, List.take_append, List.take_of_length_le (Nat.le_of_lt hbudget)]
  have hall : (read.map (·.kind)).length + (lookahead - read.length) = lookahead := by
    rw [List.length_map, Nat.add_sub_cancel' (Nat.le_of_lt hbudget)]
  rw [hall, hopened] at hscan
  refine ⟨g'.last, hlast, ?_⟩
  rw [htake, List.map_append]
  simpa only [Nat.zero_add, Nat.add_zero] using hscan

/-- At what local declarations end at, the scan knows whether it is BEGIN. -/
theorem scan_ends {last : TokenKind} {budget : Nat} {kinds : List TokenKind}
    (hlast : last ≠ .word .END) (hkind : kinds.headD .eof ∈ localsEnds) :
    localsPrecedeBody 0 last (budget + 1) kinds = true ↔ kinds.headD .eof = .word .BEGIN := by
  simp only [localsEnds, List.mem_cons, List.not_mem_nil, or_false] at hkind
  rw [localsPrecedeBody, if_neg hlast]
  generalize kinds.headD .eof = k at hkind ⊢
  rcases hkind with rfl | rfl | rfl <;> simp

/-- The scan for the body of a procedure agrees with the local declarations.  If they hold no
routines, end within reach, and no END among them stands directly behind another, the scan says
that a body follows just when they end at BEGIN. -/
theorem localsPrecedeBody_iff {ds : List Decl} {read : List Token} (heof : s.eof.kind = .eof)
    (h : locals .strict s = .ok (ds, s')) (hds : ∀ d ∈ ds, ¬ IsRoutine d)
    (hread : s.rest = read ++ s'.rest) (hbudget : read.length < lookahead)
    (hends : ¬ [.word .END, .word .END] <:+: read.map (·.kind)) :
    localsPrecedeBody 0 (.mark .semicolon) lookahead ((s.rest.take lookahead).map (·.kind)) = true ↔
      s'.kind = .word .BEGIN := by
  obtain ⟨last, hlast, hscan⟩ := scan_locals heof h hds hread hbudget
  have hdoubled : doubledEnds (.mark .semicolon) (read.map (·.kind)) = 0 := by
    refine doubledEnds_eq_zero fun hdoubled => ?_
    rcases List.infix_cons_iff.1 hdoubled with hfirst | hdoubled
    · exact absurd (List.cons_prefix_cons.1 hfirst).1 (by simp)
    · exact hends hdoubled
  have hsemicolon : (⟨0, .mark .semicolon⟩ : Tally).last ≠ .word .END := by simp
  obtain ⟨⟨_, htallied, -⟩, hends⟩ := locals_counts heof hsemicolon h hds
  obtain ⟨n, hn⟩ := Nat.exists_eq_succ_of_ne_zero (Nat.sub_ne_zero_of_lt hbudget)
  have hkind : ((s'.rest.take (lookahead - read.length)).map (·.kind)).headD .eof = s'.kind := by
    have heof' : s'.eof.kind = .eof := by rw [htallied.eof, heof]
    unfold ParserState.kind ParserState.current ParserState.token
    rw [hn]
    cases s'.rest with
    | nil => exact heof'.symm
    | cons t ts => rfl
  rw [hscan, hdoubled, ← hkind, hn]
  rw [hn] at hkind
  exact scan_ends hlast (hkind ▸ hends)

/-- The kinds of `VAR r : RECORD a : RECORD b : c END RECORD ; END ;`. -/
def nestedRecords : List TokenKind :=
  [.word .VAR, .ident, .mark .colon, .word .RECORD, .ident, .mark .colon, .word .RECORD, .ident,
    .mark .colon, .ident, .word .END, .word .RECORD, .mark .semicolon, .word .END, .mark .semicolon]

/-- The body behind a record in a record is found. -/
theorem localsPrecedeBody_nestedRecords :
    let s := ParserState.ofTokens (nestedRecords.map blank ++ [blank (.word .BEGIN)])
    ∃ ds s', locals .strict s = .ok (ds, s') ∧ ds ≠ [] ∧ s'.kind = .word .BEGIN ∧
      localsPrecedeBody 0 (.mark .semicolon) lookahead
        ((s.rest.take lookahead).map (·.kind)) = true := by
  intro s
  have hread : ∃ d s', locals .strict s = .ok ([d], s') ∧ ¬ IsRoutine d ∧
      s'.kind = .word .BEGIN ∧ s.rest = nestedRecords.map blank ++ s'.rest := by
    refine ⟨_, _, rfl, ?_⟩
    exact ⟨id, rfl, rfl⟩
  obtain ⟨d, s', hs', hd, hbegin, hrest⟩ := hread
  refine ⟨[d], s', hs', List.cons_ne_nil _ _, hbegin, ?_⟩
  have hds : ∀ d' ∈ [d], ¬ IsRoutine d' := fun d' hd' => List.mem_singleton.1 hd' ▸ hd
  exact (localsPrecedeBody_iff rfl hs' hds hrest (by decide) (by decide)).2 hbegin

end SimFront.Grammar
