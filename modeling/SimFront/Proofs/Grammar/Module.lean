import SimFront.Grammar.Decl
import SimFront.Grammar.Module
import SimFront.Proofs.Grammar.Stmt
import SimFront.Proofs.Grammar.TypeSpec

/-!
# Strict mode and recovery mode agree

Every rule for declarations runs in both modes when the parser of nested declarations does (`ds`
below).  Nested declarations stand in a procedure or method, behind the token that opens it, so
`locals` runs whatever tokens are left (`locals_reads`).

So reading a module runs in both modes (`module_reads`), and it ends, whatever the tokens
(`parse_ends`).  Recovery mode always has a tree, and strict mode has the same tree when
recovery mode reports nothing, and refuses the text with the first report otherwise
(`parse_strict_iff`).
-/

namespace SimFront.Grammar

open SimFront.Parser

variable {n : Nat} {ds : Parser (List Decl)}

/-! ## Entries -/

theorem typeDecl_starts : Starts (· = .ident) n typeDecl :=
  .inspect fun _ => ident_starts.bind fun _ => (expectMark_reads _).bind fun _ =>
    typeSpec_reads.bind fun _ => semicolon_reads.bind fun _ => spanFrom_pure_reads _ _

theorem constDecl_starts : Starts (· = .ident) n constDecl := by
  refine .inspect fun _ => ident_starts.bind fun _ => ?_
  refine (Reads.whenever (eatMark_reads _) typeSpec_reads).bind fun _ => ?_
  refine (expectMark_reads _).bind fun _ => expr_reads.bind fun _ => ?_
  exact semicolon_reads.bind fun _ => spanFrom_pure_reads _ _

theorem varDecl_starts : Starts (· = .ident) n varDecl := by
  refine .inspect fun _ => (commaSeparated_starts ident_starts).bind fun _ => ?_
  refine (expectMark_reads _).bind fun _ => typeSpec_reads.bind fun _ => ?_
  refine (Reads.whenever (eatMark_reads _) expr_reads).bind fun _ => ?_
  exact semicolon_reads.bind fun _ => spanFrom_pure_reads _ _

/-- An entry opens at its first name, whatever it declares. -/
theorem entry_starts (last : Option Section) : Starts (· = .ident) n (entry last) := by
  refine .inspect fun ahead => ?_
  split
  · exact typeDecl_starts.bind fun _ => .pure _
  · exact constDecl_starts.bind fun _ => .pure _
  · exact varDecl_starts.bind fun _ => .pure _
  · exact (skipUnexpected_starts _ _).mono fun k hk => by simp [Any, hk]

/-! ## Procedures and methods -/

theorem bodyFollows_reads : Reads n bodyFollows := by
  refine .inspect fun k => ?_
  split
  · exact .pure _
  iterate 3 exact inspect_reads _
  · exact .pure _

theorem routineBody_reads (hds : Reads n ds) : Reads n (routineBody ds) :=
  hds.bind fun _ => (expectWord_reads _).bind fun _ => statements_reads.bind fun _ => .pure _

theorem procedure_starts (hds : Reads n ds) : Starts Any n (procedure ds) := by
  refine .inspect fun _ => .bump fun _ => ident_reads.bind fun _ => ?_
  refine (params?_reads typeSpec_reads).bind fun _ => (result?_reads typeSpec_reads).bind fun _ => ?_
  refine .inspect fun _ => semicolon_reads.bind fun _ => bodyFollows_reads.bind fun _ => ?_
  refine .ite (fun _ => ?_) fun _ => spanFrom_pure_reads _ _
  refine (routineBody_reads hds).bind fun _ => (closeWith_reads _ _).bind fun _ => ?_
  exact semicolon_reads.bind fun _ => spanFrom_pure_reads _ _

theorem methodImpl_starts (hds : Reads n ds) : Starts Any n (methodImpl ds) := by
  refine .inspect fun _ => (methodHeading_starts typeSpec_reads).bind fun _ => ?_
  refine semicolon_reads.bind fun _ => (routineBody_reads hds).bind fun _ => ?_
  refine (closeWith_reads _ _).bind fun _ => semicolon_reads.bind fun _ => ?_
  exact spanFrom_pure_reads _ _

theorem implRound_strides (hds : Reads n ds) : Strides Round.GoesOn n (implRound ds) := by
  intro s hs
  have hmethod : Opens Any n (do found (← methodImpl ds)) :=
    (methodImpl_starts hds).opens.bind fun _ => .pure _
  refine .inspect ?_
  split
  iterate 2 exact stop_strides none s hs
  iterate 3
    next hk => exact hmethod.strides hs.succ (by simp [Any, hk])
  · next hk =>
    exact Opens.strides (.bump fun _ => .pure _) hs.succ (show Any s.kind by simp [Any, hk])
  · next heof _ _ _ _ => exact (skipUnexpected_starts _ _).opens.strides hs.succ heof

theorem objectImpl_starts (hds : Reads n ds) : Starts Any n (objectImpl ds) := by
  refine .inspect fun _ => .bump fun _ => ident_reads.bind fun _ => ?_
  refine semicolon_reads.bind fun _ => (many_reads (implRound_strides hds)).within.bind fun _ => ?_
  refine (closeWith_reads _ _).bind fun _ => semicolon_reads.bind fun _ => ?_
  exact spanFrom_pure_reads _ _

/-! ## Declarations -/

/-- An item among declarations reads a token wherever there is one. -/
theorem declarationItem_opens (hds : Reads n ds) (last : Option Section) :
    Opens Any n (declarationItem ds last) := by
  refine Opens.within fun s hs hk => .inspect ?_
  split
  · exact Opens.bump (fun _ => .pure _) s hs hk
  · split
    · exact (procedure_starts hds).opens.bind (fun _ => .pure _) s hs hk
    · exact (objectImpl_starts hds).opens.bind (fun _ => .pure _) s hs hk
    · next h => exact (entry_starts last).opens.bind (fun _ => .pure _) s hs h
    · next h => exact absurd h hk
    · exact (skipUnexpected_starts _ _).opens s hs hk

theorem declarationItem_reads (hds : Reads n ds) (last : Option Section) :
    Reads n (declarationItem ds last) := by
  refine Reads.within (.inspect fun k => ?_)
  split
  · exact bump_reads.bind fun _ => .pure _
  · split
    · exact (procedure_starts hds).reads.bind fun _ => .pure _
    · exact (objectImpl_starts hds).reads.bind fun _ => .pure _
    · exact (entry_starts last).reads.bind fun _ => .pure _
    · exact .pure _
    · exact (skipUnexpected_starts _ _).reads

theorem localsRule_reads (hds : Reads n ds) : Reads (n + 1) (localsRule ds) := by
  refine gather_reads (fun last s hs => .inspect ?_) none
  split
  · exact stop_strides none s hs
  · next hends =>
    have hk : Any s.kind := by
      intro h
      simp [h] at hends
    exact ((declarationItem_opens hds last).bind fun _ => .pure _).strides hs hk

/-- Local declarations run in both modes, whatever tokens are left. -/
theorem locals_reads : Reads n locals := recurse_reads fun _ _ => localsRule_reads

/-! ## Imports and exports -/

theorem importItem_reads : Reads n importItem := by
  have hname (all : Bool) (start : Position) : Reads n (do
      let name ← ident
      let alias? ← whenever (eatWord .AS) (identOr .invalidAlias "alias name after AS")
      pure (⟨name, alias?, all, ← spanFrom start⟩ : ImportItem)) := by
    refine ident_reads.bind fun _ => ?_
    refine (Reads.whenever (eatWord_reads _) (identOr_reads _ _)).bind fun _ => ?_
    exact spanFrom_pure_reads _ _
  refine .inspect fun start => .inspect fun _ => .inspect fun _ => .ite (fun _ => ?_) fun _ => ?_
  · exact bump_reads.bind fun _ => hname _ start
  · exact hname _ start

theorem moduleName_reads : Reads n moduleName := identOr_reads _ _

theorem importClause_opens : Opens Any n importClause := by
  refine Opens.within fun s hs hk => .inspect ?_
  refine Runs.eat hs (by simp) (fun s' ha hl => ?_) fun _ => ?_
  · have hnames : Reads n (do
        let module ← moduleName
        expectWith .invalidImport (.word .IMPORT)
        let items ← commaSeparated importItem
        semicolon
        pure (Import.names module items (← spanFrom s.current.span.start))) := by
      refine moduleName_reads.bind fun _ => (expectWith_reads _ _).bind fun _ => ?_
      refine (commaSeparated_reads importItem_reads).bind fun _ => ?_
      exact semicolon_reads.bind fun _ => spanFrom_pure_reads _ _
    refine (hnames s' (hs.shorter ha hl)).mono fun _ _ ha' _ => ?_
    have := ha'.length_le
    omega
  · refine Opens.bump (fun _ => ?_) s hs hk
    refine (commaSeparated_reads moduleName_reads).bind fun _ => ?_
    exact semicolon_reads.bind fun _ => spanFrom_pure_reads _ _

theorem importClause_reads : Reads n importClause := by
  refine Reads.within (.inspect fun _ => (eatWord_reads _).bind fun _ => ?_)
  refine .ite (fun _ => ?_) fun _ => ?_
  · refine moduleName_reads.bind fun _ => (expectWith_reads _ _).bind fun _ => ?_
    refine (commaSeparated_reads importItem_reads).bind fun _ => ?_
    exact semicolon_reads.bind fun _ => spanFrom_pure_reads _ _
  · refine bump_reads.bind fun _ => (commaSeparated_reads moduleName_reads).bind fun _ => ?_
    exact semicolon_reads.bind fun _ => spanFrom_pure_reads _ _

theorem exportClause_starts : Starts Any n exportClause := by
  refine .inspect fun _ => .bump fun _ => (commaSeparated_reads ident_reads).bind fun _ => ?_
  exact semicolon_reads.bind fun _ => spanFrom_pure_reads _ _

/-! ## Modules -/

theorem itemRound_strides (last : Option Section) : Strides Round.GoesOn n (itemRound last) := by
  intro s hs
  refine .inspect ?_
  split
  iterate 2
    next hk => exact (importClause_opens.bind fun _ => .pure _).strides hs.succ (by simp [Any, hk])
  · next hk =>
    have hopens := (exportClause_starts (n := n)).opens
    exact (hopens.bind fun _ => .pure _).strides hs.succ (by simp [Any, hk])
  iterate 3 exact stop_strides none s hs
  · next heof =>
    exact ((declarationItem_opens locals_reads last).bind fun _ => .pure _).strides hs.succ heof

theorem header_reads : Reads n header := by
  refine .inspect fun _ => .ite (fun _ => bump_reads.bind fun _ => ?_) fun _ => ?_
  all_goals
    refine (expectWith_reads _ _).bind fun _ => ident_reads.bind fun _ => ?_
    exact semicolon_reads.bind fun _ => .pure _

theorem trailer_reads (name : Ident) : Reads n (trailer name) := by
  have hend : Reads n (do
      unless ← atKind .eof do
        fail .trailingInput fun found => s!"unexpected {found.describe} after end of module") :=
    .inspect fun _ => .ite (fun _ => .pure _) fun _ => (fail_stays _ _).reads
  refine (closeWith_reads _ _).bind fun _ => (eatMark_reads _).bind fun _ => ?_
  exact .ite (fun _ => hend) fun _ => (eatMark_reads _).bind fun _ => hend

/-- A module is read in both modes, whatever tokens are left. -/
theorem module_reads : Reads n Grammar.module := by
  have hhead : Reads n (do
      let head ← header
      let items ← gather itemRound none
      pure (head, items)) :=
    header_reads.bind fun _ => (gather_reads itemRound_strides none).bind fun _ => .pure _
  refine .inspect fun _ => hhead.within.bind fun _ => ?_
  refine (Reads.whenever (eatWord_reads _) statements_reads).bind fun _ => ?_
  exact (trailer_reads _).bind fun _ => spanFrom_pure_reads _ _

end SimFront.Grammar

namespace SimFront

open SimFront.Parser

/-! ## Whole texts -/

/-- **Reading ends.**  On any tokens and in both modes reading comes to an end, with a module
or, in strict mode, with the first report.  It is never `exhausted`, so on the way every round
that was followed by another and every rule before it used itself read a token, and the bound
of one more than the tokens left was enough for all of them.  What was read does not end the
text, so the first end of the text that stands among the tokens is never passed. -/
theorem parse_ends (tokens : List Token) (mode : Mode) :
    let start := ParserState.ofTokens (significant tokens)
    parse tokens mode ≠ .error .exhausted ∧
    ∃ m s read, Grammar.module .recovery start = .ok (m, s) ∧
      Grammar.module mode start =
        (match mode with
        | .recovery => .ok (m, s)
        | .strict => strictEnd s.errors (m, s)) ∧
      significant tokens = read ++ s.rest ∧ ∀ t ∈ read, t.kind ≠ .eof := by
  intro start
  have hs : Below _ start := ⟨rfl, Nat.lt_succ_self _⟩
  obtain ⟨m, s, es, hrecovery, hstrict, herrors, hread, -⟩ := Grammar.module_reads _ hs
  obtain ⟨⟨read, hrest, hkinds⟩, -, -⟩ := hread
  have herrors : s.errors = es := by simpa [start, ParserState.ofTokens] using herrors
  have hmode : Grammar.module mode start =
      (match mode with
      | .recovery => .ok (m, s)
      | .strict => strictEnd s.errors (m, s)) := by
    cases mode with
    | recovery => exact hrecovery
    | strict => rw [herrors]; exact hstrict
  refine ⟨?_, m, s, read, hrecovery, hmode, hrest, hkinds⟩
  unfold parse
  rw [show Grammar.module mode (.ofTokens (significant tokens)) = _ from hmode]
  cases mode with
  | recovery => exact nofun
  | strict =>
    unfold strictEnd
    cases s.errors.getLast? with
    | none => exact nofun
    | some e => exact nofun

/-- Recovery mode always ends with a tree, and what it recorded decides how strict mode ends. -/
theorem parse_modes (tokens : List Token) : ∃ r, parse tokens .recovery = .ok r ∧
    parse tokens .strict = match r.errors.head? with
      | none => .ok r
      | some e => .error (.refused e) := by
  have hs : Below _ (ParserState.ofTokens (significant tokens)) := ⟨rfl, Nat.lt_succ_self _⟩
  obtain ⟨m, s, es, hr, hstrict, he, -, -⟩ := Grammar.module_reads _ hs
  have he : s.errors = es := by simpa [ParserState.ofTokens] using he
  refine ⟨⟨m, s.errors.reverse⟩, by unfold parse; rw [hr], ?_⟩
  unfold parse strictEnd at *
  rw [hstrict, List.head?_reverse, he]
  cases es.getLast? with
  | none => simp only [he]
  | some e => rfl

/-- **The modes agree.**  Recovery mode reads a tree off any tokens.  Strict mode reads it too
if recovery mode records no error, and otherwise refuses the tokens with the first one. -/
theorem parse_strict_iff (tokens : List Token) : ∃ r, parse tokens .recovery = .ok r ∧
    (∀ p, parse tokens .strict = .ok p ↔
      r.errors = [] ∧ p.module = r.module ∧ p.errors = []) ∧
    ∀ h, parse tokens .strict = .error h ↔ ∃ e, r.errors.head? = some e ∧ h = .refused e := by
  obtain ⟨r, hr, hs⟩ := parse_modes tokens
  refine ⟨r, hr, fun p => ?_, fun h => ?_⟩
  · rw [hs]
    cases hes : r.errors with
    | nil =>
      simp only [List.head?_nil, Except.ok.injEq, true_and]
      constructor
      · rintro rfl
        exact ⟨rfl, hes⟩
      · rintro ⟨hm, he⟩
        cases r
        cases p
        simp_all
    | cons e es => simp
  · rw [hs]
    cases hes : r.errors with
    | nil => simp
    | cons e es => simp [eq_comm]

end SimFront
