import SimFront.Proofs.Check.Rules
import SimFront.Proofs.Check.Unused

/-!
# What declarations and bodies leave unused

A scope that is no routine settles what its parts settle, and at the end of a routine its local
symbols are judged (`routine_judges`).  So the check of a whole module judges each local symbol
once (`verdicts_after`), and what is reported later on uses none of them.
-/

namespace SimFront

namespace Check

variable {α β : Type} {head : ModuleHead} {env : Env} {s : CheckState}

/-! ## Declarations -/

theorem define_judges (symbol : Symbol) : Judges head (define symbol) := by
  intro env s henv hs
  have hfaithful := ((define_byName symbol).faithful henv hs.faithful).1
  obtain ⟨id, t, hdefine, hstate⟩ | ⟨-, d, -, hcode, hstate⟩ := define_outcome symbol env s
  · have hafter : stateAfter env (define symbol) s = { s with table := t } :=
      congrArg Prod.snd hstate
    have hreferences := SymbolTable.references_defineIn hdefine
    refine .unopened hs hfaithful ?_ ?_ (fun _ _ _ _ _ => ?_) [] ?_
      (List.forall_mem_nil _) ?_ fun _ => ?_
    all_goals rw [hafter]
    · exact .declare hdefine
    · exact SymbolTable.size_scopes_defineIn hdefine
    · unfold SymbolTable.referenceCount
      rw [hreferences]
    · rfl
  · have hafter : stateAfter env (define symbol) s = { s with reports := d :: s.reports } :=
      congrArg Prod.snd hstate
    have hnone : d.code ∉ idleCodes := by
      rw [hcode]
      decide
    refine .unopened hs hfaithful ?_ ?_ (fun _ _ _ _ _ => ?_) [d] ?_
      (List.forall_mem_singleton.2 hnone) ?_ fun _ => ?_
    all_goals rw [hafter]
    · exact .refl _
    · rfl

theorem inScope_judges (kind : ScopeKind) (hkind : kind ≠ .procedure ∧ kind ≠ .method) (span : Span)
    {p : Check α} (hp : Judges head p) : Judges head (inScope kind span p) := by
  intro env s henv hs
  obtain ⟨husual, hsettles, houts⟩ := hp env _ henv (hs.enter kind span)
  exact ⟨husual.leave _ _, hsettles.inside hs.reachable hkind, houts⟩

/-- An object type is noted with the scope of its members. -/
theorem noteObject_judged (hs : Usual env s) (owner? : Option Ident) {scope : Nat}
    (hkind : s.table.kind? scope = some .object) : Judged env s (noteObject owner? scope) := by
  have nothing : Judged env s (pure ()) := judges_searches.pure () env s rfl hs
  unfold noteObject
  cases owner? with
  | none => exact nothing
  | some o =>
    refine .table ?_
    cases s.table.lookupId? o.name with
    | none => exact nothing
    | some symbol =>
      refine ⟨⟨hs.faithful.of_same rfl rfl rfl, hs.reachable, fun d hd => ?_⟩, ?_, fun _ => rfl⟩
      · rcases List.mem_append.1 hd with hd | hd
        · exact hs.membered d hd
        · obtain rfl := List.mem_singleton.1 hd
          exact hkind
      · exact .unopened hs.reachable.consistent (.refl s.table) rfl (fun _ _ _ _ _ => rfl)
          [] rfl (List.forall_mem_nil _)

theorem objectScope_judges (owner? : Option Ident) (span : Span) {p : Check α}
    (hp : Judges head p) : Judges head (objectScope owner? span p) := by
  rintro env s rfl hs
  have h : ComposesSearches env.head fun _ p => Judges env.head p := judges_searches
  let members : Check (Nat × α) := do
    let scope ← currentScope
    let a ← p
    pure (scope, a)
  have hmembers : Judges env.head members :=
    h.bind (h.query currentScope_query) fun scope => h.bind hp fun a => h.pure (scope, a)
  have hleft := inScope_judges .object (by decide) span hmembers env s rfl hs
  refine hleft.bind hs ((noteObject_judged hleft.usual owner? ?_).then hleft.usual fun _ => h.pure _)
  have hinside := (hmembers env _ rfl (hs.enter .object span)).settles.grows
  exact (SymbolTable.extends_leave _).kind (CheckState.kind_entered hs.reachable hinside)

theorem judges_decls : ComposesDecls head fun _ p => Judges head p where
  toComposes := judges_names
  define _ := define_judges _
  scope span hkind hp := inScope_judges _ (by rcases hkind with rfl | rfl <;> decide) span hp
  object owner? span hp := objectScope_judges owner? span hp
  aside hname hsame := modify_judges hname fun s =>
    ⟨(hsame s).1, (hsame s).2.1, (hsame s).2.2.1, fun _ => by rw [(hsame s).2.2.2]⟩

theorem retype_judges (id : Nat) (type : Ty) :
    Judges head (modifyTable (·.modifySymbol id fun s => { s with type })) :=
  fun _ s _ hs => .unopened hs (hs.faithful.of_same rfl rfl rfl) (.retype s.table id type) rfl
    (fun _ _ _ _ _ => rfl) [] rfl (List.forall_mem_nil _) rfl fun _ => rfl

theorem declareType_judges (d : TypeDecl) : Judges head (declareType d) := by
  have h : ComposesDecls head fun _ p => Judges head p := judges_decls
  refine h.bind (define_judges _) fun id? =>
    h.bind (typeOfSpec_composes h (some d.name) d.type) fun type => ?_
  cases id? with
  | none => exact h.pure _
  | some id => exact retype_judges id type

/-! ## Routines -/

/-- The state at the end of a step inside a routine with OUT parameters. -/
def afterRoutine (env : Env) (result? : Option Ty) (outs : List Nat) (step : Check Unit)
    (s : CheckState) : CheckState :=
  stateAfter { env with routine? := some result? } step
    { s with outParams := outs.map fun id => (id, {}) }

/-- Inside a routine its OUT parameters are looked after. -/
theorem afterRoutine_settles (hs : Usual env s) (result? : Option Ty) (outs : List Nat)
    {step : Check Unit} (hstep : Judges env.head step) :
    Usual env (afterRoutine env result? outs step s) ∧
      s.Settles (afterRoutine env result? outs step s) ∧
      ∀ id, (List.lookup id (afterRoutine env result? outs step s).outParams).isSome → id ∈ outs := by
  have hstarted : Usual env { s with outParams := outs.map fun id => (id, {}) } :=
    ⟨hs.faithful.of_same rfl rfl rfl, hs.reachable, hs.membered⟩
  have hstarts : s.Settles { s with outParams := outs.map fun id => (id, {}) } :=
    .unopened hs.reachable.consistent (.refl _) rfl (fun _ _ _ _ _ => rfl) [] rfl
      (List.forall_mem_nil _)
  obtain ⟨hdone, hsettles, hsame⟩ :=
    hstep { env with routine? := some result? } _ rfl (hstarted.of_env rfl rfl)
  refine ⟨hdone.of_env rfl rfl, hstarts.trans hs.reachable hsettles, fun id hid => ?_⟩
  rw [afterRoutine, hsame, lookup_unassigned] at hid
  refine Decidable.byContradiction fun hmem => ?_
  rw [if_neg hmem] at hid
  cases hid

/-- At the end of a routine its local symbols are judged, and the OUT parameters of the routine
around come back. -/
theorem outcome_routineScope (env : Env) (s : CheckState) (kind : ScopeKind) (span : Span)
    (params : List Param) (signature : Signature) (step : Check Unit) :
    let opened := (defineAllParams params signature.params).outcome env (entered kind span s)
    let done := afterRoutine env signature.result opened.1 step opened.2
    stateAfter env (routineScope kind span params signature step) s = { done with
      table := done.table.leave
      reports := (done.verdicts.map Prod.snd).reverse ++ done.reports
      outParams := opened.2.outParams } := by
  intro opened done
  have hreported : stateAfter env reportAllUnused done =
      { done with reports := (done.verdicts.map Prod.snd).reverse ++ done.reports } := by
    unfold reportAllUnused
    rw [stateAfter, outcome_bind, outcome_forM_reportUnused, CheckState.map_snd_verdicts]
    rfl
  rw [show stateAfter env (routineScope kind span params signature step) s =
    { stateAfter env reportAllUnused done with
      table := (stateAfter env reportAllUnused done).table.leave
      outParams := opened.2.outParams } from rfl, hreported]

theorem routine_judges {kind : ScopeKind} (hkind : kind = .procedure ∨ kind = .method) (span : Span)
    (params : List Param) (signature : Signature) {step : Check Unit} (hstep : Judges head step) :
    Judges head (routineScope kind span params signature step) := by
  rintro env s rfl hs
  have hentered := hs.enter kind span
  obtain ⟨hopened, hopens, hkept⟩ :=
    defineAllParams_composes judges_decls params signature.params env _ rfl hentered
  obtain ⟨-, -, -, hdeclared⟩ := defineAllParams_declaresOuts params signature.params _
    hentered.faithful hentered.reachable (List.forall_mem_nil _)
  have hafter := outcome_routineScope env s kind span params signature step
  dsimp only at hafter
  unfold stateAfter at hopened hopens hkept hdeclared
  generalize (defineAllParams params signature.params).outcome env (entered kind span s) = opened
    at hopened hopens hkept hdeclared hafter
  obtain ⟨hdone, hsettles, hlooked⟩ := afterRoutine_settles hopened signature.result opened.1 hstep
  generalize afterRoutine env signature.result opened.1 step opened.2 = done
    at hdone hsettles hlooked hafter
  have houts (id : Nat) (x : Symbol) (hlookup : (List.lookup id done.outParams).isSome)
      (hx : done.table.symbol? id = some x) : x.mode? = some .out := by
    obtain ⟨y, hy, -, hmode, -⟩ :=
      (hdeclared id (hlooked id hlookup)).grown hopened.reachable hsettles.grows
    rw [hx] at hy
    cases hy
    exact hmode
  constructor
  all_goals rw [hafter]
  · exact hdone.leave _ _
  · exact .routine hs.reachable hkind (hopens.trans hentered.reachable hsettles) houts
  · exact hkept

/-! ## Uses outside of expressions -/

theorem checkMethodName_judges (name : Ident) : Judges head (checkMethodName name) := by
  rintro env s rfl hs
  have h : ComposesSearches env.head fun _ p => Judges env.head p := judges_searches
  refine .read ?_
  split
  · exact h.pure _ env s rfl hs
  · next o _ =>
    split
    · split
      · refine .search hs (memberSymbol?_query o.name name.name).searches fun s' hs' htable => ?_
        cases hid : ((memberSymbol? o.name name.name).outcome env s).1 with
        | none => exact h.pure _ env s' rfl hs'
        | some id =>
          have husable := usable_of_memberSymbol? hs.reachable.consistent hs.membered hid
          exact refer_judged hs' (husable.of_table htable) name.span
      · exact h.pure _ env s rfl hs
    · exact error_judges (by decide) _ _ env s rfl hs

theorem implementedObject_judges (name : Ident) : Judges head (implementedObject name) := by
  have h : ComposesSearches head fun _ p => Judges head p := judges_searches
  refine h.bind (h.query (findObject_query none name.name)) fun o? => ?_
  extract_lets _ rest
  have referred (done : Unit) : Judges head (rest done) := by
    rintro env s rfl hs
    refine .table ?_
    split
    · next id _ =>
      split
      · next htype =>
        have husable : s.Usable id := by
          refine CheckState.usable_of_kind .type (by decide) (by decide) fun x hx => ?_
          rw [hx] at htype
          exact of_decide_eq_true htype
        exact (refer_judged hs husable name.span).then hs fun _ => h.pure _
      · exact h.pure _ env s rfl hs
    · exact h.pure _ env s rfl hs
  split
  · refine h.bind (h.query suppressUnknown_query) fun suppressed => ?_
    split
    · exact referred ()
    · exact h.bind (error_judges (by decide) _ _) referred
  · exact referred ()

theorem checkPendingType_judges (p : PendingType) : Judges head (checkPendingType p) := by
  have h : ComposesSearches head fun _ p => Judges head p := judges_searches
  refine h.bind (h.query (lookup_query p.module? p.name p.scope)) fun found => ?_
  cases found with
  | found b =>
    refine h.bind (h.query (isPlaceholder_query b)) fun placeholder => ?_
    split
    · exact h.pure _
    · rintro env s rfl hs
      cases b with
      | declared id =>
        refine .symbol? ?_
        cases hx : s.table.symbol? id with
        | none => exact h.pure _ env s rfl hs
        | some x =>
          dsimp only
          split
          · next htype =>
            have husable : s.Usable id :=
              CheckState.usable_of_kind .type (by decide) (by decide) fun y hy =>
                Option.some.inj (hx.symm.trans hy) ▸ htype
            exact referIn_judged hs husable (fun _ => p.scope) p.span
          · exact error_judges (by decide) _ _ env s rfl hs
      | _ =>
        refine h.bind (h.query (bindingSymbol?_query _)) (fun x? => ?_) env s rfl hs
        cases x? with
        | none => exact h.pure _
        | some x =>
          dsimp only
          split
          · exact h.pure _
          · exact error_judges (by decide) _ _
  | unknowable => exact h.pure _
  | missing => exact error_judges (by decide) _ _

theorem checkExport_judges (e : Export) : Judges head (checkExport e) := by
  refine forM_composes judges_names (fun n => ?_) e.names
  rintro env s rfl hs
  refine .table ?_
  split
  · next id hid =>
    have hs' := hs.reachable.consistent
    rw [SymbolTable.lookupFrom?_root] at hid
    exact refer_judged hs (CheckState.usable_of_declared hs' (hs'.root_mem_enclosing hs'.current) hid)
      n.span
  · exact error_judges (by decide) _ _ env s rfl hs

theorem judges_types : ComposesTypes head fun _ p => Judges head p where
  toComposesDecls := judges_decls
  type := declareType_judges
  routine span params signature hkind hp := routine_judges hkind span params signature hp
  methodName := checkMethodName_judges
  implementedObject := implementedObject_judges
  pendingType := checkPendingType_judges
  exported := checkExport_judges

/-! ## Object types -/

theorem checkOverride_judges (o : ResolvedObject) (resolved : Bool) (span : Span) (name : String)
    (method : MethodInfo) : Judges head (checkOverride o resolved span name method) := by
  have h : ComposesSearches head fun _ p => Judges head p := judges_searches
  refine h.bind (h.search ⟨baseMethod_still o name, baseMethod_touches o name⟩) fun base? => ?_
  cases base? with
  | none =>
    dsimp only
    split
    · exact error_judges (by decide) _ _
    · exact h.pure _
  | some base =>
    dsimp only
    cases base.method? with
    | none => exact h.pure _
    | some info =>
      dsimp only
      split
      · exact report_judges (show DiagnosticCode.hidesBaseMethod ∉ idleCodes by decide)
      · split
        · rintro env s rfl hs
          refine .search hs (mismatch_query _ _ _ _ _).searches fun s' hs' _ =>
            report_judges ?_ env s' rfl hs'
          rw [mismatch_code]
          decide
        · exact h.pure _

theorem checkOverrides_judges (o : ResolvedObject) (resolved : Bool) (d : ObjectDecl) (span : Span)
    (methods : List (String × MethodInfo)) :
    Judges head (checkOverrides o resolved d span methods) := by
  have h : ComposesSearches head fun _ p => Judges head p := judges_searches
  induction methods with
  | nil => exact h.pure _
  | cons m rest ih =>
    exact h.bind (h.query table_query) fun t =>
      h.bind (checkOverride_judges o resolved _ m.1 m.2) fun _ => ih

theorem checkObjectType_judges (d : ObjectDecl) : Judges head (checkObjectType d) := by
  have h : ComposesSearches head fun _ p => Judges head p := judges_searches
  refine h.bind (h.query (symbol?_query d.symbol)) fun x? => ?_
  cases x? with
  | none => exact h.pure _
  | some x =>
    dsimp only
    split
    · refine h.bind (h.search ⟨inheritsItself_still _, inheritsItself_touches _⟩) fun circle => ?_
      split
      · exact error_judges (by decide) _ _
      · exact h.bind (h.search ⟨chainResolved_still _, chainResolved_touches _⟩) fun resolved =>
          checkOverrides_judges _ resolved d _ _
    · exact h.pure _

/-! ## Modules -/

theorem checkModule_judges (halone : head.alone = false) (m : Module) :
    Judges head (checkModule m) := by
  have h : ComposesTypes head fun _ p => Judges head p := judges_types
  have objects : Judges head checkObjectTypes :=
    h.get fun s => forM_composes h.toComposes checkObjectType_judges s.objectDecls
  have phases : Judges head (do checkDeclared m; checkObjectTypes; checkUses m) :=
    h.bind (checkDeclared_composes h halone m) fun _ =>
      h.bind objects fun _ => checkUses_composes h m
  exact phases

end Check

open SymbolTable (Verdicts)

/-- An analysis reports on each local symbol of the module what the table says of it in the end. -/
theorem verdicts_after (resolver? : Option Resolver) (m : Module) :
    ∃ L, (CheckState.after resolver? m).reports.filter (·.code ∈ Check.idleCodes) =
        L.map Prod.snd ∧ Verdicts 1 (CheckState.after resolver? m).table L := by
  have hstart : Check.Usual (.ofModule resolver? m) (.ofModule m) :=
    ⟨faithful_ofModule resolver? m, .new m.name.name m.span, List.forall_mem_nil _⟩
  obtain ⟨-, hsettles, -⟩ := Check.checkModule_judges rfl m _ _ rfl hstart
  obtain ⟨more, L, hmore, hfilter, hverdicts⟩ := hsettles.reports
  refine ⟨L, ?_, hverdicts⟩
  rw [← hfilter, show (CheckState.after resolver? m).reports = more ++ [] from hmore,
    List.append_nil]

end SimFront
