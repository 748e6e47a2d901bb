import SimFront.Proofs.Check.Gains

/-!
# What a local type changes

A module and the same module with one more type, declared in one of its routines
(`Module.Gains`), are analysed alike but for that declaration.  If no name that the
declaration brings in is written in the routine itself, nor is the name of a type anywhere
in the module, then with the larger module nothing is reported but on the declaration and
where the smaller one has a report (`reported_of_gains`).
-/

namespace SimFront

/-- The graft is the one of a type declaration, of which nothing has come in yet. -/
structure Graft.Begins (g : Graft) (d : TypeDecl) : Prop where
  blank : g.Blank
  inside : g.inside = false
  home : g.home? = none
  names : g.names = d.names
  covers : Check.Covers g.place none d.node

namespace Graft.Begins

variable {g : Graft} {d : TypeDecl} {n : Node}

/-- In the scope that is to declare the type. -/
theorem spares (hg : g.Begins d) (h : g.Spares n) (hfresh : d.FreshIn n) (home : Nat)
    (hhome : home ≠ SymbolTable.root) : (g.into home hhome).Spares n :=
  h.into (fun i hi => by
    rw [hg.names]
    exact hfresh i hi) home hhome

theorem holds (hg : g.Begins d) (home : Nat) (hhome : home ≠ SymbolTable.root) :
    (g.into home hhome).Holds true d.node where
  covers := hg.covers
  names _ m hm v hv := by
    show v.name ∈ g.names
    rw [hg.names]
    exact .tail _ (List.mem_map_of_mem (List.mem_flatMap.2 ⟨m, hm, hv⟩))

theorem name (hg : g.Begins d) : d.name.name ∈ g.names := by
  rw [hg.names]
  exact .head _

end Graft.Begins

namespace Check

variable {head : ModuleHead} {g : Graft} {d : TypeDecl}

/-! ## Lists of declarations -/

theorem declareAll_append (ds es : List Decl) :
    declareAll (ds ++ es) = declareAll ds >>= fun _ => declareAll es := List.forM_append

theorem checkBodies_append (ds es : List Decl) :
    checkBodies (ds ++ es) = checkBodies ds >>= fun _ => checkBodies es := by
  induction ds with
  | nil => rfl
  | cons d ds ih =>
    rw [List.cons_append, checkBodies, checkBodies, ih]
    rfl

/-- The declaration of a type has no body. -/
theorem checkBodies_insert (d : TypeDecl) (before after : List Decl) :
    checkBodies (before ++ .type d :: after) = checkBodies (before ++ after) := by
  rw [checkBodies_append, checkBodies_append, checkBodies, checkBodyOf]
  rfl

theorem checkMethods_append (ms ns : List MethodImpl) :
    checkMethods (ms ++ ns) = checkMethods ms >>= fun _ => checkMethods ns := by
  induction ms with
  | nil => rfl
  | cons m ms ih =>
    obtain ⟨heading, locals, body, span⟩ := m
    rw [List.cons_append, checkMethods, checkMethods, ih]
    rfl

/-! ## The routine that gains the type -/

section Home

variable (hblank : g.Blank) (hinside : g.inside = true) (hname : d.name.name ∈ g.names)
  (hd : g.Holds true d.node)

include hblank hinside hname hd

theorem declareAll_gains {before after : List Decl}
    (h : ∀ x ∈ before ++ after, g.Spares (.decl x)) :
    Gains head g (declareAll (before ++ after)) (declareAll (before ++ .type d :: after)) := by
  rw [declareAll_append, declareAll_append]
  refine Gains.after hblank (declareAll_follow fun x hx => h x (List.mem_append_left _ hx))
    (declareAll_records before) fun _ _ => ?_
  exact (declareType_gains hblank hinside hname hd).before fun g' hnames hin =>
    declareAll_follow fun x hx => (h x (List.mem_append_right _ hx)).of_names hnames hin

theorem inRoutineOf_gains {before after : List Decl} {body : List Stmt}
    (hlocals : ∀ x ∈ before ++ after, g.Spares (.decl x)) (hbody : ∀ s ∈ body, g.Spares (.stmt s)) :
    Gains head g (do declareAll (before ++ after); checkBodies (before ++ after); checkBlock body)
      (do declareAll (before ++ .type d :: after)
          checkBodies (before ++ .type d :: after)
          checkBlock body) := by
  rw [checkBodies_insert]
  exact (declareAll_gains hblank hinside hname hd hlocals).before fun g' hnames hin =>
    (checkBodies_follow _ fun x hx => (hlocals x hx).of_names hnames hin).bind
      (checkBlock_follow body fun s hs => (hbody s hs).of_names hnames hin)

end Home

/-! ## Routines around -/

section Around

variable {x x' : Decl} {before after : List Decl}

/-- What a declaration brings in is not changed by what is local to it. -/
theorem declare_of_gains (h : x.Gains d x') : declare x' = declare x := by
  cases h <;> rfl

theorem declareAll_of_gains (h : x.Gains d x') :
    declareAll (before ++ x' :: after) = declareAll (before ++ x :: after) := by
  have same : declareAll (x' :: after) = declareAll (x :: after) := by
    show (declare x' >>= fun _ => declareAll after) = declare x >>= fun _ => declareAll after
    rw [declare_of_gains h]
  rw [declareAll_append, declareAll_append, same]

theorem checkBodies_gains (hblank : g.Blank) (h : ∀ y ∈ before ++ x :: after, g.Spares (.decl y))
    (ih : Gains head g (checkBodyOf x) (checkBodyOf x')) :
    Gains head g (checkBodies (before ++ x :: after)) (checkBodies (before ++ x' :: after)) := by
  rw [checkBodies_append, checkBodies_append, checkBodies, checkBodies]
  refine Gains.after hblank
    (checkBodies_follow before fun y hy => h y (List.mem_append_left _ hy))
    (checkBodies_records before) fun _ _ => ?_
  exact ih.before fun g' hnames hin => checkBodies_follow after fun y hy =>
    (h y (List.mem_append_right _ (.tail _ hy))).of_names hnames hin

theorem aroundRoutine_gains (hblank : g.Blank)
    (hlocals : ∀ y ∈ before ++ x :: after, g.Spares (.decl y)) (hgains : x.Gains d x')
    (ih : Gains head g (checkBodyOf x) (checkBodyOf x')) {body : List Stmt}
    (hbody : ∀ s ∈ body, g.Spares (.stmt s)) :
    Gains head g
      (do declareAll (before ++ x :: after); checkBodies (before ++ x :: after); checkBlock body)
      (do declareAll (before ++ x' :: after); checkBodies (before ++ x' :: after); checkBlock body) := by
  rw [declareAll_of_gains hgains]
  refine Gains.after hblank (declareAll_follow hlocals) (declareAll_records _) fun _ _ => ?_
  exact (checkBodies_gains hblank hlocals ih).before fun g' hnames hin =>
    checkBlock_follow body fun s hs => (hbody s hs).of_names hnames hin

end Around

/-! ## Procedures and methods -/

section Bodies

variable {locals locals' : List Decl} {body : List Stmt} {span : Span}

/-- A procedure whose local declarations gain the type. -/
theorem procedure_gains (hblank : g.Blank) (heading : ProcHeading) (isForward : Bool)
    (h : ∀ signature : Signature, signature.Avoids g.names → Gains head g
      (inScope .procedure span
        (checkRoutine heading.params signature locals (checkBodies locals) body))
      (inScope .procedure span
        (checkRoutine heading.params signature locals' (checkBodies locals') body))) :
    Gains head g (checkBodyOf (.procedure ⟨heading, locals, body, isForward, span⟩))
      (checkBodyOf (.procedure ⟨heading, locals', body, isForward, span⟩)) := by
  rw [checkBodyOf, checkBodyOf]
  split
  · exact .nothing hblank
  · intro env s henv hs
    exact h _ (signature_of_grafted hs heading.span.start.offset).2 env s henv hs

/-- Methods of which one has local declarations that gain the type. -/
theorem methods_gains (hblank : g.Blank) {earlier later : List MethodImpl} {heading : MethodHeading}
    (hmethods : ∀ m ∈ earlier ++ ⟨heading, locals, body, span⟩ :: later, g.Spares (.methodImpl m))
    (h : ∀ signature : Signature, signature.Avoids g.names → Gains head g
      (inScope .method span
        (checkRoutine heading.params signature locals (checkBodies locals) body))
      (inScope .method span
        (checkRoutine heading.params signature locals' (checkBodies locals') body))) :
    Gains head g (checkMethods (earlier ++ ⟨heading, locals, body, span⟩ :: later))
      (checkMethods (earlier ++ ⟨heading, locals', body, span⟩ :: later)) := by
  have hmethod := hmethods _ (List.mem_append_right _ (.head _))
  have hheading : g.Spares (.methodHeading heading) := hmethod.child (.head _)
  have hparams : ∀ p ∈ heading.params, g.Spares (.param p) :=
    hheading.mapped fun _ hn => .tail _ (List.mem_append_left _ hn)
  have hresult : ∀ spec, heading.result = some spec → g.Spares (.typeSpec spec) :=
    fun spec hspec => hheading.child (.tail _
      (List.mem_append_right _ (List.mem_map_of_mem (Option.mem_toList.2 hspec))))
  rw [checkMethods_append, checkMethods_append, checkMethods, checkMethods]
  refine Gains.after hblank
    (checkMethods_follow earlier fun m hm => hmethods m (List.mem_append_left _ hm))
    (checkMethods_records earlier) fun _ _ => ?_
  refine Gains.after hblank (checkMethodName_follow heading.name)
    (checkMethodName_records heading.name) fun _ _ => ?_
  refine Gains.after hblank (signatureOf_agree hparams hresult)
    (signatureOf_records heading.params heading.result) fun signature hsignature => ?_
  exact (h signature hsignature.2).before fun g' hnames hin => checkMethods_follow later fun m hm =>
    (hmethods m (List.mem_append_right _ (.tail _ hm))).of_names hnames hin

theorem objectImpl_gains (hblank : g.Blank) (hinside : g.inside = false) {name : Ident}
    (hname : name.name ∉ g.names) {methods methods' : List MethodImpl}
    (h : Gains head g (checkMethods methods) (checkMethods methods')) :
    Gains head g (checkBodyOf (.objectImpl ⟨name, methods, span⟩))
      (checkBodyOf (.objectImpl ⟨name, methods', span⟩)) := by
  rw [checkBodyOf, checkBodyOf]
  exact Gains.after hblank (implementedObject_agree hname) (implementedObject_records name)
    fun o? ho => inObject_gains hblank hinside ho.2 span h

end Bodies

theorem checkBodyOf_gains (hg : g.Begins d) {x x' : Decl} (h : x.Gains d x') :
    g.Spares (.decl x) → Gains head g (checkBodyOf x) (checkBodyOf x') := by
  induction h with
  | @procedure heading before after body isForward span hfresh =>
    intro hx
    refine procedure_gains hg.blank heading isForward fun signature hsignature => ?_
    refine inScope_gains_home hg.blank hg.inside hg.home (by decide) (fun home hhome => ?_) span
    have hspared := hg.spares hx hfresh home hhome
    exact checkRoutine_gains (hg.blank.into home hhome)
      ((hspared.child (.head _)).mapped fun _ hn => .tail _ (List.mem_append_left _ hn)) hsignature
      (inRoutineOf_gains (hg.blank.into home hhome) rfl hg.name (hg.holds home hhome)
        (hspared.mapped fun _ hn => .tail _ (List.mem_append_left _ hn))
        (hspared.mapped fun _ hn => .tail _ (List.mem_append_right _ hn)))
  | @method name earlier later heading before after body span span' hfresh =>
    intro hx
    have hmethods := hx.mapped (List.subset_cons_self _ _)
    refine objectImpl_gains hg.blank hg.inside (hx.typeName rfl) ?_
    refine methods_gains hg.blank hmethods fun signature hsignature => ?_
    refine inScope_gains_home hg.blank hg.inside hg.home (by decide) (fun home hhome => ?_) span
    have hspared := hg.spares (hmethods _ (List.mem_append_right _ (.head _))) hfresh home hhome
    exact checkRoutine_gains (hg.blank.into home hhome)
      ((hspared.child (.head _)).mapped fun _ hn => .tail _ (List.mem_append_left _ hn)) hsignature
      (inRoutineOf_gains (hg.blank.into home hhome) rfl hg.name (hg.holds home hhome)
        (hspared.mapped fun _ hn => .tail _ (List.mem_append_left _ hn))
        (hspared.mapped fun _ hn => .tail _ (List.mem_append_right _ hn)))
  | @inProcedure heading before after x x' body isForward span hgains ih =>
    intro hx
    have hlocals := hx.mapped fun _ hn => .tail _ (List.mem_append_left _ hn)
    refine procedure_gains hg.blank heading isForward fun signature hsignature => ?_
    refine inScope_gains hg.inside ?_ .procedure span
    exact checkRoutine_gains hg.blank
      ((hx.child (.head _)).mapped fun _ hn => .tail _ (List.mem_append_left _ hn)) hsignature
      (aroundRoutine_gains hg.blank hlocals hgains
        (ih (hlocals x (List.mem_append_right _ (.head _))))
        (hx.mapped fun _ hn => .tail _ (List.mem_append_right _ hn)))
  | @inMethod name earlier later heading before after x x' body span span' hgains ih =>
    intro hx
    have hmethods := hx.mapped (List.subset_cons_self _ _)
    have hmethod := hmethods _ (List.mem_append_right _ (.head _))
    have hlocals := hmethod.mapped fun _ hn => .tail _ (List.mem_append_left _ hn)
    refine objectImpl_gains hg.blank hg.inside (hx.typeName rfl) ?_
    refine methods_gains hg.blank hmethods fun signature hsignature => ?_
    refine inScope_gains hg.inside ?_ .method span
    exact checkRoutine_gains hg.blank
      ((hmethod.child (.head _)).mapped fun _ hn => .tail _ (List.mem_append_left _ hn)) hsignature
      (aroundRoutine_gains hg.blank hlocals hgains
        (ih (hlocals x (List.mem_append_right _ (.head _))))
        (hmethod.mapped fun _ hn => .tail _ (List.mem_append_right _ hn)))

/-! ## Modules -/

theorem checkModule_gains (hg : g.Begins d) {m m' : Module} (h : m.Gains d m')
    (hm : g.Spares (.module m)) : Gains head g (checkModule m) (checkModule m') := by
  obtain @⟨kind, name, imports, exports, before, after, x, x', body, span, hgains⟩ := h
  have hdecls : ∀ y ∈ before ++ x :: after, g.Spares (.decl y) := hm.mapped fun _ hn =>
    .tail _ (List.mem_append_left _ (List.mem_append_right _ hn))
  have hbody : ∀ b, body = some b → ∀ s ∈ b, g.Spares (.stmt s) := by
    rintro b rfl
    exact hm.mapped fun _ hn => .tail _ (List.mem_append_right _ hn)
  let symbol : Symbol := { name := name.name, kind := .module, span := name.span }
  have named : Follow head g (define symbol) (define symbol) := by
    refine (define_alike (plain_outside hg.inside _) ?_ fun h => ?_).follow
    · trivial
    · cases h
  unfold checkModule
  dsimp only
  rw [declareAll_of_gains hgains]
  refine Gains.after hg.blank named (define_records (i := name) rfl rfl) fun _ _ => ?_
  refine Gains.after hg.blank (forM_follow fun i _ => importClause_follow hg.inside i)
    (forM_map_records importClause_records imports) fun _ _ => ?_
  refine Gains.after hg.blank (declareAll_follow hdecls) (declareAll_records _) fun _ _ => ?_
  refine Gains.before (checkBodies_gains hg.blank hdecls (checkBodyOf_gains hg hgains
    (hdecls x (List.mem_append_right _ (.head _))))) fun g' hnames hin => ?_
  refine checkObjectTypes_follow.bind ((optionForM_follow fun b hb => ?_).bind
    ((forM_follow fun e _ => checkExport_follow e).bind checkPendingTypes_follow))
  exact checkBlock_follow b fun s hs => (hbody b hb s hs).of_names hnames hin

end Check

/-! ## Analyses -/

namespace TypeDecl

variable {d : TypeDecl}

/-- The graft of a type declaration before anything has come in. -/
def graft (d : TypeDecl) (hnames : "" ∉ d.names) : Graft where
  names := d.names
  place span := ∃ n ∈ d.node.preorder, n.span = span
  symbol i := i
  scope i := i
  home? := none
  inside := false
  symbol_mono _ _ h := h
  scope_mono _ _ h := h
  scope_root := rfl
  home_ne_root h := nomatch h
  empty_notMem := hnames

theorem graft_begins (hnames : "" ∉ d.names) : (d.graft hnames).Begins d :=
  ⟨⟨fun _ => rfl, fun _ => rfl⟩, rfl, rfl, rfl, fun n hn => ⟨n, hn.mem_preorder, rfl⟩⟩

end TypeDecl

/-- At the start of an analysis both runs are in the same state. -/
theorem CheckState.grafted_ofModule {d : TypeDecl} (hnames : "" ∉ d.names)
    (resolver? : Option Resolver) (m : Module) :
    (CheckState.ofModule m).Grafted (d.graft hnames) (.ofModule resolver? m) (.ofModule m) where
  table := {
    nextSymbol _ := rfl
    nextScope _ := rfl
    symbol _ := rfl
    kind _ := rfl
    parent i := Option.map_id'.symm
    declared i name _ := Option.map_id'.symm
    names i e he := .inl ⟨i, e.2, rfl, rfl, he⟩
    added hnew _ := absurd rfl (hnew _)
    current := rfl
    current_lt := Nat.zero_lt_one
    home h := nomatch h
    outside _ _ _ h := nomatch h
    clear _ _ h := nomatch h.1
    count _ := Nat.le_refl _
    types h := nomatch h
    own h := nomatch h
    named {i} e he := by
      have hnone : (CheckState.ofModule m).table.namesOf i = [] := by
        cases i <;> rfl
      rw [hnone] at he
      cases he }
  faithful := faithful_ofModule resolver? m
  faithful' := faithful_ofModule resolver? m
  fits := {
    object := fun _ h => nomatch h
    result := fun _ h => nomatch h }
  contexts _ h := nomatch h
  reports _ h := nomatch h
  wholeImports := rfl
  unresolved := rfl
  placeholders := rfl
  placeholders_lt _ h := nomatch h
  pendingTypes := .nil
  objectDecls := .nil
  signatures := rfl
  signatureTypes _ h := nomatch h
  outParams _ := trivial
  outs_lt _ h := nomatch h

/-- **A local type.**  One of the routines of a module gets one more type among its local
declarations.  None of the names that the declaration brings in is written in the routine, and
none is the name of a type that the module declares, implements or mentions.  Then whatever is
reported on the larger module stands on the declaration, or there is a report on the smaller
module in the same place. -/
theorem reported_of_gains {d : TypeDecl} {m m' : Module} (h : m.Gains d m') (hnames : "" ∉ d.names)
    (htypes : ∀ name ∈ (Node.module m).typeNames, name ∉ d.names) (resolver? : Option Resolver) :
    ∀ x ∈ (analyze resolver? m').diagnostics, (∃ n ∈ d.node.preorder, n.span = x.span) ∨
      ∃ y ∈ (analyze resolver? m).diagnostics, y.span = x.span := by
  have hspares : (d.graft hnames).Spares (.module m) :=
    ⟨fun _ _ => Check.plain_outside rfl _, fun n hn name hname =>
      htypes name (List.mem_filterMap.2 ⟨n, hn, hname⟩)⟩
  have hsame : CheckState.ofModule m' = .ofModule m ∧
      Env.ofModule resolver? m' = .ofModule resolver? m := by
    cases h
    exact ⟨rfl, rfl⟩
  have hsound : (CheckState.ofModule m).table.Sound := .new m.name.name m.span
  obtain ⟨g', hgrows, hs, -⟩ := Check.checkModule_gains (TypeDecl.graft_begins hnames) h hspares
    (.ofModule resolver? m) (.ofModule m) rfl (CheckState.grafted_ofModule hnames resolver? m) hsound
    fun hin => nomatch hin
  have hafter : CheckState.after resolver? m' =
      ((Check.checkModule m').outcome (.ofModule resolver? m) (.ofModule m)).2 := by
    unfold CheckState.after
    rw [hsame.1, hsame.2]
  intro x hx
  rw [mem_diagnostics, hafter] at hx
  refine (hs.reports x hx).imp (fun hplace => ?_) fun ⟨y, hy, hspan⟩ => ⟨y, mem_diagnostics.2 hy, hspan⟩
  rw [hgrows.place] at hplace
  exact hplace

/-- A procedure gains a type `T = U` that is not known: this is reported, and nothing else. -/
theorem reported_of_gains_unknown :
    let place (line column offset length : Nat) : Span :=
      ⟨⟨line, column, offset⟩, ⟨line, column + length, offset + length⟩⟩
    let u : Ident := ⟨"U", place 4 10 48 1⟩
    let d : TypeDecl := ⟨⟨"T", place 4 6 44 1⟩, .named ⟨none, u, u.span⟩, place 4 6 44 6⟩
    let p : ProcHeading := ⟨⟨"P", place 3 11 36 1⟩, [], none, place 3 1 26 11⟩
    let v : Ident := ⟨"v", place 6 3 60 1⟩
    let body : List Stmt := [.assign (.name v) (.integer 1 (place 6 8 65 1)) (place 6 3 60 7)]
    let var : Decl := .var ⟨[⟨"v", place 2 5 14 1⟩],
      .named ⟨none, ⟨"INTEGER", place 2 8 17 7⟩, place 2 8 17 7⟩, none, place 2 5 14 11⟩
    let module (locals : List Decl) : Module :=
      ⟨.plain, ⟨"M", place 1 8 7 1⟩, [], [],
        [var, .procedure ⟨p, locals, body, false, ⟨⟨3, 1, 26⟩, ⟨7, 15, 82⟩⟩⟩], none,
        ⟨⟨1, 1, 0⟩, ⟨8, 12, 94⟩⟩⟩
    (module []).Gains d (module [.type d]) ∧ "" ∉ d.names ∧
      (∀ name ∈ (Node.module (module [])).typeNames, name ∉ d.names) ∧
      (analyze none (module [])).diagnostics = [] ∧
      (analyze none (module [.type d])).diagnostics.map (·.span) = [u.span] ∧
      ∀ x ∈ (analyze none (module [.type d])).diagnostics, ∃ n ∈ d.node.preorder, n.span = x.span := by
  intro place u d p v body var module
  have hnames : d.names = ["T"] := by
    simp [TypeDecl.names, TypeDecl.node, Node.preorder_eq, Node.children, Node.childrenOfDecl,
      Node.childrenOfType, Node.enumValues, d]
  have hempty : "" ∉ d.names := by
    rw [hnames]
    decide
  have hgains : (module []).Gains d (module [.type d]) := by
    have hfresh : d.FreshIn (.decl (.procedure ⟨p, [] ++ [], body, false, ⟨⟨3, 1, 26⟩, ⟨7, 15, 82⟩⟩⟩)) := by
      intro i hi
      have hi : i = ⟨"P", place 3 11 36 1⟩ ∨ i = v := by
        simpa [Node.preorder_eq, Node.children, Node.childrenOfDecl, Node.childrenOfStmt,
          Node.childrenOfExpr, p, body] using hi
      rw [hnames]
      rcases hi with rfl | rfl <;> decide
    have hdecls (locals : List Decl) : module locals = { module locals with
        decls := [var] ++ .procedure
          ⟨p, [] ++ locals, body, false, ⟨⟨3, 1, 26⟩, ⟨7, 15, 82⟩⟩⟩ :: [] } := rfl
    rw [hdecls, hdecls]
    exact .mk (.procedure hfresh)
  have htypes : ∀ name ∈ (Node.module (module [])).typeNames, name ∉ d.names := by
    have htypes : (Node.module (module [])).typeNames = ["INTEGER"] := by
      simp [Node.typeNames, Node.preorder_eq, Node.children, Node.childrenOfDecl,
        Node.childrenOfType, Node.childrenOfStmt, Node.childrenOfExpr, Node.ofBlock?, module, var, p,
        body]
      rfl
    rw [htypes, hnames]
    decide
  have hclean : (analyze none (module [])).diagnostics = [] := by decide +kernel
  refine ⟨hgains, hempty, htypes, hclean, by decide +kernel, fun x hx => ?_⟩
  refine (reported_of_gains hgains hempty htypes none x hx).resolve_right ?_
  rw [hclean]
  rintro ⟨y, hy, -⟩
  cases hy

end SimFront
