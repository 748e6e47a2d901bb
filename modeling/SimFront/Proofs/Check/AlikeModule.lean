import SimFront.Proofs.Check.Touches

/-!
# Imports, object types and names of types with a graft

What comes before and after the declarations and bodies of a module: imports, which no
graft is around yet, the rules for object types, exports, and the type names that were put
off to the end.  The run with the graft checks the object types and the type names of the
graft on top of those of the other run, and reports only on the graft.
-/

namespace SimFront

namespace Check

variable {α β : Type} {head : ModuleHead} {g : Graft}

/-- Two runs over lists of which one has more entries. -/
theorem weave_follow {R : α → α → Prop} {More : α → Prop} {f : α → Check Unit} {as bs : List α}
    (h : Weave R More as bs) (hboth : ∀ a b, R a b → Follow head g (f a) (f b))
    (hmore : ∀ b, More b → Follow head g (pure ()) (f b)) :
    Follow head g (as.forM f) (bs.forM f) := by
  induction h with
  | nil => exact .pure trivial
  | both hab _ ih => exact (hboth _ _ hab).bind ih
  | @more b as bs hb _ ih => exact Follow.bind (hmore b hb) (f := fun _ => as.forM f) ih

/-! ## Imports -/

section Imports

variable (hout : g.inside = false)

include hout

theorem plain_outside (name : String) : g.Plain name := fun hin => by
  rw [hout] at hin
  cases hin

theorem defineCopy_follow {symbol : Symbol} (htype : symbol.type.Avoids g.names)
    (horigin : symbol.origin?.isSome) :
    Follow head g (do let _ ← define symbol; pure ()) (do let _ ← define symbol; pure ()) := by
  refine (define_alike (plain_outside hout _) htype fun _ hnone => ?_).bind fun _ _ _ => .pure trivial
  rw [hnone] at horigin
  cases horigin

omit hout in
theorem otherModule_agree {source : Ident} (h : source.name ≠ head.name) :
    Agree head g (fun _ => True) (otherModule source) := by
  refine .readSame (fun _ => rfl) fun env _ _ =>
    (moduleTable?_agree fun hname => absurd hname h).bind fun table? _ => ?_
  dsimp only
  split
  · refine .get fun _ s u _ hs => ?_
    rw [hs.unresolved]
    split
    · exact Agree.pure trivial
    · refine Follow.bind (.modify fun _ s u _ hs => ⟨{ hs with
        faithful := hs.faithful.of_same rfl rfl rfl
        faithful' := hs.faithful'.of_same rfl rfl rfl
        unresolved := congrArg (List.cons _) hs.unresolved }, .refl _⟩) ?_
      exact (warning_follow _ _ _ _).bind (Agree.pure trivial)
  · exact Agree.pure trivial

omit hout in
theorem importFrom_follow {source : Ident} {use : Option SymbolTable → Check Unit}
    (huse : source.name ≠ head.name → ∀ table?, Follow head g (use table?) (use table?)) :
    Follow head g (importFrom source use) (importFrom source use) := by
  refine .readSame (fun _ => rfl) fun env henv _ => ?_
  subst henv
  split
  · exact warning_follow _ _ _ _
  · next hname => exact (otherModule_agree hname).bind fun table? _ => huse hname table?

theorem importModule_follow (module : Ident) :
    Follow head g (importModule module) (importModule module) := by
  refine importFrom_follow fun hname _ => .get fun _ s u _ hs => ?_
  rw [hs.wholeImports]
  split
  · exact .pure trivial
  · refine Follow.bind (.modify fun env s u henv hs => ⟨{ hs with
      faithful := ⟨hs.faithful.answers, hs.faithful.asked, hs.faithful.distinct, ?_, hs.faithful.own⟩
      faithful' := ⟨hs.faithful'.answers, hs.faithful'.asked, hs.faithful'.distinct, ?_,
        hs.faithful'.own⟩
      wholeImports := congrArg (· ++ _) hs.wholeImports }, .refl _⟩) (defineCopy_follow hout trivial rfl)
    all_goals
      -- a module that imports itself does not get here
      subst henv
      intro hmem
      rcases List.mem_append.1 hmem with hmem | hmem
    · exact hs.faithful.imports hmem
    · exact hname (List.mem_singleton.1 hmem).symm
    · exact hs.faithful'.imports hmem
    · exact hname (List.mem_singleton.1 hmem).symm

theorem definePlaceholder_follow (name source : Ident) :
    Follow head g (definePlaceholder name source) (definePlaceholder name source) := by
  intro env s u henv hs
  let symbol : Symbol :=
    { name := name.name, kind := .var, span := name.span, origin? := some source.name }
  have declared : Alike head g (fun a b => b = a.map g.symbol) (define symbol) (define symbol) := by
    refine define_alike (plain_outside hout _) ?_ fun h => ?_
    · trivial
    · cases h
  obtain ⟨hid, hs', hreturns⟩ := declared env s u henv hs
  have hlt := (define_lt symbol env s).2
  unfold definePlaceholder
  rw [outcome_bind, outcome_bind, hid]
  cases hfirst : ((define symbol).outcome env s).1 with
  | none => exact ⟨trivial, hs', hreturns⟩
  | some id =>
    refine ⟨trivial, { hs' with
      faithful := hs'.faithful.of_same rfl rfl rfl
      faithful' := hs'.faithful'.of_same rfl rfl rfl
      placeholders := congrArg (List.cons _) hs'.placeholders
      placeholders_lt := fun i hi => ?_ }, hreturns⟩
    rcases List.mem_cons.1 hi with rfl | hi
    · exact hlt i hfirst
    · exact hs'.placeholders_lt i hi

omit hout in
theorem importedValue_avoids {names : List String} (source : SymbolTable) (module type : Ident)
    (value : String) : (importedValue source module type value).type.Avoids names ∧
      (importedValue source module type value).origin?.isSome := by
  unfold importedValue
  split
  · next s hs =>
    obtain ⟨havoids, horigin⟩ := SymbolTable.exported_avoids hs
    exact ⟨havoids, horigin⟩
  · exact ⟨trivial, rfl⟩

theorem importSymbol_follow (source : SymbolTable) (module : Ident) (item : ImportItem) {s : Symbol}
    (htype : s.type.Avoids g.names) (horigin : s.origin?.isSome) :
    Follow head g (importSymbol source module item s) (importSymbol source module item s) := by
  let copy : Symbol := { s with name := item.localName.name, span := item.localName.span }
  have hcopy : Alike head g (fun a b => b = a.map g.symbol) (define copy) (define copy) := by
    refine define_alike (plain_outside hout _) htype fun _ hnone => ?_
    rw [show s.origin? = none from hnone] at horigin
    cases horigin
  refine hcopy.bind fun _ _ _ => ?_
  split
  · refine forM_follow fun v _ => ?_
    have hvalue : (importedValue source module item.name v).type.Avoids g.names ∧ _ :=
      importedValue_avoids source module item.name v
    exact defineCopy_follow hout hvalue.1 hvalue.2
  · exact .pure trivial

theorem importItem_follow (module : Ident) (table? : Option SymbolTable) (item : ImportItem) :
    Follow head g (importItem module table? item) (importItem module table? item) := by
  cases table? with
  | none => exact definePlaceholder_follow hout _ _
  | some source =>
    unfold importItem
    dsimp only
    split
    · next s hs =>
      obtain ⟨havoids, horigin⟩ := SymbolTable.exported_avoids hs
      exact importSymbol_follow hout source module item havoids horigin
    · exact (warning_follow _ _ _ _).bind (definePlaceholder_follow hout _ _)

theorem importClause_follow (i : Import) : Follow head g (importClause i) (importClause i) := by
  cases i with
  | names module items span =>
    exact importFrom_follow fun _ table? => forM_follow fun item _ => importItem_follow hout module table? item
  | modules modules span => exact forM_follow fun module _ => importModule_follow hout module

end Imports

/-! ## Object types -/

theorem mismatch_alike (name : String) (span : Span) (s : Signature) {base : Member}
    (hbase : g.FitsMember base) (baseSignature : Signature) :
    Alike head g (fun d d' => d.span = d'.span) (mismatch name span s base baseSignature)
      (mismatch name span s base baseSignature) := by
  unfold mismatch
  extract_lets _ _ rest
  have reported (declared? : Option Nat) : Alike head g (fun d d' => d.span = d'.span)
      (rest declared?) (rest (declared?.map g.symbol)) := by
    cases declared? with
    | none => exact (Alike.pure (R := fun _ _ => True) trivial).bind fun _ _ _ => .pure rfl
    | some id => exact (symbol?_alike id).bind fun _ _ _ => .pure rfl
  split
  · exact (Alike.pure (R := fun a b => b = a.map g.symbol) rfl).bind fun a b hab => by
      subst hab
      exact reported a
  · next horigin =>
    have hnone : base.origin? = none := by simpa using horigin
    exact (memberSymbol?_alike (hbase.owner hnone) name).bind fun a b hab => by
      subst hab
      exact reported a

theorem checkOverride_follow {o : ResolvedObject} (ho : g.Fits o) (chainResolved : Bool) (span : Span)
    (name : String) (method : MethodInfo) :
    Follow head g (checkOverride o chainResolved span name method)
      (checkOverride o chainResolved span name method) := by
  refine (baseMethod_agree ho name).bind fun base? hbase? => ?_
  split
  · split
    · exact error_follow _ _ _ _
    · exact .pure trivial
  · next base =>
    split
    · exact .pure trivial
    · split
      · exact warning_follow _ _ _ _
      · split
        · exact (mismatch_alike _ _ _ (hbase? base rfl) _).bind fun _ _ hspan => report_follow hspan
        · exact .pure trivial

/-- An object type of both runs, in a scope that declares none of the names of the graft. -/
structure SameObject (g : Graft) (d e : ObjectDecl) : Prop where
  moved : e = ⟨d.name, g.symbol d.symbol, g.scope d.scope⟩
  name : d.name ∉ g.names
  elsewhere : g.home? ≠ some (g.scope d.scope)

theorem checkOverrides_follow {o : ResolvedObject} (ho : g.Fits o) (chainResolved : Bool)
    {d e : ObjectDecl} (h : SameObject g d e) (span : Span) (methods : List (String × MethodInfo)) :
    Follow head g (checkOverrides o chainResolved d span methods)
      (checkOverrides o chainResolved e span methods) := by
  induction methods with
  | nil => exact .pure trivial
  | cons m rest ih =>
    obtain ⟨name, method⟩ := m
    refine .table fun t v htable => ?_
    have hspan : ((v.declared? e.scope name).bind v.symbol?).map (·.span) =
        ((t.declared? d.scope name).bind t.symbol?).map (·.span) := by
      rw [h.moved, htable.declared d.scope name fun hadds => h.elsewhere hadds.1]
      cases t.declared? d.scope name with
      | none => rfl
      | some id =>
        dsimp only [Option.map_some, Option.bind_some]
        rw [htable.symbol, Option.map_map]
        rfl
    dsimp only
    rw [hspan]
    exact (checkOverride_follow ho chainResolved _ name method).bind ih

theorem checkObjectType_follow {d e : ObjectDecl} (h : SameObject g d e) :
    Follow head g (checkObjectType d) (checkObjectType e) := by
  have hmoved := h.moved
  have hsymbol : e.symbol = g.symbol d.symbol := by rw [hmoved]
  have hname : e.name = d.name := by rw [hmoved]
  unfold checkObjectType
  rw [hsymbol, hname]
  refine (symbol?_alike d.symbol).bind fun s? s?' hs => ?_
  cases hs with
  | none => exact .pure trivial
  | some s scope havoids =>
    dsimp only
    split
    · next info hinfo =>
      rw [hinfo, Ty.Avoids] at havoids
      have ho : g.Fits ⟨d.name, info, none⟩ := ⟨fun _ => h.name, havoids⟩
      refine (inheritsItself_agree ho).bind fun circular _ => ?_
      split
      · exact error_follow _ _ _ _
      · exact (chainResolved_agree ho).bind fun resolved _ =>
          checkOverrides_follow ho resolved h s.span info.methods
    · exact .pure trivial

/-! ## Object types of the graft -/

section Touches

variable {place : Span → Prop} {I : Standing head place}

theorem mismatch_query (name : String) (span : Span) (s : Signature) (base : Member)
    (baseSignature : Signature) : Query head (mismatch name span s base baseSignature) := by
  unfold mismatch
  extract_lets _ _ rest
  have reported (declared? : Option Nat) : Query head (rest declared?) := by
    cases declared? with
    | none => exact (Query.pure _).bind fun _ => .pure _
    | some id => exact (symbol?_query id).bind fun _ => .pure _
  split
  · exact (Query.pure _).bind reported
  · exact (memberSymbol?_query _ _).bind reported

theorem mismatch_span (name : String) (span : Span) (s : Signature) (base : Member)
    (baseSignature : Signature) (env : Env) (st : CheckState) :
    ((mismatch name span s base baseSignature).outcome env st).1.span = span := by
  unfold mismatch
  extract_lets _ _ rest
  have reported (declared? : Option Nat) (st : CheckState) :
      ((rest declared?).outcome env st).1.span = span := by
    cases declared? <;> rfl
  split
  · exact reported none st
  · exact reported _ _

theorem checkOverride_touches (o : ResolvedObject) (chainResolved : Bool) {span : Span}
    (hspan : place span) (name : String) (method : MethodInfo) :
    Touches I (checkOverride o chainResolved span name method) := by
  refine (baseMethod_touches o name).bind fun base? => ?_
  split
  · split
    · exact error_touches hspan _ _
    · exact .pure _
  · next base =>
    split
    · exact .pure _
    · next info _ =>
      split
      · exact warning_touches hspan _ _
      · split
        · intro env s hs
          obtain ⟨htouched, hfaithful, -⟩ := (mismatch_query name span method.signature base
            info.signature).touches env s hs
          obtain ⟨htouched', hfaithful', -⟩ := report_touches
            ((mismatch_span name span method.signature base info.signature env s).symm ▸ hspan)
            env _ (I.touched hs htouched hfaithful)
          exact ⟨htouched.trans htouched', hfaithful', trivial⟩
        · exact .pure _

/-- An object type on whose members reports are allowed. -/
def MembersAt (place : Span → Prop) (t : SymbolTable) (d : ObjectDecl) : Prop :=
  ∀ name symbol, (t.declared? d.scope name).bind t.symbol? = some symbol → place symbol.span

theorem MembersAt.of_touched {s s' : CheckState} {d : ObjectDecl} (h : MembersAt place s.table d)
    (htouched : s.Touched place s') : MembersAt place s'.table d := by
  obtain ⟨rs, hrs, -⟩ := htouched.table
  rw [hrs]
  exact h

theorem checkOverrides_touched (o : ResolvedObject) (chainResolved : Bool) {d : ObjectDecl}
    {span : Span} (hspan : place span) (methods : List (String × MethodInfo)) {env : Env}
    {s : CheckState} (hs : I.Holds env s) (h : MembersAt place s.table d) :
    s.Touched place ((checkOverrides o chainResolved d span methods).outcome env s).2 ∧
      ((checkOverrides o chainResolved d span methods).outcome env s).2.Faithful env := by
  induction methods generalizing s with
  | nil => exact ⟨.refl s, I.faithful hs⟩
  | cons m rest ih =>
    obtain ⟨name, method⟩ := m
    unfold checkOverrides
    rw [outcome_bind, show table.outcome env s = (s.table, s) from rfl]
    dsimp only
    have hplace : place ((((s.table.declared? d.scope name).bind s.table.symbol?).map (·.span)).getD
        span) := by
      cases hsymbol : (s.table.declared? d.scope name).bind s.table.symbol? with
      | none => exact hspan
      | some symbol => exact h name symbol hsymbol
    obtain ⟨htouched, hfaithful, -⟩ :=
      checkOverride_touches o chainResolved hplace name method env s hs
    obtain ⟨htouched', hfaithful'⟩ := ih (I.touched hs htouched hfaithful) (h.of_touched htouched)
    rw [outcome_bind]
    exact ⟨htouched.trans htouched', hfaithful'⟩

theorem checkObjectType_touched {d : ObjectDecl} {env : Env} {s : CheckState}
    (hs : I.Holds env s)
    (hsymbol : ∀ symbol, s.table.symbol? d.symbol = some symbol → place symbol.span)
    (hmembers : MembersAt place s.table d) :
    s.Touched place ((checkObjectType d).outcome env s).2 ∧
      ((checkObjectType d).outcome env s).2.Faithful env := by
  unfold checkObjectType
  rw [outcome_bind, show (symbol? d.symbol).outcome env s = (s.table.symbol? d.symbol, s) from rfl]
  cases hfound : s.table.symbol? d.symbol with
  | none => exact ⟨.refl s, I.faithful hs⟩
  | some symbol =>
    have hspan := hsymbol symbol hfound
    dsimp only
    split
    · next info _ =>
      let o : ResolvedObject := ⟨d.name, info, none⟩
      obtain ⟨htouched, hfaithful, -⟩ := inheritsItself_touches (I := I) o env s hs
      have hs' := I.touched hs htouched hfaithful
      rw [outcome_bind]
      split
      · obtain ⟨htouched', hfaithful', -⟩ := error_touches hspan .circularInheritance
          s!"object type '{d.name}' inherits from itself" env _ hs'
        exact ⟨htouched.trans htouched', hfaithful'⟩
      · obtain ⟨htouched', hfaithful', -⟩ := chainResolved_touches o env _ hs'
        obtain ⟨htouched'', hfaithful''⟩ := checkOverrides_touched o
          ((chainResolved o).outcome env ((inheritsItself o).outcome env s).2).1 hspan info.methods
          (I.touched hs' htouched' hfaithful') (hmembers.of_touched (htouched.trans htouched'))
        rw [outcome_bind]
        exact ⟨(htouched.trans htouched').trans htouched'', hfaithful''⟩
    · exact ⟨.refl s, I.faithful hs⟩

theorem checkPendingType_touches {p : PendingType} (h : place p.span) :
    Touches I (checkPendingType p) := by
  refine (lookup_query p.module? p.name p.scope).touches.bind fun found => ?_
  cases found with
  | found b =>
    refine (isPlaceholder_query b).touches.bind fun placeholder => ?_
    split
    · exact .pure _
    · refine (bindingSymbol?_query b).touches.bind fun s? => ?_
      cases s? with
      | none => exact .pure _
      | some s =>
        dsimp only
        split
        · split
          · exact referIn_touches _ _ _
          · exact .pure _
        · exact error_touches h _ _
  | unknowable => exact .pure _
  | missing => exact error_touches h _ _

end Touches

/-- A step that the run with the graft takes alone. -/
theorem Touches.follow {p : Check Unit} (h : Touches (.plain head g.place) p) :
    Follow head g (Pure.pure ()) p := by
  intro env s u henv hs
  obtain ⟨htouched, hfaithful, -⟩ := h (g.moveEnv env) u ⟨henv, hs.faithful'.of_resolver rfl rfl⟩
  exact ⟨trivial, hs.touched htouched (hfaithful.of_resolver rfl rfl), .refl _⟩

theorem checkNewObject_follow {d : ObjectDecl} (hd : g.NewObject d) :
    Follow head g (pure ()) (checkObjectType d) := by
  intro env s u henv hs
  obtain ⟨-, hsymbol, hscope⟩ := hd
  have hmembers : MembersAt g.place u.table d := by
    intro name symbol hfound
    obtain ⟨id, hid, hsymbol⟩ := Option.bind_eq_some_iff.1 hfound
    rw [SymbolTable.declared?_eq_lookup] at hid
    obtain ⟨l, r, hnames, -⟩ := List.lookup_eq_some_iff.1 hid
    have hmem : (name, id) ∈ u.table.namesOf d.scope := by
      rw [hnames]
      exact List.mem_append_right l (.head _)
    obtain ⟨j, -, hj, -⟩ | hnew := hs.table.names d.scope (name, id) hmem
    · exact absurd hj.symm (hscope j)
    · exact (hs.table.added hnew hsymbol).1
  have hmoved : (g.moveEnv env).head = head := henv
  have hu : u.Faithful (g.moveEnv env) := hs.faithful'.of_resolver rfl rfl
  obtain ⟨htouched, hfaithful⟩ := checkObjectType_touched (I := .plain head g.place) ⟨hmoved, hu⟩
    (fun _ h => (hs.table.added hsymbol h).1) hmembers
  exact ⟨trivial, hs.touched htouched (hfaithful.of_resolver rfl rfl), .refl _⟩

theorem checkObjectTypes_follow : Follow head g checkObjectTypes checkObjectTypes := by
  refine .get fun env s u _ hs => ?_
  have hweave : Weave (SameObject g) g.NewObject s.objectDecls u.objectDecls := by
    refine hs.objectDecls.imp (fun d e _ hd => ⟨hd.moved, hd.name, fun hhome => ?_⟩) fun _ hd => hd
    -- the names of the graft are in no object
    refine (hs.table.home hhome).2 ?_
    rw [hs.table.kind, hd.kind]
  exact weave_follow hweave (fun _ _ hd => checkObjectType_follow hd) fun _ hd =>
    checkNewObject_follow hd

/-! ## Exports and names of types -/

theorem checkExport_follow (e : Export) : Follow head g (checkExport e) (checkExport e) := by
  refine forM_follow fun n _ => .table fun t v h => ?_
  rw [h.lookupFrom?_root]
  cases t.lookupFrom? SymbolTable.root n.name with
  | none => exact error_follow _ _ _ _
  | some id => exact refer_follow id n.span

/-- The check of a type name that is put off, once it is known what the name stands for. -/
theorem checkFoundType_follow {b b' : Binding} (hb : Binds g b b') (p : PendingType) :
    Follow head g
      (do unless ← isPlaceholder b do
            match ← bindingSymbol? b with
            | none => pure ()
            | some s =>
              if s.kind = .type then
                match b with
                | .declared id => modifyTable (·.referIn p.scope id p.span)
                | _ => pure ()
              else error .notAType p.span s!"'{p.name}' is a {s.kind.text}, not a type")
      (do unless ← isPlaceholder b' do
            match ← bindingSymbol? b' with
            | none => pure ()
            | some s =>
              if s.kind = .type then
                match b' with
                | .declared id => modifyTable (·.referIn (g.scope p.scope) id p.span)
                | _ => pure ()
              else error .notAType p.span s!"'{p.name}' is a {s.kind.text}, not a type") := by
  refine (isPlaceholder_alike hb).bind fun placeholder placeholder' hplaceholder => ?_
  subst hplaceholder
  split
  · exact .pure trivial
  · refine (bindingSymbol?_alike hb).bind fun s? s?' hs => ?_
    cases hs with
    | none => exact .pure trivial
    | some s scope havoids =>
      dsimp only
      split
      · cases hb with
        | declared id => exact Follow.modifyTable fun _ _ ht =>
            ⟨ht.referIn _ _ id _ _, ⟨.of_scopes rfl (Nat.le_refl _), rfl⟩⟩
        | external s havoids => exact .pure trivial
        | builtin => exact .pure trivial
      · exact error_follow _ _ _ _

theorem checkPendingType_follow {t : SymbolTable} {p q : PendingType} (h : g.Notes t p q) :
    Follow head g (checkPendingType p) (checkPendingType q) := by
  obtain ⟨rfl, hname, -⟩ := h
  refine (lookup_alike hname p.scope).bind fun found found' hfound => ?_
  cases hfound with
  | declared id => exact checkFoundType_follow (.declared id) p
  | external s havoids => exact checkFoundType_follow (.external s havoids) p
  | unknowable => exact .pure trivial
  | missing => exact error_follow _ _ _ _

theorem checkPendingTypes_follow : Follow head g checkPendingTypes checkPendingTypes :=
  .get fun _ _ _ _ hs => weave_follow hs.pendingTypes.reverse
    (fun _ _ h => checkPendingType_follow h) fun _ h => (checkPendingType_touches h).follow

end Check

end SimFront
