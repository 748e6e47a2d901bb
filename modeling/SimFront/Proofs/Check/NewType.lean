import SimFront.Proofs.Check.AlikeModule
import SimFront.Proofs.Check.TouchesExpr
import SimFront.Proofs.Symbol.Gained

/-!
# Declaring a type in one run alone

`CheckState.Gaining g name? env s u` says what the state `u` may have more than `s` while a
type is declared in the current scope of `s`.  `Builds head g name? home p` says that the
step `p` keeps it so; there is one lemma for each step of the checks of types.  When the
declaration is done `u` is `s` with a graft (`Gaining.grafted`).
-/

namespace SimFront

theorem Weave.exists_of_mem {α : Type} {R : α → α → Prop} {More : α → Prop} {as bs : List α}
    (h : Weave R More as bs) : ∀ a ∈ as, ∃ b, R a b := by
  induction h with
  | nil => exact List.forall_mem_nil _
  | both hab _ ih => exact List.forall_mem_cons.2 ⟨⟨_, hab⟩, ih⟩
  | more _ _ ih => exact ih

namespace CheckState

variable {g : Graft} {name? : Option String} {env : Env} {s u u' : CheckState}

/-- An object type that has come in. -/
structure NewObject (g : Graft) (s u : SymbolTable) (d : ObjectDecl) : Prop where
  name : d.name ∈ g.names
  symbol : s.symbols.size ≤ d.symbol ∧ d.symbol < u.symbols.size
  scope : s.scopes.size ≤ d.scope ∧ d.scope < u.scopes.size

structure Gaining (g : Graft) (name? : Option String) (env : Env) (s u : CheckState) : Prop where
  table : SymbolTable.Gaining g name? s.table u.table
  faithful : u.Faithful env
  reports : ∃ more, u.reports = more ++ s.reports ∧ ∀ d ∈ more, g.place d.span
  wholeImports : u.wholeImports = s.wholeImports
  unresolved : u.unresolved = s.unresolved
  placeholders : u.placeholders = s.placeholders
  pendingTypes : ∃ more, u.pendingTypes = more ++ s.pendingTypes ∧ ∀ p ∈ more, g.place p.span
  objectDecls : ∃ more, u.objectDecls = s.objectDecls ++ more ∧
    ∀ d ∈ more, NewObject g s.table u.table d
  signatures : u.signatures = s.signatures
  outParams : ∀ id, Graft.OutMatches (List.lookup id s.outParams) (List.lookup id u.outParams)

namespace Gaining

theorem refl (htable : SymbolTable.Gaining g name? s.table s.table) (hs : s.Faithful env) :
    Gaining g name? env s s where
  table := htable
  faithful := hs
  reports := ⟨[], rfl, List.forall_mem_nil _⟩
  wholeImports := rfl
  unresolved := rfl
  placeholders := rfl
  pendingTypes := ⟨[], rfl, List.forall_mem_nil _⟩
  objectDecls := ⟨[], (List.append_nil _).symm, List.forall_mem_nil _⟩
  signatures := rfl
  outParams _ := .refl _

theorem withTable {name?' : Option String} {t : SymbolTable} (h : Gaining g name? env s u)
    (ht : SymbolTable.Gaining g name?' s.table t) (hextends : u.table.Extends t) :
    Gaining g name?' env s { u with table := t } :=
  { h with
    table := ht
    faithful := h.faithful.of_same rfl rfl rfl
    objectDecls :=
      have ⟨more, hmore, hnew⟩ := h.objectDecls
      ⟨more, hmore, fun d hd =>
        ⟨(hnew d hd).name,
          ⟨(hnew d hd).symbol.1, Nat.lt_of_lt_of_le (hnew d hd).symbol.2 hextends.symbols⟩,
          ⟨(hnew d hd).scope.1, Nat.lt_of_lt_of_le (hnew d hd).scope.2 hextends.scopes⟩⟩⟩ }

theorem touched (h : Gaining g name? env s u) (htouched : u.Touched g.place u')
    (hfaithful : u'.Faithful env) : Gaining g name? env s u' where
  table := by
    obtain ⟨rs, hrs, hle⟩ := htouched.table
    rw [hrs]
    exact h.table.of_references hle
  faithful := hfaithful
  reports := by
    obtain ⟨more, hmore, hplace⟩ := h.reports
    obtain ⟨more', hmore', hplace'⟩ := htouched.reports
    refine ⟨more' ++ more, ?_, fun d hd => (List.mem_append.1 hd).elim (hplace' d) (hplace d)⟩
    rw [hmore', hmore, List.append_assoc]
  wholeImports := htouched.wholeImports.trans h.wholeImports
  unresolved := htouched.unresolved.trans h.unresolved
  placeholders := htouched.placeholders.trans h.placeholders
  pendingTypes := htouched.pendingTypes ▸ h.pendingTypes
  objectDecls := by
    obtain ⟨rs, hrs, -⟩ := htouched.table
    rw [htouched.objectDecls, hrs]
    obtain ⟨more, hmore, hnew⟩ := h.objectDecls
    exact ⟨more, hmore, fun d hd => { hnew d hd with }⟩
  signatures := htouched.signatures.trans h.signatures
  outParams id := (h.outParams id).trans (htouched.outParams id)

theorem report (h : Gaining g name? env s u) {d : Diagnostic} (hspan : g.place d.span) :
    Gaining g name? env s { u with reports := d :: u.reports } :=
  { h with
    faithful := h.faithful.of_same rfl rfl rfl
    reports :=
      have ⟨more, hmore, hplace⟩ := h.reports
      ⟨d :: more, congrArg _ hmore, List.forall_mem_cons.2 ⟨hspan, hplace⟩⟩ }

/-- A type name is put off to the end. -/
theorem note (h : Gaining g name? env s u) {p : PendingType} (hspan : g.place p.span) :
    Gaining g name? env s { u with pendingTypes := p :: u.pendingTypes } :=
  { h with
    faithful := h.faithful.of_same rfl rfl rfl
    pendingTypes :=
      have ⟨more, hmore, hplace⟩ := h.pendingTypes
      ⟨p :: more, congrArg _ hmore, List.forall_mem_cons.2 ⟨hspan, hplace⟩⟩ }

theorem noteObject (h : Gaining g name? env s u) {d : ObjectDecl}
    (hd : NewObject g s.table u.table d) :
    Gaining g name? env s { u with objectDecls := u.objectDecls ++ [d] } :=
  { h with
    faithful := h.faithful.of_same rfl rfl rfl
    objectDecls := by
      obtain ⟨more, hmore, hnew⟩ := h.objectDecls
      refine ⟨more ++ [d], ?_, fun e he => ?_⟩
      · rw [hmore, List.append_assoc]
      · rcases List.mem_append.1 he with he | he
        · exact hnew e he
        · rw [List.mem_singleton.1 he]
          exact hd }

/-- When the declaration is done, the state is the one from before with a graft. -/
theorem grafted (h : Gaining g name? env s u) (hblank : g.Blank) (hsound : s.table.Sound)
    (hs : s.Grafted g env s) (hinside : g.inside = true) (hhome : g.home? = some s.table.current)
    (hcurrent : u.table.current = s.table.current)
    (hscopes : SymbolTable.root < s.table.scopes.size) :
    s.Grafted (g.grown s.table u.table hscopes) env u where
  table := h.table.grafted hblank hsound hs.table hinside hhome hcurrent hscopes
  faithful := hs.faithful
  faithful' := h.faithful
  fits := ⟨fun c hc o ho => ⟨(hs.fits.object c hc o ho).name, (hs.fits.object c hc o ho).info⟩,
    hs.fits.result⟩
  contexts := hs.contexts
  reports x hx := by
    obtain ⟨more, hmore, hplace⟩ := h.reports
    rw [hmore] at hx
    exact (List.mem_append.1 hx).imp (hplace x) fun hx => ⟨x, hx, rfl⟩
  wholeImports := h.wholeImports
  unresolved := h.unresolved
  placeholders := by
    rw [h.placeholders]
    exact ((List.map_congr_left fun id hid => skip_lt (hs.placeholders_lt id hid)).trans
      (List.map_id _)).symm
  placeholders_lt := hs.placeholders_lt
  pendingTypes := by
    obtain ⟨more, hmore, hplace⟩ := h.pendingTypes
    rw [hmore]
    refine (Weave.all_more hplace).append (.refl fun p hp => ?_)
    obtain ⟨_, hnotes⟩ := hs.pendingTypes.exists_of_mem p hp
    refine ⟨?_, hnotes.name, hnotes.scope⟩
    exact congrArg (fun scope => { p with scope }) (skip_lt hnotes.scope).symm
  objectDecls := by
    obtain ⟨more, hmore, hnew⟩ := h.objectDecls
    rw [hmore, ← List.append_nil s.objectDecls, List.append_assoc]
    refine Weave.append (.refl fun d hd => ?_) (.all_more fun d hd => ?_)
    · obtain ⟨_, hdeclares⟩ := hs.objectDecls.exists_of_mem d hd
      refine ⟨?_, hdeclares.name, hdeclares.symbol, hdeclares.kind⟩
      show d = ⟨d.name, skip _ _ d.symbol, skip _ _ d.scope⟩
      rw [skip_lt hdeclares.symbol, skip_lt (SymbolTable.lt_of_kind? hdeclares.kind)]
    · have hsymbols := h.table.symbols
      have hscopes := h.table.scopes
      obtain ⟨hname, hsymbol, hscope⟩ := hnew d hd
      exact ⟨hname, skip_ne_iff.2 ⟨hsymbol.1, by omega⟩, skip_ne_iff.2 ⟨hscope.1, by omega⟩⟩
  signatures := h.signatures
  signatureTypes := hs.signatureTypes
  outParams id := by
    show Graft.OutMatches _ (List.lookup (skip _ _ id) u.outParams)
    by_cases hid : id < s.table.symbols.size
    · rw [skip_lt hid]
      exact h.outParams id
    · have absent {i : Nat} (hi : s.table.symbols.size ≤ i) : List.lookup i s.outParams = none :=
        List.lookup_eq_none_iff.2 fun e he => bne_iff_ne.2 fun heq =>
          Nat.not_lt.2 hi (heq ▸ hs.outs_lt e he)
      have hge := Nat.le_of_not_lt hid
      rw [absent hge, ← absent (Nat.le_add_right_of_le hge), skip_ge hge]
      exact h.outParams _
  outs_lt := hs.outs_lt

end Gaining

end CheckState

/-! ## Trees of the graft -/

/-- Reports on the tree are reports on the graft, and in the scope where the type is declared
its enumerations bring in nothing but names of the graft. -/
structure Graft.Holds (g : Graft) (home : Bool) (n : Node) : Prop where
  covers : Check.Covers g.place none n
  names : home = true → ∀ m ∈ n.preorder, ∀ v ∈ m.enumValues, v.name ∈ g.names

namespace Graft.Holds

variable {g : Graft} {home : Bool} {n c : Node}

theorem child (h : g.Holds home n) (hc : c ∈ n.children) : g.Holds home c :=
  ⟨h.covers.child hc (Node.isUse_none n c), fun hhome m hm =>
    h.names hhome m (Node.mem_preorder_of_child hc hm)⟩

theorem mapped {α : Type} {f : α → Node} {as : List α} (h : g.Holds home n)
    (hsub : as.map f ⊆ n.children) : ∀ a ∈ as, g.Holds home (f a) :=
  fun _ ha => h.child (hsub (List.mem_map_of_mem ha))

/-- A scope of its own is not the one where the type is declared. -/
theorem inner (h : g.Holds home n) : g.Holds false n := ⟨h.covers, fun hhome => nomatch hhome⟩

theorem span (h : g.Holds home n) : g.place n.span := h.covers.self n.isOn_none

end Graft.Holds

namespace Check

variable {α β : Type} {head : ModuleHead} {g : Graft} {name? : Option String} {home : Bool}

/-! ## Steps -/

/-- The current scope is the one where the type is declared, or one that has come in. -/
def At : Bool → SymbolTable → SymbolTable → Prop
  | true, t, u => u.current = t.current
  | false, t, u => t.scopes.size ≤ u.current

theorem At.of_returns {t u v : SymbolTable} (h : At home t u) (hreturns : u.Returns v) :
    At home t v := by
  cases home
  · exact Nat.le_trans h (Nat.le_of_eq hreturns.current.symm)
  · exact hreturns.current.trans h

/-- The step takes part in the declaration. -/
def Builds (head : ModuleHead) (g : Graft) (name? : Option String) (home : Bool) (p : Check α) :
    Prop :=
  ∀ env s u, env.head = head → CheckState.Gaining g name? env s u → At home s.table u.table →
    CheckState.Gaining g name? env s (p.outcome env u).2 ∧
      u.table.Returns (p.outcome env u).2.table

section Rules

variable {p : Check α}

theorem Builds.pure (a : α) : Builds head g name? home (pure a : Check α) :=
  fun _ _ u _ h _ => ⟨h, .refl u.table⟩

theorem Builds.bind {f : α → Check β} (hp : Builds head g name? home p)
    (hf : ∀ a, Builds head g name? home (f a)) : Builds head g name? home (p >>= f) := by
  intro env s u henv h hat
  obtain ⟨h', hreturns⟩ := hp env s u henv h hat
  obtain ⟨h'', hreturns'⟩ := hf (p.outcome env u).1 env s _ henv h' (hat.of_returns hreturns)
  rw [outcome_bind]
  exact ⟨h'', hreturns.trans hreturns'⟩

theorem Touches.builds (hp : Touches (.plain head g.place) p) : Builds head g name? home p := by
  intro env s u henv h _
  obtain ⟨htouched, hfaithful, -⟩ := hp env u ⟨henv, h.faithful⟩
  refine ⟨h.touched htouched hfaithful, ?_⟩
  obtain ⟨rs, hrs, -⟩ := htouched.table
  rw [hrs]
  exact ⟨.of_scopes rfl (Nat.le_refl _), rfl⟩

theorem forM_builds {f : α → Check Unit} {as : List α}
    (h : ∀ a ∈ as, Builds head g name? home (f a)) : Builds head g name? home (as.forM f) := by
  induction as with
  | nil => exact .pure ()
  | cons a as ih => exact (h a (.head _)).bind fun _ => ih fun b hb => h b (.tail _ hb)

theorem mapM_builds {f : α → Check β} {as : List α}
    (h : ∀ a ∈ as, Builds head g name? home (f a)) : Builds head g name? home (as.mapM f) := by
  induction as with
  | nil => exact .pure []
  | cons a as ih =>
    rw [List.mapM_cons]
    exact (h a (.head _)).bind fun b => (ih fun b hb => h b (.tail _ hb)).bind fun bs => .pure _

/-- A step in a scope of its own. -/
theorem inScope_builds (hp : Builds head g name? false p) (kind : ScopeKind) (span : Span) :
    Builds head g name? home (inScope kind span p) := by
  intro env s u henv h _
  have entered := h.withTable (h.table.enter kind span) (u.table.extends_enter kind span)
  obtain ⟨h', hreturns⟩ := hp env s _ henv entered h.table.scopes
  have left := h'.withTable (h'.table.leave h.table.current_lt hreturns) (SymbolTable.extends_leave _)
  exact ⟨left, SymbolTable.returns_leave hreturns⟩

theorem define_builds {symbol : Symbol} (hspan : g.place symbol.span)
    (hkind : symbol.kind ∈ [.type, .const, .field, .method])
    (hname : home = true → symbol.name ∈ g.names) : Builds head g name? home (define symbol) := by
  intro env s u _ h hat
  have hvar : symbol.kind ≠ .var ∧ symbol.kind ≠ .parameter ∧ symbol.kind ≠ .procedure := by
    refine ⟨?_, ?_, ?_⟩ <;> intro heq <;> rw [heq] at hkind <;> revert hkind <;> decide
  have hhome : u.table.current < s.table.scopes.size →
      u.table.current = s.table.current ∧ symbol.name ∈ g.names := by
    cases home
    · exact fun hlt => absurd hlt (Nat.not_lt.2 hat)
    · exact fun _ => ⟨hat, hname rfl⟩
  unfold define
  rw [outcome_bind]
  cases hdefine : u.table.define symbol with
  | error d =>
    rw [show (table.outcome env u).1.define symbol = .error d from hdefine]
    exact ⟨h.report hspan, .refl _⟩
  | ok result =>
    obtain ⟨id, t⟩ := result
    rw [show (table.outcome env u).1.define symbol = .ok (id, t) from hdefine]
    have hextends := SymbolTable.extends_defineIn hdefine
    refine ⟨h.withTable ?_ hextends, hextends, SymbolTable.current_defineIn hdefine⟩
    obtain ⟨-, -, rfl⟩ | ⟨_, -, -, -, -, hprocedure, -⟩ := SymbolTable.defineIn_cases hdefine
    · exact h.table.append hspan hvar.1 hvar.2.1 hhome
    · exact absurd hprocedure hvar.2.2

end Rules

/-! ## Types -/

theorem typeOfName_builds {q : QualIdent} (h : Covers g.place none (.qualIdent q)) :
    Builds head g name? home (typeOfName q) := by
  have hname : Covers g.place none (.ident q.name) :=
    h.child (List.mem_append_right _ (.head _)) (Node.isUse_none _ _)
  unfold typeOfName
  dsimp only
  split
  · exact .pure _
  · intro env s u _ hgaining _
    exact ⟨hgaining.note (hname.self rfl), .refl _⟩

theorem checkArrayIndex_builds {index : ArrayIndex} (h : Covers g.place none (.arrayIndex index)) :
    Builds head g name? home (checkArrayIndex index) := by
  cases index with
  | range low high span =>
    exact (checkValue_touches (.none _) (h.child (.head _) rfl)).builds.bind fun _ =>
      (checkValue_touches (.none _) (h.child (.tail _ (.head _)) rfl)).builds
  | type name =>
    exact (typeOfName_builds (h.child (.head _) (Node.isUse_none _ _))).bind fun _ => .pure _

theorem defineEnumValues_builds (owner? : Option Ident) {values : List Ident}
    (hspan : ∀ v ∈ values, g.place v.span) (hname : home = true → ∀ v ∈ values, v.name ∈ g.names) :
    Builds head g name? home (defineEnumValues owner? values) :=
  forM_builds fun v hv => (define_builds (hspan v hv) (.tail _ (.head _)) fun hhome =>
    hname hhome v hv).bind fun _ => .pure _

theorem defineFields_builds (owner? : Option Ident) (sect : SectionKind) (type : Ty)
    {names : List Ident} (hspan : ∀ n ∈ names, g.place n.span) :
    Builds head g name? false (defineFields owner? sect type names) := by
  induction names with
  | nil => exact .pure _
  | cons n ns ih =>
    refine (define_builds (hspan n (.head _)) (.tail _ (.tail _ (.head _)))
      (by intro h; cases h)).bind fun _ => ?_
    exact (ih fun n' hn => hspan n' (.tail _ hn)).bind fun _ => .pure _

theorem defineMethod_builds (owner? : Option Ident) (sect : SectionKind) (dispatch : Dispatch)
    {name : Ident} (hspan : g.place name.span) (signature : Signature) :
    Builds head g name? false (defineMethod owner? sect dispatch name signature) :=
  (define_builds hspan (.tail _ (.tail _ (.tail _ (.head _)))) (by intro h; cases h)).bind
    fun _ => .pure _

/-- The owner of members is the type that is declared, in the scope where it is. -/
def IsOwner (g : Graft) (name? : Option String) (home : Bool) (owner? : Option Ident) : Prop :=
  ∀ o, owner? = some o → home = true ∧ name? = some o.name ∧ o.name ∈ g.names

theorem IsOwner.none : IsOwner g name? home none := fun _ h => nomatch h

variable {owner? : Option Ident}

theorem noteObject_gaining (howner : IsOwner g name? home owner?) {env : Env} {s u : CheckState}
    (h : CheckState.Gaining g name? env s u) (hat : At home s.table u.table) {scope : Nat}
    (hscope : s.table.scopes.size ≤ scope ∧ scope < u.table.scopes.size) :
    CheckState.Gaining g name? env s ((noteObject owner? scope).outcome env u).2 ∧
      u.table.Returns ((noteObject owner? scope).outcome env u).2.table := by
  unfold noteObject
  cases owner? with
  | none => exact ⟨h, .refl _⟩
  | some o =>
    obtain ⟨rfl, hname, hmem⟩ := howner o rfl
    obtain ⟨id, symbol, hdeclared, hnew, hsymbol, hsame⟩ := h.table.lookup_name hname hmem
    have hlookup : u.table.lookupId? o.name = some id := by
      unfold SymbolTable.lookupId? SymbolTable.lookupFrom?
      rw [SymbolTable.enclosing_eq, List.findSome?_cons, show u.table.current = _ from hat, hdeclared]
    dsimp only
    rw [outcome_bind, show table.outcome env u = (u.table, u) from rfl]
    dsimp only
    rw [hlookup]
    dsimp only
    rw [hsymbol]
    refine ⟨h.noteObject ⟨?_, ⟨hnew, (Array.getElem?_eq_some_iff.1 hsymbol).1⟩, hscope⟩, .refl _⟩
    show symbol.name ∈ g.names
    rw [hsame]
    exact hmem

/-- The members of an object type are declared in a scope of their own, which is noted. -/
theorem objectScope_builds (howner : IsOwner g name? home owner?) (span : Span) {p : Check α}
    (hp : Builds head g name? false p) (f : α → β) : Builds head g name? home (do
      modifyTable (·.enter .object span)
      let scope ← currentScope
      let a ← p
      modifyTable (·.leave)
      noteObject owner? scope
      pure (f a)) := by
  intro env s u henv h hat
  have entered := h.withTable (h.table.enter .object span) (u.table.extends_enter .object span)
  obtain ⟨h', hreturns⟩ := hp env s _ henv entered h.table.scopes
  have left := h'.withTable (h'.table.leave h.table.current_lt hreturns) (SymbolTable.extends_leave _)
  have hback := SymbolTable.returns_leave hreturns
  have hlt : u.table.scopes.size <
      (p.outcome env { u with table := u.table.enter .object span }).2.table.leave.scopes.size := by
    refine Nat.lt_of_lt_of_le ?_ (hreturns.toExtends.trans (SymbolTable.extends_leave _)).scopes
    rw [SymbolTable.size_enter]
    exact Nat.lt_succ_self _
  have noted := noteObject_gaining howner left (hat.of_returns hback) ⟨h.table.scopes, hlt⟩
  exact ⟨noted.1, hback.trans noted.2⟩

mutual

theorem typeOfSpec_builds (home : Bool) (owner? : Option Ident) : ∀ spec : TypeSpec,
    IsOwner g name? home owner? → g.Holds home (.typeSpec spec) →
    Builds head g name? home (typeOfSpec owner? spec)
  | .named name, _, h => by
    rw [typeOfSpec]
    exact typeOfName_builds (h.child (.head _)).covers
  | .array indices element _, _, h => by
    rw [typeOfSpec]
    exact (forM_builds fun i hi => checkArrayIndex_builds
      (h.mapped (List.subset_append_left _ _) i hi).covers).bind fun _ =>
        (typeOfSpec_builds home none element .none
          (h.child (List.mem_append_right _ (.head _)))).bind fun _ => .pure _
  | .record fields span, _, h => by
    rw [typeOfSpec]
    exact (inScope_builds (fieldsOf_builds owner? .public_ fields fun f hf =>
      (h.mapped (List.Subset.refl _) f hf).inner) .record span).bind fun _ => .pure _
  | .pointer target _, _, h => by
    rw [typeOfSpec]
    exact (typeOfSpec_builds home none target .none (h.child (.head _))).bind fun _ => .pure _
  | .set element _, _, h => by
    rw [typeOfSpec]
    exact (typeOfSpec_builds home none element .none (h.child (.head _))).bind fun _ => .pure _
  | .enum values span, _, h => by
    rw [typeOfSpec]
    refine (defineEnumValues_builds owner? (fun v hv =>
      (h.mapped (List.Subset.refl _) v hv).span) fun hhome => ?_).bind fun _ => .pure _
    exact h.names hhome (.typeSpec (.enum values span)) (Node.mem_preorder_self _)
  | .subrange low high _, _, h => by
    rw [typeOfSpec]
    exact (checkExpr_yields (.none _) low (h.covers.child (.head _) rfl)).touches.builds.bind fun _ =>
      (checkValue_touches (.none _) (h.covers.child (.tail _ (.head _)) rfl)).builds.bind fun _ => .pure _
  | .procedure params result _, _, h => by
    rw [typeOfSpec]
    exact (paramsOf_builds home params (h.mapped (List.subset_append_left _ _))).bind fun _ =>
      (resultOf_builds home result fun spec hspec => h.child (List.mem_append_right _
        (List.mem_map_of_mem (Option.mem_toList.2 hspec)))).bind fun _ => .pure _
  | .object ⟨bases, sections, span⟩, howner, h => by
    rw [typeOfSpec]
    exact (mapM_builds fun q hq => typeOfName_builds
      (h.mapped (List.subset_append_left _ _) q hq).covers).bind fun _ =>
        objectScope_builds howner span (sectionsOf_builds owner? sections fun s hs =>
          (h.mapped (List.subset_append_right _ _) s hs).inner) _

theorem paramsOf_builds (home : Bool) : ∀ params : List Param, (∀ p ∈ params, g.Holds home (.param p)) →
    Builds head g name? home (paramsOf params)
  | [], _ => by
    rw [paramsOf]
    exact .pure _
  | ⟨mode, names, spec, span⟩ :: rest, h => by
    rw [paramsOf]
    exact (typeOfSpec_builds home none spec .none ((h ⟨mode, names, spec, span⟩ (.head _)).child
      (List.mem_append_right _ (.head _)))).bind fun _ =>
        (paramsOf_builds home rest fun p hp => h p (.tail _ hp)).bind fun _ => .pure _

theorem resultOf_builds (home : Bool) : ∀ spec? : Option TypeSpec,
    (∀ spec, spec? = some spec → g.Holds home (.typeSpec spec)) →
    Builds head g name? home (resultOf spec?)
  | none, _ => by
    rw [resultOf]
    exact .pure _
  | some spec, h => by
    rw [resultOf]
    exact (typeOfSpec_builds home none spec .none (h spec rfl)).bind fun _ => .pure _

theorem fieldsOf_builds (owner? : Option Ident) (sect : SectionKind) : ∀ fields : List FieldDecl,
    (∀ f ∈ fields, g.Holds false (.fieldDecl f)) →
    Builds head g name? false (fieldsOf owner? sect fields)
  | [], _ => by
    rw [fieldsOf]
    exact .pure _
  | ⟨names, spec, span⟩ :: rest, h => by
    rw [fieldsOf]
    have hfield := h ⟨names, spec, span⟩ (.head _)
    exact (typeOfSpec_builds false none spec .none
      (hfield.child (List.mem_append_right _ (.head _)))).bind fun type =>
        (defineFields_builds owner? sect type fun n hn =>
          (hfield.mapped (List.subset_append_left _ _) n hn).span).bind fun _ =>
            (fieldsOf_builds owner? sect rest fun f hf => h f (.tail _ hf)).bind fun _ => .pure _

theorem memberOf_builds (owner? : Option Ident) (sect : SectionKind) : ∀ m : ObjectMember,
    g.Holds false (Node.ofMember m) → Builds head g name? false (memberOf owner? sect m)
  | .field ⟨names, spec, _⟩, h => by
    rw [memberOf]
    exact (typeOfSpec_builds false none spec .none
      (h.child (List.mem_append_right _ (.head _)))).bind fun type =>
        (defineFields_builds owner? sect type fun n hn =>
          (h.mapped (List.subset_append_left _ _) n hn).span).bind fun _ => .pure _
  | .method ⟨dispatch, name, params, result, _⟩, h => by
    rw [memberOf]
    exact (paramsOf_builds false params
      (h.mapped fun _ hn => .tail _ (List.mem_append_left _ hn))).bind fun types =>
        (resultOf_builds false result fun spec hspec => h.child (.tail _
          (List.mem_append_right _ (List.mem_map_of_mem (Option.mem_toList.2 hspec))))).bind
            fun result => (defineMethod_builds owner? sect dispatch
              (h.child (c := .ident name) (.head _)).span _).bind fun _ => .pure _

theorem membersOf_builds (owner? : Option Ident) (sect : SectionKind) :
    ∀ members : List ObjectMember, (∀ m ∈ members, g.Holds false (Node.ofMember m)) →
    Builds head g name? false (membersOf owner? sect members)
  | [], _ => by
    rw [membersOf]
    exact .pure _
  | m :: rest, h => by
    rw [membersOf]
    exact (memberOf_builds owner? sect m (h m (.head _))).bind fun _ =>
      (membersOf_builds owner? sect rest fun m' hm' => h m' (.tail _ hm')).bind fun _ => .pure _

theorem sectionsOf_builds (owner? : Option Ident) : ∀ sections : List ObjectSection,
    (∀ s ∈ sections, g.Holds false (.objectSection s)) →
    Builds head g name? false (sectionsOf owner? sections)
  | [], _ => by
    rw [sectionsOf]
    exact .pure _
  | ⟨kind, members, span⟩ :: rest, h => by
    rw [sectionsOf]
    exact (membersOf_builds owner? kind members
      ((h ⟨kind, members, span⟩ (.head _)).mapped (List.Subset.refl _))).bind fun _ =>
        (sectionsOf_builds owner? rest fun s hs => h s (.tail _ hs)).bind fun _ => .pure _

end

/-! ## Declarations of types -/

/-- A type is declared under a name that the current scope does not know yet. -/
theorem define_gaining {env : Env} {s : CheckState} (hs : s.Faithful env)
    (hcurrent : s.table.current < s.table.scopes.size)
    (hclear : ∀ e ∈ s.table.namesOf s.table.current, e.1 ∉ g.names) {symbol : Symbol}
    (hkind : symbol.kind = .type) (hspan : g.place symbol.span) (hname : symbol.name ∈ g.names) :
    ∃ t, (define symbol).outcome env s = (some s.table.symbols.size, { s with table := t }) ∧
      CheckState.Gaining g (some symbol.name) env s { s with table := t } ∧ s.table.Returns t := by
  have hdefine : s.table.define symbol =
      .ok (s.table.symbols.size, s.table.append s.table.current symbol) := by
    unfold SymbolTable.define SymbolTable.defineIn
    have hfree : s.table.declared? s.table.current symbol.name = none := by
      rw [SymbolTable.declared?_eq_lookup]
      exact List.lookup_eq_none_iff.2 fun e he => bne_iff_ne.2 fun heq =>
        hclear e he (heq ▸ hname)
    rw [hfree]
  have hextends := s.table.extends_append s.table.current symbol
  have appended : SymbolTable.Gaining g none s.table (s.table.append s.table.current symbol) := by
    refine (SymbolTable.Gaining.refl hcurrent hclear).append hspan ?_ ?_ fun _ => ⟨rfl, hname⟩
    · rw [hkind]
      decide
    · rw [hkind]
      decide
  have named : SymbolTable.Gaining g (some symbol.name) s.table
      (s.table.append s.table.current symbol) :=
    { appended with
      declared := fun name heq => by
        obtain rfl := Option.some.inj heq
        refine ⟨(symbol.name, s.table.symbols.size), ?_, rfl⟩
        rw [SymbolTable.namesOf_append hcurrent, if_pos rfl]
        exact .head _ }
  refine ⟨_, ?_, (CheckState.Gaining.refl (.refl hcurrent hclear) hs).withTable named hextends,
    hextends, rfl⟩
  unfold define
  rw [outcome_bind, show (table.outcome env s).1.define symbol = _ from hdefine]
  rfl

/-- The declaration of a type whose name the current scope does not know yet. -/
theorem declareType_gaining {d : TypeDecl} {env : Env} (henv : env.head = head) {s : CheckState}
    (hs : s.Faithful env) (hcurrent : s.table.current < s.table.scopes.size)
    (hclear : ∀ e ∈ s.table.namesOf s.table.current, e.1 ∉ g.names)
    (hname : d.name.name ∈ g.names) (h : g.Holds true d.node) :
    CheckState.Gaining g (some d.name.name) env s ((declareType d).outcome env s).2 ∧
      s.table.Returns ((declareType d).outcome env s).2.table := by
  let symbol : Symbol := { name := d.name.name, kind := .type, span := d.name.span }
  have hspan : g.place d.name.span := (h.child (c := .ident d.name) (.head _)).span
  obtain ⟨t, hdefine, declared, hfirst⟩ : ∃ t, (define symbol).outcome env s = _ ∧ _ :=
    define_gaining hs hcurrent hclear rfl hspan hname
  have howner : IsOwner g (some d.name.name) true (some d.name) := by
    intro o ho
    obtain rfl := Option.some.inj ho
    exact ⟨rfl, rfl, hname⟩
  have hat : At true s.table t := hfirst.current
  obtain ⟨built, hreturns⟩ := typeOfSpec_builds true (some d.name) d.type howner
    (h.child (.tail _ (.head _))) env s _ henv declared hat
  unfold declareType
  rw [outcome_bind, hdefine, outcome_bind]
  exact ⟨built.withTable (built.table.retype (Nat.le_refl _) _)
      (SymbolTable.extends_modifySymbol _ _ _),
    (hfirst.trans hreturns).trans ⟨SymbolTable.extends_modifySymbol _ _ _, rfl⟩⟩

end Check

end SimFront
