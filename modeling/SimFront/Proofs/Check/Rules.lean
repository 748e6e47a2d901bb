import SimFront.Proofs.Check.Noted
import SimFront.Proofs.Check.Views

/-!
# What the rules for object types report

`ObjectReport` spells out what is reported on an object type that was noted: the circle that it is
in, or else what is wrong with the methods that it declares.  Each report hangs on what is found
in one and the same state, for the rules change nothing that they look at.  An analysis reports
under the codes of the rules just this, on the object types that were noted (`rules_report`).
-/

namespace SimFront

namespace Check

open CheckState (Agrees)

variable {α : Type} {env : Env} {s : CheckState}

/-! ## The reports -/

/-- What is reported on a method of an object type: it overrides no base method, though all
bases are known; or it hides one; or it overrides one with another signature. -/
def MethodReport (env : Env) (s : CheckState) (o : ResolvedObject) (span : Span) (name : String)
    (method : MethodInfo) (x : Diagnostic) : Prop :=
  match ((baseMethod o name).outcome env s).1 with
  | none => method.isOverride = true ∧ ((chainResolved o).outcome env s).1 = true ∧
      x = .error .invalidOverride span
        s!"OVERRIDE method '{name}' of '{o.name}' has no base method to override"
  | some base => ∃ info, base.method? = some info ∧
      (method.isOverride = false ∧ x = .warning .hidesBaseMethod span
        s!"method '{name}' hides the method inherited from '{base.owner}'; declare it in an OVERRIDE section" ∨
      method.isOverride = true ∧ method.signature.overrides info.signature = false ∧
        x = ((mismatch name span method.signature base info.signature).outcome env s).1)

/-- Where a method of an object type is declared, or else its object type. -/
def methodSpan (s : CheckState) (d : ObjectDecl) (span : Span) (name : String) : Span :=
  (((s.table.declared? d.scope name).bind s.table.symbol?).map (·.span)).getD span

/-- What is reported on an object type that was noted: that it inherits from itself, or else what
is reported on its methods. -/
def ObjectReport (env : Env) (s : CheckState) (d : ObjectDecl) (x : Diagnostic) : Prop :=
  ∃ symbol info, s.table.symbol? d.symbol = some symbol ∧ symbol.type = .object info ∧
    if ((inheritsItself ⟨d.name, info, none⟩).outcome env s).1 then
      x = .error .circularInheritance symbol.span s!"object type '{d.name}' inherits from itself"
    else ∃ m ∈ info.methods,
      MethodReport env s ⟨d.name, info, none⟩ (methodSpan s d symbol.span m.1) m.1 m.2 x

theorem mismatch_code (name : String) (span : Span) (signature : Signature) (base : Member)
    (baseSignature : Signature) (env : Env) (s : CheckState) :
    ((mismatch name span signature base baseSignature).outcome env s).1.code =
      .overrideMismatch := by
  unfold mismatch
  extract_lets _ _ rest
  have reported (declared? : Option Nat) (t : CheckState) :
      ((rest declared?).outcome env t).1.code = .overrideMismatch := by
    cases declared? <;> rfl
  split
  · exact reported none s
  · exact reported _ _

theorem MethodReport.mem_methodCodes {o : ResolvedObject} {span : Span} {name : String}
    {method : MethodInfo} {x : Diagnostic} (h : MethodReport env s o span name method x) :
    x.code ∈ methodCodes := by
  unfold MethodReport at h
  split at h
  · obtain ⟨-, -, rfl⟩ := h
    exact .head _
  · obtain ⟨info, -, ⟨-, rfl⟩ | ⟨-, -, rfl⟩⟩ := h
    · exact .tail _ (.tail _ (.head _))
    · rw [mismatch_code]
      decide

/-- A report that there is no base method is made where none is found. -/
theorem MethodReport.invalidOverride {o : ResolvedObject} {span : Span} {name : String}
    {method : MethodInfo} {x : Diagnostic} (h : MethodReport env s o span name method x)
    (hcode : x.code = .invalidOverride) : ((baseMethod o name).outcome env s).1 = none ∧
      method.isOverride = true ∧ ((chainResolved o).outcome env s).1 = true ∧
      x = .error .invalidOverride span
        s!"OVERRIDE method '{name}' of '{o.name}' has no base method to override" := by
  unfold MethodReport at h
  split at h
  · next hnone => exact ⟨hnone, h⟩
  · obtain ⟨info, -, ⟨-, rfl⟩ | ⟨-, -, rfl⟩⟩ := h
    · cases hcode
    · rw [mismatch_code] at hcode
      cases hcode

theorem ObjectReport.mem_ruleCodes {d : ObjectDecl} {x : Diagnostic} (h : ObjectReport env s d x) :
    x.code ∈ ruleCodes := by
  obtain ⟨symbol, info, -, -, h⟩ := h
  split at h
  · rw [h]
    exact .head _
  · obtain ⟨m, -, h⟩ := h
    exact .tail _ h.mem_methodCodes

/-! ## Steps that report -/

/-- From every state that agrees with `s`, the step comes to such a state, and makes just the
reports that `R` says. -/
def Reports (env : Env) (s : CheckState) (R : Diagnostic → Prop) (p : Check Unit) : Prop :=
  ∀ t, t.Faithful env → s.Agrees t → (p.outcome env t).2.Faithful env ∧
    s.Agrees (p.outcome env t).2 ∧ ∀ x, x ∈ (p.outcome env t).2.reports ↔ x ∈ t.reports ∨ R x

section Steps

variable {R R' : Diagnostic → Prop} {p q : Check Unit}

theorem Reports.congr (h : Reports env s R p) (hR : ∀ x, R x ↔ R' x) : Reports env s R' p := by
  obtain rfl : R = R' := funext fun x => propext (hR x)
  exact h

theorem Reports.nothing : Reports env s (fun _ => False) (pure ()) :=
  fun _ ht hst => ⟨ht, hst, fun _ => (or_false _).symm ▸ Iff.rfl⟩

theorem Reports.report (d : Diagnostic) : Reports env s (· = d) (report d) :=
  fun _ ht hst => ⟨ht.of_same rfl rfl rfl, hst.trans ⟨⟨_, rfl⟩, rfl, rfl⟩,
    fun _ => List.mem_cons.trans or_comm⟩

theorem Reports.seq (hp : Reports env s R p) (hq : Reports env s R' q) :
    Reports env s (fun x => R x ∨ R' x) (p >>= fun _ => q) := by
  intro t ht hst
  obtain ⟨ht', hst', hreports⟩ := hp t ht hst
  obtain ⟨ht'', hst'', hreports'⟩ := hq _ ht' hst'
  refine ⟨ht'', hst'', fun x => ?_⟩
  rw [outcome_bind, hreports', hreports, or_assoc]

/-- What is found in between is what is found in `s`. -/
theorem Reports.find {p : Check α} {f : α → Check Unit} (hs : s.Faithful env)
    (hp : Touches (Standing.plain env.head fun _ => False) p) (hsees : SeesNames env p)
    (h : Reports env s R (f (p.outcome env s).1)) : Reports env s R (p >>= f) := by
  intro t ht hst
  obtain ⟨htouched, ht', -⟩ := hp env t ⟨rfl, ht⟩
  obtain ⟨more, hmore, hnone⟩ := htouched.reports
  obtain rfl : more = [] := List.eq_nil_iff_forall_not_mem.2 hnone
  rw [outcome_bind, hsees s t hs ht hst]
  obtain ⟨ht'', hst'', hreports⟩ := h _ ht' (hst.trans (.of_touched htouched))
  refine ⟨ht'', hst'', fun x => ?_⟩
  rw [hreports, hmore, List.nil_append]

/-- Uses that were recorded are not looked at. -/
theorem Reports.table {f : SymbolTable → Check Unit}
    (hsame : ∀ t rs, f { t with references := rs } = f t) (h : Reports env s R (f s.table)) :
    Reports env s R (Check.table >>= f) := by
  intro t ht hst
  obtain ⟨rs, hrs⟩ := hst.table
  have houtcome : (Check.table >>= f).outcome env t = (f s.table).outcome env t := by
    show (f t.table).outcome env t = _
    rw [hrs, hsame]
  rw [houtcome]
  exact h t ht hst

theorem forM_reports {f : α → Check Unit} {view : α → Diagnostic → Prop} {as : List α}
    (h : ∀ a ∈ as, Reports env s (view a) (f a)) :
    Reports env s (fun x => ∃ a ∈ as, view a x) (as.forM f) := by
  induction as with
  | nil => exact Reports.nothing.congr fun x => by simp
  | cons a as ih =>
    exact ((h a (.head _)).seq (ih fun b hb => h b (.tail _ hb))).congr fun x => by simp

end Steps

/-! ## The rules -/

theorem checkOverride_reports (hs : s.Faithful env) (o : ResolvedObject) (span : Span)
    (name : String) (method : MethodInfo) :
    Reports env s (MethodReport env s o span name method)
      (checkOverride o ((chainResolved o).outcome env s).1 span name method) := by
  unfold checkOverride MethodReport
  refine .find hs (baseMethod_touches o name) (baseMethod_sees o name) ?_
  cases ((baseMethod o name).outcome env s).1 with
  | none =>
    dsimp only
    split
    · next h =>
      obtain ⟨hoverride, hresolved⟩ := Bool.and_eq_true_iff.1 h
      exact (Reports.report _).congr fun x => by simp [hoverride, hresolved]
    · next h =>
      exact Reports.nothing.congr fun x => ⟨False.elim, fun ⟨hoverride, hresolved, _⟩ =>
        h (Bool.and_eq_true_iff.2 ⟨hoverride, hresolved⟩)⟩
  | some base =>
    dsimp only
    cases base.method? with
    | none => exact Reports.nothing.congr fun x => by simp
    | some info =>
      dsimp only
      cases method.isOverride with
      | false => exact (Reports.report _).congr fun x => by simp
      | true =>
        cases hsame : method.signature.overrides info.signature with
        | true => exact Reports.nothing.congr fun x => by simp [hsame]
        | false =>
          exact .find hs (mismatch_query _ _ _ _ _).touches (mismatch_sees _ _ _ _ _)
            ((Reports.report _).congr fun x => by simp [hsame])

theorem checkOverrides_reports (hs : s.Faithful env) (o : ResolvedObject) (d : ObjectDecl)
    (span : Span) (methods : List (String × MethodInfo)) :
    Reports env s
      (fun x => ∃ m ∈ methods, MethodReport env s o (methodSpan s d span m.1) m.1 m.2 x)
      (checkOverrides o ((chainResolved o).outcome env s).1 d span methods) := by
  induction methods with
  | nil => exact Reports.nothing.congr fun x => by simp
  | cons m rest ih =>
    refine .table (fun _ _ => rfl) ?_
    exact ((checkOverride_reports hs o (methodSpan s d span m.1) m.1 m.2).seq ih).congr
      fun x => by simp

theorem checkObjectType_reports (hs : s.Faithful env) (d : ObjectDecl) :
    Reports env s (ObjectReport env s d) (checkObjectType d) := by
  unfold checkObjectType ObjectReport
  refine .find hs (symbol?_query d.symbol).touches (symbol?_sees d.symbol) ?_
  have hfound : ((symbol? d.symbol).outcome env s).1 = s.table.symbol? d.symbol := rfl
  rw [hfound]
  cases s.table.symbol? d.symbol with
  | none => exact Reports.nothing.congr fun x => by simp
  | some symbol =>
    dsimp only
    split
    · next info hinfo =>
      refine .find hs (inheritsItself_touches _) (inheritsItself_sees _) ?_
      split
      · next h => exact (Reports.report _).congr fun x => by simp [hinfo, h]
      · next h =>
        refine .find hs (chainResolved_touches _) (chainResolved_sees _) ?_
        exact (checkOverrides_reports hs _ d symbol.span info.methods).congr
          fun x => by simp [hinfo, h]
    · next h =>
      refine Reports.nothing.congr fun x => ⟨False.elim, ?_⟩
      rintro ⟨_, info, ⟨⟩, hinfo, -⟩
      exact h info hinfo

theorem checkObjectTypes_reports (hs : s.Faithful env) :
    Reports env s (fun x => ∃ d ∈ s.objectDecls, ObjectReport env s d x) checkObjectTypes := by
  intro t ht hst
  have h := forM_reports (fun d (_ : d ∈ s.objectDecls) => checkObjectType_reports hs d) t ht hst
  rw [← hst.objectDecls] at h ⊢
  exact h

end Check

/-! ## Whole modules -/

open CheckState (Agrees)

/-- When the rules come, the same is declared, imported whole and noted as in the end. -/
theorem agrees_declared (resolver? : Option Resolver) (m : Module) :
    (CheckState.declared resolver? m).Faithful (.ofModule resolver? m) ∧
      (CheckState.declared resolver? m).Agrees (.after resolver? m) := by
  have hs : (CheckState.declared resolver? m).Faithful (.ofModule resolver? m) :=
    (Check.checkDeclared_opens m _ _ rfl rfl (faithful_ofModule resolver? m)).2
  obtain ⟨hs', hst, -⟩ := Check.checkObjectTypes_reports hs _ hs (.refl _)
  obtain ⟨htouched, -⟩ := Check.checkUses_touches m _ _ ⟨rfl, hs'⟩
  exact ⟨hs, hst.trans (.of_touched htouched)⟩

theorem CheckState.Noted.of_agrees {s t : CheckState} (h : s.Noted) (hst : s.Agrees t) :
    t.Noted := by
  obtain ⟨rs, hrs⟩ := hst.table
  exact h.of_symbols (by rw [hrs]) hst.objectDecls

/-- In the end, too, all object types of the module are noted. -/
theorem noted_after (resolver? : Option Resolver) (m : Module) :
    (CheckState.after resolver? m).Noted :=
  (noted_declared resolver? m).1.of_agrees (agrees_declared resolver? m).2

/-- What an analysis reports under the codes of the rules are the reports on the object types that
were noted. -/
theorem rules_report (resolver? : Option Resolver) (m : Module) (x : Diagnostic) :
    x ∈ (analyze resolver? m).diagnostics ∧ x.code ∈ Check.ruleCodes ↔
      ∃ d ∈ (CheckState.after resolver? m).objectDecls,
        Check.ObjectReport (.ofModule resolver? m) (.after resolver? m) d x := by
  obtain ⟨hs, hagrees⟩ := agrees_declared resolver? m
  obtain ⟨-, hbefore⟩ := noted_declared resolver? m
  obtain ⟨hs', hst, hreports⟩ :=
    Check.checkObjectTypes_reports (faithful_after resolver? m) _ hs hagrees.symm
  obtain ⟨htouched, -⟩ := Check.checkUses_touches m _ _ ⟨rfl, hs'⟩
  obtain ⟨more, hmore, -⟩ := htouched.reports
  -- behind the rules nothing is reported under their codes
  have hlater : ∀ y ∈ more, y ∈ (Check.checkObjectTypes.outcome (.ofModule resolver? m)
      (.declared resolver? m)).2.reports ∨ y.code ∉ Check.ruleCodes := by
    have uses : Check.NotesObjects (Env.ofModule resolver? m).head (Check.checkUses m) :=
      Check.checkUses_composes Check.notes_types m
    obtain ⟨rs, hrs⟩ := hst.table
    have htable := (reachable_after resolver? m).1.references rs
    rw [← hrs] at htable
    obtain ⟨-, -, -, huses⟩ := uses _ _ rfl hs' htable ((noted_after resolver? m).of_agrees hst)
    exact fun y hy => huses y (hmore ▸ List.mem_append_left _ hy)
  rw [mem_diagnostics]
  have hafter : (CheckState.after resolver? m).reports = more ++ _ := hmore
  rw [hafter, List.mem_append]
  constructor
  · rintro ⟨hx, hcode⟩
    have hx : x ∈ _ := hx.elim (fun hx => (hlater x hx).resolve_right fun h => h hcode) id
    exact ((hreports x).1 hx).resolve_left fun hx => hbefore x hx hcode
  · rintro ⟨d, hd, hx⟩
    exact ⟨.inr ((hreports x).2 (.inr ⟨d, hd, hx⟩)), hx.mem_ruleCodes⟩

end SimFront
