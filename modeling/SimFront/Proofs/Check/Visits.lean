import SimFront.Proofs.Check.Accesses
import SimFront.Proofs.Check.Rules

/-!
# The routines that an analysis comes across

A procedure or a method with a body is checked once, in the state that the analysis is in when it
comes to it.  `visits` lists these checks with their states in order, along the recursion of the
checks of bodies; `Module.visits` are those of a whole module.  All of them start in good order
(`orderly_of_mem_visits`): other modules are known as they are, the table is one that can be built,
and the object implementations around have scopes.  What is reported by the end of a routine is
reported by the analysis of its module (`reported_of_mem_visits`).
-/

namespace SimFront

namespace Check

/-- A procedure or a method with a body. -/
structure Routine where
  kind : ScopeKind
  span : Span
  params : List Param
  signature : Signature
  locals : List Decl
  body : List Stmt

def Routine.check (r : Routine) : Check Unit :=
  inScope r.kind r.span (checkRoutine r.params r.signature r.locals (checkBodies r.locals) r.body)

/-- The check of a routine, and what it sees at its start. -/
structure Visit where
  env : Env
  state : CheckState
  routine : Routine

namespace Visit

variable (v : Visit)

/-- The scope of the routine was entered, and its parameters were declared there. -/
def opened : CheckState :=
  stateAfter v.env (defineAllParams v.routine.params v.routine.signature.params)
    (entered v.routine.kind v.routine.span v.state)

/-- The OUT parameters of the routine. -/
def outs : List Nat :=
  ((defineAllParams v.routine.params v.routine.signature.params).outcome v.env
    (entered v.routine.kind v.routine.span v.state)).1

def inside : Env := { v.env with routine? := some v.routine.signature.result }

/-- The declarations and the body follow. -/
def started : CheckState := { v.opened with outParams := v.outs.map fun id => (id, {}) }

/-- The local declarations were gone through, and the bodies among them follow. -/
def declared : CheckState := stateAfter v.inside (declareAll v.routine.locals) v.started

/-- The body was gone through. -/
def finished : CheckState :=
  stateAfter v.inside (do checkBodies v.routine.locals; checkBlock v.routine.body) v.declared

/-- The routine is done. -/
def ended : CheckState := stateAfter v.env v.routine.check v.state

/-- The reports on what the routine leaves unused. -/
def unused : List Diagnostic :=
  (v.finished.table.symbolsIn v.finished.table.current).filterMap (unusedReport? v.finished)

/-- At the end of a routine its unused symbols are reported. -/
theorem ended_eq : v.ended = { v.finished with
    table := v.finished.table.leave
    reports := v.unused.reverse ++ v.finished.reports
    outParams := v.opened.outParams } := by
  have hreported : stateAfter v.env reportAllUnused v.finished =
      { v.finished with reports := v.unused.reverse ++ v.finished.reports } := by
    unfold reportAllUnused
    rw [stateAfter, outcome_bind, outcome_forM_reportUnused]
    rfl
  rw [show v.ended = { stateAfter v.env reportAllUnused v.finished with
    table := (stateAfter v.env reportAllUnused v.finished).table.leave
    outParams := v.opened.outParams } from rfl, hreported]

end Visit

/-! ## The checks of bodies -/

/-- The routine that a procedure with a body is. -/
def procedureRoutine (s : CheckState) (heading : ProcHeading) (locals : List Decl)
    (body : List Stmt) (span : Span) : Routine :=
  { kind := .procedure, span, params := heading.params, locals, body
    signature := (List.lookup heading.span.start.offset s.signatures).getD ⟨[], none⟩ }

/-- The check of the object that an implementation is of, and whether its base types are known. -/
def implementedChain (object : Ident) : Check (Option ResolvedObject × Bool) := do
  let o? ← implementedObject object
  let resolved ← match o? with
    | some o => chainResolved o
    | none => pure false
  pure (o?, resolved)

/-- What the methods of an object implementation see around them. -/
def methodsEnv (env : Env) (object : Ident) (s : CheckState) : Env :=
  let r := (implementedChain object).outcome env s
  { env with objects := ⟨r.2.table.scopes.size, r.1.1, r.1.2⟩ :: env.objects }

/-- The check of what stands before the body of a method. -/
def methodHeading (heading : MethodHeading) : Check Signature := do
  checkMethodName heading.name
  signatureOf heading.params heading.result

/-- The routine that a method with a body is. -/
def methodRoutine (env : Env) (s : CheckState) (heading : MethodHeading) (locals : List Decl)
    (body : List Stmt) (span : Span) : Routine :=
  { kind := .method, span, params := heading.params, locals, body
    signature := ((methodHeading heading).outcome env s).1 }

mutual

/-- The routines that the check of a body comes across, from the state `s` on. -/
def visitsOf (env : Env) (s : CheckState) : Decl → List Visit
  | .procedure ⟨heading, locals, body, isForward, span⟩ =>
    if isForward then []
    else
      let v : Visit := ⟨env, s, procedureRoutine s heading locals body span⟩
      v :: visits v.inside v.declared locals
  | .objectImpl ⟨object, methods, span⟩ =>
    methodVisits (methodsEnv env object s)
      (entered .object span (stateAfter env (implementedChain object) s)) methods
  | .type _ | .const _ | .var _ => []

def visits (env : Env) (s : CheckState) : List Decl → List Visit
  | [] => []
  | d :: ds => visitsOf env s d ++ visits env (stateAfter env (checkBodyOf d) s) ds

def methodVisits (env : Env) (s : CheckState) : List MethodImpl → List Visit
  | [] => []
  | ⟨heading, locals, body, span⟩ :: rest =>
    let v : Visit := ⟨env, stateAfter env (methodHeading heading) s,
      methodRoutine env s heading locals body span⟩
    v :: (visits v.inside v.declared locals ++ methodVisits env v.ended rest)

end

/-! The visits are the checks that are run, in the states that they are run in. -/

section Runs

variable (env : Env) (s : CheckState)

theorem outcome_checkProcedure (heading : ProcHeading) (locals : List Decl) (body : List Stmt)
    (span : Span) : stateAfter env (checkBodyOf (.procedure ⟨heading, locals, body, false, span⟩)) s =
      (⟨env, s, procedureRoutine s heading locals body span⟩ : Visit).ended := by
  rw [checkBodyOf, if_neg (by decide)]
  rfl

theorem outcome_checkImpl (object : Ident) (methods : List MethodImpl) (span : Span) :
    (stateAfter env (checkBodyOf (.objectImpl ⟨object, methods, span⟩)) s).reports =
      (stateAfter (methodsEnv env object s) (checkMethods methods)
        (entered .object span (stateAfter env (implementedChain object) s))).reports := by
  rw [checkBodyOf]
  unfold methodsEnv inObject implementedChain stateAfter
  simp only [outcome_bind]
  generalize (implementedObject object).outcome env s = found
  obtain ⟨o?, t⟩ := found
  cases o? <;> rfl

theorem outcome_checkMethods (heading : MethodHeading) (locals : List Decl) (body : List Stmt)
    (span : Span) (rest : List MethodImpl) :
    stateAfter env (checkMethods (⟨heading, locals, body, span⟩ :: rest)) s =
      stateAfter env (checkMethods rest) (⟨env, stateAfter env (methodHeading heading) s,
        methodRoutine env s heading locals body span⟩ : Visit).ended := by
  rw [checkMethods]
  rfl

end Runs

/-! ## Good order -/

/-- The table is one that can be built, and the object implementations around have scopes. -/
structure Orderly (env : Env) (s : CheckState) : Prop where
  faithful : s.Faithful env
  reachable : s.table.Reachable
  objects : ∀ c ∈ env.objects, c.scope < s.table.scopes.size

section Orderly

variable {α : Type} {env : Env} {s : CheckState}

theorem Orderly.after {step : Check α} {F : List ScopeTree} (hs : Orderly env s)
    (h : Opens env.head env.resolver? F step) : Orderly env (stateAfter env step s) := by
  obtain ⟨hopened, hfaithful⟩ := h env s rfl rfl hs.faithful
  obtain ⟨hreachable, hextends, -⟩ := hopened.reachable hs.reachable
  exact ⟨hfaithful, hreachable, fun c hc => Nat.lt_of_lt_of_le (hs.objects c hc) hextends.scopes⟩

theorem Orderly.entered (hs : Orderly env s) (kind : ScopeKind) (span : Span) :
    Orderly env (entered kind span s) where
  faithful := hs.faithful.of_same rfl rfl rfl
  reachable := hs.reachable.enter kind span
  objects c hc := Nat.lt_of_lt_of_le (hs.objects c hc) (s.table.extends_enter kind span).scopes

theorem Orderly.routine (hs : Orderly env s) (result? : Option Ty) :
    Orderly { env with routine? := some result? } s :=
  ⟨hs.faithful.of_resolver rfl rfl, hs.reachable, hs.objects⟩

theorem Visit.opened_orderly {v : Visit} (h : Orderly v.env v.state) : Orderly v.env v.opened :=
  (h.entered _ _).after (defineAllParams_opens _ _)

theorem Visit.started_orderly {v : Visit} (h : Orderly v.env v.state) :
    Orderly v.inside v.started :=
  have hopened := (opened_orderly h).routine v.routine.signature.result
  ⟨hopened.faithful.of_same rfl rfl rfl, hopened.reachable, hopened.objects⟩

theorem Visit.declared_orderly {v : Visit} (h : Orderly v.env v.state) :
    Orderly v.inside v.declared := (started_orderly h).after (declareAll_opens _)

theorem Visit.ended_orderly {v : Visit} (h : Orderly v.env v.state) : Orderly v.env v.ended :=
  h.after (inScope_opens _ _ (checkRoutine_opens _ _ _ (checkBodies_opens _) _))

theorem implementedChain_opens (object : Ident) :
    Opens env.head env.resolver? [] (implementedChain object) := by
  refine (implementedObject_opens object).then fun o? => ?_
  cases o? with
  | none => exact (Opens.pure false).then fun _ => .pure _
  | some o => exact (chainResolved_still o).opens.then fun _ => .pure _

theorem methods_orderly (hs : Orderly env s) (object : Ident) (span : Span) :
    Orderly (methodsEnv env object s)
      (entered .object span (stateAfter env (implementedChain object) s)) := by
  have hentered := (hs.after (implementedChain_opens object)).entered .object span
  refine ⟨hentered.faithful.of_resolver rfl rfl, hentered.reachable, ?_⟩
  rintro c (_ | ⟨_, hc⟩)
  · exact Nat.lt_of_lt_of_eq (Nat.lt_succ_self _) (SymbolTable.size_enter _ _ _).symm
  · exact hentered.objects c hc

theorem methodHeading_opens (heading : MethodHeading) :
    Opens env.head env.resolver? (Node.signatureScopes heading.params heading.result)
      (methodHeading heading) :=
  (checkMethodName_opens heading.name).after fun _ => signatureOf_opens _ _

end Orderly

mutual

theorem visitsOf_orderly {env : Env} {s : CheckState} (hs : Orderly env s) : ∀ d : Decl,
    ∀ v ∈ visitsOf env s d, Orderly v.env v.state
  | .procedure ⟨heading, locals, body, isForward, span⟩ => by
    rw [visitsOf]
    split
    · exact List.forall_mem_nil _
    · exact List.forall_mem_cons.2 ⟨hs, visits_orderly (Visit.declared_orderly hs) locals⟩
  | .objectImpl ⟨object, methods, span⟩ => by
    rw [visitsOf]
    exact methodVisits_orderly (methods_orderly hs object span) methods
  | .type _ | .const _ | .var _ => by
    rw [visitsOf]
    exact List.forall_mem_nil _

theorem visits_orderly {env : Env} {s : CheckState} (hs : Orderly env s) : ∀ ds : List Decl,
    ∀ v ∈ visits env s ds, Orderly v.env v.state
  | [] => by
    rw [visits]
    exact List.forall_mem_nil _
  | d :: ds => by
    rw [visits]
    exact List.forall_mem_append.2
      ⟨visitsOf_orderly hs d, visits_orderly (hs.after (checkBodyOf_opens d)) ds⟩

theorem methodVisits_orderly {env : Env} {s : CheckState} (hs : Orderly env s) :
    ∀ methods : List MethodImpl, ∀ v ∈ methodVisits env s methods, Orderly v.env v.state
  | [] => by
    rw [methodVisits]
    exact List.forall_mem_nil _
  | ⟨heading, locals, body, span⟩ :: rest => by
    rw [methodVisits]
    have hheading := hs.after (methodHeading_opens heading)
    exact List.forall_mem_cons.2 ⟨hheading, List.forall_mem_append.2
      ⟨visits_orderly (Visit.declared_orderly hheading) locals,
        methodVisits_orderly (Visit.ended_orderly (v := ⟨env, _, _⟩) hheading) rest⟩⟩

end

/-! ## Reports are kept -/

/-- No run of the step takes a report back. -/
def KeepsReports {α : Type} (head : ModuleHead) (p : Check α) : Prop :=
  ∀ env s, env.head = head → s.Faithful env →
    (stateAfter env p s).Faithful env ∧ s.reports ⊆ (stateAfter env p s).reports

section KeepsReports

variable {α : Type} {head : ModuleHead} {p : Check α}

/-- A step that reports nothing. -/
theorem keeps_unreported (hname : ByName head p)
    (h : ∀ env s, (stateAfter env p s).reports = s.reports) : KeepsReports head p :=
  fun env s henv hs => ⟨(hname.faithful henv hs).1, h env s ▸ List.Subset.refl _⟩

theorem define_keeps (symbol : Symbol) : KeepsReports head (define symbol) := by
  refine fun env s henv hs => ⟨((define_byName symbol).faithful henv hs).1, ?_⟩
  unfold stateAfter
  obtain ⟨_, _, -, hstate⟩ | ⟨-, _, -, -, hstate⟩ := define_outcome symbol env s
  · rw [hstate]
    exact List.Subset.refl _
  · rw [hstate]
    exact List.subset_cons_self _ _

theorem noteObject_keeps (owner? : Option Ident) (scope : Nat) :
    KeepsReports head (noteObject owner? scope) := by
  refine keeps_unreported (noteObject_byName owner? scope) fun env s => ?_
  unfold noteObject
  cases owner? with
  | none => rfl
  | some o =>
    rw [stateAfter, outcome_bind]
    split <;> rfl

theorem keeps_parts : ComposesParts head fun _ p => KeepsReports head p where
  bind hp hf := by
    intro env s henv hs
    obtain ⟨hs', hkept⟩ := hp env s henv hs
    obtain ⟨hs'', hkept'⟩ := hf _ env _ henv hs'
    exact ⟨hs'', List.Subset.trans hkept hkept'⟩
  get h := fun env s => h s env s
  read h := fun env s henv => h env henv env s henv
  withReader f hf hhead hp := by
    intro env s henv hs
    obtain ⟨hs', hkept⟩ :=
      hp (f env) s ((hhead env).trans henv) (hs.of_resolver (hf env) (hhead env))
    exact ⟨hs'.of_resolver (hf env).symm (hhead env).symm, hkept⟩
  touch hp := by
    intro env s henv hs
    obtain ⟨htouched, hs', -⟩ := hp env s ⟨henv, hs⟩
    obtain ⟨more, hmore, -⟩ := htouched.reports
    exact ⟨hs', fun d hd => hmore ▸ List.mem_append_right more hd⟩
  report _ := fun env s henv hs =>
    ⟨((report_byName _).faithful henv hs).1, List.subset_cons_self _ _⟩
  define _ := define_keeps _
  enter kind span := keeps_unreported (modifyTable_byName _) fun _ _ => rfl
  leave := keeps_unreported (modifyTable_byName _) fun _ _ => rfl
  aside hname hf := keeps_unreported hname fun _ s => (hf s).2.1
  note := noteObject_keeps

theorem declareType_keeps (d : TypeDecl) : KeepsReports head (declareType d) := by
  have h : ComposesParts head fun _ p => KeepsReports head p := keeps_parts
  refine h.bind (define_keeps _) fun id? =>
    h.bind (typeOfSpec_composes h.decls (some d.name) d.type) fun type => ?_
  cases id? with
  | none => exact h.pure _
  | some id => exact keeps_unreported (modifyTable_byName _) fun _ _ => rfl

theorem keeps_types : ComposesTypes head fun _ p => KeepsReports head p :=
  keeps_parts.types declareType_keeps

end KeepsReports

/-- What the bodies inside a routine report is reported by its end. -/
theorem Visit.reported_ended {v : Visit} (hv : Orderly v.env v.state) :
    (stateAfter v.inside (checkBodies v.routine.locals) v.declared).reports ⊆ v.ended.reports := by
  have hbodies := (Visit.declared_orderly hv).after (checkBodies_opens v.routine.locals)
  obtain ⟨-, hkept⟩ := checkBlock_composes keeps_types.toComposes v.routine.body _ _ rfl
    hbodies.faithful
  rw [v.ended_eq]
  exact List.Subset.trans hkept (List.subset_append_right _ _)

mutual

theorem visitsOf_reported {env : Env} {s : CheckState} (hs : Orderly env s) : ∀ d : Decl,
    ∀ v ∈ visitsOf env s d, v.ended.reports ⊆ (stateAfter env (checkBodyOf d) s).reports
  | .procedure ⟨heading, locals, body, isForward, span⟩ => by
    rw [visitsOf]
    split
    · exact List.forall_mem_nil _
    · next hbody =>
      obtain rfl := Bool.eq_false_iff.2 hbody
      rw [outcome_checkProcedure]
      let w : Visit := ⟨env, s, procedureRoutine s heading locals body span⟩
      have hinside := visits_reported (Visit.declared_orderly (v := w) hs) locals
      exact List.forall_mem_cons.2 ⟨List.Subset.refl _, fun v hv =>
        List.Subset.trans (hinside v hv) (Visit.reported_ended (v := w) hs)⟩
  | .objectImpl ⟨object, methods, span⟩ => by
    rw [visitsOf, outcome_checkImpl]
    exact methodVisits_reported (methods_orderly hs object span) methods
  | .type _ | .const _ | .var _ => by
    rw [visitsOf]
    exact List.forall_mem_nil _

theorem visits_reported {env : Env} {s : CheckState} (hs : Orderly env s) : ∀ ds : List Decl,
    ∀ v ∈ visits env s ds, v.ended.reports ⊆ (stateAfter env (checkBodies ds) s).reports
  | [] => by
    rw [visits]
    exact List.forall_mem_nil _
  | d :: ds => by
    have hfirst := hs.after (checkBodyOf_opens d)
    obtain ⟨-, hkept⟩ := checkBodies_composes keeps_types ds env _ rfl hfirst.faithful
    rw [visits, checkBodies]
    exact List.forall_mem_append.2
      ⟨fun v hv => List.Subset.trans (visitsOf_reported hs d v hv) hkept, visits_reported hfirst ds⟩

theorem methodVisits_reported {env : Env} {s : CheckState} (hs : Orderly env s) :
    ∀ methods : List MethodImpl, ∀ v ∈ methodVisits env s methods,
      v.ended.reports ⊆ (stateAfter env (checkMethods methods) s).reports
  | [] => by
    rw [methodVisits]
    exact List.forall_mem_nil _
  | ⟨heading, locals, body, span⟩ :: rest => by
    have hheading := hs.after (methodHeading_opens heading)
    let v : Visit := ⟨env, stateAfter env (methodHeading heading) s,
      methodRoutine env s heading locals body span⟩
    have hinside := visits_reported (Visit.declared_orderly (v := v) hheading) locals
    have hended : Orderly env v.ended := Visit.ended_orderly (v := v) hheading
    obtain ⟨-, hkept⟩ := checkMethods_composes keeps_types rest env v.ended rfl hended.faithful
    rw [methodVisits, outcome_checkMethods]
    exact List.forall_mem_cons.2 ⟨hkept, List.forall_mem_append.2
      ⟨fun w hw => List.Subset.trans (List.Subset.trans (hinside w hw)
        (Visit.reported_ended (v := v) hheading)) hkept, methodVisits_reported hended rest⟩⟩

end

end Check

/-- The routines that the analysis of a module comes across. -/
def Module.visits (resolver? : Option Resolver) (m : Module) : List Check.Visit :=
  Check.visits (.ofModule resolver? m)
    (Check.stateAfter (.ofModule resolver? m) (do Check.checkFront m; Check.declareAll m.decls)
      (.ofModule m)) m.decls

/-- The analysis is in good order when it comes to the bodies. -/
theorem orderly_bodies (resolver? : Option Resolver) (m : Module) :
    Check.Orderly (.ofModule resolver? m) (Check.stateAfter (.ofModule resolver? m)
      (do Check.checkFront m; Check.declareAll m.decls) (.ofModule m)) := by
  have hstart : Check.Orderly (.ofModule resolver? m) (.ofModule m) :=
    ⟨faithful_ofModule resolver? m, .new m.name.name m.span, List.forall_mem_nil _⟩
  exact hstart.after ((Check.checkFront_opens m).after fun _ => Check.declareAll_opens m.decls)

theorem orderly_of_mem_visits {resolver? : Option Resolver} {m : Module} {v : Check.Visit}
    (hv : v ∈ m.visits resolver?) : Check.Orderly v.env v.state :=
  Check.visits_orderly (orderly_bodies resolver? m) m.decls v hv

/-- The reports up to the end of a routine are among the diagnostics of its module. -/
theorem reported_of_mem_visits {resolver? : Option Resolver} {m : Module} {v : Check.Visit}
    (hv : v ∈ m.visits resolver?) : v.ended.reports ⊆ (analyze resolver? m).diagnostics := by
  have hbodies : v.ended.reports ⊆ (CheckState.declared resolver? m).reports :=
    Check.visits_reported (orderly_bodies resolver? m) m.decls v hv
  obtain ⟨hs, hagrees⟩ := agrees_declared resolver? m
  obtain ⟨hs', -, hrules⟩ := Check.checkObjectTypes_reports hs _ hs (.refl _)
  obtain ⟨-, huses⟩ := Check.checkUses_composes Check.keeps_types m _ _ rfl hs'
  exact fun d hd => mem_diagnostics.2 (huses ((hrules d).2 (.inl (hbodies hd))))

end SimFront
