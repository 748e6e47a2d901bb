import SimFront.Proofs.Check.Noted

/-!
# Copies of copies

What a module gets from another one is a copy, in which every bare name has the other module's
name in front (`Ty.isQualified_qualify`).  Such a copy stands in the table of the module that
imports it, and a third module that imports it from there gets a copy of the copy.

No copy in the table of an analysis holds a bare name (`SymbolTable.CopiesQualified`).  That is
kept by every part of an analysis: copies are declared as they come, and the only types that are
filled in later are those of the module itself.  So the copy of a copy has the type and the origin
of the first one, whichever modules it goes through.
-/

namespace SimFront

namespace SymbolTable

variable {t t' t'' : SymbolTable}

/-- No symbol that comes from another module holds a bare name. -/
def CopiesQualified (t : SymbolTable) : Prop :=
  ∀ id symbol, t.symbol? id = some symbol → symbol.isImported → symbol.type.IsQualified

/-- A type that the module itself declares. -/
def OwnType (t : SymbolTable) (id : Nat) : Prop :=
  ∃ symbol, t.symbol? id = some symbol ∧ symbol.kind = .type ∧ symbol.origin? = none

/-- Copies hold no bare name if they held none before, and a module's types stay its own. -/
structure KeepsCopies (t t' : SymbolTable) : Prop where
  copies : t.CopiesQualified → t'.CopiesQualified
  own : ∀ id, t.OwnType id → t'.OwnType id

namespace KeepsCopies

theorem trans (h : t.KeepsCopies t') (h' : t'.KeepsCopies t'') : t.KeepsCopies t'' where
  copies hcopies := h'.copies (h.copies hcopies)
  own id hid := h'.own id (h.own id hid)

/-- The symbols are the same. -/
theorem of_symbols (hsymbols : t'.symbols = t.symbols) : t.KeepsCopies t' := by
  have hsame (id : Nat) : t'.symbol? id = t.symbol? id := by
    unfold symbol?
    rw [hsymbols]
  refine ⟨fun hcopies id symbol hsymbol => hcopies id symbol ?_, ?_⟩
  · rwa [hsame] at hsymbol
  · rintro id ⟨symbol, hsymbol, hown⟩
    exact ⟨symbol, by rw [hsame, hsymbol], hown⟩

/-- A new symbol takes the place of no type. -/
theorem define {symbol : Symbol} {id : Nat} (h : t.define symbol = .ok (id, t'))
    (hsymbol : symbol.isImported → symbol.type.IsQualified) : t.KeepsCopies t' := by
  refine ⟨fun hcopies i other hother => ?_, ?_⟩
  · rw [symbol?_defineIn h] at hother
    split at hother
    · obtain rfl := Option.some.inj hother
      exact hsymbol
    · exact hcopies i other hother
  · rintro i ⟨other, hother, hkind, hown⟩
    refine ⟨other, ?_, hkind, hown⟩
    rw [symbol?_defineIn h, if_neg ?_, hother]
    rintro rfl
    obtain ⟨-, rfl, -⟩ | ⟨previous, -, hprevious, -, hprocedure, -, -⟩ := defineIn_cases h
    · rw [symbol?, Array.getElem?_size] at hother
      cases hother
    · obtain rfl := Option.some.inj (hother.symm.trans hprevious)
      cases hkind.symm.trans hprocedure

/-- The type of a symbol of the module itself is filled in. -/
theorem retype {id : Nat} (hid : t.OwnType id) (type : Ty) :
    t.KeepsCopies (t.modifySymbol id fun symbol => { symbol with type }) := by
  obtain ⟨own, hsymbol, hkind, hown⟩ := hid
  refine ⟨fun hcopies i other hother himported => ?_, ?_⟩
  · rw [symbol?_retype] at hother
    split at hother
    · next heq =>
      rw [← heq, hsymbol] at hother
      obtain rfl := Option.some.inj hother
      rw [Symbol.isImported, hown] at himported
      cases himported
    · exact hcopies i other hother himported
  · rintro i ⟨other, hother, hkind, hown⟩
    rw [OwnType, symbol?_retype, hother]
    split
    · exact ⟨_, rfl, hkind, hown⟩
    · exact ⟨other, rfl, hkind, hown⟩

end KeepsCopies

end SymbolTable

namespace Check

variable {α β : Type} {head : ModuleHead}

/-- Every run of the step keeps copies without bare names. -/
def CopiesWell (head : ModuleHead) (p : Check α) : Prop :=
  ∀ env s, env.head = head → s.Faithful env →
    (p.outcome env s).2.Faithful env ∧ s.table.KeepsCopies (p.outcome env s).2.table

/-! ## The parts -/

/-- A step that keeps the symbols. -/
theorem CopiesWell.of_symbols {p : Check α} (hp : ∀ env s, env.head = head → s.Faithful env →
    (p.outcome env s).2.Faithful env ∧ (p.outcome env s).2.table.symbols = s.table.symbols) :
    CopiesWell head p := fun env s henv hs =>
  ⟨(hp env s henv hs).1, .of_symbols (hp env s henv hs).2⟩

theorem CopiesWell.bind {p : Check α} {f : α → Check β} (hp : CopiesWell head p)
    (hf : ∀ a, CopiesWell head (f a)) : CopiesWell head (p >>= f) := fun env s henv hs => by
  obtain ⟨hs', hkeeps⟩ := hp env s henv hs
  obtain ⟨hs'', hkeeps'⟩ := hf _ env _ henv hs'
  exact ⟨hs'', hkeeps.trans hkeeps'⟩

theorem define_copiesWell {symbol : Symbol}
    (hsymbol : symbol.isImported → symbol.type.IsQualified) :
    CopiesWell head (define symbol) := fun env s henv hs => by
  refine ⟨((define_byName symbol).faithful henv hs).1, ?_⟩
  obtain ⟨id, t, hdefine, hstate⟩ | ⟨-, x, -, -, hstate⟩ := define_outcome symbol env s
  · rw [hstate]
    exact .define hdefine hsymbol
  · rw [hstate]
    exact .of_symbols rfl

theorem copiesWell_parts : ComposesParts head fun _ p => CopiesWell head p where
  bind := .bind
  get h := fun env s => h s env s
  read h := fun env s henv => h env henv env s henv
  withReader f hf hhead hp := fun env s henv hs => by
    obtain ⟨hs', hkeeps⟩ := hp (f env) s ((hhead env).trans henv)
      (hs.of_resolver (hf env) (hhead env))
    exact ⟨hs'.of_resolver (hf env).symm (hhead env).symm, hkeeps⟩
  touch hp := .of_symbols fun env s henv hs => by
    obtain ⟨htouched, hs', -⟩ := hp env s ⟨henv, hs⟩
    obtain ⟨rs, hrs, -⟩ := htouched.table
    exact ⟨hs', by rw [hrs]⟩
  report _ := .of_symbols fun _ _ henv hs => ⟨((report_byName _).faithful henv hs).1, rfl⟩
  define hsymbol := define_copiesWell hsymbol.copy
  enter kind span := .of_symbols fun _ _ henv hs =>
    ⟨((modifyTable_byName _).faithful henv hs).1, rfl⟩
  leave := .of_symbols fun _ s henv hs => by
    obtain ⟨scope, hleave⟩ := s.table.leave_eq
    refine ⟨((modifyTable_byName _).faithful henv hs).1, ?_⟩
    show s.table.leave.symbols = _
    rw [hleave]
  aside hname hf := .of_symbols fun _ s henv hs =>
    ⟨(hname.faithful henv hs).1, congrArg SymbolTable.symbols (hf s).1⟩
  note owner? scope := .of_symbols fun env s henv hs => by
    obtain ⟨⟨htable, -⟩, hs', -⟩ := noteObject_still owner? scope env s henv hs
    exact ⟨hs', congrArg SymbolTable.symbols htable⟩

/-- A type is filled in behind its members, when it still is the module's own. -/
theorem declareType_copiesWell (d : TypeDecl) : CopiesWell head (declareType d) := by
  intro env s henv hs
  have typed : CopiesWell head (typeOfSpec (some d.name) d.type) :=
    typeOfSpec_composes copiesWell_parts.decls (some d.name) d.type
  refine ⟨((declareType_byName d).faithful henv hs).1, ?_⟩
  unfold declareType
  rw [outcome_bind]
  obtain ⟨id, t, hdefine, hstate⟩ | ⟨-, x, -, -, hstate⟩ :=
    define_outcome { name := d.name.name, kind := .type, span := d.name.span } env s
  · rw [hstate, outcome_bind]
    have hdeclared : s.table.KeepsCopies t := .define hdefine nofun
    obtain ⟨-, hfilled⟩ := typed env { s with table := t } henv (hs.of_same rfl rfl rfl)
    have hown : t.OwnType id :=
      ⟨_, (SymbolTable.symbol?_defineIn hdefine id).trans (if_pos rfl), rfl, rfl⟩
    exact (hdeclared.trans hfilled).trans (.retype (hfilled.own id hown) _)
  · -- the name is taken, and nothing gets the type
    rw [hstate, outcome_bind]
    exact (typed env { s with reports := x :: s.reports } henv (hs.of_same rfl rfl rfl)).2

theorem copiesWell_types : ComposesTypes head fun _ p => CopiesWell head p :=
  copiesWell_parts.types declareType_copiesWell

end Check

/-! ## Whole modules -/

/-- No copy in the table of an analysis holds a bare name. -/
theorem copiesQualified_after (resolver? : Option Resolver) (m : Module) :
    (analyze resolver? m).table.CopiesQualified := by
  have hchecked : Check.CopiesWell (Env.ofModule resolver? m).head (Check.checkDeclared m) :=
    Check.checkDeclared_composes Check.copiesWell_types rfl m
  obtain ⟨-, hdeclared⟩ := hchecked _ (.ofModule m) rfl (faithful_ofModule resolver? m)
  have hstart : (CheckState.ofModule m).table.CopiesQualified := fun _ _ hsymbol => by cases hsymbol
  have hafter : (CheckState.after resolver? m).table.CopiesQualified := by
    rw [table_after]
    exact (SymbolTable.KeepsCopies.of_symbols rfl).copies (hdeclared.copies hstart)
  exact hafter

/-- **Names of other modules.**  Seen from another module a type holds no bare name at any depth,
it looks the same from every further module, and the names in it that were qualified stand where
they stood.  So the copy of a copy has the type and the origin of the copy, and so has the copy of
whatever an analysed module got from another one. -/
theorem qualify_stable :
    (∀ (t : Ty) (m n : String),
      (∀ path name, (t.qualify m).at? path ≠ some (.named none name)) ∧
      (t.qualify m).qualify n = t.qualify m ∧
      ∀ path m' name, t.at? path = some (.named (some m') name) →
        (t.qualify m).at? path = some (.named (some m') name)) ∧
    (∀ (s : Symbol) (m n : String),
      ((s.copiedFrom m).copiedFrom n).type = (s.copiedFrom m).type ∧
        ((s.copiedFrom m).copiedFrom n).origin? = (s.copiedFrom m).origin?) ∧
    ∀ (resolver? : Option Resolver) (m : Module) (n : String) (id : Nat) (symbol : Symbol),
      (analyze resolver? m).table.symbol? id = some symbol → symbol.isImported →
        (symbol.copiedFrom n).type = symbol.type ∧
          (symbol.copiedFrom n).origin? = symbol.origin? := by
  have copied {s : Symbol} (himported : s.isImported) (htype : s.type.IsQualified) (n : String) :
      (s.copiedFrom n).type = s.type ∧ (s.copiedFrom n).origin? = s.origin? := by
    obtain ⟨m, hm⟩ := Option.isSome_iff_exists.1 himported
    refine ⟨Ty.qualify_of_isQualified htype, ?_⟩
    rw [Symbol.copiedFrom, hm]
    rfl
  refine ⟨fun t m n => ⟨fun path name hbare => ?_, t.qualify_qualify m n, ?_⟩, fun s m n => ?_, ?_⟩
  · exact t.isQualified_qualify m path _ hbare name rfl
  · intro path m' name hpath
    rw [Ty.at?_qualify, hpath]
    rfl
  · exact copied rfl (s.type.isQualified_qualify m) n
  · exact fun resolver? m n id symbol hsymbol himported =>
      copied himported (copiesQualified_after resolver? m id symbol hsymbol himported) n

/-- `M` imports an object type of `N`, the field of which has a type of `N`.  Who imports it from
`M` gets it as it is there. -/
theorem qualify_stable_imported : ∃ n p id symbol,
    parseText "MODULE N; TYPE T=OBJECT END; Q=OBJECT f: T END; END." .strict = .ok n ∧
    parseText "MODULE M; FROM N IMPORT Q; END." .strict = .ok p ∧
    let table := (analyze (some [("N", (CheckState.declared none n.module).table)]) p.module).table
    table.symbol? id = some symbol ∧ symbol.isImported ∧
      (symbol.type.at? [0]).bind (·.named?) = some (some "N", "T") ∧
      (symbol.copiedFrom "M").type = symbol.type ∧
      (symbol.copiedFrom "M").origin? = symbol.origin? ∧
      ((Ty.pointer (.named (some "N") "T")).qualify "M").at? [0] = some (.named (some "N") "T") := by
  have hfacts : (parseText "MODULE N; TYPE T=OBJECT END; Q=OBJECT f: T END; END."
      .strict).toOption.bind (fun n => (parseText "MODULE M; FROM N IMPORT Q; END."
      .strict).toOption.bind fun p =>
        let table := (CheckState.declared (some [("N", (CheckState.declared none n.module).table)])
          p.module).table
        (table.lookupFrom? SymbolTable.root "Q").bind fun id =>
          (table.symbol? id).map fun symbol => decide (symbol.isImported = true ∧
            (symbol.type.at? [0]).bind (·.named?) = some (some "N", "T"))) = some true := by
    decide +kernel
  obtain ⟨n, hn, hfacts⟩ := Option.bind_eq_some_iff.1 hfacts
  obtain ⟨p, hp, hfacts⟩ := Option.bind_eq_some_iff.1 hfacts
  obtain ⟨id, -, hfacts⟩ := Option.bind_eq_some_iff.1 hfacts
  obtain ⟨symbol, hsymbol, hfacts⟩ := Option.map_eq_some_iff.1 hfacts
  obtain ⟨himported, hfield⟩ := of_decide_eq_true hfacts
  obtain ⟨htypes, -, htables⟩ := qualify_stable
  have parsed {text : String} {q : Parse} (h : (parseText text .strict).toOption = some q) :
      parseText text .strict = .ok q := by
    cases hparse : parseText text .strict with
    | error e =>
      rw [hparse] at h
      cases h
    | ok q' =>
      rw [hparse] at h
      exact congrArg Except.ok (Option.some.inj h)
  have hafter : (analyze (some [("N", (CheckState.declared none n.module).table)])
      p.module).table.symbol? id = some symbol := by
    show (CheckState.after _ _).table.symbol? id = _
    rw [table_after]
    exact hsymbol
  obtain ⟨htype, horigin⟩ := htables _ p.module "M" id symbol hafter himported
  exact ⟨n, p, id, symbol, parsed hn, parsed hp, hafter, himported, hfield, htype, horigin,
    (htypes (.pointer (.named (some "N") "T")) "M" "M").2.2 [0] "N" "T" rfl⟩

end SimFront
