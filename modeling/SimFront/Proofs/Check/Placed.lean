import SimFront.Proofs.Check.ModuleScopes
import SimFront.Proofs.Check.References
import SimFront.Proofs.Grammar.ModuleNodes
import SimFront.Proofs.Symbol.Placed

/-!
# Where an analysis puts scopes and symbols

Scopes are opened at nodes of the tree and symbols are declared at nodes of the tree, each
below the node of the scope that is current at the time.  So an analysis of a tree whose
nodes cover their children keeps the table well placed and comes back to the scope that it
started from (`Recorded.placed`), although routine bodies are analysed long after their
headings.  For the text of a module that strict mode reads this gives the place of every
scope and symbol (`table_placed`).

In the table of such a text the search for the scope at a token comes to a scope within every one
that the token stands in (`scopeAt_within`).  A position at the end of a scope still counts as
inside, so this leaves out the first token of a scope that begins at the very position where
another one ends.
-/

namespace SimFront

open CheckState (Recorded)

namespace CheckState

variable {U V : Multiset Node} {s s' : CheckState}

/-- The nodes are parts of a tree, and lie within the current scope. -/
structure InScope (s : CheckState) (U : Multiset Node) : Prop where
  nested : ∀ n ∈ U, Nested n
  within : ∀ n ∈ U, s.table.Within s.table.current n.span

theorem InScope.of_le (h : s.InScope U) (hle : V ≤ U) : s.InScope V where
  nested n hn := h.nested n (Multiset.mem_of_le hle hn)
  within n hn := h.within n (Multiset.mem_of_le hle hn)

/-- What happened to a table that came back to the scope it was in. -/
structure Returned (t t' : SymbolTable) : Prop where
  placed : t'.Placed
  keeps : t.KeepsScopes t'
  current : t'.current = t.current

theorem Returned.trans {t t' t'' : SymbolTable} (h : Returned t t') (h' : Returned t' t'') :
    Returned t t'' :=
  ⟨h'.placed, h.keeps.trans h'.keeps, h'.current.trans h.current⟩

theorem returned_defineIn {t t' : SymbolTable} {symbol : Symbol} {scope id : Nat} (h : t.Placed)
    (hspan : t.Within scope symbol.span) (hdefine : t.defineIn scope symbol = .ok (id, t')) :
    Returned t t' :=
  ⟨h.defineIn hspan hdefine, SymbolTable.keepsScopes_defineIn hdefine,
    SymbolTable.current_defineIn hdefine⟩

theorem InScope.of_returned (h : s.InScope U) (hreturned : Returned s.table s'.table) :
    s'.InScope U where
  nested := h.nested
  within n hn := by
    rw [hreturned.current]
    exact (h.within n hn).mono hreturned.keeps

namespace Recorded

/-- Whatever is recorded at nodes of the current scope, the table stays well placed, and the
current scope is current again. -/
theorem placed (h : Recorded U s s') (hplaced : s.table.Placed) (hU : s.InScope U) :
    Returned s.table s'.table := by
  induction h with
  | @quiet s s' hquiet =>
    rw [hquiet.1]
    exact ⟨hplaced, .refl _, rfl⟩
  | note s p => exact ⟨hplaced, .refl _, rfl⟩
  | @declare s i symbol id t _ hspan hdefine =>
    have hwithin : s.table.Within s.table.current symbol.span := by
      rw [hspan]
      exact hU.within (.ident i) (Multiset.mem_singleton.2 rfl)
    exact returned_defineIn hplaced hwithin hdefine
  | @value U s s' item symbol id t _ hitem _ hspan hdefine ih =>
    have hreturned := ih hplaced hU
    have hU' := hU.of_returned hreturned
    have hwithin : s'.table.Within s'.table.current symbol.span := by
      rw [hspan]
      cases hU.nested _ hitem with
      | mk _ covers _ =>
        exact (hU'.within _ hitem).trans (covers (.ident item.name) List.mem_cons_self)
    exact hreturned.trans (returned_defineIn hreturned.placed hwithin hdefine)
  | refer scope _ => exact ⟨⟨hplaced.scope, hplaced.symbol, hplaced.owned⟩, .refl _, rfl⟩
  | retype s id type =>
    exact ⟨hplaced.modifySymbol id (fun _ => rfl) fun _ => rfl, .refl _, rfl⟩
  | @scope U s s' kind n hbelow _ ih =>
    have hn : n ∈ n ::ₘ U := Multiset.mem_cons_self n U
    have hentered := hplaced.enter kind (hU.within n hn)
    have hnew := s.table.scope?_enter_new kind n.span
    -- inside the new scope the nodes lie within the node that it was opened at
    have hinside : InScope { s with table := s.table.enter kind n.span } U :=
      ⟨fun m hm => hU.nested m (Multiset.mem_cons_of_mem hm),
        fun m hm => ⟨_, hnew, (hU.nested n hn).covers_preorder m (hbelow m hm)⟩⟩
    have hreturned := ih hentered hinside
    obtain ⟨sc, hsc, -, hparent⟩ := hreturned.keeps _ _ hnew
    have hleave := SymbolTable.leave_of_parent (hreturned.current ▸ hsc) hparent
    have hplaced' := hreturned.placed
    refine ⟨?_, ?_, ?_⟩
    all_goals dsimp only; rw [hleave]
    · exact ⟨hplaced'.scope, hplaced'.symbol, hplaced'.owned⟩
    · exact (s.table.keepsScopes_enter kind n.span).trans hreturned.keeps
  | @seq U V s s' s'' _ _ ih ih' =>
    have hreturned := ih hplaced (hU.of_le (Multiset.le_add_right U V))
    have hrest := (hU.of_le (Multiset.le_add_left V U)).of_returned hreturned
    exact hreturned.trans (ih' hreturned.placed hrest)
  | weaken _ hle ih => exact ih hplaced (hU.of_le hle)

end Recorded

end CheckState

/-! ## The table of a module -/

/-- The type names that are put off in the analysis of a module are identifiers of its tree. -/
theorem CheckState.Recorded.pending_names {m : Module} {s : CheckState}
    (h : Recorded (Node.all [.module m]) (.ofModule m) s) :
    ∀ p ∈ s.pendingTypes, Node.ident p.ident ∈ (Node.module m).preorder := by
  intro p hp
  have hnamed : (CheckState.ofModule m).table.Named := SymbolTable.named_new m.name.name m.span
  have hle : s.pending ≤ Node.names [.module m] := by
    have huses := h.uses_le hnamed
    have hstart : (CheckState.ofModule m).table.uses + (CheckState.ofModule m).pending = 0 := rfl
    rw [hstart, zero_add] at huses
    exact le_trans (Multiset.le_add_left _ _) huses
  have hname : p.ident ∈ Node.names [.module m] :=
    Multiset.mem_of_le hle (Multiset.mem_coe.2 (List.mem_map_of_mem hp))
  obtain ⟨n, hn, hident⟩ := (Multiset.mem_filterMap _ _).1 hname
  cases n <;> cases hident
  exact Node.mem_all_singleton.1 hn

/-- The analysis of a module whose nodes cover their children ends in the module's own scope,
with a well placed table. -/
theorem returned_after (resolver? : Option Resolver) {m : Module} (hm : Nested (.module m)) :
    CheckState.Returned (CheckState.ofModule m).table (CheckState.after resolver? m).table := by
  obtain ⟨s, hparts, hpending⟩ := recorded_after resolver? m
  have hstart : (CheckState.ofModule m).table.Placed := SymbolTable.placed_new m.name.name m.span
  have within : ∀ n ∈ (Node.module m).preorder,
      (CheckState.ofModule m).table.Within SymbolTable.root n.span := fun n hn =>
    (SymbolTable.within_new m.name.name m.span).trans (hm.covers_preorder n hn)
  have hreturned := hparts.placed hstart
    ⟨fun n hn => hm.of_preorder n (Node.mem_all_singleton.1 hn),
      fun n hn => within n (Node.mem_all_singleton.1 hn)⟩
  -- at the end the type names that were put off are looked up from the module's own scope
  have hlate : (CheckState.ofModule m).InScope
      (Node.all (s.pendingTypes.reverse.map Check.pendingNode)) := by
    have inTree : ∀ n ∈ Node.all (s.pendingTypes.reverse.map Check.pendingNode),
        n ∈ (Node.module m).preorder := by
      intro n hn
      obtain ⟨n', hn', hbelow⟩ := List.mem_flatMap.1 (Multiset.mem_coe.1 hn)
      obtain ⟨p, hp, rfl⟩ := List.mem_map.1 hn'
      have hn : n ∈ Node.all [.ident p.ident] := Node.mem_all_singleton.2 hbelow
      rw [Node.all_ident, Multiset.mem_singleton] at hn
      rw [hn]
      exact hparts.pending_names p (List.mem_reverse.1 hp)
    exact ⟨fun n hn => hm.of_preorder n (inTree n hn), fun n hn => within n (inTree n hn)⟩
  exact hreturned.trans (hpending.placed hreturned.placed (hlate.of_returned hreturned))

/-- **Placement.**  In the table of a text that strict mode reads the module's own scope is
current again and has the module's span; every other scope lies within the scope around it;
every symbol, imported copies included, lies within the scope that it is declared in; and the
names of a scope stand for symbols of that scope. -/
theorem table_placed {text : String} {p : Parse} (h : parseText text .strict = .ok p)
    (resolver? : Option Resolver) :
    let t := (analyze resolver? p.module).table
    t.current = SymbolTable.root ∧
    (∃ sc, t.scope? SymbolTable.root = some sc ∧ sc.parent? = none ∧ sc.span = p.module.span) ∧
    (∀ i sc, t.scope? i = some sc → i ≠ SymbolTable.root → ∃ q parent, sc.parent? = some q ∧
      t.scope? q = some parent ∧ parent.span.containsSpan sc.span) ∧
    (∀ id s, t.symbol? id = some s → ∃ sc, t.scope? s.scope = some sc ∧
      sc.span.containsSpan s.span) ∧
    ∀ i sc, t.scope? i = some sc → ∀ e ∈ sc.names, ∃ s, t.symbol? e.2 = some s ∧ s.scope = i := by
  intro t
  have hnested : Nested (.module p.module) := by
    obtain ⟨s', hbuilt, -⟩ := built_of_parse h
    exact (hbuilt.nested _ (List.mem_singleton.2 rfl)).1
  obtain ⟨hplaced, hkeeps, hcurrent⟩ := returned_after resolver? hnested
  obtain ⟨sc, hsc, hspan, hparent⟩ := hkeeps SymbolTable.root _ rfl
  refine ⟨hcurrent, ⟨sc, hsc, hparent, hspan⟩, fun i sc hsc hne => ?_, fun id s hs => ?_,
    fun i sc hsc => hplaced.owned hsc⟩
  · obtain ⟨q, hq, parent, hfound, hcovers⟩ := hplaced.scope hsc hne
    exact ⟨q, parent, hq, hfound, hcovers⟩
  · exact hplaced.symbol hs

/-- A record in the heading of a procedure, and the values of an imported enumeration. -/
theorem table_placed_nested : ∃ p q,
    parseText "MODULE M; FROM N IMPORT ALL C; PROCEDURE P(IN r: RECORD k: CHAR END); BEGIN END; END."
      .strict = .ok p ∧
    parseText "DEFINITION MODULE N; TYPE C = (red, green); END." .strict = .ok q ∧
    let t := (analyze (some [("N", (analyze none q.module).table)]) p.module).table
    t.scopes.size = 3 ∧ t.symbols.size = 7 ∧ t.current = SymbolTable.root ∧
    (∀ i sc, t.scope? i = some sc → i ≠ SymbolTable.root → ∃ q parent, sc.parent? = some q ∧
      t.scope? q = some parent ∧ parent.span.containsSpan sc.span) ∧
    ∀ id s, t.symbol? id = some s → ∃ sc, t.scope? s.scope = some sc ∧
      sc.span.containsSpan s.span := by
  have hsizes : ((parseText
      "MODULE M; FROM N IMPORT ALL C; PROCEDURE P(IN r: RECORD k: CHAR END); BEGIN END; END."
      .strict).toOption.bind fun p =>
      (parseText "DEFINITION MODULE N; TYPE C = (red, green); END." .strict).toOption.map fun q =>
      let t := (analyze (some [("N", (analyze none q.module).table)]) p.module).table
      (t.scopes.size, t.symbols.size)) = some (3, 7) := by
    decide +kernel
  cases hp : parseText
      "MODULE M; FROM N IMPORT ALL C; PROCEDURE P(IN r: RECORD k: CHAR END); BEGIN END; END."
      .strict with
  | error e =>
    rw [hp] at hsizes
    cases hsizes
  | ok p =>
    cases hq : parseText "DEFINITION MODULE N; TYPE C = (red, green); END." .strict with
    | error e =>
      rw [hp, hq] at hsizes
      cases hsizes
    | ok q =>
      rw [hp, hq] at hsizes
      obtain ⟨hscopes, hsymbols⟩ := Prod.mk.inj (Option.some.inj hsizes)
      obtain ⟨hcurrent, -, hscope, hsymbol, -⟩ :=
        table_placed hp (some [("N", (analyze none q.module).table)])
      exact ⟨p, q, rfl, rfl, hscopes, hsymbols, hcurrent, hscope, hsymbol⟩

/-! ## Scopes at tokens -/

/-- The tree of scopes of a text that strict mode reads: none lies over a later one, and all
start and end at positions of the text. -/
theorem parse_scopeTree {text : String} {q : Parse} (h : parseText text .strict = .ok q) :
    q.module.scopeTree.Tidy ∧ ∀ s ∈ q.module.scopeTree.spans,
      InText text.toList s.start ∧ InText text.toList s.stop := by
  obtain ⟨s', hbuilt, -⟩ := built_of_parse h
  have hmem : Node.module q.module ∈ [Node.module q.module] := List.mem_singleton.2 rfl
  refine ⟨Module.scopeTree_tidy (hbuilt.nested _ hmem).1 (hbuilt.sequenced _ hmem), fun s hs => ?_⟩
  obtain ⟨k, hk, rfl⟩ := q.module.scopeTree_marks s
    (ScopeTree.mem_allSpans.2 ⟨_, List.mem_singleton.2 rfl, hs⟩)
  exact parse_inText h k hk

/-- **Scopes at tokens.**  The scope that is found at the start of a token lies within every scope
that starts there or before and ends behind it, but for a scope that starts just where one ends. -/
theorem scopeAt_within {text : String} {q : Parse} (h : parseText text .strict = .ok q)
    (resolver? : Option Resolver) {tok : Token} (htok : tok ∈ tokenize text) {i : Nat} {sc : Scope}
    (hsc : (analyze resolver? q.module).table.scope? i = some sc)
    (hstart : sc.span.start ≤ tok.span.start) (hstop : tok.span.start < sc.span.stop)
    (hfree : sc.span.start = tok.span.start → ∀ j other,
      (analyze resolver? q.module).table.scope? j = some other → other.span.stop ≠ tok.span.start) :
    ∃ found, (analyze resolver? q.module).table.scope?
        ((analyze resolver? q.module).table.scopeAt tok.span.start) = some found ∧
      sc.span.containsSpan found.span := by
  obtain ⟨htidy, hmarks⟩ := parse_scopeTree h
  have hreachable := (reachable_after resolver? q.module).1
  have hconsistent : (analyze resolver? q.module).table.Consistent := hreachable.consistent
  have hshows : (analyze resolver? q.module).table.Shows q.module.scopeTree SymbolTable.root :=
    shows_after resolver? q.module
  have hp : InText text.toList tok.span.start := (Laid.slice [] (laid_tokenize text) tok htok).1
  have hroot := hconsistent.root_mem_enclosing (SymbolTable.lt_of_scope? hsc)
  have hwithin : sc.span.containsSpan (q.module.scopeTree.locate tok.span.start) := by
    refine htidy.locate (InText.apart text.toList) hp hmarks
      (hshows.mem_spans hconsistent hroot hsc) hstart hstop fun hat s hs => ?_
    obtain ⟨j, other, hother, rfl⟩ := SymbolTable.Shows.exists_scope _ _ hshows s hs
    exact hfree hat j other hother
  obtain ⟨found, hfound, hspan⟩ := SymbolTable.Shows.scopeAtFrom hconsistent hreachable.preordered
    tok.span.start _ _ hshows
  exact ⟨found, hfound, hspan ▸ hwithin⟩

/-- Two procedures with a blank between them: the first token of the second one is in its scope. -/
theorem scopeAt_within_second : ∃ q tok sc found,
    parseText "MODULE M; PROCEDURE P(IN r: RECORD k: CHAR END); BEGIN END; PROCEDURE Q; BEGIN END; END."
      .strict = .ok q ∧
    tok ∈ tokenize
      "MODULE M; PROCEDURE P(IN r: RECORD k: CHAR END); BEGIN END; PROCEDURE Q; BEGIN END; END." ∧
    let t := (analyze none q.module).table
    t.scope? 3 = some sc ∧ sc.span.start = tok.span.start ∧ tok.span.start < sc.span.stop ∧
    (∀ j other, t.scope? j = some other → other.span.stop ≠ tok.span.start) ∧
    t.scope? (t.scopeAt tok.span.start) = some found ∧ sc.span.containsSpan found.span := by
  have hfacts : ((parseText
      "MODULE M; PROCEDURE P(IN r: RECORD k: CHAR END); BEGIN END; PROCEDURE Q; BEGIN END; END."
      .strict).toOption.bind fun q => (tokenize
      "MODULE M; PROCEDURE P(IN r: RECORD k: CHAR END); BEGIN END; PROCEDURE Q; BEGIN END; END."
      )[19]?.bind fun tok => ((analyze none q.module).table.scope? 3).map fun sc =>
        decide (sc.span.start = tok.span.start ∧ tok.span.start < sc.span.stop ∧
          ∀ other ∈ (analyze none q.module).table.scopes.toList,
            other.span.stop ≠ tok.span.start)) = some true := by
    decide +kernel
  cases hparse : parseText
      "MODULE M; PROCEDURE P(IN r: RECORD k: CHAR END); BEGIN END; PROCEDURE Q; BEGIN END; END."
      .strict with
  | error e =>
    rw [hparse] at hfacts
    cases hfacts
  | ok q =>
    rw [hparse] at hfacts
    obtain ⟨_, ⟨⟩, hfacts⟩ := Option.bind_eq_some_iff.1 hfacts
    obtain ⟨tok, htok, hfacts⟩ := Option.bind_eq_some_iff.1 hfacts
    obtain ⟨sc, hsc, hfacts⟩ := Option.map_eq_some_iff.1 hfacts
    obtain ⟨hstart, hstop, hends⟩ := of_decide_eq_true hfacts
    have htok := List.mem_of_getElem? htok
    have hfree : ∀ j other, (analyze none q.module).table.scope? j = some other →
        other.span.stop ≠ tok.span.start := fun j other hother =>
      hends other (Array.mem_toList_iff.2 (Array.mem_of_getElem? hother))
    obtain ⟨found, hfound, hwithin⟩ := scopeAt_within hparse none htok hsc (le_of_eq hstart) hstop
      fun _ => hfree
    exact ⟨q, tok, sc, found, rfl, htok, hsc, hstart, hstop, hfree, hfound, hwithin⟩

end SimFront
