import SimFront.Proofs.Check.Importing

/-!
# Declarations stand on names of their own

Once a module has imported, all that is recorded is recorded at nodes that have nothing to
do with imports.  So what is declared by then and what is declared and used afterwards take
identifiers of the tree, each for itself (`taken_after`), but for the values of imported
enumerations.  With what the tree has of the tokens every other symbol of a text stands on a
token that is spelled like it, and no two of them on the same (`declared_on_own_names`).
-/

namespace SimFront

open CheckState (Recorded)

/-! ## The table of a module -/

/-- What a module declares and does itself has nothing to do with imports. -/
theorem importItem_not_mem_ownNodes (m : Module) (item : ImportItem) :
    .importItem item ∉ Node.all (Check.ownNodes m) := by
  intro hmem
  obtain ⟨n, hn, hbelow⟩ := List.mem_flatMap.1 (Multiset.mem_coe.1 hmem)
  have hown : 3 ≤ n.layer := by
    unfold Check.ownNodes Node.ofBlock? at hn
    simp only [List.mem_append, List.mem_map] at hn
    rcases hn with (⟨_, -, rfl⟩ | ⟨_, -, rfl⟩) | ⟨_, -, rfl⟩ <;> exact le_refl 3
  have hlayer : 3 ≤ 2 := Node.layer_preorder hown _ hbelow
  omega

/-- Between the imports of a module and the end of its analysis it is recorded at its own nodes,
and then at the type names that were put off. -/
theorem recorded_imported (resolver? : Option Resolver) (m : Module) : ∃ s s' : CheckState,
    s.Importing resolver? m (Node.names (.ident m.name :: m.imports.map .import)) ∧
    Recorded (Node.all (Check.ownNodes m)) s s' ∧
    Recorded (Node.all (s'.pendingTypes.reverse.map Check.pendingNode)) s'
      (.after resolver? m) := by
  have hfront := Check.checkFront_imports resolver? m
  obtain ⟨hown, hfaithful⟩ := Check.checkOwn_records m _ _ rfl hfront.faithful trivial
  obtain ⟨hpending, -⟩ :=
    Check.forM_map_records Check.checkPendingType_records _ _ _ rfl hfaithful trivial
  exact ⟨_, _, hfront, hown, hpending⟩

/-- The identifiers of a module are those of its name and its imports, and those of what it declares
and does itself. -/
theorem Node.names_module (m : Module) : Node.names (.ident m.name :: m.imports.map .import) +
    Node.names (Check.ownNodes m) = Node.names [.module m] := by
  rw [Node.names_singleton (.module m), ← Node.names_append]
  unfold Check.ownNodes
  simp only [Node.children, Node.ident?, List.cons_append, List.append_assoc, Option.toList_none,
    Multiset.coe_nil, zero_add]

/-- What the table of a module declares and uses are identifiers of its tree, each for itself,
but for the values that are brought in. -/
theorem taken_after (resolver? : Option Resolver) (m : Module) :
    (CheckState.after resolver? m).table.own (m.Brings resolver?) +
      (CheckState.after resolver? m).table.uses ≤ Node.names [.module m] := by
  obtain ⟨s, s', himporting, hown, hpending⟩ := recorded_imported resolver? m
  have hlate := hpending.taken_late (B := m.Brings resolver?) (hown.named himporting.named).1
  have hrecorded : s'.taken (m.Brings resolver?) ≤
      s.taken (m.Brings resolver?) + Node.names (Check.ownNodes m) :=
    hown.taken_le himporting.named fun item hitem =>
      absurd hitem (importItem_not_mem_ownNodes m item)
  -- while the module imports nothing is used
  have himported : s.taken (m.Brings resolver?) ≤
      Node.names (.ident m.name :: m.imports.map .import) := by
    have hunused : s.table.uses + s.pending = 0 := by
      unfold CheckState.pending SymbolTable.uses
      rw [himporting.unused, himporting.prompt]
      rfl
    unfold CheckState.taken
    rw [hunused, add_zero]
    exact himporting.own
  calc _ ≤ s'.taken (m.Brings resolver?) := hlate
    _ ≤ s.taken (m.Brings resolver?) + Node.names (Check.ownNodes m) := hrecorded
    _ ≤ _ := add_le_add_left himported _
    _ = Node.names [.module m] := Node.names_module m

/-- The item that a value is brought in by stands among the imports of the module. -/
theorem Module.Brings.mem_imports {m : Module} {resolver? : Option Resolver} {i : Ident}
    (h : m.Brings resolver? i) :
    ∃ name, ⟨name, i.span⟩ ∈ Node.names (.ident m.name :: m.imports.map .import) := by
  obtain ⟨clause, hclause, ⟨module, item⟩, hitem, -, -, -, -, hspan⟩ := h
  have hbelow : Node.ident item.name ∈ (Node.import clause).preorder := by
    refine Node.mem_preorder_of_child (c := .importItem item) ?_
      (Node.mem_preorder_of_child (c := .ident item.name) ?_ (Node.mem_preorder_self _))
    · cases clause with
      | names source items span =>
        rw [Import.items] at hitem
        split at hitem
        · cases hitem
        · obtain ⟨_, hmem, heq⟩ := List.mem_map.1 hitem
          obtain ⟨-, rfl⟩ := Prod.mk.inj heq
          exact List.mem_cons_of_mem _ (List.mem_map_of_mem hmem)
      | modules modules span => cases hitem
    · exact List.mem_cons_self
  have hall : Node.ident item.name ∈ Node.all (.ident m.name :: m.imports.map .import) :=
    Multiset.mem_coe.2 (List.mem_flatMap.2
      ⟨_, List.mem_cons_of_mem _ (List.mem_map_of_mem hclause), hbelow⟩)
  refine ⟨item.name.name, (Multiset.mem_filterMap _ _).2 ⟨_, hall, ?_⟩⟩
  rw [hspan]
  rfl

theorem Module.Brings.mem_names {m : Module} {resolver? : Option Resolver} {i : Ident}
    (h : m.Brings resolver? i) : ∃ name, ⟨name, i.span⟩ ∈ Node.names [.module m] := by
  obtain ⟨name, hname⟩ := h.mem_imports
  refine ⟨name, Multiset.mem_of_le ?_ hname⟩
  rw [← Node.names_module]
  exact Multiset.le_add_right _ _

/-! ## The text of a module -/

/-- What a rename changes of the uses is among the spans of all uses. -/
theorem SymbolTable.span_mem_uses (t : SymbolTable) {id : Nat} {span : Span}
    (h : span ∈ (t.referencesTo id).map (·.span)) : span ∈ t.uses.map Ident.span := by
  obtain ⟨r, hr, rfl⟩ := List.mem_map.1 h
  obtain ⟨i, -, hi⟩ := List.mem_filterMap.1 hr
  have hentry : r ∈ t.references.entries.toList :=
    Array.mem_toList_iff.2 (Array.mem_of_getElem? hi)
  exact Multiset.mem_map.2 ⟨t.used r, Multiset.mem_coe.2 (List.mem_map_of_mem hentry), rfl⟩

theorem token_of_mem_idents {text : String} {i : Ident}
    (h : i ∈ (tokenize text).filterMap Parser.ident?) :
    ∃ token ∈ tokenize text, token.kind = .ident ∧ token.span = i.span ∧ token.text = i.name := by
  obtain ⟨token, htoken, hident⟩ := List.mem_filterMap.1 h
  obtain ⟨hkind, rfl⟩ := ident_of_token hident
  exact ⟨token, htoken, hkind, rfl, rfl⟩

/-- **Own names.**  In the table of a text that strict mode reads every symbol stands on an
identifier of the text.  That identifier is spelled like the symbol, unless the symbol is a value
that comes along with an imported enumeration, which stands where the item does that brings it
in.  Of the other symbols no two stand on the same identifier, and none of them is changed when
another one is renamed. -/
theorem declared_on_own_names {text : String} {p : Parse} (h : parseText text .strict = .ok p)
    (resolver? : Option Resolver) :
    let t := (analyze resolver? p.module).table
    (∀ id s, t.symbol? id = some s → ∃ token ∈ tokenize text, token.kind = .ident ∧
      token.span = s.span ∧ (token.text = s.name ∨ p.module.Brings resolver? s.ident)) ∧
    ∀ id s, t.symbol? id = some s → ¬ p.module.Brings resolver? s.ident →
      ∀ id' s', t.symbol? id' = some s' → ¬ p.module.Brings resolver? s'.ident → id ≠ id' →
        s.span ≠ s'.span ∧ s.span ∉ t.renameSpans id' := by
  intro t
  have htree : Node.names [.module p.module] ≤ ↑((tokenize text).filterMap Parser.ident?) :=
    parse_names h
  have htaken : t.own (p.module.Brings resolver?) + t.uses ≤
      ↑((tokenize text).filterMap Parser.ident?) :=
    le_trans (taken_after resolver? p.module) htree
  -- the spans of all of these are distinct, for those of the tokens are
  have hdistinct : ((t.own (p.module.Brings resolver?)).map Ident.span +
      t.uses.map Ident.span).Nodup := by
    rw [← Multiset.map_add]
    exact Multiset.nodup_of_le (Multiset.map_le_map htaken)
      (Multiset.coe_nodup.2 (identSpans_nodup text))
  obtain ⟨hown, -, hapart⟩ := Multiset.nodup_add.1 hdistinct
  constructor
  · intro id s hs
    by_cases hbrings : p.module.Brings resolver? s.ident
    · obtain ⟨name, hname⟩ := hbrings.mem_names
      obtain ⟨token, htoken, hkind, hspan, -⟩ :=
        token_of_mem_idents (Multiset.mem_coe.1 (Multiset.mem_of_le htree hname))
      exact ⟨token, htoken, hkind, hspan, .inr hbrings⟩
    · have hmem : s.ident ∈ t.own (p.module.Brings resolver?) + t.uses :=
        Multiset.mem_add.2 (.inl (SymbolTable.mem_own hs hbrings))
      obtain ⟨token, htoken, hkind, hspan, htext⟩ :=
        token_of_mem_idents (Multiset.mem_coe.1 (Multiset.mem_of_le htaken hmem))
      exact ⟨token, htoken, hkind, hspan, .inl htext⟩
  · intro id s hs hbrings id' s' hs' hbrings' hne
    have hother : s.span ≠ s'.span := fun hspan =>
      hne (SymbolTable.own_span_inj hown hs hs' hbrings hbrings' hspan)
    refine ⟨hother, fun hrenamed => ?_⟩
    unfold SymbolTable.renameSpans at hrenamed
    rw [hs'] at hrenamed
    rcases List.mem_cons.1 hrenamed with hspan | hused
    · exact hother hspan
    · have hdeclared : s.span ∈ (t.own (p.module.Brings resolver?)).map Ident.span :=
        Multiset.mem_map_of_mem Ident.span (SymbolTable.mem_own hs hbrings)
      exact Multiset.disjoint_left.1 hapart hdeclared (t.span_mem_uses hused)

/-- A procedure that completes its heading, an item that is renamed, one that is not found, and a
field that has the name of a value that is brought in. -/
theorem declared_on_own_names_completed : ∃ p q,
    parseText "DEFINITION MODULE N; TYPE C = (red, green); PROCEDURE f; END MODULE." .strict = .ok q ∧
    parseText "MODULE M; FROM N IMPORT ALL C, f AS g, x; PROCEDURE P; PROCEDURE P; TYPE T = RECORD red: CHAR END; BEGIN g END PROCEDURE; END MODULE."
      .strict = .ok p ∧
    let r := some [("N", (analyze none q.module).table)]
    let t := (analyze r p.module).table
    t.symbols.size = 9 ∧
    (t.symbols.toList.map fun s => decide (p.module.Brings r s.ident)) =
      [false, false, true, true, false, false, false, false, false] ∧
    ∀ id s, t.symbol? id = some s → ¬ p.module.Brings r s.ident →
      ∀ id' s', t.symbol? id' = some s' → ¬ p.module.Brings r s'.ident → id ≠ id' →
        s.span ≠ s'.span ∧ s.span ∉ t.renameSpans id' := by
  have hbrought : ((parseText
      "DEFINITION MODULE N; TYPE C = (red, green); PROCEDURE f; END MODULE."
      .strict).toOption.bind fun q =>
      (parseText "MODULE M; FROM N IMPORT ALL C, f AS g, x; PROCEDURE P; PROCEDURE P; TYPE T = RECORD red: CHAR END; BEGIN g END PROCEDURE; END MODULE."
        .strict).toOption.map fun p =>
      let r := some [("N", (analyze none q.module).table)]
      let t := (analyze r p.module).table
      (t.symbols.size, t.symbols.toList.map fun s => decide (p.module.Brings r s.ident))) =
      some (9, [false, false, true, true, false, false, false, false, false]) := by
    decide +kernel
  cases hq : parseText "DEFINITION MODULE N; TYPE C = (red, green); PROCEDURE f; END MODULE."
      .strict with
  | error e =>
    rw [hq] at hbrought
    cases hbrought
  | ok q =>
    cases hp : parseText
        "MODULE M; FROM N IMPORT ALL C, f AS g, x; PROCEDURE P; PROCEDURE P; TYPE T = RECORD red: CHAR END; BEGIN g END PROCEDURE; END MODULE."
        .strict with
    | error e =>
      rw [hq, hp] at hbrought
      cases hbrought
    | ok p =>
      rw [hq, hp] at hbrought
      obtain ⟨hsize, hlist⟩ := Prod.mk.inj (Option.some.inj hbrought)
      obtain ⟨-, hapart⟩ :=
        declared_on_own_names hp (some [("N", (analyze none q.module).table)])
      exact ⟨p, q, rfl, rfl, hsize, hlist, hapart⟩

/-- The values that are brought in are exempt for a reason: both stand on the name of their type,
which a rename of one of them would change. -/
theorem values_share_name : ∃ p q,
    parseText "DEFINITION MODULE N; TYPE C = (red, green); END MODULE." .strict = .ok q ∧
    parseText "MODULE M; FROM N IMPORT ALL C; END MODULE." .strict = .ok p ∧
    let t := (analyze (some [("N", (analyze none q.module).table)]) p.module).table
    (¬ ∀ id s, t.symbol? id = some s →
      ∃ token ∈ tokenize "MODULE M; FROM N IMPORT ALL C; END MODULE.", token.kind = .ident ∧
        token.span = s.span ∧ token.text = s.name) ∧
    (¬ ∀ id s, t.symbol? id = some s → ∀ id' s', t.symbol? id' = some s' → s.span = s'.span →
      id = id') ∧
    ∃ s, t.symbol? 1 = some s ∧ s.name = "C" ∧ s.span ∈ t.renameSpans 2 := by
  -- where the item stands
  let place : Span := ⟨⟨1, 29, 28⟩, ⟨1, 30, 29⟩⟩
  have hsymbols : ((parseText "DEFINITION MODULE N; TYPE C = (red, green); END MODULE."
      .strict).toOption.bind fun q =>
      (parseText "MODULE M; FROM N IMPORT ALL C; END MODULE." .strict).toOption.map fun p =>
      let t := (analyze (some [("N", (analyze none q.module).table)]) p.module).table
      [1, 2, 3].map fun id => (t.symbol? id).map fun s => (s.name, s.span)) =
      some [some ("C", place), some ("red", place), some ("green", place)] := by
    decide +kernel
  have htoken : ∀ token ∈ tokenize "MODULE M; FROM N IMPORT ALL C; END MODULE.",
      token.span = place → token.text = "C" := by
    decide +kernel
  cases hq : parseText "DEFINITION MODULE N; TYPE C = (red, green); END MODULE." .strict with
  | error e =>
    rw [hq] at hsymbols
    cases hsymbols
  | ok q =>
    cases hp : parseText "MODULE M; FROM N IMPORT ALL C; END MODULE." .strict with
    | error e =>
      rw [hq, hp] at hsymbols
      cases hsymbols
    | ok p =>
      rw [hq, hp] at hsymbols
      refine ⟨p, q, rfl, rfl, ?_⟩
      intro t
      have hlist : ([1, 2, 3].map fun id => (t.symbol? id).map fun s => (s.name, s.span)) =
          [some ("C", place), some ("red", place), some ("green", place)] :=
        Option.some.inj hsymbols
      simp only [List.map_cons, List.map_nil, List.cons.injEq, Option.map_eq_some_iff,
        Prod.mk.injEq] at hlist
      obtain ⟨⟨c, hc, hcname, hcspan⟩, ⟨red, hred, hredname, hredspan⟩,
        ⟨green, hgreen, -, hgreenspan⟩, -⟩ := hlist
      refine ⟨fun hown => ?_, fun hdistinct => ?_, c, hc, hcname, ?_⟩
      · obtain ⟨token, htok, -, hspan, htext⟩ := hown 2 red hred
        have hname := htoken token htok (hspan.trans hredspan)
        rw [htext, hredname] at hname
        exact absurd hname (by decide)
      · have hsame := hdistinct 2 red hred 3 green hgreen (hredspan.trans hgreenspan.symm)
        exact absurd hsame (by decide)
      · unfold SymbolTable.renameSpans
        rw [hred, hcspan, ← hredspan]
        exact List.mem_cons_self

end SimFront
