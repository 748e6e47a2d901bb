import SimFront.Grammar.Decl
import SimFront.Grammar.Module
import SimFront.Proofs.Grammar.StmtNodes
import SimFront.Proofs.Grammar.TypeNodes

/-!
# Spans and identifiers of a whole tree

Every declaration makes its node over what it gathered, when the parser of nested
declarations gathers theirs (`ds` below).  The heading of a procedure is a node that starts
where the procedure does.

A text that strict mode reads gives a tree in which every node covers its children, and
which itself runs from the first token to the last (`parse_spans`); its identifiers are
identifiers of the text, each token standing for one of them at most (`parse_names`).

Each node below the root lists its children as they follow each other in the text.  The module
itself does so exactly if its imports, exports and declarations come in this order, and then the
walk over its tree visits the nodes by their starts (`parse_sequence`).
-/

namespace SimFront.Grammar

open SimFront.Parser

variable {ds : Parser (List Decl)} {s s' : ParserState}

/-! ## Entries -/

theorem typeDecl_builds : Builds (fun d => [.decl (.type d)]) typeDecl := by
  refine fun s hs => .inspect <| (ident_builds s hs).bind fun _ _ h => ?_
  refine (h.skip (expectMark_builds _).gathers).bind fun _ _ h => ?_
  refine (h.gather typeSpec_builds.gathers).bind fun _ _ h => ?_
  refine (h.skip semicolon_builds.gathers).bind fun _ _ h => ?_
  exact h.finish (fun _ => rfl) (fun _ => rfl) fun _ => rfl

theorem constDecl_builds : Builds (fun d => [.decl (.const d)]) constDecl := by
  refine fun s hs => .inspect <| (ident_builds s hs).bind fun _ _ h => ?_
  refine (h.gather (.whenever (eatMark_gathers _) typeSpec_builds.gathers)).bind fun _ _ h => ?_
  refine (h.skip (expectMark_builds _).gathers).bind fun _ _ h => ?_
  refine (h.gather expr_builds.gathers).bind fun _ _ h => ?_
  refine (h.skip semicolon_builds.gathers).bind fun _ _ h => ?_
  exact h.finish (fun _ => rfl) (fun _ => rfl) fun _ => rfl

theorem varDecl_builds : Builds (fun d => [.decl (.var d)]) varDecl := by
  refine fun s hs => .inspect <| (commaSeparated_builds ident_builds s hs).bind fun _ _ h => ?_
  refine (h.skip (expectMark_builds _).gathers).bind fun _ _ h => ?_
  refine (h.gather typeSpec_builds.gathers).bind fun _ _ h => ?_
  refine (h.gather (.whenever (eatMark_gathers _) expr_builds.gathers)).bind fun _ _ h => ?_
  refine (h.skip semicolon_builds.gathers).bind fun _ _ h => ?_
  exact h.finish (fun _ => rfl) (fun _ => (List.append_cons _ _ _)) fun _ => rfl

theorem entry_gathers (last : Option Section) :
    Gathers (fun d => d.toList.map .decl) (entry last) := by
  refine fun s hs => .inspect ?_
  split
  · exact (typeDecl_builds.gathers s hs).bind fun _ _ h => .pure h
  · exact (constDecl_builds.gathers s hs).bind fun _ _ h => .pure h
  · exact (varDecl_builds.gathers s hs).bind fun _ _ h => .pure h
  · exact .after .failInContext

/-! ## Procedures and methods -/

theorem bodyFollows_gathers : Gathers silent bodyFollows := by
  refine fun s hs => .inspect ?_
  split
  · exact .pure (.refl hs)
  iterate 3
    rintro _ _ ⟨⟩
    exact .refl hs
  · exact .pure (.refl hs)

theorem routineBody_gathers (hd : Gathers (·.map .decl) ds) :
    Gathers (fun r => r.1.map .decl ++ r.2.map .stmt) (routineBody ds) := by
  refine fun s hs => (hd s hs).bind fun _ _ h => ?_
  refine (h.skip (expectWord_builds _).gathers).bind fun _ _ h => ?_
  exact (h.gather statements_gathers).bind fun _ _ h => .pure h

theorem procedure_builds (hd : Gathers (·.map .decl) ds) :
    Builds (fun d => [.decl (.procedure d)]) (procedure ds) := by
  refine fun s hs => .inspect <| (bump_accepts hs).bind fun _ _ ⟨_, h⟩ => ?_
  refine (h.build ident_builds).bind fun name _ h => ?_
  refine (h.gather (params?_gathers typeSpec_builds)).bind fun ps _ h => ?_
  refine (h.gather (result?_gathers typeSpec_builds)).bind fun result s' h => .inspect ?_
  have h : Built s s' [.procHeading ⟨name, ps, result, _⟩] := h.node rfl (.listed rfl) rfl
  refine (h.skip semicolon_builds.gathers).bind fun _ _ h => ?_
  refine (h.skip bodyFollows_gathers).bind fun _ _ h => .ite (fun _ => ?_) fun _ => ?_
  · refine (h.gather (routineBody_gathers hd)).bind fun _ _ h => ?_
    refine (h.skip (closeWith_builds _ _).gathers).bind fun _ _ h => ?_
    refine (h.skip semicolon_builds.gathers).bind fun _ _ h => ?_
    exact h.finish (fun _ => rfl) (fun _ => rfl) fun _ => rfl
  · exact h.finish (fun _ => rfl) (fun _ => rfl) fun _ => rfl

theorem methodImpl_builds (hd : Gathers (·.map .decl) ds) :
    Builds (fun m => [.methodImpl m]) (methodImpl ds) := by
  refine fun s hs => .inspect <| (methodHeading_builds typeSpec_builds s hs).bind fun _ _ h => ?_
  refine (h.skip semicolon_builds.gathers).bind fun _ _ h => ?_
  refine (h.gather (routineBody_gathers hd)).bind fun _ _ h => ?_
  refine (h.skip (closeWith_builds _ _).gathers).bind fun _ _ h => ?_
  refine (h.skip semicolon_builds.gathers).bind fun _ _ h => ?_
  exact h.finish (fun _ => rfl) (fun _ => rfl) fun _ => rfl

theorem implRound_gathers (hd : Gathers (·.map .decl) ds) :
    Gathers (fun r => r.found?.toList.map .methodImpl) (implRound ds) := by
  refine fun s hs => .inspect ?_
  split
  iterate 2 exact .pure (.refl hs)
  iterate 3 exact ((methodImpl_builds hd).gathers s hs).bind fun _ _ h => .pure h
  · exact (bump_accepts hs).bind fun _ _ ⟨_, h⟩ => .pure h
  · exact .after .failInContext

theorem objectImpl_builds (hd : Gathers (·.map .decl) ds) :
    Builds (fun d => [.decl (.objectImpl d)]) (objectImpl ds) := by
  refine fun s hs => .inspect <| (bump_accepts hs).bind fun _ _ ⟨_, h⟩ => ?_
  refine (h.build ident_builds).bind fun _ _ h => ?_
  refine (h.skip semicolon_builds.gathers).bind fun _ _ h => ?_
  refine (h.gather (many_gathers (implRound_gathers hd)).within).bind fun _ _ h => ?_
  refine (h.skip (closeWith_builds _ _).gathers).bind fun _ _ h => ?_
  refine (h.skip semicolon_builds.gathers).bind fun _ _ h => ?_
  exact h.finish (fun _ => rfl) (fun _ => rfl) fun _ => rfl

/-! ## Declarations -/

theorem declarationItem_gathers (hd : Gathers (·.map .decl) ds) (last : Option Section) :
    Gathers (fun r => r.2.toList.map .decl) (declarationItem ds last) := by
  refine Gathers.within fun s hs => .inspect ?_
  split
  · exact (bump_accepts hs).bind fun _ _ ⟨_, h⟩ => .pure h
  · split
    · exact ((procedure_builds hd).gathers s hs).bind fun _ _ h => .pure h
    · exact ((objectImpl_builds hd).gathers s hs).bind fun _ _ h => .pure h
    · exact (entry_gathers last s hs).bind fun _ _ h => .pure h
    · exact .pure (.refl hs)
    · exact .after .failInContext

theorem localsRule_gathers (hd : Gathers (·.map .decl) ds) :
    Gathers (·.map .decl) (localsRule ds) := by
  refine gather_gathers (fun last s hs => ?_) none
  refine .inspect (.ite (fun _ => .pure (.refl hs)) fun _ => ?_)
  exact (declarationItem_gathers hd last s hs).bind fun _ _ h => .pure h

/-- Local declarations make one node each. -/
theorem locals_gathers : Gathers (·.map .decl) locals :=
  recurse_gathers fun _ => localsRule_gathers

end SimFront.Grammar

namespace SimFront

namespace Grammar

open SimFront.Parser

variable {s s' : ParserState}

/-! ## Imports and exports -/

theorem moduleName_builds : Builds (fun i => [.ident i]) moduleName := identOr_builds _ _

theorem importItem_builds : Builds (fun i => [.importItem i]) importItem := by
  have hname {all : Bool} {s s' : ParserState} (h : Gathered s s' []) : Accepts (do
      let name ← ident
      let alias? ← whenever (eatWord .AS) (identOr .invalidAlias "alias name after AS")
      pure (⟨name, alias?, all, ← spanFrom s.current.span.start⟩ : ImportItem)) s'
        fun i s'' => Built s s'' [.importItem i] := by
    refine (h.build ident_builds).bind fun _ _ h => ?_
    refine (h.gather (.whenever (eatWord_gathers _) (identOr_builds _ _).gathers)).bind ?_
    exact fun _ _ h => h.finish (fun _ => rfl) (fun _ => rfl) fun _ => rfl
  refine fun s hs => .inspect (.inspect (.inspect (.ite (fun _ => ?_) fun _ => hname (.refl hs))))
  exact (bump_accepts hs).bind fun _ _ ⟨_, h⟩ => hname h

theorem importClause_builds : Builds (fun i => [.import i]) importClause := by
  refine Builds.within fun s hs => .inspect <| (eatWord_gathers _ s hs).bind fun _ _ h => ?_
  refine .ite (fun _ => ?_) fun _ => ?_
  · refine (h.build moduleName_builds).bind fun _ _ h => ?_
    refine (h.skip (expectWith_builds _ (by simp)).gathers).bind fun _ _ h => ?_
    refine (h.gather (commaSeparated_builds importItem_builds).gathers).bind fun _ _ h => ?_
    refine (h.skip semicolon_builds.gathers).bind fun _ _ h => ?_
    exact h.finish (fun _ => rfl) (fun _ => rfl) fun _ => rfl
  · refine (h.skip bump_gathers).bind fun _ _ h => ?_
    refine (h.build (commaSeparated_builds moduleName_builds)).bind fun _ _ h => ?_
    refine (h.skip semicolon_builds.gathers).bind fun _ _ h => ?_
    exact h.finish (fun _ => rfl) (fun _ => rfl) fun _ => rfl

theorem exportClause_builds : Builds (fun e => [.export e]) exportClause := by
  refine fun s hs => .inspect <| (bump_accepts hs).bind fun _ _ ⟨_, h⟩ => ?_
  refine (h.build (commaSeparated_builds ident_builds)).bind fun _ _ h => ?_
  refine (h.skip semicolon_builds.gathers).bind fun _ _ h => ?_
  exact h.finish (fun _ => rfl) (fun _ => rfl) fun _ => rfl

/-! ## Modules -/

/-- The node of an item. -/
def Item.node : Item → Node
  | .import i => .import i
  | .export e => .export e
  | .decl d => .decl d

theorem itemRound_gathers (last : Option Section) :
    Gathers (fun r => r.found?.toList.map Item.node) (itemRound last) := by
  refine fun s hs => .inspect ?_
  split
  iterate 2 exact (importClause_builds.gathers s hs).bind fun _ _ h => .pure h
  · exact (exportClause_builds.gathers s hs).bind fun _ _ h => .pure h
  iterate 3 exact .pure (.refl hs)
  · refine (declarationItem_gathers locals_gathers last s hs).bind fun r _ h => .pure ?_
    obtain ⟨_, decl⟩ := r
    cases decl <;> exact h

theorem header_builds : Builds (fun r => [.ident r.2]) header := by
  have hrest {k : ModuleKind} {s s' : ParserState} (h : Gathered s s' []) : Accepts (do
      expectWith .missingHeader (.word .MODULE)
      let name ← ident
      semicolon
      pure (k, name)) s' fun r s'' => Built s s'' [.ident r.2] := by
    refine (h.skip (expectWith_builds _ (by simp)).gathers).bind fun _ _ h => ?_
    refine (h.build ident_builds).bind fun _ _ h => ?_
    exact (h.skip semicolon_builds.gathers).bind fun _ _ h => .pure h
  refine fun s hs => .inspect (.ite (fun _ => ?_) fun _ => hrest (.refl hs))
  exact (bump_accepts hs).bind fun _ _ ⟨_, h⟩ => hrest h

/-- Behind a module stands the end of the text. -/
theorem trailer_accepts {ns : List Node} (h : Built s s' ns) (name : Ident) :
    Accepts (trailer name) s' fun _ s'' => Built s s'' ns ∧ s''.kind = .eof := by
  have hend {s' : ParserState} (h : Built s s' ns) : Accepts (do
      unless ← atKind .eof do
        fail .trailingInput fun found => s!"unexpected {found.describe} after end of module") s'
        fun _ s'' => Built s s'' ns ∧ s''.kind = .eof :=
    .inspect (.ite (fun hk => .pure ⟨h, of_decide_eq_true hk⟩) fun _ => .fail)
  refine (h.skip (closeWith_builds _ _).gathers).bind fun _ _ h => ?_
  refine (h.skip (eatMark_gathers _)).bind fun _ _ h => .ite (fun _ => hend h) fun _ => ?_
  exact (h.skip (eatMark_gathers _)).bind fun _ _ h => hend h

/-- The items of a module, sorted into its three lists. -/
theorem items_perm (items : List Item) :
    ((items.filterMap Item.import?).map Node.import ++ (items.filterMap Item.export?).map Node.export
      ++ (items.filterMap Item.decl?).map Node.decl).Perm (items.map Item.node) := by
  induction items with
  | nil => exact .nil
  | cons item items ih =>
    cases item with
    | «import» i => exact ih.cons _
    | «export» e =>
      refine .trans ?_ (ih.cons _)
      rw [List.append_assoc, List.append_assoc]
      exact List.perm_middle
    | decl d => exact .trans List.perm_middle (ih.cons _)

/-- The items of one sort keep their order. -/
theorem items_sublist {α : Type} {sort? : Item → Option α} {f : α → Node}
    (h : ∀ item a, sort? item = some a → f a = item.node) (items : List Item) :
    ((items.filterMap sort?).map f).Sublist (items.map Item.node) := by
  induction items with
  | nil => exact .slnil
  | cons item items ih =>
    cases hsort : sort? item with
    | none =>
      rw [List.filterMap_cons_none hsort]
      exact ih.cons _
    | some a =>
      rw [List.filterMap_cons_some hsort, List.map_cons, List.map_cons, h item a hsort]
      exact ih.cons_cons _

theorem items_laid {m : Module} {items : List Item}
    (himports : m.imports = items.filterMap Item.import?)
    (hexports : m.exports = items.filterMap Item.export?)
    (hdecls : m.decls = items.filterMap Item.decl?) : m.Items (items.map Item.node) := by
  constructor
  · rw [himports, hexports, hdecls]
    exact items_perm items
  · rw [himports]
    exact items_sublist (by rintro (_ | _ | _) _ ⟨⟩; rfl) items
  · rw [hexports]
    exact items_sublist (by rintro (_ | _ | _) _ ⟨⟩; rfl) items
  · rw [hdecls]
    exact items_sublist (by rintro (_ | _ | _) _ ⟨⟩; rfl) items

theorem module_built (hs : Ordered s) : Accepts Grammar.module s fun m s' =>
    Built s s' [.module m] ∧ m.span = ⟨s.current.span.start, s'.lastEnd⟩ ∧ s'.kind = .eof := by
  have hhead : Builds (fun r => .ident r.1.2 :: r.2.map Item.node) (do
      let head ← header
      let items ← gather itemRound none
      pure (head, items)) := fun s hs =>
    (header_builds s hs).bind fun _ _ h =>
      (h.gather (gather_gathers itemRound_gathers none)).bind fun _ _ h => .pure h
  refine .inspect <| (hhead.within s hs).bind fun head _ h => ?_
  obtain ⟨⟨kind, name⟩, items⟩ := head
  refine (h.gather (.whenever_block (eatWord_gathers _) statements_gathers)).bind fun body _ h => ?_
  refine (trailer_accepts h name).bind fun _ s' ⟨h, heof⟩ => .inspect (.pure ⟨?_, ?_, heof⟩)
  · exact h.node rfl (.sorted (items_laid rfl rfl rfl) rfl) rfl
  · rw [Position.later_of_ge h.begun]

end Grammar

open SimFront.Parser

/-! ## Whole texts -/

theorem ordered_ofTokens {p : Position} {tokens : List Token} (h : InOrder p tokens) :
    Ordered (.ofTokens tokens) := by
  refine ⟨?_, rfl⟩
  cases tokens with
  | nil => exact ⟨le_refl _, le_refl _, trivial⟩
  | cons t ts =>
    have hin : InOrder t.span.start (t :: ts) := ⟨le_refl _, h.2⟩
    refine hin.append ⟨le_of_eq ?_, le_refl _, trivial⟩
    show endOf _ _ = (((t :: ts).getLast?.map (·.span.stop)).getD .start)
    unfold endOf
    rw [List.getLast?_cons]
    rfl

/-- The tokens that can be read, but for the one that closes the text. -/
theorem significant_tokenize (text : String) : ∃ ts e, significant (tokenize text) = ts ++ [e] ∧
    e.kind = .eof ∧ ∀ t ∈ ts, t.kind ≠ .eof := by
  obtain ⟨ts, hts, hall⟩ := (laid_tokenize text).closed
  have hsignificant : significant (tokenize text) =
      ts.filter (!·.isError) ++ [.endAt (Position.start.advanceBy text.toList)] := by
    unfold significant
    rw [hts, List.filter_append]
    rfl
  exact ⟨_, _, hsignificant, rfl, fun t ht => (hall t (List.mem_of_mem_filter ht)).1⟩

/-- What strict mode reads a text as, is built from its tokens up to the end of the text. -/
theorem built_of_parse {text : String} {p : Parse} (h : parseText text .strict = .ok p) :
    ∃ s', Built (.ofTokens (significant (tokenize text))) s' [.module p.module] ∧
      p.module.span = ⟨(ParserState.ofTokens (significant (tokenize text))).current.span.start,
        s'.lastEnd⟩ ∧ s'.kind = .eof := by
  have hin : InOrder .start (significant (tokenize text)) := (laid_tokenize text).inOrder.filter _
  unfold parseText parse at h
  split at h
  · next m s' hrun =>
    cases h
    exact ⟨s', Grammar.module_built (ordered_ofTokens hin) m s' hrun⟩
  · cases h

/-- The tokens that can be read start and end at positions of the text, and so does all that is
made of them. -/
theorem inText_of_edge {text : String} {p : Position}
    (h : Edge (.ofTokens (significant (tokenize text))) p) : InText text.toList p := by
  have hslice : ∀ t ∈ tokenize text, InText text.toList t.span.start ∧
      InText text.toList t.span.stop := fun t ht =>
    have h := Laid.slice [] (laid_tokenize text) t ht
    ⟨h.1, h.2.1⟩
  have hread : ∀ t ∈ significant (tokenize text), InText text.toList t.span.start ∧
      InText text.toList t.span.stop := fun t ht => hslice t (List.mem_of_mem_filter ht)
  have hstart : InText text.toList .start := ⟨[], _, rfl, rfl⟩
  rcases h with rfl | ⟨t, ht, hp⟩
  · show InText _ (((significant (tokenize text)).head?.map (·.span.start)).getD .start)
    cases hhead : (significant (tokenize text)).head? with
    | none => exact hstart
    | some t => exact (hread t (List.mem_of_head? hhead)).1
  · rcases List.mem_append.1 ht with ht | ht
    · rcases hp with rfl | rfl
      · exact (hread t ht).1
      · exact (hread t ht).2
    · have hend : InText text.toList
          (((significant (tokenize text)).getLast?.map (·.span.stop)).getD .start) := by
        cases hlast : (significant (tokenize text)).getLast? with
        | none => exact hstart
        | some t => exact (hread t (List.mem_of_getLast? hlast)).2
      rw [List.mem_singleton.1 ht] at hp
      rcases hp with rfl | rfl
      · exact hend
      · exact hend

theorem parse_inText {text : String} {p : Parse} (h : parseText text .strict = .ok p) :
    ∀ n ∈ (Node.module p.module).preorder,
      InText text.toList n.span.start ∧ InText text.toList n.span.stop := by
  obtain ⟨s', hbuilt, -⟩ := built_of_parse h
  exact fun n hn => (hbuilt.edged _ (List.mem_singleton.2 rfl) n hn).imp inText_of_edge inText_of_edge

/-- **Spans.**  In the tree of a text that strict mode reads, every node starts no later than it
ends and covers its children; the tree runs from the first token to the last one before the end
of the text. -/
theorem parse_spans {text : String} {p : Parse} (h : parseText text .strict = .ok p) :
    (∀ n ∈ (Node.module p.module).preorder, n.span.start ≤ n.span.stop ∧
      ∀ c ∈ n.children, n.span.containsSpan c.span) ∧
    ∃ ts e first last, significant (tokenize text) = ts ++ [e] ∧ e.kind = .eof ∧
      ts.head? = some first ∧ ts.getLast? = some last ∧
      p.module.span = ⟨first.span.start, last.span.stop⟩ := by
  obtain ⟨s', hbuilt, hspan, heof⟩ := built_of_parse h
  obtain ⟨ts, e, htokens, he, hts⟩ := significant_tokenize text
  refine ⟨fun n hn => ?_, ts, e, ?_⟩
  · cases (hbuilt.nested _ (List.mem_singleton.2 rfl)).1.of_preorder n hn with
    | mk ordered covers _ => exact ⟨ordered, covers⟩
  · obtain ⟨read, hread, hend, hkind, hnames⟩ := hbuilt.reads
    have hread : ts = read := by
      have hsplit : ts ++ [e] = read ++ s'.rest := by rw [← htokens, ← hread]; rfl
      have htake := congrArg (List.takeWhile fun t => !decide (t.kind = .eof)) hsplit
      rw [List.takeWhile_append_of_pos (by simpa using hts),
        List.takeWhile_append_of_pos (by simpa using hkind)] at htake
      have hrest : s'.rest.takeWhile (fun t => !decide (t.kind = .eof)) = [] := by
        unfold ParserState.kind ParserState.current ParserState.token at heof
        cases hr : s'.rest with
        | nil => rfl
        | cons r rs => simpa [hr] using heof
      simpa [he, hrest] using htake
    subst hread
    have hname := Multiset.mem_of_le hnames (Node.mem_names_of_child List.mem_cons_self)
    cases ts with
    | nil => cases hname
    | cons first ts =>
      refine ⟨first, _, htokens, he, rfl, List.getLast?_cons, ?_⟩
      rw [hspan, hend, htokens]
      unfold endOf
      rw [List.getLast?_cons]
      rfl

/-- Parentheses leave no node, and the signs before them none of their own. -/
theorem parse_spans_signed : ∃ p,
    parseText "MODULE M; VAR x: INTEGER; BEGIN x := -(x + 1) * 2 END MODULE." .strict = .ok p ∧
    ∀ n ∈ (Node.module p.module).preorder, n.span.start ≤ n.span.stop ∧
      ∀ c ∈ n.children, n.span.containsSpan c.span := by
  have hok : (parseText "MODULE M; VAR x: INTEGER; BEGIN x := -(x + 1) * 2 END MODULE."
      .strict).toOption.isSome := by decide +kernel
  cases hparse : parseText "MODULE M; VAR x: INTEGER; BEGIN x := -(x + 1) * 2 END MODULE."
      .strict with
  | error e =>
    rw [hparse] at hok
    cases hok
  | ok p => exact ⟨p, rfl, (parse_spans hparse).1⟩

/-- **Names.**  The identifiers in the tree of a text that strict mode reads are identifiers of
the text, and each of these stands for one of them at most. -/
theorem parse_names {text : String} {p : Parse} (h : parseText text .strict = .ok p) :
    Node.names [.module p.module] ≤ identifiers (tokenize text) := by
  obtain ⟨s', hbuilt, -⟩ := built_of_parse h
  obtain ⟨read, hread, -, -, hnames⟩ := hbuilt.reads
  have hread : significant (tokenize text) = read ++ s'.rest := hread
  have hsub : read.Sublist (tokenize text) := by
    have hprefix : read.Sublist (significant (tokenize text)) := by
      rw [hread]
      exact List.sublist_append_left _ _
    exact hprefix.trans List.filter_sublist
  exact le_trans hnames (Multiset.coe_le.2 (hsub.filterMap ident?).subperm)

/-! ## The order of the nodes -/

/-- **Order.**  In the tree of a text that strict mode reads, the children of each node below the
module end before the next ones begin.  What stands between the name and the body of the module
follows each other in the text too, but the module lists it by its sorts: its own children are in
this order exactly if the text has the imports first and the declarations last, and if so the
nodes of the tree are visited by their starts. -/
theorem parse_sequence {text : String} {p : Parse} (h : parseText text .strict = .ok p) :
    (∀ c ∈ (Node.module p.module).children, ∀ n ∈ c.preorder, Node.InSequence n.children) ∧
      (∃ items, p.module.Items items ∧
        Node.InSequence (.ident p.module.name :: (items ++ Node.ofBlock? p.module.body))) ∧
      (Node.InSequence (Node.module p.module).children ↔ p.module.Grouped) ∧
      (p.module.Grouped →
        (Node.module p.module).descendants.Pairwise fun a b => a.span.start ≤ b.span.start) := by
  obtain ⟨s', hbuilt, -⟩ := built_of_parse h
  have hroot : Node.module p.module ∈ [Node.module p.module] := List.mem_singleton.2 rfl
  have hnested : Nested (.module p.module) := (hbuilt.nested _ hroot).1
  have hsequenced : Sequenced (.module p.module) := hbuilt.sequenced _ hroot
  have hbelow := hsequenced.inSequence_below
  obtain ⟨items, hitems, horder⟩ := hsequenced.items
  have hiff : Node.InSequence (Node.module p.module).children ↔ p.module.Grouped :=
    hitems.inSequence_iff horder
  refine ⟨hbelow, ⟨items, hitems, horder⟩, hiff, fun hgrouped => ?_⟩
  rw [Node.descendants_eq]
  apply hnested.preorder_sorted
  intro n hn
  rw [Node.preorder_eq] at hn
  rcases List.mem_cons.1 hn with rfl | hn
  · exact hiff.2 hgrouped
  · obtain ⟨c, hc, hn⟩ := List.mem_flatMap.1 hn
    exact hbelow c hc n hn

/-- An export before an import, which the module lists behind it. -/
theorem parse_sequence_exportFirst :
    let text := "MODULE M;\nEXPORT x;\nIMPORT N;\nVAR x: INTEGER;\nEND MODULE.\n"
    ∃ p, parseText text .strict = .ok p ∧ ¬ p.module.Grouped ∧
      ¬ Node.InSequence (Node.module p.module).children ∧
      ∀ c ∈ (Node.module p.module).children, ∀ n ∈ c.preorder, Node.InSequence n.children := by
  intro text
  have hmixed : (parseText text .strict).toOption.any fun p => !decide p.module.Grouped := by
    decide +kernel
  cases hparse : parseText text .strict with
  | error e =>
    rw [hparse] at hmixed
    cases hmixed
  | ok p =>
    have hnot : ¬ p.module.Grouped := by
      rw [hparse] at hmixed
      have hfalse : (!decide p.module.Grouped) = true := hmixed
      simpa using hfalse
    obtain ⟨hbelow, -, hiff, -⟩ := parse_sequence hparse
    exact ⟨p, rfl, hnot, fun hchildren => hnot (hiff.1 hchildren), hbelow⟩

end SimFront
