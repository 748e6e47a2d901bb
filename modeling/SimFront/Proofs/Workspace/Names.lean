import SimFront.Proofs.Workspace.Contents

/-!
# The names of modules are exact

Every holder of a name declares it (`Holds`), and every name that a document declares has
a holder (`Covers`).  A document that gives a name up leaves it to another one that
declares it, so that all documents but itself stay covered (`Covers.release`); and one
that is registered is covered with the rest (`Covers.register`).  So the names are exact
after each operation, and in every workspace that a run comes to a module is found by its
name exactly when a document declares it (`names_after`).
-/

namespace SimFront.Workspace

/-! ## Every declared name has a holder -/

/-- Every name that a document declares has a holder. -/
def Covers (ds : Documents) (importable : Bool) (holders : Members Path) : Prop :=
  ∀ d ∈ ds.toList, ∀ name, d.declares importable name → (Members.find? holders name).isSome

theorem isSome_claim (holders : Members Path) (name : String) (id : Path) :
    (Members.find? (claim holders name id) name).isSome := by
  unfold claim
  split
  · rw [Members.find?_insert, if_pos rfl]
    rfl
  · next hheld =>
    split
    · rw [Members.find?_insert, if_pos rfl]
      rfl
    · rw [hheld]
      rfl

/-- A claim takes no name away. -/
theorem isSome_claim_of_isSome {holders : Members Path} {other : String}
    (h : (Members.find? holders other).isSome) (name : String) (id : Path) :
    (Members.find? (claim holders name id) other).isSome := by
  by_cases hother : other = name
  · rw [hother]
    exact isSome_claim holders name id
  · rw [find?_claim_of_ne holders id hother]
    exact h

/-- There is a successor as long as another document declares the name. -/
theorem isSome_successor? {ds : Documents} {importable : Bool} {id : Path} {name : String}
    {d : Document} (hd : d ∈ (ds.erase id).toList) (hdecl : d.declares importable name) :
    (successor? ds importable id name).isSome := by
  obtain ⟨hmem, hne⟩ := Documents.mem_erase.1 hd
  unfold successor?
  rw [Option.isSome_map, List.find?_isSome]
  exact ⟨d, hmem, by rw [hne, hdecl]; rfl⟩

/-- The other documents stay covered when a document gives up a name. -/
theorem Covers.release {ds : Documents} {importable : Bool} {id : Path} {holders : Members Path}
    (h : Covers (ds.erase id) importable holders) (name : String) :
    Covers (ds.erase id) importable (release ds importable id name holders) := by
  intro d hd other hdecl
  by_cases hother : other = name
  · subst hother
    unfold Workspace.release
    split
    · obtain ⟨next_, hnext⟩ := Option.isSome_iff_exists.1 (isSome_successor? hd hdecl)
      rw [hnext]
      dsimp only
      rw [Members.find?_insert, if_pos rfl]
      rfl
    · exact h d hd other hdecl
  · rw [find?_release_of_ne ds importable id holders hother]
    exact h d hd other hdecl

theorem Covers.unregisterPrevious {w : Workspace} {importable : Bool} {id : Path}
    (h : Covers (w.documents.erase id) importable (w.holders importable))
    (previousName? : Option String) :
    Covers (w.documents.erase id) importable
      ((w.unregisterPrevious id previousName?).holders importable) := by
  cases previousName? with
  | none => exact h
  | some name =>
    rw [unregisterPrevious_holders]
    exact h.release name

/-- Registering takes no name away. -/
theorem isSome_register {w : Workspace} {importable : Bool} {name : String}
    (h : (Members.find? (w.holders importable) name).isSome) (id : Path) :
    (Members.find? ((w.register id).holders importable) name).isSome := by
  rcases register_holders w id importable with ⟨hm, -⟩ | ⟨e, own, -, -, hm⟩
  · rw [hm]
    exact h
  · rw [hm]
    exact isSome_claim_of_isSome h _ _

/-- The name of a document is held once it is registered. -/
theorem isSome_register_self {w : Workspace} {importable : Bool} {id : Path} {d : Document}
    (hd : w.document? id = some d) {name : String} (hdecl : d.declares importable name) :
    (Members.find? ((w.register id).holders importable) name).isSome := by
  rcases register_holders w id importable with ⟨-, hnone⟩ | ⟨e, own, he, hown, hm⟩
  · rw [hnone d hd name] at hdecl
    cases hdecl
  · obtain rfl := Option.some.inj (hd.symm.trans he)
    have hname := Document.moduleName?_of_declares hdecl
    rw [Document.moduleName?_of_declares hown] at hname
    rw [hm, Option.some.inj hname]
    exact isSome_claim _ _ _

/-- When the other documents are covered, all are once the document is registered. -/
theorem Covers.register {w : Workspace} (hsorted : w.documents.Sorted) {importable : Bool}
    {id : Path} (h : Covers (w.documents.erase id) importable (w.holders importable)) :
    Covers w.documents importable ((w.register id).holders importable) := by
  intro d hd name hdecl
  cases hid : d.id == id with
  | true => exact isSome_register_self (hsorted.find?_eq_some.2 ⟨hd, hid⟩) hdecl
  | false => exact isSome_register (h d (Documents.mem_erase.2 ⟨hd, hid⟩) name hdecl) id

theorem Covers.of_withoutEdges {ds es : Documents} {importable : Bool} {holders : Members Path}
    (h : Covers ds importable holders)
    (hsame : es.map Document.withoutEdges = ds.map Document.withoutEdges) :
    Covers es importable holders := by
  intro e he name hdecl
  obtain ⟨d, hd, hde⟩ := mem_of_withoutEdges_eq hsame.symm he
  rw [← Document.declares_of_withoutEdges hde] at hdecl
  exact h d hd name hdecl

theorem Covers.map {ds : Documents} {importable : Bool} {holders : Members Path}
    (h : Covers ds importable holders) {f : Document → Document}
    (hdecl : ∀ d, (f d).declares = d.declares) : Covers (ds.map f) importable holders := by
  intro e he name hname
  obtain ⟨d, hd, rfl⟩ := Documents.mem_map.1 he
  rw [hdecl d] at hname
  exact h d hd name hname

/-! ## Exact names -/

/-- Every name is held by a document that is there and declares it, and every name that a
document declares is held. -/
structure NamesExact (w : Workspace) : Prop where
  held : ∀ importable, Holds w.documents importable (w.holders importable)
  covered : ∀ importable, Covers w.documents importable (w.holders importable)

theorem namesExact_new (c : Config) : NamesExact { config := c } where
  held importable := by cases importable <;> exact holds_nil _ _
  covered _ _ hd := nomatch hd

/-- Edges play no part in names. -/
theorem NamesExact.of_withoutEdges {w v : Workspace} (h : w.NamesExact)
    (hdocuments : v.documents.map Document.withoutEdges = w.documents.map Document.withoutEdges)
    (hholders : ∀ importable, v.holders importable = w.holders importable) : v.NamesExact where
  held importable := by
    rw [hholders]
    exact (h.held importable).of_withoutEdges hdocuments
  covered importable := by
    rw [hholders]
    exact (h.covered importable).of_withoutEdges hdocuments

/-! ## Putting in -/

/-- All documents are covered after a new document took the place of another. -/
theorem covers_rename {w : Workspace} (hsorted : w.documents.Sorted) {importable : Bool}
    (h : Covers w.documents importable (w.holders importable)) (d : Document) :
    let inserted := { w with documents := w.documents.insert (inherit d (w.document? d.id)) }
    Covers inserted.documents importable
      ((inserted.rename d (w.document? d.id)).holders importable) := by
  intro inserted
  have mem {e : Document} : e ∈ inserted.documents.toList ↔
      e = inherit d (w.document? d.id) ∨ e ∈ w.documents.toList ∧ (d.id == e.id) = false := by
    rw [hsorted.mem_insert, inherit_id]
  have sortedInserted : inserted.documents.Sorted := hsorted.insert _
  unfold rename
  split
  · let unnamed := inserted.unregisterPrevious d.id ((w.document? d.id).bind (·.moduleName?))
    have documents : unnamed.documents = inserted.documents :=
      unregisterPrevious_documents _ _ _
    have others : Covers (inserted.documents.erase d.id) importable (w.holders importable) := by
      intro e he name hdecl
      obtain ⟨he, hne⟩ := Documents.mem_erase.1 he
      rcases mem.1 he with rfl | ⟨he, -⟩
      · rw [inherit_id, BEq.rfl] at hne
        cases hne
      · exact h e he name hdecl
    have released : Covers (unnamed.documents.erase d.id) importable
        (unnamed.holders importable) := by
      rw [documents]
      exact Covers.unregisterPrevious (w := inserted) others _
    rw [← documents] at sortedInserted ⊢
    exact released.register sortedInserted
  · next hrenamed =>
    intro e he name hdecl
    rcases mem.1 he with rfl | ⟨he, -⟩
    · -- the document before declares the same
      cases hprev : w.document? d.id with
      | none =>
        rw [hprev] at hrenamed
        exact absurd rfl hrenamed
      | some previous =>
        rw [hprev, Bool.not_eq_true] at hrenamed
        rw [inherit_declares, declares_of_not_renamed hrenamed] at hdecl
        exact h previous (Documents.mem_of_find? hprev).1 name hdecl
    · exact h e he name hdecl

theorem NamesExact.replace {w : Workspace} (h : w.NamesExact) (hsorted : w.documents.Sorted)
    (d : Document) : (w.replace d).NamesExact := by
  let inserted := { w with documents := w.documents.insert (inherit d (w.document? d.id)) }
  let renamed := inserted.rename d (w.document? d.id)
  have documents : renamed.documents = inserted.documents := rename_documents _ _ _
  have exactRenamed : renamed.NamesExact := by
    constructor
    · intro importable
      rw [documents]
      exact holds_rename hsorted (h.held importable) d
    · intro importable
      rw [documents]
      exact covers_rename hsorted (h.covered importable) d
  refine exactRenamed.of_withoutEdges ?_ (w.replace_holders d)
  rw [documents]
  exact w.replace_withoutEdges d

/-! ## Taking out -/

/-- The documents that stay are covered after a document was taken out. -/
theorem covers_detached {w : Workspace} {importable : Bool}
    (h : Covers w.documents importable (w.holders importable)) (d : Document) :
    let unnamed :=
      (({ w with documents := w.documents.erase d.id }).unlink d).unregisterPrevious d.id
        d.moduleName?
    Covers unnamed.documents importable (unnamed.holders importable) := by
  intro unnamed
  let unlinked := ({ w with documents := w.documents.erase d.id }).unlink d
  have sameHolders : unlinked.holders importable = w.holders importable := by
    cases importable <;> rfl
  have documents : unnamed.documents = unlinked.documents := unregisterPrevious_documents _ _ _
  have stays {e : Document} (he : e ∈ unlinked.documents.toList) :
      ∃ c ∈ w.documents.toList, (c.id == d.id) = false ∧ c.withoutEdges = e.withoutEdges := by
    rw [unlink_documents] at he
    obtain ⟨c, hc, rfl⟩ := Documents.mem_map.1 he
    obtain ⟨hmem, hne⟩ := Documents.mem_erase.1 hc
    exact ⟨c, hmem, hne, rfl⟩
  -- all documents are others, since the one that is taken out is gone
  have others : Covers (unlinked.documents.erase d.id) importable
      (unlinked.holders importable) := by
    intro e he name hdecl
    obtain ⟨c, hc, -, hce⟩ := stays (Documents.mem_erase.1 he).1
    rw [← Document.declares_of_withoutEdges hce] at hdecl
    rw [sameHolders]
    exact h c hc name hdecl
  intro e he
  rw [documents] at he
  obtain ⟨c, -, hne, hce⟩ := stays he
  have hid : c.withoutEdges.id = e.withoutEdges.id := congrArg Document.id hce
  rw [Document.withoutEdges_id, Document.withoutEdges_id] at hid
  exact others.unregisterPrevious d.moduleName? e (Documents.mem_erase.2 ⟨he, hid ▸ hne⟩)

theorem NamesExact.removeDocument {w : Workspace} (h : w.NamesExact)
    (hsorted : w.documents.Sorted) {d : Document} (hd : d ∈ w.documents.toList) :
    (w.removeDocument d).NamesExact := by
  let unlinked := ({ w with documents := w.documents.erase d.id }).unlink d
  have exactUnnamed : (unlinked.unregisterPrevious d.id d.moduleName?).NamesExact := by
    constructor
    · intro importable
      exact holds_detached hsorted (h.held importable) hd
    · intro importable
      exact covers_detached (h.covered importable) d
  refine exactUnnamed.of_withoutEdges ?_ (w.removeDocument_holders d)
  rw [removeDocument_withoutEdges, unregisterPrevious_documents, unlink_documents,
    Documents.map_map]
  rfl

/-! ## Indexing -/

/-- The documents that are registered one after the other are covered, and so are those that
were before. -/
theorem isSome_foldl_register {w : Workspace} (hsorted : w.documents.Sorted) {importable : Bool}
    {d : Document} (hd : d ∈ w.documents.toList) {name : String}
    (hdecl : d.declares importable name) {ids : List Path}
    (h : (Members.find? (w.holders importable) name).isSome ∨ ids.any (d.id == ·)) :
    (Members.find? ((ids.foldl register w).holders importable) name).isSome := by
  induction ids generalizing w with
  | nil =>
    rcases h with h | h
    · exact h
    · cases h
  | cons id ids ih =>
    have hdocuments := register_documents w id
    refine ih (hdocuments ▸ hsorted) (hdocuments ▸ hd) ?_
    rw [List.any_cons, Bool.or_eq_true] at h
    rcases h with h | h | h
    · exact Or.inl (isSome_register h id)
    · exact Or.inl (isSome_register_self (hsorted.find?_eq_some.2 ⟨hd, h⟩) hdecl)
    · exact Or.inr h

theorem namesExact_firstPass (w : Workspace) (documents : List Document) :
    (w.firstPass documents).NamesExact := by
  let ds := Documents.ofList documents
  let bare := { w with documents := ds, modules := [], implementations := [] }
  let registered := ds.ids.foldl register bare
  have hds : registered.documents = ds := foldl_register_documents _ _
  have exactRegistered : registered.NamesExact := by
    constructor
    · intro importable
      rw [hds]
      refine holds_foldl_register (w := bare) ?_ rfl _
      cases importable <;> exact holds_nil _ _
    · intro importable d hd name hdecl
      rw [hds] at hd
      refine isSome_foldl_register (w := bare) (Documents.sorted_ofList documents) hd hdecl ?_
      exact Or.inr (List.any_eq_true.2 ⟨d.id, List.mem_map.2 ⟨d, hd, rfl⟩, BEq.rfl⟩)
  refine exactRegistered.of_withoutEdges (linkAll_withoutEdges registered) fun importable => ?_
  show (linkAll registered).holders importable = _
  unfold linkAll
  rw [foldl_link_holders]
  cases importable <;> rfl

/-- Whatever a workspace held before, its names are exact once documents were installed. -/
theorem namesExact_install (w : Workspace) (documents : List Document) :
    (w.install documents).NamesExact := by
  have h := namesExact_firstPass w documents
  let first := w.firstPass documents
  have sameHolders (importable : Bool) :
      (w.install documents).holders importable = first.holders importable := by
    cases importable <;> rfl
  have hid (d : Document) : (d.reanalyzed first.resolver).id = d.id := by
    rw [Document.reanalyzed_frame]
  have hdecl (d : Document) : (d.reanalyzed first.resolver).declares = d.declares := by
    rw [Document.reanalyzed_frame]
    rfl
  constructor
  · intro importable
    rw [sameHolders, install_documents]
    exact (h.held importable).map hid hdecl
  · intro importable
    rw [sameHolders, install_documents]
    exact (h.covered importable).map hdecl

/-! ## Along a run -/

theorem NamesExact.performed {w v : Workspace} (h : w.NamesExact) (hsorted : w.documents.Sorted)
    (hv : Performed w v) : v.NamesExact := by
  cases hv with
  | nothing => exact h
  | indexed _ => exact namesExact_install _ _
  | opened id text => exact h.replace hsorted _
  | removed hd => exact h.removeDocument hsorted hd

theorem namesExact_after (c : Config) (commands : List Command) :
    (after c commands).NamesExact :=
  after_induction (namesExact_new c) (fun hw h hv => h.performed hw.edged.sorted hv) commands

/-! ## Finding a module -/

/-- The document that holds a name is there, and declares a module of the name and sort. -/
theorem NamesExact.holder {w : Workspace} (h : w.NamesExact) (hsorted : w.documents.Sorted)
    {importable : Bool} {name : String} {p : Path}
    (hp : Members.find? (w.holders importable) name = some p) :
    ∃ d kind, w.document? p = some d ∧ d.moduleName? = some name ∧
      d.moduleKind? = some kind ∧ kind.isImportable = importable := by
  obtain ⟨d, hd, hid, hdecl⟩ := h.held importable name p hp
  have hname := Document.moduleName?_of_declares hdecl
  unfold Document.declares at hdecl
  rw [Bool.and_eq_true] at hdecl
  obtain ⟨kind, hkind, hsort⟩ := (Option.any_eq_true _ _).1 hdecl.2
  exact ⟨d, kind, hsorted.find?_eq_some.2 ⟨hd, hid⟩, hname, hkind, of_decide_eq_true hsort⟩

/-- The name of the module that a document declares is held. -/
theorem NamesExact.isSome_holder {w : Workspace} (h : w.NamesExact) {d : Document}
    (hd : d ∈ w.documents.toList) {name : String} (hname : d.moduleName? = some name)
    {kind : ModuleKind} (hkind : d.moduleKind? = some kind) :
    (Members.find? (w.holders kind.isImportable) name).isSome := by
  refine h.covered kind.isImportable d hd name ?_
  unfold Document.declares
  rw [hname, hkind, Option.any_some]
  simp

/-- A document with the name of a module has its kind as well. -/
theorem moduleKind?_after (c : Config) (commands : List Command) :
    ∀ d ∈ (after c commands).documents.toList, d.moduleName?.isSome → d.moduleKind?.isSome := by
  have ofText (id : Path) (text : String) (mode : Mode) (resolver? : Option Resolver) :
      let d := Document.ofText id text mode resolver?
      d.moduleName?.isSome → d.moduleKind?.isSome := by
    intro d hname
    unfold d Document.ofText at hname ⊢
    rw [Document.analyzed_frame] at hname ⊢
    have hname : (Source.ofText text mode).moduleName?.isSome := hname
    show ((Source.ofText text mode).module?.map (·.kind)).isSome
    unfold Source.moduleName? at hname
    cases hm : (Source.ofText text mode).module? with
    | none =>
      rw [hm] at hname
      cases hname
    | some m => rfl
  refine forall_documents_after (fun _ => Iff.rfl) ofText (fun files mode id => ?_)
    (fun d resolver h => ?_) c commands
  · unfold Document.load
    split
    · exact ofText _ _ _ _
    · exact fun hname => nomatch hname
  · rw [Document.reanalyzed_frame]
    exact h

/-- A module is found by its name when a document of either sort holds it. -/
theorem NamesExact.isSome_documentForModule? {w : Workspace} (h : w.NamesExact)
    (hsorted : w.documents.Sorted) {importable : Bool} {name : String}
    (hheld : (Members.find? (w.holders importable) name).isSome) :
    (w.documentForModule? name).isSome := by
  have present {importable : Bool} {p : Path}
      (hp : Members.find? (w.holders importable) name = some p) : (w.document? p).isSome := by
    obtain ⟨d, -, hd, -⟩ := h.holder hsorted hp
    exact Option.isSome_of_eq_some hd
  unfold documentForModule?
  cases hmodule : Members.find? w.modules name with
  | some p => exact present (show Members.find? (w.holders true) name = some p from hmodule)
  | none =>
    cases importable with
    | true =>
      rw [show Members.find? (w.holders true) name = none from hmodule] at hheld
      cases hheld
    | false =>
      obtain ⟨p, hp⟩ := Option.isSome_iff_exists.1 hheld
      rw [Option.none_or, show Members.find? w.implementations name = some p from hp]
      exact present hp

/-- **Names of modules.**  In every workspace that a run comes to, whoever holds the name of a
module that can be imported, or of an implementation module, is a document that is there and
declares it; and every module that a document declares is held among those of its sort.  So a
module is found by its name exactly when a document declares it. -/
theorem names_after (c : Config) (commands : List Command) :
    let w := after c commands
    (∀ name p, Members.find? w.modules name = some p →
        ∃ d kind, w.document? p = some d ∧ d.moduleName? = some name ∧
          d.moduleKind? = some kind ∧ kind.isImportable) ∧
      (∀ name p, Members.find? w.implementations name = some p →
        ∃ d, w.document? p = some d ∧ d.moduleName? = some name ∧
          d.moduleKind? = some .implementation) ∧
      (∀ d ∈ w.documents.toList, ∀ name kind, d.moduleName? = some name →
        d.moduleKind? = some kind →
          (Members.find? (if kind.isImportable then w.modules else w.implementations)
            name).isSome) ∧
      ∀ name, (w.documentForModule? name).isSome ↔
        ∃ d ∈ w.documents.toList, d.moduleName? = some name := by
  intro w
  have h : w.NamesExact := namesExact_after c commands
  have hsorted : w.documents.Sorted := (consistent_after c commands).edged.sorted
  have inModules {name : String} {p : Path} (hp : Members.find? w.modules name = some p) :=
    NamesExact.holder h hsorted (show Members.find? (w.holders true) name = some p from hp)
  have inImplementations {name : String} {p : Path}
      (hp : Members.find? w.implementations name = some p) :=
    NamesExact.holder h hsorted (show Members.find? (w.holders false) name = some p from hp)
  refine ⟨fun name p => inModules, fun name p hp => ?_, fun d hd name kind hname hkind => ?_,
    fun name => ⟨fun hfound => ?_, fun ⟨d, hd, hname⟩ => ?_⟩⟩
  · obtain ⟨d, kind, hd, hname, hkind, hsort⟩ := inImplementations hp
    cases kind with
    | implementation => exact ⟨d, hd, hname, hkind⟩
    | definition | main | plain => cases hsort
  · have held := h.isSome_holder hd hname hkind
    cases hsort : kind.isImportable <;> rw [hsort] at held <;> exact held
  · obtain ⟨d, hd⟩ := Option.isSome_iff_exists.1 hfound
    obtain ⟨p, hp, hdp⟩ := Option.bind_eq_some_iff.1 hd
    have named : ∃ e, w.document? p = some e ∧ e.moduleName? = some name := by
      rcases Option.or_eq_some_iff.1 hp with hp | ⟨-, hp⟩
      · obtain ⟨e, -, he, hname, -⟩ := inModules hp
        exact ⟨e, he, hname⟩
      · obtain ⟨e, -, he, hname, -⟩ := inImplementations hp
        exact ⟨e, he, hname⟩
    obtain ⟨e, he, hname⟩ := named
    exact ⟨e, (Documents.mem_of_find? he).1, hname⟩
  · obtain ⟨kind, hkind⟩ := Option.isSome_iff_exists.1
      (moduleKind?_after c commands d hd (Option.isSome_of_eq_some hname))
    exact h.isSome_documentForModule? hsorted (h.isSome_holder hd hname hkind)

end SimFront.Workspace
