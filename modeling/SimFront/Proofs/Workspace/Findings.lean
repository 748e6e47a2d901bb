import SimFront.Proofs.Check.Declarations
import SimFront.Proofs.Workspace.Contents

/-!
# What a workspace finds in a document

The findings on a document are its symbol table and its reports.  After a text was put
into a document they are those of an analysis with the modules as they were before
(`findings_openDocument`).  The modules that are known before and after tell the same of
every name that is held by another document (`find?_resolver_openDocument`), so that
the findings are up to date unless the text asks for a module that the document itself
declared before (`findings_after_edit`).
-/

namespace SimFront

namespace Document

/-- The symbol table and the reports. -/
def findings (d : Document) : Option SymbolTable × List Diagnostic := (d.table?, d.diagnostics)

end Document

/-- Every entry of a name that is there once is replaced or left out. -/
theorem Members.find?_filterMap {α β : Type} {ms : Members α} (f : α → Option β)
    (h : ms.Distinct) (name : String) :
    find? (ms.filterMap fun e => (f e.2).map fun b => (e.1, b)) name = (find? ms name).bind f := by
  unfold find?
  induction ms with
  | nil => rfl
  | cons e rest ih =>
    obtain ⟨n, a⟩ := e
    obtain ⟨hn, hrest⟩ := List.nodup_cons.1 h
    rw [List.lookup_cons]
    by_cases hname : name = n
    · subst hname
      rw [beq_self_eq_true, Option.bind_some]
      cases hb : f a with
      | some b =>
        rw [List.filterMap_cons_some (b := (name, b)) (by rw [hb]; rfl), List.lookup_cons,
          beq_self_eq_true]
      | none =>
        -- the rest has no entry of the name
        have absent : List.lookup name rest = none := by
          refine List.lookup_eq_none_iff.2 fun e he => ?_
          rw [bne_iff_ne]
          exact fun heq => hn (List.mem_map.2 ⟨e, he, heq.symm⟩)
        rw [List.filterMap_cons_none (by rw [hb]; rfl), ih hrest, absent, Option.bind_none]
    · rw [beq_false_of_ne hname]
      cases hb : f a with
      | some b =>
        rw [List.filterMap_cons_some (b := (n, b)) (by rw [hb]; rfl), List.lookup_cons,
          beq_false_of_ne hname]
        exact ih hrest
      | none =>
        rw [List.filterMap_cons_none (by rw [hb]; rfl)]
        exact ih hrest

namespace Workspace

/-- What a workspace found in a document that it has. -/
def findings (w : Workspace) (id : Path) : Option (Option SymbolTable × List Diagnostic) :=
  (w.document? id).map Document.findings

/-! ## The resolver -/

/-- The resolver tells of a module the table of the document that holds its name. -/
theorem find?_resolver {w : Workspace} (h : w.modules.Distinct) (name : String) :
    w.resolver.find? name =
      (Members.find? w.modules name).bind fun id => (w.document? id).bind (·.table?) :=
  Members.find?_filterMap (fun id => (w.document? id).bind (·.table?)) h name

/-- The tables are a part of the findings. -/
theorem table?_of_findings {d? e? : Option Document}
    (h : d?.map Document.findings = e?.map Document.findings) :
    d?.bind (·.table?) = e?.bind (·.table?) := by
  have same (d? : Option Document) :
      d?.bind (·.table?) = (d?.map Document.findings).bind Prod.fst := by
    cases d? <;> rfl
  rw [same, h, ← same]

/-! ## Putting a text into a document -/

/-- The findings on a document are those on its content. -/
theorem findings_eq_content? (w : Workspace) (id : Path) :
    w.findings id = (w.content? id).map Document.findings := by
  unfold findings content?
  rw [Option.map_map]
  rfl

/-- The new document is found at its path, and the others as before. -/
theorem findings_replace {w : Workspace} (h : w.documents.Sorted) (d : Document) (id : Path) :
    (w.replace d).findings id = if d.id == id then some d.findings else w.findings id := by
  rw [findings_eq_content?, content?_replace h, findings_eq_content?]
  split <;> rfl

/-- The document at the path of a new document declares what the new document does. -/
theorem declares_replace {w : Workspace} (h : w.documents.Sorted) {d e : Document}
    (he : e ∈ (w.replace d).documents.toList) (hid : e.id == d.id) : e.declares = d.declares := by
  obtain ⟨x, hx, hxe⟩ := mem_of_withoutEdges_eq (w.replace_withoutEdges d).symm he
  have hdeclares : e.declares = x.declares := Document.declares_of_withoutEdges hxe.symm
  have hxid : x.id = e.id := congrArg (·.id) hxe
  rcases h.mem_insert.1 hx with rfl | ⟨-, hne⟩
  · exact hdeclares.trans (inherit_declares d _)
  · rw [inherit_id, hxid, BEq.symm hid] at hne
    cases hne

/-- A document holds the name of a module that others can import. -/
def holdsName (w : Workspace) (id : Path) (name : String) : Bool :=
  (Members.find? w.modules name).any (· == id)

/-- A name that a document releases is the only one that changes hands, and only when the
document held it. -/
theorem find?_release_of_other (ds : Documents) (importable : Bool) (id : Path) (name : String)
    {holders : Members Path} {n : String} (h : (Members.find? holders n).any (· == id) = false) :
    Members.find? (release ds importable id name holders) n = Members.find? holders n := by
  by_cases hn : n = name
  · subst hn
    unfold release
    rw [h, if_neg Bool.false_ne_true]
  · exact find?_release_of_ne ds importable id holders hn

/-- Bringing the names up to date changes nothing on a name that the new document does not
declare and the one before did not hold. -/
theorem find?_rename_of_other {w : Workspace} {d e : Document} {previous? : Option Document}
    (he : w.document? d.id = some e) (hdecl : e.declares = d.declares) {n : String}
    (hn : d.declares true n = false) (h : w.holdsName d.id n = false) :
    Members.find? (w.rename d previous?).modules n = Members.find? w.modules n := by
  have released (previousName? : Option String) :
      Members.find? (w.unregisterPrevious d.id previousName?).modules n =
        Members.find? w.modules n := by
    cases previousName? with
    | none => rfl
    | some name => exact find?_release_of_other w.documents true d.id name h
  unfold rename
  split
  · rw [← released (previous?.bind (·.moduleName?))]
    rcases register_holders (w.unregisterPrevious d.id (previous?.bind (·.moduleName?))) d.id
      true with ⟨hm, -⟩ | ⟨c, name, hc, hcdecl, hm⟩
    · exact congrArg (Members.find? · n) hm
    · refine (congrArg (Members.find? · n) hm).trans (find?_claim_of_ne _ _ fun heq => ?_)
      subst heq
      have hce : some c = some e := by
        rw [← hc, ← he]
        unfold document?
        rw [unregisterPrevious_documents]
      obtain rfl := Option.some.inj hce
      rw [hdecl, hn] at hcdecl
      cases hcdecl
  · rfl

/-- A module that another document holds is known as before. -/
theorem find?_resolver_replace {w : Workspace} (h : w.Consistent) {d : Document}
    (hdeps : d.dependencies = {}) (hdependents : d.dependents = {}) {n : String}
    (hn : d.declares true n = false) (hother : w.holdsName d.id n = false) :
    (w.replace d).resolver.find? n = w.resolver.find? n := by
  let inserted := { w with documents := w.documents.insert (inherit d (w.document? d.id)) }
  have hd : inserted.document? d.id = some (inherit d (w.document? d.id)) := by
    refine (h.edged.sorted.find?_insert _ _).trans (if_pos ?_)
    rw [inherit_id]
    exact BEq.rfl
  have names : Members.find? (w.replace d).modules n = Members.find? w.modules n := by
    refine (congrArg (Members.find? · n) (w.replace_holders d true)).trans ?_
    exact find?_rename_of_other (w := inserted) hd (inherit_declares d _) hn hother
  rw [find?_resolver (h.replace hdeps hdependents).modulesDistinct, find?_resolver h.modulesDistinct,
    names]
  refine Option.bind_congr fun p hp => table?_of_findings ?_
  have hpd : (p == d.id) = false := by
    unfold holdsName at hother
    rw [hp] at hother
    exact hother
  refine (findings_replace h.edged.sorted d p).trans (if_neg ?_)
  rw [BEq.comm, hpd]
  exact Bool.false_ne_true

/-! ## Texts and what they ask for -/

/-- The modules that the analysis of a text asks for. -/
def asked (w : Workspace) (text : String) : List String :=
  match (Source.ofText text w.config.mode).module? with
  | some m => (analyze (some w.resolver) m).asked
  | none => []

@[simp] theorem analyzeText_id (w : Workspace) (id : Path) (text : String) :
    (w.analyzeText id text).id = id := by
  unfold analyzeText Document.ofText
  rw [Document.analyzed_frame]
  rfl

theorem analyzeText_declares (w : Workspace) (id : Path) (text : String) :
    (w.analyzeText id text).declares =
      (Document.ofSource id (.ofText text w.config.mode)).declares := by
  unfold analyzeText Document.ofText
  rw [Document.analyzed_frame]
  rfl

/-- A text does not ask for the module that it declares itself, if others can import it. -/
theorem not_declares_of_asked {w : Workspace} {id : Path} {text n : String}
    (h : n ∈ w.asked text) : (w.analyzeText id text).declares true n = false := by
  rw [analyzeText_declares, ← Bool.not_eq_true]
  intro hdecl
  unfold Document.declares Document.moduleKind? Document.ofSource Source.moduleName? at hdecl
  unfold asked at h
  rw [Bool.and_eq_true, decide_eq_true_eq] at hdecl
  obtain ⟨hname, hkind⟩ := hdecl
  split at h
  · next m hm =>
    dsimp only at hname hkind
    rw [hm] at hname hkind
    obtain ⟨hname, -⟩ := Option.filter_eq_some_iff.1 hname
    obtain rfl : m.name.name = n := Option.some.inj hname
    rw [Option.map_some, Option.any_some, own_name_asked h] at hkind
    cases hkind
  · cases h

/-- Resolvers that tell the same of what a text asks for lead to the same findings. -/
theorem analyzeText_findings_congr {w v : Workspace} (hconfig : v.config = w.config) {text : String}
    (h : ∀ n ∈ w.asked text, v.resolver.find? n = w.resolver.find? n) (id : Path) :
    (v.analyzeText id text).findings = (w.analyzeText id text).findings := by
  unfold asked at h
  unfold analyzeText Document.ofText Document.analyzed
  rw [hconfig]
  dsimp only [Document.ofSource]
  split at h
  · next m hm =>
    rw [hm]
    dsimp only
    rw [analyze_congr h]
  · next hm => rw [hm]

/-! ## After an edit -/

@[simp] theorem replace_config (w : Workspace) (d : Document) :
    (w.replace d).config = w.config := by
  show ((d.id :: _).foldl link _).config = _
  rw [foldl_link_eq]
  unfold rename
  split
  · rw [register_config]
    cases (w.document? d.id).bind (·.moduleName?) <;> rfl
  · rfl

/-- The findings on a text that is put into a document are those with the modules as they were
before. -/
theorem findings_openDocument {w : Workspace} (h : w.Consistent) (id : Path) (text : String) :
    (w.openDocument id text).findings id = some (w.analyzeText id text).findings := by
  refine (findings_replace h.edged.sorted _ id).trans (if_pos ?_)
  rw [analyzeText_id]
  exact BEq.rfl

/-- What a text asks for is known after it was put into a document as it was before, unless the
document held it. -/
theorem find?_resolver_openDocument {w : Workspace} (h : w.Consistent) {id : Path} {text n : String}
    (hn : n ∈ w.asked text) (hother : w.holdsName id n = false) :
    (w.openDocument id text).resolver.find? n = w.resolver.find? n := by
  obtain ⟨hdeps, hdependents⟩ := w.analyzeText_edges id text
  refine find?_resolver_replace h hdeps hdependents (not_declares_of_asked hn) ?_
  rw [analyzeText_id]
  exact hother

/-- A document does not hold what the text asks for that was put into it. -/
theorem holdsName_of_asked {w : Workspace} (h : w.Consistent) {id : Path} {text n : String}
    (hn : n ∈ w.asked text) : (w.openDocument id text).holdsName id n = false := by
  rw [← Bool.not_eq_true]
  intro hheld
  obtain ⟨p, hp, hpid⟩ := (Option.any_eq_true _ _).1 hheld
  obtain ⟨e, he, hep, hdecl⟩ := (h.openDocument id text).modulesHeld n p hp
  have hid : e.id == (w.analyzeText id text).id := by
    rw [analyzeText_id]
    exact BEq.trans hep hpid
  rw [declares_replace h.edged.sorted he hid, not_declares_of_asked hn] at hdecl
  cases hdecl

/-- A command puts a text into a document. -/
def Edits (w : Workspace) (id : Path) (text : String) : Command → Prop
  | .openText p t => p = id ∧ t = text
  | .openFile files p => p = id ∧ files.readSource p w.config.extension = .ok text
  | .update p t => p = id ∧ t = text ∧ w.documents.contains p
  | .index _ | .remove _ => False

theorem perform_of_edits {w : Workspace} {id : Path} {text : String} {command : Command}
    (h : w.Edits id text command) : w.perform command = w.openDocument id text := by
  cases command with
  | index files => exact h.elim
  | openText p t =>
    obtain ⟨rfl, rfl⟩ := h
    rfl
  | openFile files p =>
    obtain ⟨rfl, hread⟩ := h
    rw [perform_openFile, hread]
  | update p t =>
    obtain ⟨rfl, rfl, hknown⟩ := h
    rw [perform_update, if_pos hknown]
  | remove p => exact h.elim

/-- Once a text was put into a document, the findings on it are those of its analysis with the
modules as they were before.  None of the modules that it asks for is one that the document
holds now; and if none is one that the document held before, the findings are those of its
analysis with the modules as they are now. -/
theorem findings_after_edit (c : Config) (commands : List Command) {command : Command} {id : Path}
    {text : String} (hedit : (after c commands).Edits id text command) :
    let before := after c commands
    let now := before.perform command
    now.findings id = some (before.analyzeText id text).findings ∧
      (∀ n ∈ before.asked text, now.holdsName id n = false) ∧
      ((∀ n ∈ before.asked text, before.holdsName id n = false) →
        now.findings id = some (now.analyzeText id text).findings) := by
  intro before now
  have h : before.Consistent := consistent_after c commands
  have hnow : now = before.openDocument id text := perform_of_edits hedit
  have stored : now.findings id = some (before.analyzeText id text).findings := by
    rw [hnow]
    exact findings_openDocument h id text
  refine ⟨stored, fun n hn => ?_, fun hother => ?_⟩
  · rw [hnow]
    exact holdsName_of_asked h hn
  · have hconfig : now.config = before.config := by
      rw [hnow]
      exact replace_config _ _
    have known : ∀ n ∈ before.asked text, now.resolver.find? n = before.resolver.find? n := by
      intro n hn
      rw [hnow]
      exact find?_resolver_openDocument h hn (hother n hn)
    rw [stored, analyzeText_findings_congr hconfig known id]

/-- A document that held `M` before asks for another module. -/
theorem findings_after_update_importing_other :
    let a : Path := ⟨"a.mod"⟩
    let text := "MODULE N; FROM P IMPORT x; END MODULE."
    let before := after {} [.openText a "DEFINITION MODULE M; VAR x: INTEGER; END MODULE."]
    let now := before.perform (.update a text)
    before.Edits a text (.update a text) ∧ before.holdsName a "M" ∧ before.asked text = ["P"] ∧
      now.findings a = some (now.analyzeText a text).findings := by
  intro a text before now
  have hedit : before.Edits a text (.update a text) := ⟨rfl, rfl, by decide +kernel⟩
  have hasked : before.asked text = ["P"] := by decide +kernel
  have hother : ∀ n ∈ before.asked text, before.holdsName a n = false := by
    rw [hasked]
    decide +kernel
  refine ⟨hedit, by decide +kernel, hasked, ?_⟩
  exact (findings_after_edit {} _ hedit).2.2 hother

/-- A text that imports the module that the document held before still finds it; analysed once
more, it does not. -/
example :
    let a : Path := ⟨"a.mod"⟩
    let text := "MODULE N; FROM M IMPORT x; END MODULE."
    let before := after {} [.openText a "DEFINITION MODULE M; VAR x: INTEGER; END MODULE."]
    let now := before.perform (.update a text)
    now.diagnostics a = [] ∧ (now.analyzeText a text).diagnostics.length = 1 := by
  decide +kernel

end Workspace

end SimFront
