import SimFront.Proofs.Workspace.SecondPass

/-!
# The texts behind the documents

A client that opens, updates and removes documents leaves a text at some paths, which can
be told from what it did alone (`textsAfter`).  The documents of the workspace are those
of these texts (`collects_after`), each with the content that some analysis of its text
gives it; and so are documents that were installed, whatever the workspace held before
(`collects_install`).
-/

namespace SimFront

/-! ## Changes and texts -/

/-- What a client does to a single document. -/
inductive Change where
  | openText (id : Path) (text : String)
  | update (id : Path) (text : String)
  | remove (id : Path)

/-- The texts at some paths. -/
abbrev Texts : Type := Path → Option String

namespace Change

def command : Change → Command
  | openText id text => .openText id text
  | update id text => .update id text
  | remove id => .remove id

/-- The texts after a change.  An update needs a text that is there. -/
def texts (before : Texts) : Change → Texts
  | openText id text, p => if id == p then some text else before p
  | update id text, p => if id == p then (before p).map fun _ => text else before p
  | remove id, p => if id == p then none else before p

end Change

/-- The texts that a client leaves. -/
def textsAfter (changes : List Change) : Texts := changes.foldl Change.texts fun _ => none

/-! ## Documents of texts -/

namespace Document

/-- The content of the document is what an analysis of a text gives, whatever it knew of other
modules. -/
def Reads (mode : Mode) (text : String) (d : Document) : Prop :=
  ∃ resolver?, d.content = ofText d.id text mode resolver?

theorem Reads.of_content {mode : Mode} {text : String} {d e : Document}
    (h : d.Reads mode text) (heq : e.content = d.content) : e.Reads mode text := by
  obtain ⟨resolver?, hd⟩ := h
  have hid : e.id = d.id := congrArg (·.id) heq
  exact ⟨resolver?, by rw [heq, hd, hid]⟩

theorem content_ofText (id : Path) (text : String) (mode : Mode) (resolver? : Option Resolver) :
    (ofText id text mode resolver?).content = ofText id text mode resolver? := by
  unfold ofText
  rw [analyzed_frame]
  rfl

@[simp] theorem ofText_id (id : Path) (text : String) (mode : Mode)
    (resolver? : Option Resolver) : (ofText id text mode resolver?).id = id := by
  unfold ofText
  rw [analyzed_frame]
  rfl

theorem reads_ofText (id : Path) (text : String) (mode : Mode) (resolver? : Option Resolver) :
    (ofText id text mode resolver?).Reads mode text :=
  ⟨resolver?, by rw [content_ofText, ofText_id]⟩

theorem content_analyzed (d : Document) (resolver? : Option Resolver) :
    (d.analyzed resolver?).content = d.content.analyzed resolver? := by
  unfold analyzed content
  dsimp only
  split <;> rfl

/-- Another analysis of the same text makes no difference. -/
theorem Reads.reanalyzed {mode : Mode} {text : String} {d : Document} (h : d.Reads mode text)
    (resolver : Resolver) : (d.reanalyzed resolver).Reads mode text := by
  unfold Document.reanalyzed
  split
  · obtain ⟨resolver?, hd⟩ := h
    refine ⟨some resolver, ?_⟩
    have hid : (d.analyzed (some resolver)).id = d.id := by rw [analyzed_frame]
    rw [content_analyzed, hd, hid]
    exact analyzed_analyzed _ _ _
  · exact h

end Document

/-- Documents of different paths, one for each text that there is. -/
structure Collects (mode : Mode) (texts : Texts) (documents : List Document) : Prop where
  distinct : documents.Pairwise fun d e => (d.id == e.id) = false
  read : ∀ d ∈ documents, ∃ text, texts d.id = some text ∧ d.Reads mode text
  complete : ∀ p, (texts p).isSome → ∃ d ∈ documents, d.id == p

namespace Workspace

/-! ## Along the changes -/

theorem document?_congr (w : Workspace) {p q : Path} (h : p == q) :
    w.document? p = w.document? q := by
  unfold document? Documents.find?
  congr 1
  funext d
  exact BEq.congr_right h

@[simp] theorem removeDocument_config (w : Workspace) (d : Document) :
    (w.removeDocument d).config = w.config := by
  rw [removeDocument_eq]
  show (List.foldl link _ _).config = _
  rw [foldl_link_eq]
  cases d.moduleName? <;> rfl

theorem Performed.config_eq {w v : Workspace} (hv : Performed w v) : v.config = w.config := by
  cases hv with
  | nothing => rfl
  | indexed _ => exact firstPass_config _ _
  | opened id text => exact replace_config _ _
  | removed _ => exact removeDocument_config _ _

/-- No command changes the configuration. -/
theorem config_after (c : Config) (commands : List Command) : (after c commands).config = c :=
  after_induction (P := fun w => w.config = c) rfl (fun _ h hv => hv.config_eq.trans h) commands

/-- At each path there is a document of the text, or neither document nor text. -/
def Stores (w : Workspace) (texts : Texts) : Prop :=
  ∀ p, Option.Rel (fun d text => d.Reads w.config.mode text) (w.content? p) (texts p)

theorem Stores.isSome_iff {w : Workspace} {texts : Texts} (h : w.Stores texts) (p : Path) :
    (w.document? p).isSome = (texts p).isSome := by
  have hp := h p
  unfold content? at hp
  cases hd : w.document? p <;> cases ht : texts p <;> rw [hd, ht] at hp <;>
    first | rfl | cases hp

theorem Stores.openDocument {w : Workspace} {texts : Texts} (h : w.Stores texts)
    (hsorted : w.documents.Sorted) (id : Path) (text : String) :
    (w.openDocument id text).Stores ((Change.openText id text).texts texts) := by
  intro p
  unfold Workspace.openDocument
  rw [replace_config, content?_replace hsorted, analyzeText_id]
  simp only [Change.texts]
  split
  · exact .some ((Document.reads_ofText id text _ (some w.resolver)).of_content rfl)
  · exact h p

/-- The texts change with the documents. -/
theorem Stores.perform {w : Workspace} {texts : Texts} (h : w.Stores texts)
    (hsorted : w.documents.Sorted) (change : Change) :
    (w.perform change.command).Stores (change.texts texts) := by
  cases change with
  | openText id text => exact h.openDocument hsorted id text
  | update id text =>
    unfold Change.command
    rw [perform_update]
    -- an update opens the document when it is known
    have known : w.documents.contains id = (w.document? id).isSome := rfl
    have atPath {p : Path} (hp : id == p) :
        (texts p).isSome = w.documents.contains id := by
      rw [← h.isSome_iff, ← document?_congr w hp, known]
    split
    · next hknown =>
      intro p
      have opened := h.openDocument hsorted id text p
      simp only [Change.texts] at opened ⊢
      cases hp : id == p with
      | true =>
        obtain ⟨old, hold⟩ := Option.isSome_iff_exists.1 ((atPath hp).trans hknown)
        rw [hp, if_pos rfl] at opened
        rw [if_pos rfl, hold]
        exact opened
      | false =>
        rw [hp, if_neg Bool.false_ne_true] at opened
        rw [if_neg Bool.false_ne_true]
        exact opened
    · next hunknown =>
      intro p
      simp only [Change.texts]
      split
      · next hp =>
        have none : texts p = none := by
          rw [← Option.not_isSome_iff_eq_none, atPath hp]
          exact hunknown
        have hp := h p
        rw [none] at hp ⊢
        exact hp
      · exact h p
  | remove id =>
    unfold Change.command
    rw [perform_remove]
    split
    · next d hd =>
      intro p
      have hid : d.id == id := (Documents.mem_of_find? hd).2
      rw [removeDocument_config, content?_removeDocument, BEq.congr_left hid]
      simp only [Change.texts]
      split
      · exact .none
      · exact h p
    · next hd =>
      intro p
      simp only [Change.texts]
      split
      · next hp =>
        have hnone : w.document? p = none := by
          rw [← document?_congr w hp]
          exact hd
        unfold content?
        rw [hnone]
        exact .none
      · exact h p

theorem stores_after (c : Config) (changes : List Change) :
    (after c (changes.map Change.command)).Stores (textsAfter changes) := by
  have run (changes : List Change) : ∀ (w : Workspace) (texts : Texts), w.Consistent →
      w.Stores texts →
        ((changes.map Change.command).foldl Workspace.perform w).Stores
          (changes.foldl Change.texts texts) := by
    induction changes with
    | nil => exact fun _ _ _ h => h
    | cons change changes ih =>
      exact fun w texts hw h => ih _ _ (hw.perform _) (h.perform hw.edged.sorted change)
  exact run changes { config := c } _ (consistent_new c) fun _ => .none

theorem Stores.collects {w : Workspace} {texts : Texts} (h : w.Stores texts)
    (hsorted : w.documents.Sorted) : Collects w.config.mode texts w.documents.toList where
  distinct := hsorted.imp Path.not_beq_of_lt
  read := by
    intro d hd
    have hfound : w.document? d.id = some d := hsorted.find?_eq_some.2 ⟨hd, BEq.rfl⟩
    have hrel := h d.id
    unfold content? at hrel
    rw [hfound] at hrel
    cases htext : texts d.id with
    | none =>
      rw [htext] at hrel
      cases hrel
    | some text =>
      rw [htext] at hrel
      cases hrel with
      | some hreads => exact ⟨text, rfl, hreads.of_content rfl⟩
  complete := by
    intro p hp
    rw [← h.isSome_iff] at hp
    obtain ⟨d, hd⟩ := Option.isSome_iff_exists.1 hp
    exact ⟨d, Documents.mem_of_find? hd⟩

/-- The documents that a client leaves are those of the texts that it leaves. -/
theorem collects_after (c : Config) (changes : List Change) :
    Collects c.mode (textsAfter changes)
      (after c (changes.map Change.command)).documents.toList := by
  have collected := (stores_after c changes).collects (consistent_after c _).edged.sorted
  rw [config_after] at collected
  exact collected

/-! ## Installing -/

/-- Installing documents of texts leaves documents of the texts. -/
theorem collects_install {mode : Mode} {texts : Texts} {documents : List Document}
    (h : Collects mode texts documents) (w : Workspace) :
    Collects mode texts (w.install documents).documents.toList where
  distinct := (consistent_install w documents).edged.sorted.imp Path.not_beq_of_lt
  read := by
    refine forall_install (P := fun d => ∃ text, texts d.id = some text ∧ d.Reads mode text)
      (fun d => ?_) (fun d resolver => ?_) w h.read
    · exact exists_congr fun text => and_congr_right fun _ =>
        ⟨fun hreads => hreads.of_content rfl, fun hreads => hreads.of_content rfl⟩
    · rintro ⟨text, htext, hreads⟩
      refine ⟨text, ?_, hreads.reanalyzed resolver⟩
      rw [Document.reanalyzed_frame]
      exact htext
  complete := by
    intro p hp
    obtain ⟨d, hd, hdp⟩ := h.complete p hp
    obtain ⟨e, he, hed⟩ := mem_of_withoutEdges_eq (w.firstPass_withoutEdges documents)
      (Documents.mem_ofList_of_mem h.distinct hd)
    have hid : e.id = d.id := congrArg (·.id) hed
    rw [install_documents]
    refine ⟨_, Documents.mem_map.2 ⟨e, he, rfl⟩, ?_⟩
    rw [Document.reanalyzed_frame]
    show e.id == p
    rw [hid]
    exact hdp

end Workspace

end SimFront
