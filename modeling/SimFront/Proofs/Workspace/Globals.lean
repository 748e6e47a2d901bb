import SimFront.Proofs.Workspace.Findings
import SimFront.Proofs.Workspace.Merge
import SimFront.Proofs.Workspace.SecondPass

/-!
# The global table of a workspace

All symbol tables of a workspace come from analyses, and every command that changes it ends
with a merge (`merged_after`).  A merge gives each name to the offer that wins, which need
not be the first (`globals_merged`); so what is found under a name is always what the current
documents make of it (`lookupGlobal?_after`).
-/

namespace SimFront

/-! ## Tables of analyses -/

namespace Document

/-- The table, if there is one, is that of an analysis. -/
def FromAnalysis (d : Document) : Prop :=
  ∀ t, d.table? = some t → ∃ resolver? m, t = (analyze resolver? m).table

theorem FromAnalysis.named {d : Document} (h : d.FromAnalysis) {t : SymbolTable}
    (ht : d.table? = some t) : t.Named := by
  obtain ⟨resolver?, m, rfl⟩ := h t ht
  exact named_after resolver? m

theorem fromAnalysis_content (d : Document) : d.content.FromAnalysis ↔ d.FromAnalysis := Iff.rfl

theorem FromAnalysis.analyzed {d : Document} (h : d.FromAnalysis) (resolver? : Option Resolver) :
    (d.analyzed resolver?).FromAnalysis := by
  unfold Document.analyzed
  split
  · exact h
  · next m _ => exact fun t ht => ⟨resolver?, m, (Option.some.inj ht).symm⟩

theorem FromAnalysis.reanalyzed {d : Document} (h : d.FromAnalysis) (resolver : Resolver) :
    (d.reanalyzed resolver).FromAnalysis := by
  unfold Document.reanalyzed
  split
  · exact h.analyzed _
  · exact h

theorem fromAnalysis_ofText (id : Path) (text : String) (mode : Mode)
    (resolver? : Option Resolver) : (ofText id text mode resolver?).FromAnalysis := by
  refine FromAnalysis.analyzed ?_ resolver?
  rintro _ ⟨⟩

theorem fromAnalysis_load (files : FileTree) (mode : Mode) (id : Path) :
    (load files mode id).FromAnalysis := by
  unfold load
  split
  · exact fromAnalysis_ofText _ _ _ _
  · rintro _ ⟨⟩

end Document

namespace Documents

/-- All tables are those of analyses. -/
def FromAnalyses (ds : Documents) : Prop := ∀ d ∈ ds.toList, d.FromAnalysis

end Documents

namespace Workspace

/-! ## Along a run -/

/-- The global table is merged from the documents, whose tables come from analyses. -/
structure Merged (w : Workspace) : Prop where
  fromAnalyses : w.documents.FromAnalyses
  globals : w.globals = .ofDocuments w.documents

theorem fromAnalyses_after (c : Config) (commands : List Command) :
    (after c commands).documents.FromAnalyses :=
  forall_documents_after Document.fromAnalysis_content Document.fromAnalysis_ofText
    Document.fromAnalysis_load (fun _ resolver h => h.reanalyzed resolver) c commands

/-- Every command that changes a workspace ends with a merge. -/
theorem globals_performed {w v : Workspace} (h : w.globals = .ofDocuments w.documents)
    (hv : Performed w v) : v.globals = .ofDocuments v.documents := by
  cases hv with
  | nothing => exact h
  | indexed _ => rfl
  | opened id text => rfl
  | removed _ =>
    rw [removeDocument_eq]
    rfl

theorem merged_after (c : Config) (commands : List Command) : (after c commands).Merged where
  fromAnalyses := fromAnalyses_after c commands
  globals := by
    refine after_induction (P := fun w => w.globals = .ofDocuments w.documents) ?_
      (fun _ h hv => globals_performed h hv) commands
    unfold GlobalTable.ofDocuments GlobalTable.mergeOrder
    rw [List.mergeSort_nil]
    rfl

/-! ## Looking up a name -/

theorem lookupGlobal?_of_merged {w : Workspace} (h : w.Merged) (name : String) :
    w.lookupGlobal? name =
      GlobalTable.winner? ((GlobalTable.mergeOrder w.documents).filterMap (·.offer? name)) := by
  show w.globals.find? name = _
  rw [h.globals, GlobalTable.find?_ofDocuments fun d hd t ht => (h.fromAnalyses d hd).named ht,
    GlobalTable.foldl_settle]

/-- In every workspace that a run comes to, a name stands for the winner among what the
documents offer for it. -/
theorem lookupGlobal?_after (c : Config) (commands : List Command) (name : String) :
    let w := after c commands
    w.lookupGlobal? name =
      GlobalTable.winner? ((GlobalTable.mergeOrder w.documents).filterMap (·.offer? name)) :=
  lookupGlobal?_of_merged (merged_after c commands) name

/-- **Global names.**  Documents offer their own top-level symbols in the order of their
dependency counts and then of their paths.  After a merge a name stands for the winner among
the offers for it, and for nothing exactly when no document makes one.  It stands for the first
offer exactly when that is no procedure heading or no procedure is among the later ones. -/
theorem globals_merged {w : Workspace} (hsorted : w.documents.Sorted)
    (hanalyses : w.documents.FromAnalyses) :
    let order := GlobalTable.mergeOrder w.documents
    order.Perm w.documents.toList ∧ order.Pairwise Document.Before ∧ ∀ name,
      let offers := order.filterMap (·.offer? name)
      let found := w.rebuildGlobal.lookupGlobal? name
      found = GlobalTable.winner? offers ∧
        (found = none ↔ ∀ d ∈ w.documents.toList, d.offer? name = none) ∧
        (found = order.findSome? (·.offer? name) ↔
          ∀ first ∈ offers.head?, first.1.isHeading →
            ∀ later ∈ offers.tail, later.1.kind ≠ .procedure) := by
  intro order
  refine ⟨GlobalTable.mergeOrder_perm _, GlobalTable.mergeOrder_before hsorted, fun name => ?_⟩
  intro offers found
  have hfound : found = GlobalTable.winner? offers :=
    lookupGlobal?_of_merged (w := w.rebuildGlobal) ⟨hanalyses, rfl⟩ name
  refine ⟨hfound, ?_, ?_⟩
  · rw [hfound, GlobalTable.winner?_eq_none, List.filterMap_eq_nil_iff]
    exact forall_congr' fun d =>
      imp_congr_left (GlobalTable.mergeOrder_perm w.documents).mem_iff
  · rw [hfound, ← List.head?_filterMap]
    exact GlobalTable.winner?_eq_head? (GlobalTable.offers_apart hsorted name)

/-- A procedure of another module takes the name from a heading that comes first. -/
theorem globals_merged_of_heading :
    let w := after {} [.openText ⟨"a.mod"⟩ "DEFINITION MODULE A; PROCEDURE P; END MODULE.",
      .openText ⟨"b.mod"⟩ "MODULE B; PROCEDURE P; BEGIN END PROCEDURE; END MODULE."]
    w.documents.Sorted ∧ w.documents.FromAnalyses ∧
      ((GlobalTable.mergeOrder w.documents).findSome? (·.offer? "P")).map (·.2.text) =
        some "a.mod" ∧
      (w.rebuildGlobal.lookupGlobal? "P").map (·.2.text) = some "b.mod" := by
  intro w
  have hsorted : w.documents.Sorted := (consistent_after _ _).edged.sorted
  have hanalyses : w.documents.FromAnalyses := (merged_after _ _).fromAnalyses
  have horder : GlobalTable.mergeOrder w.documents = w.documents.toList :=
    GlobalTable.mergeOrder_of_sorted (by decide +kernel)
  refine ⟨hsorted, hanalyses, ?_, ?_⟩
  · rw [horder]
    decide +kernel
  · rw [((globals_merged hsorted hanalyses).2.2 "P").1, horder]
    decide +kernel

end Workspace

end SimFront
