import SimFront.Proofs.Check.ConfinedModule
import SimFront.Proofs.Workspace.Findings

/-!
# What indexing finds

Indexing analyses each document on its own, and then once more, with the tables of the
first analyses, each document that depends on other modules.  So the findings on such a
document are those of its text with the workspace of the first pass
(`findings_install`), and not with the finished one: what a name is declared as gets no
further than from one document to the next.  The findings would be the same with the
finished workspace when the modules that the document asks for kept their tables in the
second pass (`findings_after_index`).  A document that imports nothing is left out, which
changes nothing if no other module is known that it names in front of types
(`analyzed_of_unknown_qualifiers`).
-/

namespace SimFront

/-! ## Documents of files -/

namespace Document

theorem analyzed_analyzed (d : Document) (r? r'? : Option Resolver) :
    (d.analyzed r?).analyzed r'? = d.analyzed r'? := by
  cases hm : d.module? with
  | none =>
    have plain (r? : Option Resolver) : d.analyzed r? = d := by
      unfold analyzed
      rw [hm]
    rw [plain, plain]
  | some m =>
    unfold analyzed
    rw [hm]

/-- With a resolver that knows none of the modules that it is asked for, a document that imports
nothing is analysed as without one. -/
theorem analyzed_of_unknown {d : Document} {m : Module} {r : Resolver} (hm : d.module? = some m)
    (himports : m.imports = [])
    (hunknown : ∀ name ∈ (analyze (some r) m).asked, r.find? name = none) :
    d.analyzed (some r) = d.analyzed none := by
  unfold analyzed
  rw [hm]
  dsimp only
  rw [analyze_of_unknown himports hunknown]

/-- **What the second pass leaves out.**  A document that imports nothing and is no implementation
module has the same table and reports with a resolver as without one, if the resolver knows none
of the other modules that the document names in front of types; it is asked for no others. -/
theorem analyzed_of_unknown_qualifiers {d : Document} {m : Module} {r : Resolver}
    (hm : d.module? = some m) (himports : m.imports = []) (hneeds : d.needsResolver = false)
    (hunknown : ∀ name ∈ (Node.module m).qualifiers, name ≠ m.name.name → r.find? name = none) :
    d.analyzed (some r) = d.analyzed none ∧ ∀ name ∈ (analyze (some r) m).asked,
      name ∈ (Node.module m).qualifiers ∧ name ≠ m.name.name := by
  have hkind : m.kind ≠ .implementation := by
    intro hkind
    have himplementation : d.isImplementation := by
      simp [isImplementation, moduleKind?, hm, hkind]
    simp [needsResolver, hm, himplementation] at hneeds
  have hasked := asked_of_unknown_qualifiers himports hkind hunknown
  refine ⟨analyzed_of_unknown hm himports fun name hname => ?_, hasked⟩
  exact hunknown name (hasked name hname).1 (hasked name hname).2

/-- A type is written with the name of a module that is not known; another module is. -/
theorem analyzed_of_unknown_qualifiers_other :
    let v : Ident := ⟨"v", default⟩
    let t : QualIdent := ⟨some ⟨"Other", default⟩, ⟨"T", default⟩, default⟩
    let m : Module := ⟨.plain, ⟨"M", default⟩, [], [],
      [.var ⟨[v], .named t, none, default⟩], none, default⟩
    let d : Document := { id := ⟨"./m.mod"⟩, module? := some m }
    let r : Resolver := [("Lib", .new "Lib" default)]
    d.needsResolver = false ∧ (Node.module m).qualifiers = ["Other"] ∧
      (analyze (some r) m).asked = ["Other"] ∧ d.analyzed (some r) = d.analyzed none := by
  intro v t m d r
  have hqualifiers : (Node.module m).qualifiers = ["Other"] := by
    simp [Node.qualifiers, Node.preorder_eq, Node.children, Node.childrenOfDecl,
      Node.childrenOfType, Node.ofBlock?, m, v, t]
    rfl
  have hneeds : d.needsResolver = false := rfl
  refine ⟨hneeds, hqualifiers, by decide +kernel, ?_⟩
  refine (analyzed_of_unknown_qualifiers (d := d) (m := m) rfl rfl hneeds fun name hname _ => ?_).1
  rw [hqualifiers, List.mem_singleton] at hname
  subst hname
  decide +kernel

end Document

namespace Workspace

/-! ## The first pass -/

theorem foldl_register_config (ids : List Path) (w : Workspace) :
    (ids.foldl register w).config = w.config := by
  induction ids generalizing w with
  | nil => rfl
  | cons id ids ih => rw [List.foldl_cons, ih, register_config]

@[simp] theorem firstPass_config (w : Workspace) (documents : List Document) :
    (w.firstPass documents).config = w.config := by
  show (linkAll _).config = _
  unfold linkAll
  dsimp only
  rw [foldl_link_eq]
  exact foldl_register_config _ _

/-- A module came out of the second pass of indexing with the table that it had after the first,
for one because its document does not depend on other modules. -/
def Kept (first w : Workspace) (name : String) : Prop :=
  (((Members.find? w.modules name).bind w.document?).all fun e => !e.needsResolver) ∨
    w.resolver.find? name = first.resolver.find? name

end Workspace

end SimFront
