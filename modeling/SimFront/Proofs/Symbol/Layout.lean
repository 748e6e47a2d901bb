import SimFront.Proofs.Symbol.Reachable
import SimFront.Proofs.Symbol.ScopeTree
import SimFront.Proofs.Symbol.StandIn

/-!
# Which scopes a table has

`Opened alone F t t'` says of a step on a table which scopes it opens below the current one, as
trees in the order of their opening, and what its declarations are like.  Such a step builds a
table (`Opened.reachable`) that shows the trees (`Opened.shows`).  The search for the scope at a
position goes down the tree that a table shows (`Shows.scopeAtFrom`).
-/

namespace SimFront

namespace SymbolTable

open ScopeTree

variable {t t' t'' : SymbolTable} {i j : Nat} {alone : Prop} {F G : List ScopeTree}

/-! ## The trees that a table shows -/

mutual

/-- A scope of the table and those below it are as the tree says. -/
def Shows (t : SymbolTable) : ScopeTree → Nat → Prop
  | .node span below, i =>
    (∃ sc, t.scope? i = some sc ∧ sc.span = span) ∧ ShowsAll t below (t.children i)

def ShowsAll (t : SymbolTable) : List ScopeTree → List Nat → Prop
  | [], scopes => scopes = []
  | tree :: rest, scopes =>
    ∃ c others, scopes = c :: others ∧ Shows t tree c ∧ ShowsAll t rest others

end

theorem Shows.scope {tree : ScopeTree} (h : t.Shows tree i) :
    ∃ sc, t.scope? i = some sc ∧ sc.span = tree.span := by
  cases tree
  exact h.1

theorem ShowsAll.append {cs ds : List Nat} (h : t.ShowsAll F cs) (h' : t.ShowsAll G ds) :
    t.ShowsAll (F ++ G) (cs ++ ds) := by
  induction F generalizing cs with
  | nil =>
    cases h
    exact h'
  | cons tree rest ih =>
    obtain ⟨c, others, rfl, hc, hothers⟩ := h
    exact ⟨c, others ++ ds, rfl, hc, ih hothers⟩

theorem ShowsAll.exists_tree {cs : List Nat} (h : t.ShowsAll F cs) {c : Nat} (hc : c ∈ cs) :
    ∃ tree ∈ F, t.Shows tree c := by
  induction F generalizing cs with
  | nil =>
    cases h
    cases hc
  | cons tree rest ih =>
    obtain ⟨first, others, rfl, hfirst, hothers⟩ := h
    rcases List.mem_cons.1 hc with rfl | hc
    · exact ⟨tree, List.mem_cons_self, hfirst⟩
    · obtain ⟨other, hother, hshows⟩ := ih hothers hc
      exact ⟨other, List.mem_cons_of_mem tree hother, hshows⟩

/-- Every scope below one that a tree shows is in the tree. -/
theorem Shows.mem_spans {tree : ScopeTree} (h : t.Shows tree i) (ht : t.Consistent)
    (hmem : i ∈ t.enclosing j) {sc : Scope} (hsc : t.scope? j = some sc) :
    sc.span ∈ tree.spans := by
  have hpart (j : Nat) (hmem : i ∈ t.enclosing j) :
      ∃ part, t.Shows part j ∧ part.spans ⊆ tree.spans := by
    induction j using Nat.strongRecOn with
    | ind j ih =>
      cases hp : t.parent? j with
      | none =>
        rw [enclosing_of_top hp] at hmem
        exact ⟨tree, List.mem_singleton.1 hmem ▸ h, List.Subset.refl _⟩
      | some p =>
        rcases (ht.mem_enclosing_iff hp).1 hmem with rfl | hmem
        · exact ⟨tree, h, List.Subset.refl _⟩
        · obtain ⟨⟨span, below⟩, hpart, hsub⟩ := ih p (ht.parent?_lt hp) hmem
          obtain ⟨child, hchild, hshows⟩ := hpart.2.exists_tree (ht.mem_children hp)
          refine ⟨child, hshows, fun s hs => hsub ?_⟩
          exact List.mem_cons_of_mem span (mem_allSpans.2 ⟨child, hchild, hs⟩)
  obtain ⟨part, hshows, hsub⟩ := hpart j hmem
  obtain ⟨sc', hsc', hspan⟩ := hshows.scope
  rw [hsc] at hsc'
  cases hsc'
  exact hsub (hspan ▸ part.span_mem_spans)

mutual

/-- Every span in a tree is that of a scope. -/
theorem Shows.exists_scope : ∀ (tree : ScopeTree) (i : Nat), t.Shows tree i →
    ∀ s ∈ tree.spans, ∃ j sc, t.scope? j = some sc ∧ sc.span = s
  | .node span below, i, h => by
    obtain ⟨⟨sc, hsc, hspan⟩, hbelow⟩ := h
    exact List.forall_mem_cons.2
      ⟨⟨i, sc, hsc, hspan⟩, ShowsAll.exists_scope below (t.children i) hbelow⟩

theorem ShowsAll.exists_scope : ∀ (F : List ScopeTree) (cs : List Nat), t.ShowsAll F cs →
    ∀ s ∈ allSpans F, ∃ j sc, t.scope? j = some sc ∧ sc.span = s
  | [], _, _ => List.forall_mem_nil _
  | tree :: rest, _, h => by
    obtain ⟨c, others, rfl, hc, hothers⟩ := h
    exact List.forall_mem_append.2
      ⟨Shows.exists_scope tree c hc, ShowsAll.exists_scope rest others hothers⟩

end

/-- The scope has the children and the span that it had. -/
def KeepsScope (t t' : SymbolTable) (j : Nat) : Prop :=
  t'.children j = t.children j ∧
    ∀ sc, t.scope? j = some sc → ∃ sc', t'.scope? j = some sc' ∧ sc'.span = sc.span

mutual

/-- A tree is shown while the scopes from its own on, which are younger, stay as they are. -/
theorem Shows.keeps (ht : t.Consistent) (ho : t.Preordered) : ∀ (tree : ScopeTree) (i : Nat),
    t.Shows tree i → (∀ j, i ≤ j → j < t.scopes.size → t.KeepsScope t' j) → t'.Shows tree i
  | .node _ below, i, h, hkeeps => by
    obtain ⟨⟨sc, hsc, hspan⟩, hbelow⟩ := h
    obtain ⟨hchildren, hscope⟩ := hkeeps i (Nat.le_refl i) (lt_of_scope? hsc)
    obtain ⟨sc', hsc', hspan'⟩ := hscope sc hsc
    refine ⟨⟨sc', hsc', hspan'.trans hspan⟩, ?_⟩
    rw [hchildren]
    refine ShowsAll.keeps ht ho below (t.children i) hbelow fun c hc j hle => hkeeps j ?_
    exact Nat.le_trans (Nat.le_of_lt (ht.parent?_lt (ho.parent hc))) hle

theorem ShowsAll.keeps (ht : t.Consistent) (ho : t.Preordered) :
    ∀ (F : List ScopeTree) (cs : List Nat), t.ShowsAll F cs →
      (∀ c ∈ cs, ∀ j, c ≤ j → j < t.scopes.size → t.KeepsScope t' j) → t'.ShowsAll F cs
  | [], _, h, _ => h
  | tree :: rest, _, h, hkeeps => by
    obtain ⟨c, others, rfl, hc, hothers⟩ := h
    exact ⟨c, others, rfl, Shows.keeps ht ho tree c hc (hkeeps c List.mem_cons_self),
      ShowsAll.keeps ht ho rest others hothers fun d hd => hkeeps d (List.mem_cons_of_mem c hd)⟩

end

/-! ## The search for the scope at a position -/

mutual

/-- The search leads to the scope that the tree says. -/
theorem Shows.scopeAtFrom (ht : t.Consistent) (ho : t.Preordered) (p : Position) :
    ∀ (tree : ScopeTree) (i : Nat), t.Shows tree i →
      ∃ sc, t.scope? (t.scopeAtFrom p i) = some sc ∧ sc.span = tree.locate p
  | .node span below, i, h => by
    obtain ⟨⟨sc, hsc, hspan⟩, hbelow⟩ := h
    have hfirst := ShowsAll.first ht ho p below (t.children i) hbelow
    rw [SymbolTable.scopeAtFrom, ScopeTree.locate]
    cases hfind : (t.children i).find? (t.covers p) with
    | none =>
      rw [hfirst.1 hfind]
      exact ⟨sc, hsc, hspan⟩
    | some c =>
      obtain ⟨sc', hsc', hlocate⟩ := hfirst.2 c hfind
      have hparent := ho.parent (List.mem_of_find?_eq_some hfind)
      dsimp only
      rw [if_pos ⟨ht.parent?_lt hparent, lt_of_parent? hparent⟩, hlocate]
      exact ⟨sc', hsc', rfl⟩

theorem ShowsAll.first (ht : t.Consistent) (ho : t.Preordered) (p : Position) :
    ∀ (F : List ScopeTree) (cs : List Nat), t.ShowsAll F cs →
      (cs.find? (t.covers p) = none → locateIn p F = none) ∧
      ∀ c, cs.find? (t.covers p) = some c →
        ∃ sc, t.scope? (t.scopeAtFrom p c) = some sc ∧ locateIn p F = some sc.span
  | [], _, h => by
    cases h
    exact ⟨fun _ => rfl, fun _ hc => nomatch hc⟩
  | tree :: rest, _, h => by
    obtain ⟨c, others, rfl, hc, hothers⟩ := h
    obtain ⟨sc, hsc, hspan⟩ := hc.scope
    have hcovers : t.covers p c = tree.span.contains p := by
      unfold covers
      rw [hsc, ← hspan]
    rw [List.find?_cons, hcovers, locateIn]
    cases tree.span.contains p with
    | true =>
      obtain ⟨sc', hsc', hlocate⟩ := Shows.scopeAtFrom ht ho p tree c hc
      refine ⟨fun hnone => (nomatch hnone), fun d hd => ?_⟩
      cases hd
      exact ⟨sc', hsc', congrArg some hlocate.symm⟩
    | false => exact ShowsAll.first ht ho p rest others hothers

end

/-! ## Steps that open scopes -/

/-- A step on a table, with the trees of the scopes that it opens below the current one.  Where
the module is `alone`, types are declared as its own. -/
inductive Opened (alone : Prop) : List ScopeTree → SymbolTable → SymbolTable → Prop
  | refer (t : SymbolTable) (rs : References) : Opened alone [] t { t with references := rs }
  | declare {t t' : SymbolTable} {symbol : Symbol} {id : Nat}
    (hown : alone → symbol.kind = .type → symbol.origin? = none)
    (hdefine : t.define symbol = .ok (id, t')) : Opened alone [] t t'
  | retype (t : SymbolTable) (id : Nat) (type : Ty) :
    Opened alone [] t (t.modifySymbol id fun s => { s with type })
  | scope {t t' : SymbolTable} {F : List ScopeTree} (kind : ScopeKind) (span : Span)
    (h : Opened alone F (t.enter kind span) t') : Opened alone [.node span F] t t'.leave
  | seq {t t' t'' : SymbolTable} {F G : List ScopeTree} (h : Opened alone F t t')
    (h' : Opened alone G t' t'') : Opened alone (F ++ G) t t''

namespace Opened

theorem refl (t : SymbolTable) : Opened alone [] t t := .refer t t.references

/-- Steps build tables, and come back to the scope that they start in. -/
theorem reachable (h : Opened alone F t t') (ht : t.Reachable) :
    t'.Reachable ∧ t.Extends t' ∧ t'.current = t.current := by
  induction h with
  | refer t rs => exact ⟨ht.references rs, .of_scopes rfl (Nat.le_refl _), rfl⟩
  | declare hown hdefine =>
    exact ⟨ht.defineIn ht.consistent.current hdefine, extends_defineIn hdefine,
      current_defineIn hdefine⟩
  | retype t id type =>
    exact ⟨ht.modifySymbol id (fun _ => rfl) fun _ => rfl, t.extends_modifySymbol id _, rfl⟩
  | @scope t t' F kind span h ih =>
    obtain ⟨hbuilt, hextends, hcurrent⟩ := ih (ht.enter kind span)
    obtain ⟨hreturn, hback⟩ := returns_leave ⟨hextends, hcurrent⟩
    exact ⟨hbuilt.leave, hreturn, hback⟩
  | seq h h' ih ih' =>
    obtain ⟨hbuilt, hextends, hcurrent⟩ := ih ht
    obtain ⟨hbuilt', hextends', hcurrent'⟩ := ih' hbuilt
    exact ⟨hbuilt', hextends.trans hextends', hcurrent'.trans hcurrent⟩

/-- What the steps of a module that is alone keep of the symbols. -/
theorem own (h : Opened alone F t t') (hown : alone)
    (ht : ∀ id s, t.symbol? id = some s → s.kind = .type → s.origin? = none) :
    ∀ id s, t'.symbol? id = some s → s.kind = .type → s.origin? = none := by
  induction h with
  | refer t rs => exact ht
  | @declare t t' symbol id hsymbol hdefine =>
    intro i s hs hkind
    rw [symbol?_defineIn hdefine] at hs
    split at hs
    · cases hs
      exact hsymbol hown hkind
    · exact ht i s hs hkind
  | retype t id type =>
    intro i s hs hkind
    rw [symbol?_retype] at hs
    split at hs
    · obtain ⟨old, hold, rfl⟩ := Option.map_eq_some_iff.1 hs
      exact ht i old hold hkind
    · exact ht i s hs hkind
  | @scope t t' F kind span h ih =>
    obtain ⟨scope, hleave⟩ := t'.leave_eq
    rw [hleave]
    exact ih ht
  | seq h h' ih ih' => exact ih' (ih ht)

end Opened

/-- Between two tables the scopes `cs` were opened below the current one, as the trees `F` show
them; all other scopes stay as they are. -/
structure OpenedAs (F : List ScopeTree) (t t' : SymbolTable) (cs : List Nat) : Prop where
  children : t'.children t.current = t.children t.current ++ cs
  shows : t'.ShowsAll F cs
  fresh : ∀ c ∈ cs, t.scopes.size ≤ c
  others : ∀ j < t.scopes.size, j ≠ t.current → t'.children j = t.children j
  keeps : t.KeepsScopes t'

namespace OpenedAs

variable {cs ds : List Nat}

theorem same (hchildren : ∀ j, t'.children j = t.children j) (hkeeps : t.KeepsScopes t') :
    OpenedAs [] t t' [] where
  children := by rw [hchildren, List.append_nil]
  shows := rfl
  fresh := List.forall_mem_nil _
  others j _ _ := hchildren j
  keeps := hkeeps

/-- A scope with all that is opened while it is current. -/
theorem scope (ht : t.Reachable) (ht' : t'.Reachable) {kind : ScopeKind} {span : Span}
    (h : OpenedAs F (t.enter kind span) t' cs) :
    OpenedAs [.node span F] t t'.leave [t.scopes.size] := by
  have hcurrent := ht.consistent.current
  have hsize := t.size_enter kind span
  have hnew := t.scope?_enter_new kind span
  obtain ⟨sc, hsc, hspan, -⟩ := h.keeps _ _ hnew
  -- leaving a scope changes which one is current, and no more
  obtain ⟨scope, hleave⟩ := t'.leave_eq
  have hbelow : t'.children t.scopes.size = cs := by
    have hempty : (t.enter kind span).children t.scopes.size = [] := children_of hnew
    rw [← List.nil_append cs, ← hempty]
    exact h.children
  have hchildren (j : Nat) (hj : j < t.scopes.size) : t'.leave.children j =
      if j = t.current then t.children j ++ [t.scopes.size] else t.children j := by
    rw [hleave, ← SymbolTable.children_enter hj]
    exact h.others j (by omega) (Nat.ne_of_lt hj)
  refine ⟨?_, ?_, by simp, fun j hj hne => ?_, ?_⟩
  · rw [hchildren t.current hcurrent, if_pos rfl]
  · rw [hleave]
    refine ⟨t.scopes.size, [], rfl, ⟨⟨sc, hsc, hspan⟩, ?_⟩, rfl⟩
    show ShowsAll { t' with current := scope } F (t'.children t.scopes.size)
    rw [hbelow]
    exact ShowsAll.keeps ht'.consistent ht'.preordered F cs h.shows fun _ _ _ _ _ =>
      ⟨rfl, fun sc hsc => ⟨sc, hsc, rfl⟩⟩
  · rw [hchildren j hj, if_neg hne]
  · rw [hleave]
    exact (t.keepsScopes_enter kind span).trans h.keeps

theorem seq (ht : t.Reachable) (ht' : t'.Reachable) (hsize : t.scopes.size ≤ t'.scopes.size)
    (hcurrent : t'.current = t.current) (h : OpenedAs F t t' cs) (h' : OpenedAs G t' t'' ds) :
    OpenedAs (F ++ G) t t'' (cs ++ ds) := by
  have hin := ht.consistent.current
  obtain ⟨hchildren, hshows', hfresh', hothers', hkeeps'⟩ := h'
  rw [hcurrent] at hchildren hothers'
  refine ⟨?_, ShowsAll.append ?_ hshows', fun c hc => ?_, fun j hj hne => ?_,
    h.keeps.trans hkeeps'⟩
  · rw [hchildren, h.children, List.append_assoc]
  · -- what was opened before is not current, so it stays as it is
    refine ShowsAll.keeps ht'.consistent ht'.preordered F cs h.shows fun c hc j hle hj => ?_
    have hold := h.fresh c hc
    refine ⟨hothers' j hj (by omega), fun sc hsc => ?_⟩
    obtain ⟨sc', hsc', hspan, -⟩ := hkeeps' j sc hsc
    exact ⟨sc', hsc', hspan⟩
  · rcases List.mem_append.1 hc with hc | hc
    · exact h.fresh c hc
    · exact Nat.le_trans hsize (hfresh' c hc)
  · rw [hothers' j (by omega) hne, h.others j hj hne]

end OpenedAs

/-- A table shows the scopes that a step opens. -/
theorem Opened.shows (h : Opened alone F t t') (ht : t.Reachable) :
    ∃ cs, OpenedAs F t t' cs := by
  induction h with
  | refer t rs => exact ⟨[], .same (fun _ => rfl) (.refl t)⟩
  | declare hown hdefine =>
    exact ⟨[], .same (children_defineIn hdefine) (keepsScopes_defineIn hdefine)⟩
  | retype t id type => exact ⟨[], .same (fun _ => rfl) (.refl t)⟩
  | @scope t t' F kind span h ih =>
    obtain ⟨cs, hcs⟩ := ih (ht.enter kind span)
    exact ⟨_, hcs.scope ht (h.reachable (ht.enter kind span)).1⟩
  | seq h h' ih ih' =>
    obtain ⟨hbuilt, hextends, hcurrent⟩ := h.reachable ht
    obtain ⟨cs, hcs⟩ := ih ht
    obtain ⟨ds, hds⟩ := ih' hbuilt
    exact ⟨cs ++ ds, hcs.seq ht hbuilt hextends.scopes hcurrent hds⟩

end SymbolTable

end SimFront
