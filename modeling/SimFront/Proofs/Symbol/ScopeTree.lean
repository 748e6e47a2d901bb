import Mathlib.Data.List.Pairwise
import SimFront.Proofs.Text.Position

/-!
# Trees of scopes

A `ScopeTree` says which spans scopes cover and how they lie in one another.  A position leads
down such a tree to the first scope that it falls in, as far as there is one; at the end of a
span it still falls in (`ScopeTree.locate`).  Where scopes that were opened earlier neither
hide later ones (`ScopeTree.Tidy`) nor end at the start of one around the position, this comes
to a scope within every one around the position (`ScopeTree.Tidy.locate`).
-/

namespace SimFront

/-- The span of a scope, and the scopes below it in the order in which they were opened. -/
inductive ScopeTree where
  | node (span : Span) (below : List ScopeTree)

namespace ScopeTree

def span : ScopeTree → Span
  | node span _ => span

mutual

/-- The spans of all scopes of a tree. -/
def spans : ScopeTree → List Span
  | .node span below => span :: allSpans below

def allSpans : List ScopeTree → List Span
  | [] => []
  | tree :: rest => tree.spans ++ allSpans rest

end

mutual

/-- The span of the scope that a position leads to: down to the first scope that it falls in, as
far as there is one. -/
def locate (p : Position) : ScopeTree → Span
  | .node span below => (locateIn p below).getD span

def locateIn (p : Position) : List ScopeTree → Option Span
  | [] => none
  | tree :: rest => if tree.span.contains p then some (tree.locate p) else locateIn p rest

end

theorem span_mem_spans (tree : ScopeTree) : tree.span ∈ tree.spans := by
  cases tree
  exact List.mem_cons_self

theorem mem_allSpans {s : Span} {F : List ScopeTree} :
    s ∈ allSpans F ↔ ∃ tree ∈ F, s ∈ tree.spans := by
  induction F with
  | nil => simp [allSpans]
  | cons tree rest ih => simp [allSpans, ih]

theorem allSpans_append (F G : List ScopeTree) : allSpans (F ++ G) = allSpans F ++ allSpans G := by
  induction F with
  | nil => rfl
  | cons tree rest ih =>
    rw [List.cons_append, allSpans, allSpans, ih, List.append_assoc]

theorem locateIn_eq (p : Position) (F : List ScopeTree) :
    locateIn p F = (F.find? (·.span.contains p)).map (locate p) := by
  induction F with
  | nil => rfl
  | cons tree rest ih =>
    rw [locateIn, List.find?_cons]
    cases tree.span.contains p with
    | true => rfl
    | false => exact ih

/-! ## Tidy trees -/

/-- Scopes of `b`, opened after `a`, lie beside `a` or around it. -/
def Passes (a b : ScopeTree) : Prop :=
  ∀ s ∈ b.spans, a.span.stop ≤ s.start ∨ s.stop ≤ a.span.start ∨ s.containsSpan a.span

/-- Scopes lie within those around them, and none lies over a later one. -/
inductive Tidy : ScopeTree → Prop
  | node {span : Span} {below : List ScopeTree} (covers : ∀ s ∈ allSpans below, span.containsSpan s)
    (passes : below.Pairwise Passes) (tidy : ∀ tree ∈ below, Tidy tree) : Tidy (.node span below)

/-- Tidy trees within a span, none of which lies over a later one. -/
structure Fits (span : Span) (F : List ScopeTree) : Prop where
  covers : ∀ s ∈ allSpans F, span.containsSpan s
  passes : F.Pairwise Passes
  tidy : ∀ tree ∈ F, tree.Tidy

namespace Fits

variable {span outer : Span} {F : List ScopeTree}

theorem node (h : Fits span F) : (ScopeTree.node span F).Tidy := .node h.covers h.passes h.tidy

theorem widen (h : Fits span F) (hspan : outer.containsSpan span) : Fits outer F :=
  ⟨fun s hs => Span.containsSpan_trans hspan (h.covers s hs), h.passes, h.tidy⟩

theorem mem_covers (h : Fits span F) {tree : ScopeTree} (htree : tree ∈ F) {s : Span}
    (hs : s ∈ tree.spans) : span.containsSpan s :=
  h.covers s (mem_allSpans.2 ⟨tree, htree, hs⟩)

/-- A scope of its own around the trees. -/
theorem single (h : Fits span F) : Fits span [.node span F] := by
  refine ⟨fun s hs => ?_, List.pairwise_singleton _ _, List.forall_mem_singleton.2 h.node⟩
  obtain ⟨tree, htree, hs⟩ := mem_allSpans.1 hs
  rw [List.mem_singleton.1 htree] at hs
  rcases List.mem_cons.1 hs with rfl | hs
  · exact Span.containsSpan_refl s
  · exact h.covers s hs

/-- Trees of places that follow each other. -/
theorem flatMap {α : Type} {as : List α} {place : α → Span} {view : α → List ScopeTree}
    (hplace : ∀ a ∈ as, span.containsSpan (place a))
    (horder : as.Pairwise fun a b => (place a).stop ≤ (place b).start)
    (hview : ∀ a ∈ as, Fits (place a) (view a)) : Fits span (as.flatMap view) := by
  refine ⟨fun s hs => ?_, List.pairwise_flatMap.2 ⟨fun a ha => (hview a ha).passes, ?_⟩, ?_⟩
  · obtain ⟨tree, htree, hs⟩ := mem_allSpans.1 hs
    obtain ⟨a, ha, htree⟩ := List.mem_flatMap.1 htree
    exact Span.containsSpan_trans (hplace a ha) ((hview a ha).mem_covers htree hs)
  · refine horder.imp_of_mem fun {a b} ha hb hab x hx y hy s hs => .inl ?_
    have hstop := (Span.containsSpan_iff.1 ((hview a ha).mem_covers hx x.span_mem_spans)).2
    have hstart := (Span.containsSpan_iff.1 ((hview b hb).mem_covers hy hs)).1
    exact le_trans hstop (le_trans hab hstart)
  · intro tree htree
    obtain ⟨a, ha, htree⟩ := List.mem_flatMap.1 htree
    exact (hview a ha).tidy tree htree

/-- The same where every place is gone through twice. -/
theorem twice {α : Type} {as : List α} {place : α → Span} {first second : α → List ScopeTree}
    (hplace : ∀ a ∈ as, span.containsSpan (place a))
    (horder : as.Pairwise fun a b => (place a).stop ≤ (place b).start)
    (hview : ∀ a ∈ as, Fits (place a) (first a ++ second a)) :
    Fits span (as.flatMap first ++ as.flatMap second) := by
  have hfirst (a : α) (ha : a ∈ as) : Fits (place a) (first a) := by
    obtain ⟨hcovers, hpasses, htidy⟩ := hview a ha
    rw [allSpans_append] at hcovers
    exact ⟨fun s hs => hcovers s (List.mem_append_left _ hs), (List.pairwise_append.1 hpasses).1,
      fun tree htree => htidy tree (List.mem_append_left _ htree)⟩
  have hsecond (a : α) (ha : a ∈ as) : Fits (place a) (second a) := by
    obtain ⟨hcovers, hpasses, htidy⟩ := hview a ha
    rw [allSpans_append] at hcovers
    exact ⟨fun s hs => hcovers s (List.mem_append_right _ hs),
      (List.pairwise_append.1 hpasses).2.1,
      fun tree htree => htidy tree (List.mem_append_right _ htree)⟩
  have hall := flatMap hplace horder hfirst
  have hall' := flatMap hplace horder hsecond
  -- two places that differ lie apart, whichever comes first
  have hapart : ∀ a ∈ as, ∀ b ∈ as, a ≠ b →
      (place a).stop ≤ (place b).start ∨ (place b).stop ≤ (place a).start := by
    have hsym : Std.Symm fun a b : α =>
        (place a).stop ≤ (place b).start ∨ (place b).stop ≤ (place a).start :=
      ⟨fun _ _ => Or.symm⟩
    have horder' : as.Pairwise fun a b =>
        (place a).stop ≤ (place b).start ∨ (place b).stop ≤ (place a).start := horder.imp .inl
    exact fun a ha b hb hne => horder'.forall ha hb hne
  refine ⟨fun s hs => ?_, List.pairwise_append.2 ⟨hall.passes, hall'.passes, ?_⟩,
    fun tree htree => ?_⟩
  · rw [allSpans_append] at hs
    exact (List.mem_append.1 hs).elim (hall.covers s) (hall'.covers s)
  · intro x hx y hy
    obtain ⟨a, ha, hx⟩ := List.mem_flatMap.1 hx
    obtain ⟨b, hb, hy⟩ := List.mem_flatMap.1 hy
    by_cases heq : a = b
    · subst heq
      exact (List.pairwise_append.1 (hview a ha).passes).2.2 x hx y hy
    · intro s hs
      obtain ⟨hstart, hstop⟩ := Span.containsSpan_iff.1
        ((hfirst a ha).mem_covers hx x.span_mem_spans)
      obtain ⟨hsstart, hsstop⟩ := Span.containsSpan_iff.1 ((hsecond b hb).mem_covers hy hs)
      rcases hapart a ha b hb heq with hbefore | hafter
      · exact .inl (le_trans hstop (le_trans hbefore hsstart))
      · exact .inr (.inl (le_trans hsstop (le_trans hafter hstart)))
  · exact (List.mem_append.1 htree).elim (hall.tidy tree) (hall'.tidy tree)

end Fits

theorem Tidy.covers_spans {tree : ScopeTree} (h : Tidy tree) :
    ∀ s ∈ tree.spans, tree.span.containsSpan s := by
  cases h with
  | @node span below covers _ _ =>
    intro s hs
    rcases List.mem_cons.1 hs with rfl | hs
    · exact Span.containsSpan_refl s
    · exact covers s hs

/-- The scope that is found lies within the one that the search starts from. -/
theorem Tidy.locate_within {tree : ScopeTree} (h : Tidy tree) (p : Position) :
    tree.span.containsSpan (tree.locate p) := by
  induction h with
  | @node span below covers _ _ ih =>
    rw [locate, locateIn_eq]
    cases hfind : below.find? (·.span.contains p) with
    | none => exact Span.containsSpan_refl span
    | some c =>
      have hc := List.mem_of_find?_eq_some hfind
      have hspan := covers c.span (mem_allSpans.2 ⟨c, hc, c.span_mem_spans⟩)
      exact Span.containsSpan_trans hspan (ih c hc)

/-! ## Marked positions -/

variable {M : Position → Prop}

/-- Of all scopes around a position the search comes to one within, unless an earlier scope ends
just where the one in question begins. -/
theorem Tidy.locate {tree : ScopeTree} (h : Tidy tree) (hM : Position.Apart M) {p : Position}
    (hp : M p) (hmarks : ∀ s ∈ tree.spans, M s.start ∧ M s.stop) {u : Span} (hu : u ∈ tree.spans)
    (hstart : u.start ≤ p) (hstop : p < u.stop)
    (hfree : u.start = p → ∀ s ∈ tree.spans, s.stop ≠ p) : u.containsSpan (tree.locate p) := by
  induction h with
  | @node span below covers passes tidy ih =>
    rcases List.mem_cons.1 hu with rfl | hu
    · exact (Tidy.node covers passes tidy).locate_within p
    · have hbelow {c : ScopeTree} (hc : c ∈ below) {s : Span} (hs : s ∈ c.spans) :
          s ∈ (ScopeTree.node span below).spans :=
        List.mem_cons_of_mem span (mem_allSpans.2 ⟨c, hc, hs⟩)
      obtain ⟨d, hd, hu⟩ := mem_allSpans.1 hu
      have hcontains {c : ScopeTree} (hc : c ∈ below) :
          c.span.contains p ↔ c.span.start ≤ p ∧ p ≤ c.span.stop := by
        obtain ⟨hcstart, hcstop⟩ := hmarks c.span (hbelow hc c.span_mem_spans)
        exact Span.contains_iff hM hcstart hcstop hp
      obtain ⟨hdstart, hdstop⟩ := Span.containsSpan_iff.1 ((tidy d hd).covers_spans u hu)
      have hinside : d.span.contains p :=
        (hcontains hd).2 ⟨le_trans hdstart hstart, le_trans (le_of_lt hstop) hdstop⟩
      rw [ScopeTree.locate, locateIn_eq]
      cases hfind : below.find? (·.span.contains p) with
      | none => exact absurd hinside (List.find?_eq_none.1 hfind d hd)
      | some c =>
        have hc := List.mem_of_find?_eq_some hfind
        show u.containsSpan (c.locate p)
        by_cases hcd : c = d
        · rw [hcd]
          exact ih d hd (fun s hs => hmarks s (hbelow hd hs)) hu
            fun hat s hs => hfree hat s (hbelow hd hs)
        · -- the search went into a scope that was opened before the one around `u`
          obtain ⟨hfound, before, after, hsplit, hskip⟩ := List.find?_eq_some_iff_append.1 hfind
          have hlater : d ∈ after := by
            rw [hsplit] at hd
            rcases List.mem_append.1 hd with hd | hd
            · have := hskip d hd
              rw [hinside] at this
              cases this
            · exact (List.mem_cons.1 hd).resolve_left fun heq => hcd heq.symm
          rw [hsplit] at passes
          have hpasses := (List.pairwise_cons.1 (List.pairwise_append.1 passes).2.1).1 d hlater u hu
          obtain ⟨hcstart, hcstop⟩ := (hcontains hc).1 hfound
          rcases hpasses with hends | hbegins | haround
          · have hat : c.span.stop = p := le_antisymm (le_trans hends hstart) hcstop
            have hsame : u.start = p := le_antisymm hstart (hat ▸ hends)
            exact absurd hat (hfree hsame c.span (hbelow hc c.span_mem_spans))
          · exact absurd (le_trans hbegins hcstart) (not_le_of_gt hstop)
          · exact Span.containsSpan_trans haround ((tidy c hc).locate_within p)

end ScopeTree

end SimFront
