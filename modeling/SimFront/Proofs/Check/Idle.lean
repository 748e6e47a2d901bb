import SimFront.Proofs.Check.OutParams

/-!
# What routines leave unused

A variable or a parameter of a routine is judged once, when the routine ends: `Verdicts n t L` says
that `L` lists the reports on those of them that lie in the scopes from `n` on, as the table `t` has
them.  Behind its routine a local symbol is not used any more.  `CheckState.Settles` says both of a
stretch of an analysis; stretches that follow each other settle what both of them do
(`Settles.trans`), and so does a stretch inside a scope of its own (`Settles.inside`,
`Settles.routine`).
-/

namespace SimFront

namespace SymbolTable

variable {t t' : SymbolTable} {x x' : Symbol} {n id : Nat} {L L' : List (Nat × Diagnostic)}

/-! ## Local symbols -/

/-- A variable or a parameter of a routine. -/
def IsLocal (t : SymbolTable) (x : Symbol) : Prop :=
  (x.kind = .var ∨ x.kind = .parameter) ∧
    (t.kind? x.scope = some .procedure ∨ t.kind? x.scope = some .method)

theorem Consistent.scope_lt (h : t.Consistent) (hx : t.symbol? id = some x) :
    x.scope < t.scopes.size := by
  obtain ⟨sc, hsc, -⟩ := mem_names_of_declared? (h.listed hx)
  exact lt_of_scope? hsc

theorem Consistent.scope_of_declared (h : t.Consistent) {scope : Nat} {name : String}
    (hdeclared : t.declared? scope name = some id) (hx : t.symbol? id = some x) :
    x.scope = scope := by
  obtain ⟨sc, hsc, hmem⟩ := mem_names_of_declared? hdeclared
  obtain ⟨y, hy, -, hscope⟩ := h.named hsc _ hmem
  rw [hx] at hy
  cases hy
  exact hscope

theorem Extends.kind?_eq (h : t.Extends t') {i : Nat} (hi : i < t.scopes.size) :
    t'.kind? i = t.kind? i := by
  obtain ⟨sc, hsc⟩ := exists_scope? hi
  have hkind : t.kind? i = some sc.kind := by
    unfold kind?
    rw [hsc]
    rfl
  rw [hkind, h.kind hkind]

/-- Whether a symbol of an old scope is local does not change. -/
theorem Extends.isLocal_iff (h : t.Extends t') (hkind : x'.kind = x.kind)
    (hscope : x'.scope = x.scope) (hlt : x.scope < t.scopes.size) :
    t'.IsLocal x' ↔ t.IsLocal x := by
  unfold IsLocal
  rw [hkind, hscope, h.kind?_eq hlt]

/-- A symbol that a step brings in stands in the current scope, or in a scope that it opens. -/
theorem Opened.symbol_new {alone : Prop} {F : List ScopeTree} (h : Opened alone F t t')
    (ht : t.Reachable) (hx : t'.symbol? id = some x) :
    (∃ y, t.symbol? id = some y) ∨ x.scope = t.current ∨ t.scopes.size ≤ x.scope := by
  induction h generalizing x with
  | refer t rs => exact .inl ⟨x, hx⟩
  | declare _ hdefine =>
    rw [symbol?_defineIn hdefine] at hx
    split at hx
    · obtain rfl := Option.some.inj hx
      exact .inr (.inl rfl)
    · exact .inl ⟨x, hx⟩
  | retype t i type =>
    rw [symbol?_retype] at hx
    split at hx
    · next hi =>
      obtain ⟨y, hy, -⟩ := Option.map_eq_some_iff.1 hx
      exact .inl ⟨y, hi ▸ hy⟩
    · exact .inl ⟨x, hx⟩
  | @scope t t' F kind span h ih =>
    obtain ⟨scope, hleave⟩ := t'.leave_eq
    rw [hleave] at hx
    rcases ih (ht.enter kind span) hx with hold | hcurrent | hnew
    · exact .inl hold
    · exact .inr (.inr (Nat.le_of_eq hcurrent.symm))
    · rw [size_enter] at hnew
      exact .inr (.inr (Nat.le_of_succ_le hnew))
  | @seq t t' t'' F G h h' ih ih' =>
    obtain ⟨ht', hextends, hcurrent⟩ := h.reachable ht
    rcases ih' ht' hx with ⟨y, hy⟩ | hscope | hnew
    · obtain ⟨z, hz, -, -, hsame, -⟩ := h'.keepsSymbols ht' id y hy
      rw [hx] at hz
      cases hz
      rw [hsame]
      exact ih ht hy
    · exact .inr (.inl (hscope.trans hcurrent))
    · exact .inr (.inr (Nat.le_trans hextends.scopes hnew))

/-! ## Verdicts -/

/-- The reports on the local symbols in the scopes from `n` on: no symbol is reported twice, an OUT
parameter is reported as never assigned or any of them as unused, and of those that are unused none
is passed over. -/
structure Verdicts (n : Nat) (t : SymbolTable) (L : List (Nat × Diagnostic)) : Prop where
  distinct : (L.map Prod.fst).Nodup
  sound : ∀ e ∈ L, ∃ x, t.symbol? e.1 = some x ∧ t.IsLocal x ∧ n ≤ x.scope ∧
    (e.2 = .neverAssigned x ∧ x.mode? = some .out ∨ e.2 = .unused x ∧ t.referenceCount e.1 = 0)
  complete : ∀ id x, t.symbol? id = some x → t.IsLocal x → n ≤ x.scope →
    t.referenceCount id = 0 → id ∈ L.map Prod.fst

/-- Where no scopes are opened nothing is judged. -/
theorem verdicts_nil (h : t.Consistent) (hn : t.scopes.size ≤ n) : Verdicts n t [] where
  distinct := List.nodup_nil
  sound := List.forall_mem_nil _
  complete _ _ hx _ hle _ :=
    absurd (h.scope_lt hx) (Nat.not_lt.2 (Nat.le_trans hn hle))

/-- A step that uses none of the symbols that were judged leaves the verdicts as they are, and adds
those on the scopes that it opens. -/
theorem Verdicts.append (h : Verdicts n t L) (ht : t.Reachable) (hcurrent : t.current < n)
    (hn : n ≤ t.scopes.size) (hgrows : t.Grows t')
    (hcount : ∀ id x, t.symbol? id = some x → t.IsLocal x → n ≤ x.scope →
      t'.referenceCount id = t.referenceCount id)
    (h' : Verdicts t.scopes.size t' L') : Verdicts n t' (L' ++ L) := by
  obtain ⟨F, hopened⟩ := hgrows
  have hkeeps := hopened.keepsSymbols ht
  obtain ⟨-, hextends, -⟩ := hopened.reachable ht
  have hlt {id : Nat} {x : Symbol} (hx : t.symbol? id = some x) : x.scope < t.scopes.size :=
    ht.consistent.scope_lt hx
  refine ⟨?_, List.forall_mem_append.2 ⟨fun e he => ?_, fun e he => ?_⟩,
    fun id x hx hlocal hle hzero => ?_⟩
  · rw [List.map_append]
    refine List.nodup_append.2 ⟨h'.distinct, h.distinct, fun i hi j hj heq => ?_⟩
    subst heq
    obtain ⟨e', he', rfl⟩ := List.mem_map.1 hi
    obtain ⟨e, he, heq⟩ := List.mem_map.1 hj
    obtain ⟨y, hy, -, hnew, -⟩ := h'.sound e' he'
    obtain ⟨x, hx, -⟩ := h.sound e he
    obtain ⟨z, hz, -, -, hscope, -⟩ := hkeeps _ x hx
    rw [heq, hy] at hz
    cases hz
    exact absurd (hlt hx) (Nat.not_lt.2 (hscope ▸ hnew))
  · obtain ⟨x, hx, hlocal, hnew, hverdict⟩ := h'.sound e he
    exact ⟨x, hx, hlocal, Nat.le_trans hn hnew, hverdict⟩
  · obtain ⟨x, hx, hlocal, hle, hverdict⟩ := h.sound e he
    obtain ⟨x', hx', -, hkind, hscope, hsame⟩ := hkeeps _ x hx
    have hlocal' := (hextends.isLocal_iff hkind hscope (hlt hx)).2 hlocal
    have hne : x.kind ≠ .procedure := by
      rcases hlocal.1 with h | h <;> rw [h] <;> decide
    obtain ⟨type, rfl⟩ := hsame hne
    refine ⟨_, hx', hlocal', hle, hverdict.imp id fun ⟨hunused, hzero⟩ => ⟨hunused, ?_⟩⟩
    rw [hcount _ x hx hlocal hle, hzero]
  · rw [List.map_append, List.mem_append]
    rcases Nat.lt_or_ge x.scope t.scopes.size with hold | hnew
    · obtain ⟨y, hy⟩ | hscope | hnew := hopened.symbol_new ht hx
      · obtain ⟨z, hz, -, hkind, hscope, -⟩ := hkeeps id y hy
        rw [hx] at hz
        cases hz
        have hlocal' := (hextends.isLocal_iff hkind hscope (hlt hy)).1 hlocal
        refine .inr (h.complete id y hy hlocal' (hscope ▸ hle) ?_)
        rw [← hcount id y hy hlocal' (hscope ▸ hle), hzero]
      · omega
      · omega
    · exact .inl (h'.complete id x hx hlocal hnew hzero)

/-- A scope that is no routine has no local symbols. -/
theorem Verdicts.widen (h : Verdicts (n + 1) t L)
    (hkind : t.kind? n ≠ some .procedure ∧ t.kind? n ≠ some .method) : Verdicts n t L where
  distinct := h.distinct
  sound e he := by
    obtain ⟨x, hx, hlocal, hle, hverdict⟩ := h.sound e he
    exact ⟨x, hx, hlocal, Nat.le_of_succ_le hle, hverdict⟩
  complete id x hx hlocal hle hzero := by
    refine h.complete id x hx hlocal (Nat.lt_of_le_of_ne hle fun heq => ?_) hzero
    rw [heq] at hkind
    exact hlocal.2.elim hkind.1 hkind.2

/-- Where the current scope is plays no part. -/
theorem Verdicts.leave (h : Verdicts n t L) : Verdicts n t.leave L := by
  obtain ⟨scope, hleave⟩ := t.leave_eq
  rw [hleave]
  exact ⟨h.distinct, h.sound, h.complete⟩

/-- The symbols of a scope, each once. -/
theorem Consistent.nodup_symbolsIn (h : t.Consistent) (scope : Nat) :
    (t.symbolsIn scope).Nodup := by
  unfold symbolsIn
  cases hsc : t.scope? scope with
  | none => exact List.nodup_nil
  | some sc =>
    refine (List.mergeSort_perm _ _).nodup_iff.2 ?_
    have hnames := h.distinct hsc
    rw [List.Nodup, List.pairwise_map] at hnames ⊢
    refine hnames.imp_of_mem fun {a b} ha hb hne heq => hne ?_
    obtain ⟨x, hx, hname, -⟩ := h.named hsc a ha
    obtain ⟨y, hy, hname', -⟩ := h.named hsc b hb
    rw [heq, hy] at hx
    cases hx
    exact hname.symm.trans hname'

theorem Consistent.mem_symbolsIn_iff (h : t.Consistent) (hx : t.symbol? id = some x) {scope : Nat} :
    id ∈ t.symbolsIn scope ↔ x.scope = scope := by
  rw [mem_symbolsIn]
  constructor
  · rintro ⟨e, he, rfl⟩
    cases hsc : t.scope? scope with
    | none =>
      unfold namesOf at he
      rw [hsc] at he
      cases he
    | some sc =>
      have hmem : e ∈ sc.names := by
        unfold namesOf at he
        rwa [hsc] at he
      obtain ⟨y, hy, -, hscope⟩ := h.named hsc e hmem
      rw [hx] at hy
      cases hy
      exact hscope
  · rintro rfl
    obtain ⟨sc, hsc, hmem⟩ := mem_names_of_declared? (h.listed hx)
    refine ⟨(x.name, id), ?_, rfl⟩
    unfold namesOf
    rw [hsc]
    exact hmem

end SymbolTable

namespace CheckState

open SymbolTable (Verdicts)

variable {s s' s'' s₁ s₂ : CheckState} {L : List (Nat × Diagnostic)}

/-- The symbols of the current scope that are reported at the end of a routine, with the reports. -/
def verdicts (s : CheckState) : List (Nat × Diagnostic) :=
  (s.table.symbolsIn s.table.current).filterMap fun id => (Check.unusedReport? s id).map (id, ·)

theorem map_snd_verdicts (s : CheckState) : s.verdicts.map Prod.snd =
    (s.table.symbolsIn s.table.current).filterMap (Check.unusedReport? s) := by
  rw [verdicts, List.map_filterMap]
  refine List.filterMap_congr fun id _ => ?_
  rw [Option.map_map]
  exact Option.map_id'

theorem nodup_verdicts (hs : s.table.Consistent) : (s.verdicts.map Prod.fst).Nodup := by
  rw [verdicts, List.map_filterMap]
  refine (hs.nodup_symbolsIn s.table.current).filterMap fun a b c ha hb => ?_
  have same (id : Nat) (h : ((Check.unusedReport? s id).map (id, ·)).map Prod.fst = some c) :
      id = c := by
    cases hd : Check.unusedReport? s id with
    | none =>
      rw [hd] at h
      cases h
    | some d =>
      rw [hd] at h
      exact Option.some.inj h
  exact (same a ha).trans (same b hb).symm

theorem mem_verdicts_iff {e : Nat × Diagnostic} : e ∈ s.verdicts ↔
    e.1 ∈ s.table.symbolsIn s.table.current ∧ Check.unusedReport? s e.1 = some e.2 := by
  rw [verdicts, List.mem_filterMap]
  constructor
  · rintro ⟨id, hid, he⟩
    obtain ⟨d, hd, rfl⟩ := Option.map_eq_some_iff.1 he
    exact ⟨hid, hd⟩
  · rintro ⟨hid, hd⟩
    exact ⟨e.1, hid, by rw [hd]; rfl⟩

/-- At the end of a routine the local symbols of its scope are judged. -/
theorem verdicts_append (hs : s.table.Consistent)
    (hkind : s.table.kind? s.table.current = some .procedure ∨
      s.table.kind? s.table.current = some .method)
    (houts : ∀ id x, (List.lookup id s.outParams).isSome → s.table.symbol? id = some x →
      x.mode? = some .out) (h : Verdicts (s.table.current + 1) s.table L) :
    Verdicts s.table.current s.table (s.verdicts.reverse ++ L) where
  distinct := by
    rw [List.map_append, List.map_reverse]
    refine List.nodup_append.2 ⟨List.nodup_reverse.2 (nodup_verdicts hs), h.distinct,
      fun i hi j hj heq => ?_⟩
    subst heq
    obtain ⟨e', he', rfl⟩ := List.mem_map.1 (List.mem_reverse.1 hi)
    obtain ⟨e, he, heq⟩ := List.mem_map.1 hj
    obtain ⟨x, hx, -, hle, -⟩ := h.sound e he
    have hscope := (hs.mem_symbolsIn_iff (heq ▸ hx)).1 (mem_verdicts_iff.1 he').1
    omega
  sound := by
    refine List.forall_mem_append.2 ⟨fun e he => ?_, fun e he => ?_⟩
    · obtain ⟨hmem, hd⟩ := mem_verdicts_iff.1 (List.mem_reverse.1 he)
      obtain ⟨x, hx, hlocal, hverdict⟩ := Check.of_unusedReport? hd
      have hscope := (hs.mem_symbolsIn_iff hx).1 hmem
      refine ⟨x, hx, ⟨hlocal, hscope ▸ hkind⟩, Nat.le_of_eq hscope.symm,
        hverdict.imp_left fun ⟨hnever, hout⟩ => ⟨hnever, houts e.1 x ?_ hx⟩⟩
      cases ho : List.lookup e.1 s.outParams with
      | none =>
        rw [ho] at hout
        cases hout
      | some o => rfl
    · obtain ⟨x, hx, hlocal, hle, hverdict⟩ := h.sound e he
      exact ⟨x, hx, hlocal, Nat.le_of_succ_le hle, hverdict⟩
  complete id x hx hlocal hle hzero := by
    rw [List.map_append, List.mem_append]
    rcases Nat.eq_or_lt_of_le hle with hscope | hlt
    · have hreport : ∃ d, Check.unusedReport? s id = some d := by
        unfold Check.unusedReport?
        rw [hx]
        dsimp only
        rw [if_pos hlocal.1, if_pos hzero]
        exact ⟨_, (apply_ite some _ _ _).symm⟩
      obtain ⟨d, hd⟩ := hreport
      exact .inl (List.mem_map.2 ⟨(id, d), List.mem_reverse.2 (mem_verdicts_iff.2
        ⟨(hs.mem_symbolsIn_iff hx).2 hscope.symm, hd⟩), rfl⟩)
    · exact .inr (h.complete id x hx hlocal hlt hzero)

/-! ## Stretches of an analysis -/

/-- Between two states in the same scope, local symbols of routines that are done are not used, and
those of the routines that are gone through are judged. -/
structure Settles (s s' : CheckState) : Prop where
  grows : s.table.Grows s'.table
  count : ∀ id x, s.table.symbol? id = some x → s.table.IsLocal x →
    x.scope ∉ s.table.enclosing s.table.current →
    s'.table.referenceCount id = s.table.referenceCount id
  reports : ∃ more L, s'.reports = more ++ s.reports ∧
    more.filter (·.code ∈ Check.idleCodes) = L.map Prod.snd ∧
    Verdicts s.table.scopes.size s'.table L

/-- Where no scope is opened, what is used is no local symbol of a routine that is done, and what
is reported is no verdict. -/
theorem Settles.unopened (hs' : s'.table.Consistent) (hgrows : s.table.Grows s'.table)
    (hscopes : s'.table.scopes.size = s.table.scopes.size)
    (hcount : ∀ id x, s.table.symbol? id = some x → s.table.IsLocal x →
      x.scope ∉ s.table.enclosing s.table.current →
      s'.table.referenceCount id = s.table.referenceCount id)
    (more : List Diagnostic) (hreports : s'.reports = more ++ s.reports)
    (hcodes : ∀ d ∈ more, d.code ∉ Check.idleCodes) : s.Settles s' where
  grows := hgrows
  count := hcount
  reports := by
    refine ⟨more, [], hreports, List.filter_eq_nil_iff.2 fun d hd => ?_,
      SymbolTable.verdicts_nil hs' (Nat.le_of_eq hscopes)⟩
    simpa using hcodes d hd

theorem Settles.trans (hs : s.table.Reachable) (h : s.Settles s') (h' : s'.Settles s'') :
    s.Settles s'' := by
  obtain ⟨F, hopened⟩ := id h.grows
  obtain ⟨hs', hextends, hcurrent⟩ := hopened.reachable hs
  have hlt := hs.consistent.current
  obtain ⟨more, L, hmore, hfilter, hverdicts⟩ := h.reports
  obtain ⟨more', L', hmore', hfilter', hverdicts'⟩ := h'.reports
  refine ⟨h.grows.trans h'.grows, fun id x hx hlocal hscope => ?_, more' ++ more, L' ++ L, ?_, ?_, ?_⟩
  · obtain ⟨x', hx', -, hkind, hsame, -⟩ := hopened.keepsSymbols hs id x hx
    have hlocal' := (hextends.isLocal_iff hkind hsame (hs.consistent.scope_lt hx)).2 hlocal
    rw [h'.count id x' hx' hlocal' ?_, h.count id x hx hlocal hscope]
    rwa [hsame, hcurrent, hextends.enclosing hlt]
  · rw [hmore', hmore, List.append_assoc]
  · rw [List.filter_append, hfilter, hfilter', List.map_append]
  · refine hverdicts.append hs' (hcurrent ▸ hlt) hextends.scopes h'.grows (fun id x hx hlocal hle =>
      h'.count id x hx hlocal fun hmem => ?_) hverdicts'
    have hle' := SymbolTable.le_of_mem_enclosing hmem
    omega

/-- What is seen from inside a new scope of the local symbols around. -/
theorem Settles.count_entered (hs : s.table.Consistent) {kind : ScopeKind} {span : Span}
    (h : (Check.entered kind span s).Settles s₁) {id : Nat} {x : Symbol}
    (hx : s.table.symbol? id = some x) (hlocal : s.table.IsLocal x)
    (hscope : x.scope ∉ s.table.enclosing s.table.current) :
    s₁.table.referenceCount id = s.table.referenceCount id := by
  have hlt := hs.scope_lt hx
  refine h.count id x hx (((s.table.extends_enter kind span).isLocal_iff rfl rfl hlt).2 hlocal) ?_
  rw [show (Check.entered kind span s).table = s.table.enter kind span from rfl,
    hs.enclosing_enter, List.mem_cons, not_or]
  exact ⟨Nat.ne_of_lt hlt, hscope⟩

theorem kind_entered {t : SymbolTable} (hs : s.table.Reachable) {kind : ScopeKind} {span : Span}
    (h : (Check.entered kind span s).table.Grows t) : t.kind? s.table.scopes.size = some kind := by
  obtain ⟨F, hopened⟩ := h
  exact (hopened.reachable (hs.enter kind span)).2.1.kind
    ((SymbolTable.kind?_enter ..).trans (if_pos rfl))

/-- A stretch inside a scope that is no routine. -/
theorem Settles.inside (hs : s.table.Reachable) {kind : ScopeKind} {span : Span}
    (hkind : kind ≠ .procedure ∧ kind ≠ .method) (h : (Check.entered kind span s).Settles s₁) :
    s.Settles { s₁ with table := s₁.table.leave } := by
  have hnew := kind_entered hs h.grows
  obtain ⟨more, L, hmore, hfilter, hverdicts⟩ := h.reports
  rw [show (Check.entered kind span s).table = s.table.enter kind span from rfl,
    SymbolTable.size_enter] at hverdicts
  refine ⟨.scope h.grows, fun id x hx hlocal hscope => ?_, more, L, hmore, hfilter,
    (hverdicts.widen ?_).leave⟩
  · obtain ⟨scope, hleave⟩ := s₁.table.leave_eq
    rw [hleave]
    exact h.count_entered hs.consistent hx hlocal hscope
  · rw [hnew]
    exact ⟨fun h => hkind.1 (Option.some.inj h), fun h => hkind.2 (Option.some.inj h)⟩

/-- A stretch inside a routine, at the end of which its local symbols are judged. -/
theorem Settles.routine (hs : s.table.Reachable) {kind : ScopeKind} {span : Span}
    (hkind : kind = .procedure ∨ kind = .method) (h : (Check.entered kind span s).Settles s₁)
    (houts : ∀ id x, (List.lookup id s₁.outParams).isSome → s₁.table.symbol? id = some x →
      x.mode? = some .out) {outs : List (Nat × OutState)} :
    s.Settles { s₁ with
      table := s₁.table.leave
      reports := (s₁.verdicts.map Prod.snd).reverse ++ s₁.reports
      outParams := outs } := by
  obtain ⟨F, hopened⟩ := id h.grows
  obtain ⟨hs₁, -, hcurrent⟩ := hopened.reachable (hs.enter kind span)
  have hcurrent : s₁.table.current = s.table.scopes.size := hcurrent
  have hnew : s₁.table.kind? s₁.table.current = some kind := by
    rw [hcurrent]
    exact kind_entered hs h.grows
  obtain ⟨more, L, hmore, hfilter, hverdicts⟩ := h.reports
  rw [show (Check.entered kind span s).table = s.table.enter kind span from rfl,
    SymbolTable.size_enter, ← hcurrent] at hverdicts
  have hjudged := verdicts_append hs₁.consistent
    (hkind.imp (fun heq => hnew.trans (congrArg some heq)) fun heq =>
      hnew.trans (congrArg some heq)) houts hverdicts
  refine ⟨.scope h.grows, fun id x hx hlocal hscope => ?_,
    (s₁.verdicts.map Prod.snd).reverse ++ more, s₁.verdicts.reverse ++ L, ?_, ?_, ?_⟩
  · obtain ⟨scope, hleave⟩ := s₁.table.leave_eq
    rw [hleave]
    exact h.count_entered hs.consistent hx hlocal hscope
  · dsimp only
    rw [hmore, List.append_assoc]
    rfl
  · rw [List.filter_append, hfilter, List.map_append, List.map_reverse,
      List.filter_eq_self.2 fun d hd => ?_]
    obtain ⟨e, he, rfl⟩ := List.mem_map.1 (List.mem_reverse.1 hd)
    obtain ⟨y, -, -, ⟨heq, -⟩ | ⟨heq, -⟩⟩ := Check.of_unusedReport? (mem_verdicts_iff.1 he).2
    · rw [heq]
      rfl
    · rw [heq]
      rfl
  · rw [← hcurrent]
    exact hjudged.leave

end CheckState

end SimFront
