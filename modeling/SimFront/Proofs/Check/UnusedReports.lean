import SimFront.Proofs.Check.OwnNames
import SimFront.Proofs.Check.UnusedDecl

/-!
# Reports on unused symbols

What is declared below the scope of the module stands on an identifier of what the module declares
itself (`ident_mem_ownNodes`).  So in a text no other symbol stands where a local one does
(`local_apart`), and a report tells by its place which symbol it is about.  With the verdicts of
the routines, the reports on unused symbols agree with the references in the end
(`unused_reports`).
-/

namespace SimFront

open CheckState (Recorded)
open SymbolTable (Verdicts)

/-! ## Where local symbols stand -/

/-- Where nothing has to do with imports, each symbol was there or stands on one of the nodes. -/
theorem CheckState.Recorded.declared_at {U : Multiset Node} {s s' : CheckState}
    (h : Recorded U s s') (hown : ∀ item, .importItem item ∉ U) {id : Nat} {x : Symbol}
    (hx : s'.table.symbol? id = some x) :
    (∃ y, s.table.symbol? id = some y ∧ y.ident = x.ident ∧ y.scope = x.scope) ∨
      x.ident ∈ U.filterMap Node.ident? := by
  induction h generalizing x with
  | @quiet s s' hquiet => exact .inl ⟨x, hquiet.1 ▸ hx, rfl, rfl⟩
  | note s p => exact .inl ⟨x, hx, rfl, rfl⟩
  | @declare s i symbol _ t hname hspan hdefine =>
    rw [SymbolTable.symbol?_defineIn hdefine] at hx
    split at hx
    · obtain rfl := Option.some.inj hx
      refine .inr ((Multiset.mem_filterMap _ _).2 ⟨.ident i, Multiset.mem_singleton_self _, ?_⟩)
      exact congrArg some (congrArg₂ Ident.mk hname.symm hspan.symm)
    · exact .inl ⟨x, hx, rfl, rfl⟩
  | value _ hitem => exact absurd hitem (hown _)
  | refer => exact .inl ⟨x, hx, rfl, rfl⟩
  | retype s i type =>
    dsimp only at hx
    rw [SymbolTable.symbol?_retype] at hx
    split at hx
    · next heq =>
      obtain ⟨y, hy, rfl⟩ := Option.map_eq_some_iff.1 hx
      exact .inl ⟨y, heq ▸ hy, rfl, rfl⟩
    · exact .inl ⟨x, hx, rfl, rfl⟩
  | @scope U s s' kind n _ _ ih =>
    obtain ⟨scope, hleave⟩ := s'.table.leave_eq
    dsimp only at hx
    rw [hleave] at hx
    exact (ih (fun item hitem => hown item (Multiset.mem_cons_of_mem hitem)) hx).imp_right
      (Multiset.mem_of_le (Multiset.filterMap_le_filterMap _ (Multiset.le_cons_self _ _)))
  | @seq U V s s' s'' _ _ ih ih' =>
    rw [Multiset.filterMap_add, Multiset.mem_add]
    rcases ih' (fun item hitem => hown item (Multiset.mem_add.2 (.inr hitem))) hx with
      ⟨y, hy, hident, hscope⟩ | hmem
    · rw [← hident, ← hscope]
      exact (ih (fun item hitem => hown item (Multiset.mem_add.2 (.inl hitem))) hy).imp_right .inl
    · exact .inr (.inr hmem)
  | weaken _ hle ih =>
    exact (ih (fun item hitem => hown item (Multiset.mem_of_le hle hitem)) hx).imp_right
      (Multiset.mem_of_le (Multiset.filterMap_le_filterMap _ hle))

/-- Where no scopes are opened, there are as many as before. -/
theorem SymbolTable.Opened.size_eq {alone : Prop} {F : List ScopeTree} {t t' : SymbolTable}
    (h : Opened alone F t t') (hF : F = []) : t'.scopes.size = t.scopes.size := by
  induction h with
  | refer => rfl
  | declare _ hdefine => exact size_scopes_defineIn hdefine
  | retype => rfl
  | scope => cases hF
  | seq _ _ ih ih' =>
    obtain ⟨hF, hG⟩ := List.append_eq_nil_iff.1 hF
    exact (ih' hG).trans (ih hF)

/-- What is declared below the scope of a module stands on an identifier of what the module declares
itself. -/
theorem ident_mem_ownNodes (resolver? : Option Resolver) (m : Module) {id : Nat} {x : Symbol}
    (hx : (CheckState.after resolver? m).table.symbol? id = some x)
    (hscope : x.scope ≠ SymbolTable.root) : x.ident ∈ Node.names (Check.ownNodes m) := by
  have hstart := faithful_ofModule resolver? m
  obtain ⟨hfront, hfaithful⟩ := Check.checkFront_opens m _ _ rfl rfl hstart
  obtain ⟨hreachable, -, -⟩ := hfront.reachable (.new m.name.name m.span)
  obtain ⟨hrecorded, hfaithful'⟩ := Check.checkOwn_records m _ _ rfl hfaithful trivial
  -- the names of types that were put off declare nothing
  have late : Check.Touches (Standing.plain (Env.ofModule resolver? m).head fun _ => True)
      Check.checkPendingTypes :=
    .get fun s => Check.forM_touches fun _ _ => Check.checkPendingType_touches trivial
  obtain ⟨rs, hrs, -⟩ := (late _ _ ⟨rfl, hfaithful'⟩).1.table
  have hafter : (CheckState.after resolver? m).table = _ := hrs
  rw [hafter] at hx
  rcases hrecorded.declared_at (importItem_not_mem_ownNodes m) hx with ⟨y, hy, -, hsame⟩ | hmem
  · -- imports open no scopes
    have hlt := hreachable.consistent.scope_lt hy
    rw [hfront.size_eq rfl] at hlt
    exact absurd (hsame.symm.trans (Nat.lt_one_iff.1 hlt)) hscope
  · exact hmem

theorem kind?_root_after (resolver? : Option Resolver) (m : Module) :
    (CheckState.after resolver? m).table.kind? SymbolTable.root = some .module :=
  ((opened_after resolver? m).reachable (.new m.name.name m.span)).2.1.kind rfl

theorem SymbolTable.IsLocal.scope_ne_root {t : SymbolTable} {x : Symbol} (h : t.IsLocal x)
    (hroot : t.kind? SymbolTable.root = some .module) : x.scope ≠ SymbolTable.root := fun heq => by
  rw [IsLocal, heq, hroot] at h
  rcases h.2 with h | h <;> cases h

/-- No other symbol of a text stands where a local one does. -/
theorem local_apart {text : String} {p : Parse} (h : parseText text .strict = .ok p)
    (resolver? : Option Resolver) {id id' : Nat} {x y : Symbol}
    (hx : (CheckState.after resolver? p.module).table.symbol? id = some x)
    (hlocal : (CheckState.after resolver? p.module).table.IsLocal x)
    (hy : (CheckState.after resolver? p.module).table.symbol? id' = some y)
    (hspan : y.span = x.span) : id' = id := by
  have hspans : (Node.names [.module p.module]).map Ident.span ≤ ↑(identSpans text) :=
    Multiset.map_le_map (parse_names h)
  have hdistinct := Multiset.nodup_of_le hspans (Multiset.coe_nodup.2 (identSpans_nodup text))
  have hown : x.span ∈ (Node.names (Check.ownNodes p.module)).map Ident.span :=
    Multiset.mem_map_of_mem Ident.span (ident_mem_ownNodes resolver? p.module hx
      (hlocal.scope_ne_root (kind?_root_after resolver? p.module)))
  -- so it does not stand where something is imported
  have hapart (i : Ident) (hi : i.span = x.span) : ¬ p.module.Brings resolver? i := fun hbrings => by
    obtain ⟨name, hname⟩ := hbrings.mem_imports
    have himported := Multiset.mem_map_of_mem Ident.span hname
    rw [← Node.names_module, Multiset.map_add] at hdistinct
    exact Multiset.disjoint_left.1 (Multiset.nodup_add.1 hdistinct).2.2 (hi ▸ himported) hown
  have htaken := Multiset.map_le_map (f := Ident.span) (taken_after resolver? p.module)
  rw [Multiset.map_add] at htaken
  exact SymbolTable.own_span_inj
    (Multiset.nodup_of_le (le_trans (Multiset.le_add_right _ _) htaken) hdistinct) hy hx
    (hapart y.ident hspan) (hapart x.ident rfl) hspan

/-! ## Reports -/

/-- The reports that are made at the end of routines, with the symbols that they are about. -/
theorem idle_diagnostics (resolver? : Option Resolver) (m : Module) :
    ∃ L, ((analyze resolver? m).diagnostics.filter (·.code ∈ Check.idleCodes)).Perm
        (L.map Prod.snd) ∧ Verdicts 1 (CheckState.after resolver? m).table L := by
  obtain ⟨L, hfilter, hverdicts⟩ := verdicts_after resolver? m
  refine ⟨L, ?_, hverdicts⟩
  rw [← hfilter, analyze_eq]
  exact ((List.mergeSort_perm _ _).trans (List.reverse_perm _)).filter _

section Texts

variable {text : String} {p : Parse} {resolver? : Option Resolver} {L : List (Nat × Diagnostic)}
  {e : Nat × Diagnostic} {d : Diagnostic} {ds : List Diagnostic} {id : Nat} {x : Symbol}

/-- The reports with such a code are the ones that the verdicts come with. -/
theorem mem_of_idle (hperm : (ds.filter (·.code ∈ Check.idleCodes)).Perm (L.map Prod.snd))
    (hd : d.code ∈ Check.idleCodes) : d ∈ ds ↔ ∃ e ∈ L, e.2 = d := by
  rw [← List.mem_map, ← hperm.mem_iff, List.mem_filter, decide_eq_true hd]
  exact (and_iff_left rfl).symm

theorem unusedSymbol_idle (hcode : d.code = .unusedSymbol) : d.code ∈ Check.idleCodes :=
  hcode ▸ .head _

theorem outNeverAssigned_idle (hcode : d.code = .outNeverAssigned) : d.code ∈ Check.idleCodes :=
  hcode ▸ .tail _ (.head _)

/-- There are no more reports of an unused symbol in a place than verdicts on it. -/
theorem unusedAt_le (hperm : (ds.filter (·.code ∈ Check.idleCodes)).Perm (L.map Prod.snd))
    (span : Span) :
    (ds.filter fun d => d.code = .unusedSymbol ∧ d.span = span).length ≤
      (L.filter fun e => e.2.span = span).length := by
  let unusedAt (d : Diagnostic) : Bool := d.code = .unusedSymbol ∧ d.span = span
  have hidle : ds.filter unusedAt = (ds.filter (·.code ∈ Check.idleCodes)).filter unusedAt := by
    rw [List.filter_filter]
    refine List.filter_congr fun d _ => ?_
    cases hd : unusedAt d with
    | false => rfl
    | true => rw [decide_eq_true (unusedSymbol_idle (of_decide_eq_true hd).1), Bool.and_self]
  calc (ds.filter unusedAt).length
    _ = ((L.map Prod.snd).filter unusedAt).length := by rw [hidle, (hperm.filter unusedAt).length_eq]
    _ = (L.filter (unusedAt ∘ Prod.snd)).length := by rw [List.filter_map, List.length_map]
    _ ≤ (L.filter fun e => e.2.span = span).length :=
      (List.monotone_filter_right L fun e he =>
        decide_eq_true (of_decide_eq_true he).2).length_le

variable (h : parseText text .strict = .ok p)

include h

/-- In a text a verdict tells by its place which symbol it is about. -/
theorem verdict_at (hverdicts : Verdicts 1 (CheckState.after resolver? p.module).table L)
    (he : e ∈ L) (hx : (CheckState.after resolver? p.module).table.symbol? id = some x)
    (hspan : e.2.span = x.span) :
    e.1 = id ∧ (CheckState.after resolver? p.module).table.IsLocal x ∧
      (e.2 = .neverAssigned x ∧ x.mode? = some .out ∨
        e.2 = .unused x ∧ (CheckState.after resolver? p.module).table.referenceCount id = 0) := by
  obtain ⟨y, hy, hlocal, -, hverdict⟩ := hverdicts.sound e he
  have hplace : e.2.span = y.span := by
    rcases hverdict with ⟨heq, -⟩ | ⟨heq, -⟩ <;> rw [heq] <;> rfl
  obtain rfl := local_apart h resolver? hy hlocal hx (hspan.symm.trans hplace)
  obtain rfl : x = y := Option.some.inj (hx.symm.trans hy)
  exact ⟨rfl, hlocal, hverdict⟩

/-- A symbol is judged once. -/
theorem verdicts_at (hverdicts : Verdicts 1 (CheckState.after resolver? p.module).table L)
    (hx : (CheckState.after resolver? p.module).table.symbol? id = some x) :
    (L.filter fun e => e.2.span = x.span).length ≤ 1 := by
  have hdistinct : ((L.filter fun e => e.2.span = x.span).map Prod.fst).Nodup :=
    hverdicts.distinct.sublist (List.filter_sublist.map _)
  have hsame : (L.filter fun e => e.2.span = x.span).map Prod.fst ⊆ [id] := fun i hi => by
    obtain ⟨e, he, rfl⟩ := List.mem_map.1 hi
    obtain ⟨he, hspan⟩ := List.mem_filter.1 he
    exact List.mem_singleton.2 (verdict_at h hverdicts he hx (of_decide_eq_true hspan)).1
  have hlength := (List.subperm_of_subset hdistinct hsame).length_le
  rwa [List.length_map] at hlength

/-- **Unused symbols.**  In a text that strict mode reads, a symbol is reported as unused just if it
is a variable or a parameter of a procedure or a method, the table has no reference to it in the
end, and it is no OUT parameter that is reported never to be assigned; and it is reported as unused
once at most. -/
theorem unused_reports (resolver? : Option Resolver) :
    let a := analyze resolver? p.module
    (∀ d ∈ a.diagnostics, d.code = .unusedSymbol →
      ∃ id x, a.table.symbol? id = some x ∧ d = .unused x) ∧
    ∀ id x, a.table.symbol? id = some x →
      ((∃ d ∈ a.diagnostics, d.code = .unusedSymbol ∧ d.span = x.span) ↔
        a.table.IsLocal x ∧ a.table.referenceCount id = 0 ∧
          ¬ (x.mode? = some .out ∧
            ∃ d ∈ a.diagnostics, d.code = .outNeverAssigned ∧ d.span = x.span)) ∧
      (a.diagnostics.filter fun d => d.code = .unusedSymbol ∧ d.span = x.span).length ≤ 1 := by
  intro a
  obtain ⟨L, hperm, hverdicts⟩ := idle_diagnostics resolver? p.module
  refine ⟨fun d hd hcode => ?_, fun id x hx => ⟨⟨?_, ?_⟩, ?_⟩⟩
  · obtain ⟨e, he, rfl⟩ := (mem_of_idle hperm (unusedSymbol_idle hcode)).1 hd
    obtain ⟨y, hy, -, -, ⟨heq, -⟩ | ⟨heq, -⟩⟩ := hverdicts.sound e he
    · rw [heq] at hcode
      cases hcode
    · exact ⟨e.1, y, hy, heq⟩
  · rintro ⟨d, hd, hcode, hspan⟩
    obtain ⟨e, he, rfl⟩ := (mem_of_idle hperm (unusedSymbol_idle hcode)).1 hd
    obtain ⟨hid, hlocal, ⟨heq, -⟩ | ⟨-, hzero⟩⟩ := verdict_at h hverdicts he hx hspan
    · rw [heq] at hcode
      cases hcode
    refine ⟨hlocal, hzero, fun ⟨_, d', hd', hcode', hspan'⟩ => ?_⟩
    obtain ⟨e', he', rfl⟩ := (mem_of_idle hperm (outNeverAssigned_idle hcode')).1 hd'
    obtain rfl := List.inj_on_of_nodup_map hverdicts.distinct he he'
      (hid.trans (verdict_at h hverdicts he' hx hspan').1.symm)
    cases hcode.symm.trans hcode'
  · rintro ⟨hlocal, hzero, hassigned⟩
    have hscope := Nat.pos_of_ne_zero (hlocal.scope_ne_root (kind?_root_after resolver? p.module))
    obtain ⟨e, he, rfl⟩ := List.mem_map.1 (hverdicts.complete id x hx hlocal hscope hzero)
    obtain ⟨y, hy, -, -, hverdict⟩ := hverdicts.sound e he
    obtain rfl : x = y := Option.some.inj (hx.symm.trans hy)
    rcases hverdict with ⟨heq, hout⟩ | ⟨heq, -⟩
    · have hd := (mem_of_idle hperm (outNeverAssigned_idle rfl)).2 ⟨e, he, heq⟩
      exact absurd ⟨hout, _, hd, rfl, rfl⟩ hassigned
    · have hd := (mem_of_idle hperm (unusedSymbol_idle rfl)).2 ⟨e, he, heq⟩
      exact ⟨_, hd, rfl, rfl⟩
  · exact (unusedAt_le hperm x.span).trans (verdicts_at h hverdicts hx)

end Texts

/-- A variable that nothing is done with, an OUT parameter that is never assigned, and a variable that
is assigned: the first one is reported as unused. -/
theorem unused_reports_variable : ∃ p,
    parseText "MODULE M; PROCEDURE P; VAR a: CHAR; BEGIN END PROCEDURE; PROCEDURE Q(OUT b: CHAR); BEGIN END PROCEDURE; PROCEDURE R; VAR c: INTEGER; BEGIN c := 1 END PROCEDURE; END MODULE."
      .strict = .ok p ∧
    let a := analyze none p.module
    ∃ x y z, a.table.symbol? 4 = some x ∧ x.name = "a" ∧ a.table.symbol? 5 = some y ∧ y.name = "b" ∧
      a.table.symbol? 6 = some z ∧ z.name = "c" ∧
      (∃ d ∈ a.diagnostics, d.code = .unusedSymbol ∧ d.span = x.span) ∧
      (a.diagnostics.filter fun d => d.code = .unusedSymbol ∧ d.span = x.span).length ≤ 1 ∧
      (¬ ∃ d ∈ a.diagnostics, d.code = .unusedSymbol ∧ d.span = y.span) ∧
      ¬ ∃ d ∈ a.diagnostics, d.code = .unusedSymbol ∧ d.span = z.span := by
  have hfacts : ((parseText
      "MODULE M; PROCEDURE P; VAR a: CHAR; BEGIN END PROCEDURE; PROCEDURE Q(OUT b: CHAR); BEGIN END PROCEDURE; PROCEDURE R; VAR c: INTEGER; BEGIN c := 1 END PROCEDURE; END MODULE."
      .strict).toOption.map fun p =>
        let s := CheckState.after none p.module
        [4, 5, 6].map fun id => (s.table.symbol? id).map fun x =>
          (x.name, decide (x.kind = .var ∧ x.mode? = none ∧ s.table.kind? x.scope = some .procedure),
            decide (x.mode? = some .out ∧
              ∃ d ∈ s.reports, d.code = .outNeverAssigned ∧ d.span = x.span),
            s.table.referenceCount id)) =
      some [some ("a", true, false, 0), some ("b", false, true, 0), some ("c", true, false, 1)] := by
    decide +kernel
  cases hp : parseText
      "MODULE M; PROCEDURE P; VAR a: CHAR; BEGIN END PROCEDURE; PROCEDURE Q(OUT b: CHAR); BEGIN END PROCEDURE; PROCEDURE R; VAR c: INTEGER; BEGIN c := 1 END PROCEDURE; END MODULE."
      .strict with
  | error e =>
    rw [hp] at hfacts
    cases hfacts
  | ok p =>
    rw [hp] at hfacts
    have hlist := Option.some.inj hfacts
    simp only [List.map_cons, List.map_nil, List.cons.injEq, Option.map_eq_some_iff,
      Prod.mk.injEq] at hlist
    obtain ⟨⟨x, hx, hxname, hxvar, -, hxcount⟩, ⟨y, hy, hyname, -, hyout, -⟩,
      ⟨z, hz, hzname, -, -, hzcount⟩, -⟩ := hlist
    obtain ⟨hkind, hmode, hscope⟩ := of_decide_eq_true hxvar
    obtain ⟨hout, d, hd, hnever⟩ := of_decide_eq_true hyout
    obtain ⟨-, hreports⟩ := unused_reports hp none
    refine ⟨p, rfl, x, y, z, hx, hxname, hy, hyname, hz, hzname,
      (hreports 4 x hx).1.2 ⟨⟨.inl hkind, .inl hscope⟩, hxcount, ?_⟩, (hreports 4 x hx).2,
      fun h => ?_, fun h => ?_⟩
    · rintro ⟨hout, -⟩
      cases hmode.symm.trans hout
    · obtain ⟨-, -, hassigned⟩ := (hreports 5 y hy).1.1 h
      exact hassigned ⟨hout, d, mem_diagnostics.2 hd, hnever⟩
    · obtain ⟨-, hzero, -⟩ := (hreports 6 z hz).1.1 h
      cases hzcount.symm.trans hzero

end SimFront
