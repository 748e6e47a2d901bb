import SimFront.Grammar.TypeSpec
import SimFront.Proofs.Grammar.ExprNodes

/-!
# The nodes of types

As for expressions: every rule makes its node over what it gathered, when the parser of
nested types does (`ty` below).  The members of an object before any section word make a
section that starts where the first of them does.
-/

namespace SimFront.Grammar

open SimFront.Parser

variable {ty : Parser TypeSpec} {s s' : ParserState}

theorem qualIdent_builds : Builds (fun q => [.qualIdent q]) qualIdent := by
  refine fun s hs => .inspect <| (ident_builds s hs).bind fun _ _ h => .inspect (.inspect ?_)
  refine .ite (fun _ => ?_) fun _ => .pure (h.wrap rfl rfl rfl)
  refine (h.skip bump_gathers).bind fun _ _ h => ?_
  refine (h.gather ident_builds.gathers).bind fun _ _ h => ?_
  exact h.finish (fun _ => rfl) (fun _ => rfl) fun _ => rfl

/-! ## Parameters and headings -/

theorem nameRound_gathers : Gathers (fun r => r.found?.toList.map .ident) (do
    if (← atKind (.mark .comma)) && (← kindAt 1) = .ident then
      let _ ← bump
      found (← ident)
    else stopped : Parser (Round Unit Ident)) := by
  refine fun s hs => .inspect (.inspect (.ite (fun _ => ?_) fun _ => .pure (.refl hs)))
  refine (bump_accepts hs).bind fun _ _ ⟨_, h⟩ => ?_
  exact (h.gather ident_builds.gathers).bind fun _ _ h => .pure h

theorem param_builds (ht : Builds (fun t => [.typeSpec t]) ty) :
    Builds (fun p => [.param p]) (param ty) := by
  have hrest {mode : ParamMode} {s s' : ParserState} (h : Gathered s s' []) : Accepts (do
      let first ← ident
      let more ← many do
        if (← atKind (.mark .comma)) && (← kindAt 1) = .ident then
          let _ ← bump
          found (← ident)
        else stopped
      expectMark .colon
      let t ← ty
      pure (⟨mode, first :: more, t, ← spanFrom s.current.span.start⟩ : Param)) s' fun p s'' =>
        Built s s'' [.param p] := by
    refine (h.build ident_builds).bind fun _ _ h => ?_
    refine (h.gather (many_gathers nameRound_gathers)).bind fun _ _ h => ?_
    refine (h.skip (expectMark_builds _).gathers).bind fun _ _ h => ?_
    refine (h.gather ht.gathers).bind fun _ _ h => ?_
    exact h.finish (fun _ => rfl) (fun _ => rfl) fun _ => rfl
  refine fun s hs => .inspect (.inspect ?_)
  split
  iterate 3
    exact (bump_accepts hs).bind fun _ _ ⟨_, h⟩ => .pure_bind (hrest h)
  exact .pure_bind (hrest (.refl hs))

theorem closeParams_gathers (opened : Span) : Gathers silent (closeParams opened) := fun s hs =>
  .inspect <| .ite (fun _ => (eatMark_gathers _ s hs).bind fun _ _ h => .pure h)
    fun _ => .after .failRelated

theorem paramRound_gathers (ht : Builds (fun t => [.typeSpec t]) ty) :
    Gathers (fun r => r.found?.toList.map .param) (paramRound ty) := by
  refine fun s hs => .inspect (.ite (fun _ => .pure (.refl hs)) fun _ => ?_)
  refine ((param_builds ht).gathers s hs).bind fun _ _ h => ?_
  refine (h.skip (eatMark_gathers _)).bind fun _ _ h => .ite (fun _ => .pure h) fun _ => ?_
  exact (h.skip (eatMark_gathers _)).bind fun _ _ h => .ite (fun _ => .pure h) fun _ => .pure h

theorem params_gathers (ht : Builds (fun t => [.typeSpec t]) ty) :
    Gathers (·.map .param) (params ty) := by
  refine Gathers.within fun s hs => (bump_accepts hs).bind fun _ _ ⟨_, h⟩ => ?_
  refine (h.gather (many_gathers (paramRound_gathers ht))).bind fun _ _ h => ?_
  exact (h.skip (closeParams_gathers _)).bind fun _ _ h => .pure h

theorem params?_gathers (ht : Builds (fun t => [.typeSpec t]) ty) :
    Gathers (·.map .param) (params? ty) := fun s hs =>
  .inspect (.ite (fun _ => params_gathers ht s hs) fun _ => .pure (.refl hs))

theorem result?_gathers (ht : Builds (fun t => [.typeSpec t]) ty) :
    Gathers (fun t => t.toList.map .typeSpec) (result? ty) :=
  .whenever (eatMark_gathers _) ht.gathers

theorem methodHeading_builds (ht : Builds (fun t => [.typeSpec t]) ty) :
    Builds (fun m => [.methodHeading m]) (methodHeading ty) := by
  refine fun s hs => .inspect <| (bump_accepts hs).bind fun _ _ ⟨_, h⟩ => ?_
  refine (h.read (expectWith_builds _ (by simp))).bind fun _ _ h => ?_
  refine (h.gather ident_builds.gathers).bind fun _ _ h => ?_
  refine (h.gather (params?_gathers ht)).bind fun _ _ h => ?_
  refine (h.gather (result?_gathers ht)).bind fun _ _ h => ?_
  exact h.finish (fun _ => rfl) (fun _ => rfl) fun _ => rfl

/-! ## Fields and records -/

theorem fieldDecl_builds (ht : Builds (fun t => [.typeSpec t]) ty) :
    Builds (fun f => [.fieldDecl f]) (fieldDecl ty) := by
  refine fun s hs => .inspect <| (commaSeparated_builds ident_builds s hs).bind fun _ _ h => ?_
  refine (h.skip (expectMark_builds _).gathers).bind fun _ _ h => ?_
  refine (h.gather ht.gathers).bind fun _ _ h => ?_
  exact h.finish (fun _ => rfl) (fun _ => rfl) fun _ => rfl

theorem memberEnd_gathers : Gathers silent memberEnd := fun s hs =>
  .inspect (.ite (fun _ => .pure (.refl hs)) fun _ => semicolon_builds.gathers s hs)

theorem recordRound_gathers (ht : Builds (fun t => [.typeSpec t]) ty) :
    Gathers (fun r => r.found?.toList.map .fieldDecl) (recordRound ty) := by
  refine fun s hs => .inspect (.ite (fun _ => .pure (.refl hs)) fun _ => ?_)
  refine (eatMark_gathers _ s hs).bind fun _ _ h => .ite (fun _ => .pure h) fun _ => .inspect ?_
  refine .ite (fun _ => ?_) fun _ => .after .failInContext
  refine (h.gather (fieldDecl_builds ht).gathers).bind fun _ _ h => ?_
  exact (h.skip memberEnd_gathers).bind fun _ _ h => .pure h

theorem recordType_builds (ht : Builds (fun t => [.typeSpec t]) ty) :
    Builds (fun t => [.typeSpec t]) (recordType ty) := by
  refine fun s hs => .inspect <| (bump_accepts hs).bind fun _ _ ⟨_, h⟩ => ?_
  refine (h.gather (many_gathers (recordRound_gathers ht)).within).bind fun _ _ h => ?_
  refine (h.read (closeWith_builds _ _)).bind fun _ _ h => ?_
  exact h.finish (fun _ => rfl) (fun _ => rfl) fun _ => rfl

/-! ## Objects -/

theorem memberRound_gathers (ht : Builds (fun t => [.typeSpec t]) ty) :
    Gathers (fun r => r.found?.toList.map Node.ofMember) (memberRound ty) := by
  refine fun s hs => .inspect ?_
  have hmember {α : Type} {p : Parser α} {m : α → ObjectMember}
      (hp : Builds (fun a => [Node.ofMember (m a)]) p) : Accepts (do
        let a ← p
        memberEnd
        found (m a)) s fun r s' => Gathered s s' (r.found?.toList.map Node.ofMember) :=
    (hp.gathers s hs).bind fun _ _ h => (h.skip memberEnd_gathers).bind fun _ _ h => .pure h
  split
  iterate 5 exact .pure (.refl hs)
  · exact (bump_accepts hs).bind fun _ _ ⟨_, h⟩ => .pure h
  iterate 3 exact hmember (methodHeading_builds ht)
  · exact hmember (fieldDecl_builds ht)
  · exact .after .failInContext

theorem members_gathers (ht : Builds (fun t => [.typeSpec t]) ty) :
    Gathers (·.map Node.ofMember) (many (memberRound ty)) :=
  many_gathers (memberRound_gathers ht)

theorem ofMember_span (m : ObjectMember) : (Node.ofMember m).span = m.span := by
  cases m <;> rfl

theorem publicSection?_gathers (ht : Builds (fun t => [.typeSpec t]) ty) :
    Gathers (fun o => o.toList.map .objectSection) (publicSection? ty) := by
  refine fun s hs => (members_gathers ht s hs).bind fun members s' h => ?_
  split
  · exact .pure h
  · next m ms =>
    obtain ⟨hnested, hstart, hstop⟩ := h.nested (Node.ofMember m) (by simp)
    have hle := le_trans hnested.ordered hstop
    rw [ofMember_span] at hstart hle
    have hbuilt : Built s s' ((m :: ms).map Node.ofMember) := ⟨h, le_trans hstart hle⟩
    refine .inspect (.pure (Built.toGathered ?_))
    have hedge := (h.edged (Node.ofMember m) (by simp)).own.1
    rw [ofMember_span] at hedge
    refine hbuilt.nodeFrom rfl hstart hle hedge (fun c hc => ?_) (.listed rfl) rfl
    rw [← ofMember_span m]
    rcases List.mem_cons.1 hc with rfl | hc
    · exact le_refl _
    · exact le_trans hnested.ordered (List.rel_of_pairwise_cons h.sequence hc)

theorem sectionRound_gathers (ht : Builds (fun t => [.typeSpec t]) ty) :
    Gathers (fun r => r.found?.toList.map .objectSection) (sectionRound ty) := by
  refine fun s hs => .inspect ?_
  split
  · exact .pure (.refl hs)
  · next k hk =>
    have hk : s.kind ≠ .eof := by
      intro h
      rw [h] at hk
      cases hk
    refine (bump_built hs hk).bind ?_
    rintro _ _ ⟨rfl, -, h⟩
    refine (h.gather (members_gathers ht)).bind fun _ _ h => .inspect (.pure ?_)
    exact (h.node rfl (.listed rfl) rfl).toGathered

theorem bases?_gathers : Gathers (·.map .qualIdent) bases? := by
  refine fun s hs => (eatMark_gathers _ s hs).bind fun _ _ h => .ite (fun _ => ?_) fun _ => .pure h
  refine (h.gather (commaSeparated_builds qualIdent_builds).gathers).bind fun _ _ h => ?_
  exact (h.skip (expectMark_builds _).gathers).bind fun _ _ h => .pure h

theorem objectType_builds (ht : Builds (fun t => [.typeSpec t]) ty) :
    Builds (fun o => [.typeSpec (.object o)]) (objectType ty) := by
  have hsections : Gathers (·.map .objectSection) (do
      let first ← publicSection? ty
      let more ← many (sectionRound ty)
      pure (first.toList ++ more)) := by
    refine fun s hs => (publicSection?_gathers ht s hs).bind fun first _ h => ?_
    refine (h.gather (many_gathers (sectionRound_gathers ht))).bind fun more s' h => .pure ?_
    show Gathered s s' ((first.toList ++ more).map .objectSection)
    rw [List.map_append]
    exact h
  refine fun s hs => .inspect <| (bump_accepts hs).bind fun _ _ ⟨_, h⟩ => ?_
  refine (h.gather bases?_gathers).bind fun _ _ h => ?_
  refine (h.skip (eatMark_gathers _)).bind fun _ _ h => ?_
  refine (h.gather hsections.within).bind fun _ _ h => ?_
  refine (h.read (closeWith_builds _ _)).bind fun _ _ h => ?_
  exact h.finish (fun _ => rfl) (fun _ => rfl) fun _ => rfl

/-! ## Other types -/

theorem bounds_builds : Builds (fun r => [.expr r.1, .expr r.2]) bounds := by
  refine fun s hs => (expr_builds s hs).bind fun _ _ h => ?_
  refine (h.skip (expectMark_builds _).gathers).bind fun _ _ h => ?_
  exact (h.gather expr_builds.gathers).bind fun _ _ h => .pure h

theorem subrange_builds : Builds (fun t => [.typeSpec t]) subrange :=
  fun s hs => .inspect <| (bounds_builds s hs).bind fun _ _ h =>
    h.finish (fun _ => rfl) (fun _ => rfl) fun _ => rfl

theorem bracketedSubrange_builds : Builds (fun t => [.typeSpec t]) bracketedSubrange := by
  refine fun s hs => .inspect <| (bump_accepts hs).bind fun _ _ ⟨_, h⟩ => ?_
  refine (h.build bounds_builds).bind fun _ _ h => ?_
  refine (h.skip (expectMark_builds _).gathers).bind fun _ _ h => ?_
  exact h.finish (fun _ => rfl) (fun _ => rfl) fun _ => rfl

theorem arrayIndex_builds : Builds (fun i => [.arrayIndex i]) arrayIndex := by
  refine fun s hs => .inspect (.inspect (.ite (fun _ => ?_) fun _ => ?_))
  · exact (qualIdent_builds s hs).bind fun _ _ h => .pure (h.wrap rfl rfl rfl)
  · exact (bounds_builds s hs).bind fun _ _ h =>
      h.finish (fun _ => rfl) (fun _ => rfl) fun _ => rfl

theorem arrayType_builds (ht : Builds (fun t => [.typeSpec t]) ty) :
    Builds (fun t => [.typeSpec t]) (arrayType ty) := by
  intro s hs
  have hrest {bracketed : Bool} {indices : List ArrayIndex} {s' : ParserState}
      (h : Gathered s s' (indices.map .arrayIndex)) : Accepts (do
        if bracketed then expectMark .rBracket
        expectWord .OF
        let element ← ty
        pure (.array indices element (← spanFrom s.current.span.start))) s' fun t s'' =>
          Built s s'' [.typeSpec t] := by
    have helement {s' : ParserState} (h : Gathered s s' (indices.map .arrayIndex)) : Accepts (do
        expectWord .OF
        let element ← ty
        pure (.array indices element (← spanFrom s.current.span.start))) s' fun t s'' =>
          Built s s'' [.typeSpec t] := by
      refine (h.read (expectWord_builds _)).bind fun _ _ h => ?_
      refine (h.gather ht.gathers).bind fun _ _ h => ?_
      exact h.finish (fun _ => rfl) (fun _ => rfl) fun _ => rfl
    refine .ite (fun _ => ?_) fun _ => helement h
    exact (h.skip (expectMark_builds _).gathers).bind fun _ _ h => helement h
  refine .inspect <| (bump_accepts hs).bind fun _ _ ⟨_, h⟩ => ?_
  refine (h.skip (eatMark_gathers _)).bind fun _ _ h => .inspect (.inspect ?_)
  refine .ite (fun _ => .pure_bind (hrest h)) fun _ => ?_
  exact (h.gather (commaSeparated_builds arrayIndex_builds).gathers).bind fun _ _ h => hrest h

theorem enumType_builds : Builds (fun t => [.typeSpec t]) enumType := by
  refine fun s hs => .inspect <| (eatWord_gathers _ s hs).bind fun _ _ h => ?_
  refine (h.read (expectMark_builds _)).bind fun _ _ h => ?_
  refine (h.gather (commaSeparated_builds ident_builds).gathers).bind fun _ _ h => ?_
  refine (h.skip (expectMark_builds _).gathers).bind fun _ _ h => ?_
  exact h.finish (fun _ => rfl) (fun _ => rfl) fun _ => rfl

/-! ## All types -/

theorem typeRule_builds (ht : Builds (fun t => [.typeSpec t]) ty) :
    Builds (fun t => [.typeSpec t]) (typeRule ty) := by
  refine Builds.within fun s hs => .inspect (.inspect ?_)
  split
  · refine .inspect (.ite (fun _ => subrange_builds s hs) fun _ => ?_)
    exact (qualIdent_builds s hs).bind fun _ _ h => .pure (h.wrap rfl rfl rfl)
  iterate 3 exact subrange_builds s hs
  · exact bracketedSubrange_builds s hs
  · exact arrayType_builds ht s hs
  · exact recordType_builds ht s hs
  · refine (bump_accepts hs).bind fun _ _ ⟨_, h⟩ => ?_
    refine (h.read (expectWord_builds _)).bind fun _ _ h => ?_
    refine (h.gather ht.gathers).bind fun _ _ h => ?_
    exact h.finish (fun _ => rfl) (fun _ => rfl) fun _ => rfl
  · refine (bump_accepts hs).bind fun _ _ ⟨_, h⟩ => ?_
    refine (h.read (expectWord_builds _)).bind fun _ _ h => ?_
    refine (h.gather ht.gathers).bind fun _ _ h => ?_
    exact h.finish (fun _ => rfl) (fun _ => rfl) fun _ => rfl
  iterate 2 exact enumType_builds s hs
  · next hk =>
    refine (bump_built hs (by simp [hk])).bind fun _ _ ⟨_, _, h⟩ => ?_
    refine (h.gather (params?_gathers ht)).bind fun _ _ h => ?_
    refine (h.gather (result?_gathers ht)).bind fun _ _ h => ?_
    exact h.finish (fun _ => rfl) (fun _ => rfl) fun _ => rfl
  · exact (objectType_builds ht s hs).bind fun _ _ h => .pure h
  · exact .after .fail

/-- A type makes one node. -/
theorem typeSpec_builds : Builds (fun t => [.typeSpec t]) typeSpec :=
  recurse_builds fun _ => typeRule_builds

end SimFront.Grammar
