import SimFront.Grammar.TypeSpec
import SimFront.Proofs.Grammar.Expr

/-!
# Runs of the rules for types

As for expressions: every rule runs in both modes when the parser of nested types
does (`ty` below), and nested types come after a token that opens the type around
them, so `typeSpec` runs whatever tokens are left (`typeSpec_reads`).
-/

namespace SimFront.Grammar

open SimFront.Parser

variable {n : Nat} {ty : Parser TypeSpec}

theorem qualIdent_reads : Reads n qualIdent := by
  refine .inspect fun _ => ident_reads.bind fun _ => .inspect fun _ => .inspect fun _ => ?_
  refine .ite (fun _ => ?_) fun _ => .pure _
  exact bump_reads.bind fun _ => ident_reads.bind fun _ => spanFrom_pure_reads _ _

/-! ## Parameters and headings -/

/-- A comma that a name follows is a round that reads the comma. -/
theorem nameRound_strides : Strides Round.GoesOn n (do
    if (← atKind (.mark .comma)) && (← kindAt 1) = .ident then
      let _ ← bump
      found (← ident)
    else stopped) := by
  intro s hs
  refine .inspect (.inspect ?_)
  split
  · next h =>
    have hk : s.kind = .mark .comma := by
      simp only [Bool.and_eq_true, decide_eq_true_eq] at h
      exact h.1
    refine Opens.strides ?_ hs.succ (show Any s.kind by simp [Any, hk])
    exact .bump fun _ => ident_reads.bind fun _ => .pure _
  · exact stop_strides none s hs

/-- The part of a parameter behind its mode. -/
theorem paramRest_reads (ht : Reads n ty) (g : Ident → List Ident → TypeSpec → Span → Param)
    (start : Position) : Reads n (do
      let first ← ident
      let more ← many do
        if (← atKind (.mark .comma)) && (← kindAt 1) = .ident then
          let _ ← bump
          found (← ident)
        else stopped
      expectMark .colon
      let t ← ty
      pure (g first more t (← spanFrom start))) := by
  refine ident_reads.bind fun _ => (many_reads nameRound_strides).bind fun _ => ?_
  exact (expectMark_reads _).bind fun _ => ht.bind fun _ => spanFrom_pure_reads _ _

theorem param_reads (ht : Reads n ty) : Reads n (param ty) := by
  have hrest (mode : ParamMode) (start : Position) := paramRest_reads ht
    (fun first more t span => ⟨mode, first :: more, t, span⟩) start
  refine .inspect fun start => .inspect fun k => ?_
  split
  · exact bump_reads.bind fun _ => (Reads.pure _).bind fun mode => hrest mode start
  · exact bump_reads.bind fun _ => (Reads.pure _).bind fun mode => hrest mode start
  · exact bump_reads.bind fun _ => (Reads.pure _).bind fun mode => hrest mode start
  · exact (Reads.pure _).bind fun mode => hrest mode start

theorem closeParams_reads (opened : Span) : Reads n (closeParams opened) := by
  refine .inspect fun _ => .ite (fun _ => ?_) fun _ => ?_
  · exact (eatMark_reads _).bind fun _ => .pure _
  · refine (failRelated_stays _ _ _).reads.bind fun _ => (skipUntil_reads _).bind fun _ => ?_
    exact (eatMark_reads _).bind fun _ => .pure _

theorem paramRound_strides (ht : Reads n ty) : Strides Round.GoesOn n (paramRound ty) := by
  refine .inspect fun _ => .ite (fun _ => stop_strides none) fun _ => ?_
  refine (param_reads ht).bind_strides fun p => ?_
  refine (eatMark_strides _).bind (fun a ha => ?_) fun a ha => ?_
  · simp only [ha, if_true]
    exact .pure _
  · simp only [ha]
    refine (eatMark_strides _).bind (fun b hb => ?_) fun b hb => ?_
    · simp only [hb, if_true]
      exact .pure _
    · simp only [hb]
      exact .pure id

theorem params_starts (ht : Reads n ty) : Starts Any n (params ty) := by
  refine Starts.within (.bump fun _ => ?_)
  refine (many_reads (paramRound_strides ht)).bind fun _ => ?_
  exact (closeParams_reads _).bind fun _ => .pure _

theorem params?_reads (ht : Reads n ty) : Reads n (params? ty) := by
  intro s hs
  refine .inspect ?_
  split
  · next h =>
    have hk : s.kind = .mark .lParen := by simpa using h
    exact (params_starts ht).opens.runs hs.succ (by simp [Any, hk])
  · exact .pure trivial

theorem result?_reads (ht : Reads n ty) : Reads n (result? ty) :=
  .whenever (eatMark_reads _) ht

theorem methodHeading_starts (ht : Reads n ty) : Starts Any n (methodHeading ty) := by
  refine .inspect fun _ => .bump fun _ => (expectWith_reads _ _).bind fun _ => ?_
  refine ident_reads.bind fun _ => (params?_reads ht).bind fun _ => ?_
  exact (result?_reads ht).bind fun _ => spanFrom_pure_reads _ _

/-! ## Fields and records -/

/-- Fields open at the first of their names. -/
theorem fieldDecl_starts (ht : Reads n ty) : Starts (· = .ident) n (fieldDecl ty) := by
  refine .inspect fun _ => (commaSeparated_starts ident_starts).bind fun _ => ?_
  exact (expectMark_reads _).bind fun _ => ht.bind fun _ => spanFrom_pure_reads _ _

theorem memberEnd_reads : Reads n memberEnd :=
  .inspect fun _ => .ite (fun _ => .pure _) fun _ => semicolon_reads

theorem recordRound_strides (ht : Reads n ty) : Strides Round.GoesOn n (recordRound ty) := by
  intro s hs
  refine .inspect ?_
  split
  · exact stop_strides none s hs
  · next hends =>
    have hk : Any s.kind := by
      intro h
      simp [h] at hends
    refine Runs.eat hs (by simp) (fun s' _ hl => .pure fun _ => hl) fun _ => .inspect ?_
    split
    · next h =>
      have hfield : Opens (· = .ident) n (do
          let f ← fieldDecl ty
          memberEnd
          found f) :=
        (fieldDecl_starts ht).opens.bind fun _ => memberEnd_reads.bind fun _ => .pure _
      exact hfield.strides hs.succ (of_decide_eq_true h)
    · exact (skipUnexpected_starts _ _).opens.strides hs.succ hk

theorem recordType_starts (ht : Reads n ty) : Starts Any n (recordType ty) := by
  refine .inspect fun _ => .bump fun _ => ?_
  refine (many_reads (recordRound_strides ht)).within.bind fun _ => ?_
  exact (closeWith_reads _ _).bind fun _ => spanFrom_pure_reads _ _

/-! ## Objects -/

theorem memberRound_strides (ht : Reads n ty) : Strides Round.GoesOn n (memberRound ty) := by
  intro s hs
  have hheading : Opens Any n (do
      let h ← methodHeading ty
      memberEnd
      found (ObjectMember.method h)) :=
    (methodHeading_starts ht).opens.bind fun _ => memberEnd_reads.bind fun _ => .pure _
  refine .inspect ?_
  split
  any_goals exact stop_strides none s hs
  any_goals exact hheading.strides hs.succ (by simp [Any, *])
  · next hk => exact Opens.strides (.bump fun _ => .pure _) hs.succ (show Any s.kind by simp [Any, hk])
  · next hk =>
    have hfield : Opens (· = .ident) n (do
        let f ← fieldDecl ty
        memberEnd
        found (ObjectMember.field f)) :=
      (fieldDecl_starts ht).opens.bind fun _ => memberEnd_reads.bind fun _ => .pure _
    exact hfield.strides hs.succ hk
  · next heof _ _ _ _ _ _ _ _ =>
    exact (skipUnexpected_starts _ _).opens.strides hs.succ heof

theorem members_reads (ht : Reads n ty) : Reads n (many (memberRound ty)) :=
  many_reads (memberRound_strides ht)

theorem publicSection?_reads (ht : Reads n ty) : Reads n (publicSection? ty) := by
  refine (members_reads ht).bind fun members => ?_
  split
  · exact .pure _
  · exact spanFrom_pure_reads _ _

theorem sectionRound_strides (ht : Reads n ty) : Strides Round.GoesOn n (sectionRound ty) := by
  intro s hs
  refine .inspect ?_
  split
  · exact stop_strides none s hs
  · next k hk =>
    have hk : Any s.kind := by
      intro h
      rw [h] at hk
      cases hk
    refine Opens.strides (.bump fun _ => ?_) hs.succ hk
    exact (members_reads ht).bind fun _ => .inspect fun _ => .pure _

theorem bases?_reads : Reads n bases? := by
  refine (eatMark_reads _).bind fun _ => .ite (fun _ => ?_) fun _ => .pure _
  refine (commaSeparated_reads qualIdent_reads).bind fun _ => ?_
  exact (expectMark_reads _).bind fun _ => .pure _

theorem objectType_starts (ht : Reads n ty) : Starts Any n (objectType ty) := by
  refine .inspect fun _ => .bump fun _ => bases?_reads.bind fun _ => ?_
  refine (eatMark_reads _).bind fun _ => ?_
  have hsections : Reads n (do
      let first ← publicSection? ty
      let more ← many (sectionRound ty)
      pure (first.toList ++ more)) :=
    (publicSection?_reads ht).bind fun _ =>
      (many_reads (sectionRound_strides ht)).bind fun _ => .pure _
  refine hsections.within.bind fun _ => ?_
  exact (closeWith_reads _ _).bind fun _ => spanFrom_pure_reads _ _

/-! ## Other types -/

theorem bounds_reads : Reads n bounds :=
  expr_reads.bind fun _ => (expectMark_reads _).bind fun _ => expr_reads.bind fun _ => .pure _

theorem subrange_reads : Reads n subrange :=
  .inspect fun _ => bounds_reads.bind fun _ => spanFrom_pure_reads _ _

theorem bracketedSubrange_opens : Opens Any n bracketedSubrange :=
  .inspect fun _ => .bump fun _ => bounds_reads.bind fun _ =>
    (expectMark_reads _).bind fun _ => spanFrom_pure_reads _ _

theorem arrayIndex_reads : Reads n arrayIndex := by
  refine .inspect fun _ => .inspect fun _ => .ite (fun _ => ?_) fun _ => ?_
  · exact qualIdent_reads.bind fun _ => .pure _
  · exact bounds_reads.bind fun _ => spanFrom_pure_reads _ _

theorem arrayType_starts (ht : Reads n ty) : Starts Any n (arrayType ty) := by
  have hrest (bracketed : Bool) (start : Position) (indices : List ArrayIndex) : Reads n (do
      if bracketed then expectMark .rBracket
      expectWord .OF
      let element ← ty
      pure (TypeSpec.array indices element (← spanFrom start))) := by
    refine .ite (fun _ => (expectMark_reads _).bind fun _ => ?_) fun _ => ?_
    all_goals exact (expectWord_reads _).bind fun _ => ht.bind fun _ => spanFrom_pure_reads _ _
  refine .inspect fun start => .bump fun _ => (eatMark_reads _).bind fun bracketed => ?_
  refine .inspect fun _ => .inspect fun _ => .ite (fun _ => ?_) fun _ => ?_
  · exact (Reads.pure _).bind fun indices => hrest bracketed start indices
  · exact (commaSeparated_reads arrayIndex_reads).bind fun indices => hrest bracketed start indices

theorem enumType_reads : Reads n enumType := by
  refine .inspect fun _ => (eatWord_reads _).bind fun _ => (expectMark_reads _).bind fun _ => ?_
  refine (commaSeparated_reads ident_reads).bind fun _ => ?_
  exact (expectMark_reads _).bind fun _ => spanFrom_pure_reads _ _

/-! ## All types -/

theorem typeRule_reads (ht : Reads n ty) : Reads (n + 1) (typeRule ty) := by
  refine Reads.within fun s hs => .inspect (.inspect ?_)
  split
  · refine .inspect ?_
    split
    · exact subrange_reads s hs
    · exact (qualIdent_reads.bind fun _ => .pure _) s hs
  iterate 3 exact subrange_reads s hs
  · next hk => exact bracketedSubrange_opens.runs hs (by simp [Any, hk])
  · next hk => exact (arrayType_starts ht).opens.runs hs (by simp [Any, hk])
  · next hk => exact (recordType_starts ht).opens.runs hs (by simp [Any, hk])
  · next hk =>
    refine Opens.runs ?_ hs (show Any s.kind by simp [Any, hk])
    exact .bump fun _ => (expectWord_reads _).bind fun _ => ht.bind fun _ =>
      spanFrom_pure_reads _ _
  · next hk =>
    refine Opens.runs ?_ hs (show Any s.kind by simp [Any, hk])
    exact .bump fun _ => (expectWord_reads _).bind fun _ => ht.bind fun _ =>
      spanFrom_pure_reads _ _
  iterate 2 exact enumType_reads s hs
  · next hk =>
    refine Opens.runs ?_ hs (show Any s.kind by simp [Any, hk])
    exact .bump fun _ => (params?_reads ht).bind fun _ => (result?_reads ht).bind fun _ =>
      spanFrom_pure_reads _ _
  · next hk =>
    exact ((objectType_starts ht).opens.bind fun _ => .pure _).runs hs (by simp [Any, hk])
  · exact ((fail_stays _ _).reads.bind fun _ => .pure _) s hs

/-- Types run in both modes, whatever tokens are left. -/
theorem typeSpec_reads : Reads n typeSpec := recurse_reads fun _ _ => typeRule_reads

end SimFront.Grammar
