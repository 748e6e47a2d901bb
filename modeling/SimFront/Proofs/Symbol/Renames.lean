import SimFront.Proofs.Symbol.Arenas

/-!
# What a rename has to change

One number may be declared more than once: a procedure completes a forward heading and
takes its place.  The table keeps the declaration that came last.  So at the end of a run
of edits a rename changes the last declaration of a symbol and all its uses
(`renameSpans_after`).  The span of an earlier declaration is lost, which can only be that
of a heading (`span_renamed_iff`).
-/

namespace SimFront.SymbolTable

variable {t : SymbolTable} {e : TableEdit} {id : Nat} {span : Span}

/-! ## Declarations along a run -/

/-- The number and the span of what an edit declares, unless it is refused. -/
def declaration? (t : SymbolTable) : TableEdit → Option (Nat × Span)
  | .define symbol => (t.define symbol).toOption.map fun done => (done.1, symbol.span)
  | .defineIn scope symbol => (t.defineIn scope symbol).toOption.map fun done => (done.1, symbol.span)
  | .enter _ _ | .leave | .refer _ _ => none

/-- The span that an edit declares a symbol with, if that is what it declares. -/
def declaredSpan? (t : SymbolTable) (id : Nat) (e : TableEdit) : Option Span :=
  (t.declaration? e).bind fun d => if d.1 = id then some d.2 else none

/-- The spans that a run declares a symbol with, in order. -/
def declaredSpans (t : SymbolTable) (id : Nat) : List TableEdit → List Span
  | [] => []
  | e :: rest => (t.declaredSpan? id e).toList ++ (t.perform e).declaredSpans id rest

/-- Whether a symbol is a procedure heading that still lacks its body. -/
def isHeading (t : SymbolTable) (id : Nat) : Bool := (t.symbol? id).any (·.isHeading)

/-! ## One edit -/

/-- What an edit declares is accepted in some scope. -/
theorem declaredSpan?_cases (h : t.declaredSpan? id e = some span) :
    ∃ scope symbol, symbol.span = span ∧ t.defineIn scope symbol = .ok (id, t.perform e) := by
  obtain ⟨⟨declared, span'⟩, hdeclared, hid⟩ := Option.bind_eq_some_iff.1 h
  have accepted {scope : Nat} {symbol : Symbol}
      (h : ((t.defineIn scope symbol).toOption.map fun done => (done.1, symbol.span)) =
        some (declared, span')) :
      symbol.span = span' ∧ t.defineIn scope symbol = .ok (declared, t.tryDefineIn scope symbol) := by
    unfold tryDefineIn
    cases hdefine : t.defineIn scope symbol with
    | error _ =>
      rw [hdefine] at h
      cases h
    | ok done =>
      rw [hdefine] at h
      cases h
      exact ⟨rfl, rfl⟩
  simp only [Option.ite_none_right_eq_some, Option.some.injEq] at hid
  obtain ⟨rfl, rfl⟩ := hid
  cases e with
  | define symbol => exact ⟨t.current, symbol, accepted hdeclared⟩
  | defineIn scope symbol => exact ⟨scope, symbol, accepted hdeclared⟩
  | enter _ _ => cases hdeclared
  | leave => cases hdeclared
  | refer _ _ => cases hdeclared

/-- A declaration in a scope changes no symbol but the one that it gives a number. -/
theorem symbol?_tryDefineIn (scope : Nat) (symbol : Symbol)
    (h : ∀ t', t.defineIn scope symbol ≠ .ok (id, t')) :
    (t.tryDefineIn scope symbol).symbol? id = t.symbol? id := by
  unfold tryDefineIn
  split
  · next declared t' hdefine =>
    have hne : id ≠ declared := by
      rintro rfl
      exact h t' hdefine
    rw [symbol?_defineIn hdefine, if_neg hne]
  · rfl

/-- An edit that does not declare a symbol leaves it alone. -/
theorem symbol?_perform (h : t.declaredSpan? id e = none) :
    (t.perform e).symbol? id = t.symbol? id := by
  cases e with
  | define symbol =>
    refine symbol?_tryDefineIn t.current symbol fun t' hdefine => ?_
    simp [declaredSpan?, declaration?, define, hdefine, Except.toOption] at h
  | defineIn scope symbol =>
    refine symbol?_tryDefineIn scope symbol fun t' hdefine => ?_
    simp [declaredSpan?, declaration?, hdefine, Except.toOption] at h
  | enter _ _ => rfl
  | leave =>
    obtain ⟨scope, hleave⟩ := t.leave_eq
    exact congrArg (·.symbol? id) hleave
  | refer _ _ => rfl

/-- After an edit a symbol has the span that the edit declares it with, or the old one. -/
theorem span_perform (t : SymbolTable) (e : TableEdit) (id : Nat) :
    ((t.perform e).symbol? id).map (·.span) =
      (t.declaredSpan? id e).or ((t.symbol? id).map (·.span)) := by
  cases hdeclared : t.declaredSpan? id e with
  | none => exact congrArg _ (symbol?_perform hdeclared)
  | some span =>
    obtain ⟨scope, symbol, rfl, hdefine⟩ := declaredSpan?_cases hdeclared
    rw [symbol?_defineIn hdefine, if_pos rfl]
    rfl

/-- Only a heading can be declared once more. -/
theorem declaredSpan?_of_body (hid : id < t.symbols.size) (hbody : t.isHeading id = false) :
    t.declaredSpan? id e = none := by
  refine Option.eq_none_iff_forall_not_mem.2 fun span hspan => ?_
  obtain ⟨scope, symbol, -, hdefine⟩ := declaredSpan?_cases hspan
  obtain ⟨-, hnew, -⟩ | ⟨previous, -, hprevious, hforward, hkind, -, -⟩ := defineIn_cases hdefine
  · omega
  · unfold isHeading Symbol.isHeading at hbody
    rw [hprevious] at hbody
    simp [hforward, hkind] at hbody

/-! ## Runs of edits -/

/-- After a run a symbol has the span that the run declared it with last, or the old one. -/
theorem span_edited (t : SymbolTable) (edits : List TableEdit) (id : Nat) :
    ((t.edited edits).symbol? id).map (·.span) =
      (t.declaredSpans id edits).getLast?.or ((t.symbol? id).map (·.span)) := by
  induction edits generalizing t with
  | nil => rfl
  | cons e rest ih =>
    show (((t.perform e).edited rest).symbol? id).map (·.span) = _
    rw [ih, span_perform, declaredSpans, List.getLast?_append, ← Option.or_assoc]
    cases t.declaredSpan? id e <;> rfl

/-- What is no heading is not declared once more by any run. -/
theorem declaredSpans_of_body {edits : List TableEdit} (hid : id < t.symbols.size)
    (hbody : t.isHeading id = false) : t.declaredSpans id edits = [] := by
  induction edits generalizing t with
  | nil => rfl
  | cons e rest ih =>
    have hnone : t.declaredSpan? id e = none := declaredSpan?_of_body hid hbody
    have hsame : (t.perform e).symbol? id = t.symbol? id := symbol?_perform hnone
    have hid' : id < (t.perform e).symbols.size := by
      have hsome : t.symbol? id = some t.symbols[id] := Array.getElem?_eq_getElem hid
      exact (Array.getElem?_eq_some_iff.1 (hsame.trans hsome)).1
    have hbody' : (t.perform e).isHeading id = false := by
      unfold isHeading
      rw [hsame]
      exact hbody
    unfold declaredSpans
    rw [hnone, ih hid' hbody']
    rfl

/-- **The spans of a rename.**  At the end of a run they are the span that the run declared the
symbol with last, and those of all the uses that it recorded for it. -/
theorem renameSpans_after (moduleName : String) (place : Span) (edits : List TableEdit) (id : Nat) :
    ((new moduleName place).edited edits).renameSpans id =
      match ((new moduleName place).declaredSpans id edits).getLast? with
      | none => []
      | some span => span ::
          (((new moduleName place).recorded edits).filter (·.symbol = id)).map (·.span) := by
  let start := new moduleName place
  have huses : (start.edited edits).referencesTo id =
      (start.recorded edits).filter (·.symbol = id) := by
    unfold referencesTo
    rw [References.of_eq, references_edited]
    rfl
  have hspan : ((start.edited edits).symbol? id).map (·.span) =
      (start.declaredSpans id edits).getLast? := by
    rw [span_edited, show start.symbol? id = none from rfl]
    exact Option.or_none
  show (start.edited edits).renameSpans id = _
  unfold renameSpans
  rw [huses]
  cases hsymbol : (start.edited edits).symbol? id with
  | none =>
    rw [hsymbol] at hspan
    rw [← hspan]
    rfl
  | some s =>
    rw [hsymbol] at hspan
    rw [← hspan]
    rfl

theorem declaredSpans_append (t : SymbolTable) (id : Nat) (edits edits' : List TableEdit) :
    t.declaredSpans id (edits ++ edits') =
      t.declaredSpans id edits ++ (t.edited edits).declaredSpans id edits' := by
  induction edits generalizing t with
  | nil => rfl
  | cons e rest ih =>
    show (t.declaredSpan? id e).toList ++ (t.perform e).declaredSpans id (rest ++ edits') = _
    rw [ih, ← List.append_assoc]
    rfl

/-- **A declaration in the spans of a rename.**  The span that an edit declares a symbol with is
among them at the end of the run exactly if no later edit declares the symbol once more, or
the last one that does has the same span, or a use of the symbol was recorded there.  Only
a procedure heading is declared once more. -/
theorem span_renamed_iff (moduleName : String) (place : Span) {before after : List TableEdit}
    (h : ((new moduleName place).edited before).declaredSpan? id e = some span) :
    let run := before ++ e :: after
    let declared := ((new moduleName place).edited before).perform e
    let later := declared.declaredSpans id after
    (span ∈ ((new moduleName place).edited run).renameSpans id ↔
      later.getLast?.getD span = span ∨
        ∃ use ∈ (new moduleName place).recorded run, use.symbol = id ∧ use.span = span) ∧
    (later ≠ [] → declared.isHeading id) := by
  intro run declared later
  have hlast : ((new moduleName place).declaredSpans id run).getLast? =
      some (later.getLast?.getD span) := by
    have hrun : (new moduleName place).declaredSpans id run =
        (new moduleName place).declaredSpans id before ++ (span :: later) := by
      rw [declaredSpans_append, declaredSpans, h]
      rfl
    rw [hrun, List.getLast?_append, List.getLast?_cons]
    rfl
  constructor
  · rw [renameSpans_after, hlast]
    dsimp only
    rw [List.mem_cons, List.mem_map]
    refine or_congr eq_comm (exists_congr fun use => ?_)
    rw [List.mem_filter, decide_eq_true_iff, and_assoc]
  · intro hlater
    by_contra hbody
    obtain ⟨scope, symbol, -, hdefine⟩ := declaredSpan?_cases h
    have hid : id < declared.symbols.size := by
      have hsymbol : declared.symbol? id = some { symbol with scope } := by
        rw [symbol?_defineIn hdefine, if_pos rfl]
      exact (Array.getElem?_eq_some_iff.1 hsymbol).1
    exact hlater (declaredSpans_of_body hid (Bool.not_eq_true _ ▸ hbody))

/-- The heading of a procedure that gets its body later is not renamed with it. -/
theorem span_not_renamed_of_heading :
    let heading : Symbol :=
      { name := "P", kind := .procedure, span := ⟨⟨2, 11, 20⟩, ⟨2, 12, 21⟩⟩, isForward := true }
    let body : Symbol := { name := "P", kind := .procedure, span := ⟨⟨5, 11, 60⟩, ⟨5, 12, 61⟩⟩ }
    ((new "M" {}).edited []).declaredSpan? 0 (.define heading) = some heading.span ∧
      heading.span ∉ ((new "M" {}).edited [.define heading, .define body]).renameSpans 0 := by
  intro heading body
  have hdeclares : ((new "M" {}).edited []).declaredSpan? 0 (.define heading) = some heading.span := by
    decide
  have hiff :=
    (@span_renamed_iff (.define heading) 0 heading.span "M" {} [] [.define body] hdeclares).1
  refine ⟨hdeclares, fun hmem => ?_⟩
  rcases hiff.1 hmem with hlast | ⟨use, huse, -⟩
  · exact absurd hlast (by decide)
  · cases huse

end SimFront.SymbolTable
