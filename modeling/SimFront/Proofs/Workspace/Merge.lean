import Mathlib.Data.List.Nodup
import SimFront.Proofs.Check.References
import SimFront.Proofs.Symbol.Declared
import SimFront.Proofs.Workspace.Run
import SimFront.Workspace.Global

/-!
# What the global table is merged from

Documents are merged by the number of their dependencies, and of those with equally many
by their paths (`mergeOrder_before`).  Under each name they offer symbols, each at most one
(`Document.offer?`), and the merge settles on one of them: adding a symbol changes what its
own name stands for, and that only as `settle` says (`find?_add`), so that every name is
left with what settling all offers in order leaves (`find?_ofDocuments`).  That is the first
offer, except that a procedure heading gives way to procedures of later documents
(`foldl_settle`).
-/

namespace SimFront

/-! ## Offers -/

/-- What a top-level symbol of a module is in the global table; imported copies are not in it. -/
def Symbol.offered? (s : Symbol) (module : String) : Option Symbol :=
  if s.isImported then none
  else some { s with scope := SymbolTable.root, origin? := some module }

/-- What a document offers the global table under a name. -/
def Document.offer? (d : Document) (name : String) : Option (Symbol × Path) := do
  let t ← d.table?
  let s ← t.declaredSymbol? SymbolTable.root name
  let s ← s.offered? (d.moduleName?.getD "")
  pure (s, d.id)

/-- Merged before another document: with fewer dependencies, or with as many and an earlier
path. -/
def Document.Before (d e : Document) : Prop :=
  d.dependencies.size < e.dependencies.size ∨
    d.dependencies.size = e.dependencies.size ∧ compare d.id e.id = .lt

namespace GlobalTable

/-! ## The order of merging -/

theorem mergeOrder_perm (ds : Documents) : (mergeOrder ds).Perm ds.toList :=
  List.mergeSort_perm ..

theorem mergeOrder_trans (a b c : Document)
    (hab : decide (a.dependencies.size ≤ b.dependencies.size))
    (hbc : decide (b.dependencies.size ≤ c.dependencies.size)) :
    decide (a.dependencies.size ≤ c.dependencies.size) := by
  rw [decide_eq_true_eq] at *
  exact Nat.le_trans hab hbc

theorem mergeOrder_total (a b : Document) :
    (decide (a.dependencies.size ≤ b.dependencies.size) ||
      decide (b.dependencies.size ≤ a.dependencies.size)) = true := by
  rw [Bool.or_eq_true, decide_eq_true_eq, decide_eq_true_eq]
  exact Nat.le_total _ _

/-- The order is stable: documents with equally many dependencies stay as they were. -/
theorem mergeOrder_filter (ds : Documents) (n : Nat) :
    (mergeOrder ds).filter (·.dependencies.size = n) =
      ds.toList.filter (·.dependencies.size = n) := by
  have hsub : (ds.toList.filter (·.dependencies.size = n)).Sublist (mergeOrder ds) := by
    refine List.sublist_mergeSort mergeOrder_trans mergeOrder_total ?_ List.filter_sublist
    refine List.pairwise_of_forall_mem_list fun d hd e he => ?_
    have hd := (List.mem_filter.1 hd).2
    have he := (List.mem_filter.1 he).2
    rw [decide_eq_true_eq] at *
    rw [hd, he]
  have hsub := hsub.filter (·.dependencies.size = n)
  rw [List.filter_filter] at hsub
  simp only [Bool.and_self] at hsub
  exact (hsub.eq_of_length ((mergeOrder_perm ds).filter _).length_eq.symm).symm

theorem mergeOrder_before {ds : Documents} (h : ds.Sorted) :
    (mergeOrder ds).Pairwise Document.Before := by
  have hle := List.pairwise_mergeSort mergeOrder_trans mergeOrder_total ds.toList
  refine List.pairwise_iff_forall_sublist.2 fun {d e} hsub => ?_
  have hde := List.pairwise_iff_forall_sublist.1 hle hsub
  rw [decide_eq_true_eq] at hde
  refine (Nat.lt_or_eq_of_le hde).imp_right fun heq => ⟨heq, ?_⟩
  have hpair := hsub.filter (·.dependencies.size = e.dependencies.size)
  have hboth : [d, e].filter (·.dependencies.size = e.dependencies.size) = [d, e] :=
    List.filter_eq_self.2 (by simp [heq])
  rw [mergeOrder_filter, hboth] at hpair
  exact List.pairwise_iff_forall_sublist.1 h (hpair.trans List.filter_sublist)

/-- Documents that stand in order are merged as they stand. -/
theorem mergeOrder_of_sorted {ds : Documents}
    (h : ds.toList.Pairwise fun d e => d.dependencies.size ≤ e.dependencies.size) :
    mergeOrder ds = ds.toList :=
  List.mergeSort_of_pairwise (h.imp decide_eq_true)

/-! ## What a name stands for -/

/-- What a name stands for, and the document that it comes from. -/
def find? (g : GlobalTable) (name : String) : Option (Symbol × Path) := do
  let id ← g.table.lookupId? name
  let path ← List.lookup id g.sources
  let s ← g.table.symbol? id
  pure (s, path)

/-- A table as the merge builds it, in the scope of the module alone and with a document for each
name. -/
structure Proper (g : GlobalTable) : Prop where
  named : g.table.Named
  current : g.table.current = SymbolTable.root
  rooted : SymbolTable.root < g.table.scopes.size
  sourced : ∀ {name : String} {id : Nat}, g.table.declared? SymbolTable.root name = some id →
    ∃ path, List.lookup id g.sources = some path

theorem proper_empty : Proper {} where
  named := SymbolTable.named_new _ _
  current := rfl
  rooted := Nat.zero_lt_one
  sourced h := nomatch h

variable {g : GlobalTable}

theorem Proper.find?_eq (h : g.Proper) (name : String) :
    g.find? name = (g.table.declared? SymbolTable.root name).bind fun id =>
      (List.lookup id g.sources).bind fun path => (g.table.symbol? id).map (·, path) := by
  unfold find? SymbolTable.lookupId?
  rw [h.current, SymbolTable.lookupFrom?_root]
  simp only [Option.bind_eq_bind, Option.pure_def, Option.map_eq_bind, Function.comp_def]

theorem Proper.find?_symbol (h : g.Proper) (name : String) :
    (g.find? name).map (·.1) = g.table.declaredSymbol? SymbolTable.root name := by
  rw [h.find?_eq]
  unfold SymbolTable.declaredSymbol?
  cases hid : g.table.declared? SymbolTable.root name with
  | none => rfl
  | some id =>
    obtain ⟨path, hpath⟩ := h.sourced hid
    rw [Option.bind_some, Option.bind_some, hpath, Option.bind_some]
    cases g.table.symbol? id <;> rfl

/-! ## Adding a symbol -/

/-- What a name is left with that another symbol is offered for. -/
def settle (found? : Option (Symbol × Path)) (offer : Symbol × Path) : Option (Symbol × Path) :=
  match found? with
  | none => some offer
  | some found => if offer.1.completes found.1 then some offer else some found

/-- Declares a symbol as one of a document, unless its name is taken. -/
def enter (g : GlobalTable) (path : Path) (s : Symbol) : GlobalTable :=
  match g.table.define s with
  | .ok (id, table) => ⟨table, (id, path) :: g.sources⟩
  | .error _ => g

theorem add_eq (g : GlobalTable) (path : Path) (module : String) (s : Symbol) :
    g.add path module s =
      if s.isImported then g else g.enter path { s with origin? := some module } := rfl

variable {s : Symbol} {path : Path}

/-- What refuses a symbol keeps its name. -/
theorem Proper.settle_of_error (h : g.Proper) {e : DuplicateName}
    (hdefine : g.table.defineIn SymbolTable.root s = .error e) :
    settle (g.find? s.name) ({ s with scope := SymbolTable.root }, path) = g.find? s.name := by
  obtain ⟨previous, hprevious, hcompletes⟩ := h.named.defineIn_error hdefine
  rw [← h.find?_symbol] at hprevious
  obtain ⟨found, hfound, rfl⟩ := Option.map_eq_some_iff.1 hprevious
  rw [hfound]
  exact if_neg (Bool.eq_false_iff.1 hcompletes)

/-- A symbol that is declared takes its name, which was free or stood for what it completes. -/
theorem Proper.settle_of_ok (h : g.Proper) {id : Nat} {t : SymbolTable}
    (hdefine : g.table.defineIn SymbolTable.root s = .ok (id, t)) :
    settle (g.find? s.name) ({ s with scope := SymbolTable.root }, path) =
      some ({ s with scope := SymbolTable.root }, path) := by
  cases hfound : g.find? s.name with
  | none => rfl
  | some found =>
    have hprevious := h.find?_symbol s.name
    rw [hfound, Option.map_some] at hprevious
    exact if_pos (SymbolTable.defineIn_ok hdefine hprevious.symm)

theorem Proper.of_ok (h : g.Proper) {id : Nat} {t : SymbolTable}
    (hdefine : g.table.defineIn SymbolTable.root s = .ok (id, t)) :
    Proper ⟨t, (id, path) :: g.sources⟩ where
  named := (h.named.defineIn hdefine).1
  current := (SymbolTable.current_defineIn hdefine).trans h.current
  rooted := SymbolTable.size_scopes_defineIn hdefine ▸ h.rooted
  sourced {name i} hi := by
    have hi : t.declared? SymbolTable.root name = some i := hi
    rw [SymbolTable.declared?_defineIn hdefine h.rooted] at hi
    rw [List.lookup_cons]
    split
    · exact ⟨path, rfl⟩
    · next hne =>
      split at hi
      · rw [Option.some.inj hi, beq_self_eq_true] at hne
        cases hne
      · exact h.sourced hi

theorem Proper.find?_of_ok (h : g.Proper) {id : Nat} {t : SymbolTable}
    (hdefine : g.table.defineIn SymbolTable.root s = .ok (id, t)) (name : String) :
    find? ⟨t, (id, path) :: g.sources⟩ name =
      if s.name = name then some ({ s with scope := SymbolTable.root }, path)
      else g.find? name := by
  have hproper : Proper ⟨t, (id, path) :: g.sources⟩ := h.of_ok hdefine
  have hsymbol := SymbolTable.symbol?_defineIn hdefine
  rw [hproper.find?_eq, h.find?_eq]
  dsimp only
  rw [SymbolTable.declared?_defineIn hdefine h.rooted]
  split
  · rw [Option.bind_some, List.lookup_cons_self, Option.bind_some, hsymbol, if_pos rfl]
    rfl
  · next hne =>
    refine Option.bind_congr fun i hi => ?_
    -- another name stands for another symbol
    have hapart : i ≠ id := by
      rintro rfl
      have hdeclared : t.declared? SymbolTable.root name = some i := by
        rw [SymbolTable.declared?_defineIn hdefine h.rooted, if_neg hne, hi]
      obtain ⟨s', hs', hname⟩ := hproper.named.of_declares ⟨_, hdeclared⟩
      rw [hsymbol, if_pos rfl] at hs'
      obtain rfl := Option.some.inj hs'
      exact hne hname
    rw [List.lookup_cons, beq_eq_false_iff_ne.2 hapart, hsymbol, if_neg hapart]

theorem Proper.enter (h : g.Proper) (path : Path) (s : Symbol) : (g.enter path s).Proper := by
  unfold GlobalTable.enter SymbolTable.define
  rw [h.current]
  split
  · next hdefine => exact h.of_ok hdefine
  · exact h

/-- A symbol changes what its own name stands for, and no other name. -/
theorem Proper.find?_enter (h : g.Proper) (path : Path) (s : Symbol) (name : String) :
    (g.enter path s).find? name =
      if s.name = name then
        settle (g.find? name) ({ s with scope := SymbolTable.root }, path)
      else g.find? name := by
  unfold GlobalTable.enter SymbolTable.define
  rw [h.current]
  split
  · next hdefine =>
    rw [h.find?_of_ok hdefine]
    split
    · next hname => rw [← hname, h.settle_of_ok hdefine]
    · rfl
  · next hdefine =>
    split
    · next hname => rw [← hname, h.settle_of_error hdefine]
    · rfl

theorem Proper.add (h : g.Proper) (path : Path) (module : String) (s : Symbol) :
    (g.add path module s).Proper := by
  rw [add_eq]
  split
  · exact h
  · exact h.enter path _

theorem Proper.find?_add (h : g.Proper) (path : Path) (module : String) (s : Symbol)
    (name : String) :
    (g.add path module s).find? name =
      if s.name = name then
        (s.offered? module).elim (g.find? name) fun o => settle (g.find? name) (o, path)
      else g.find? name := by
  rw [add_eq]
  unfold Symbol.offered?
  split
  · exact (ite_self _).symm
  · exact h.find?_enter path _ name

/-! ## Adding documents -/

theorem Proper.foldl_add (h : g.Proper) (path : Path) (module : String) (ss : List Symbol) :
    (ss.foldl (·.add path module ·) g).Proper := by
  induction ss generalizing g with
  | nil => exact h
  | cons s ss ih => exact ih (h.add path module s)

/-- Of symbols that are added, a name regards those that have it. -/
theorem Proper.find?_foldl_add (h : g.Proper) (path : Path) (module : String) (ss : List Symbol)
    (name : String) :
    (ss.foldl (·.add path module ·) g).find? name =
      (((ss.filter (·.name = name)).filterMap (·.offered? module)).map (·, path)).foldl settle
        (g.find? name) := by
  induction ss generalizing g with
  | nil => rfl
  | cons s ss ih =>
    rw [List.foldl_cons, ih (h.add path module s), h.find?_add, List.filter_cons]
    by_cases hname : s.name = name
    · rw [if_pos hname, if_pos (decide_eq_true hname), List.filterMap_cons]
      cases s.offered? module <;> rfl
    · rw [if_neg hname, if_neg (by rw [decide_eq_true_eq]; exact hname)]

variable {d : Document}

theorem addDocument_eq (g : GlobalTable) {t : SymbolTable} (ht : d.table? = some t) :
    g.addDocument d =
      (t.rootSymbols.map (·.2)).foldl (·.add d.id (d.moduleName?.getD "") ·) g := by
  unfold addDocument
  rw [ht, List.foldl_map]

theorem Proper.addDocument (h : g.Proper) (d : Document) : (g.addDocument d).Proper := by
  cases ht : d.table? with
  | none =>
    unfold GlobalTable.addDocument
    rw [ht]
    exact h
  | some t =>
    rw [addDocument_eq g ht]
    exact h.foldl_add _ _ _

/-- A document makes one offer for a name, or none. -/
theorem Proper.find?_addDocument (h : g.Proper) (hd : ∀ t, d.table? = some t → t.Named)
    (name : String) :
    (g.addDocument d).find? name = (d.offer? name).toList.foldl settle (g.find? name) := by
  unfold Document.offer?
  cases ht : d.table? with
  | none =>
    unfold GlobalTable.addDocument
    rw [ht]
    rfl
  | some t =>
    rw [addDocument_eq g ht, h.find?_foldl_add, (hd t ht).rootSymbols_of_name]
    dsimp only [Option.bind_eq_bind, Option.bind_some]
    cases t.declaredSymbol? SymbolTable.root name with
    | none => rfl
    | some s =>
      rw [Option.toList_some, List.filterMap_cons, List.filterMap_nil, Option.bind_some]
      cases s.offered? (d.moduleName?.getD "") <;> rfl

theorem Proper.find?_foldl_addDocument (h : g.Proper) {ds : List Document}
    (hds : ∀ d ∈ ds, ∀ t, d.table? = some t → t.Named) (name : String) :
    (ds.foldl GlobalTable.addDocument g).find? name =
      (ds.filterMap (·.offer? name)).foldl settle (g.find? name) := by
  induction ds generalizing g with
  | nil => rfl
  | cons d ds ih =>
    rw [List.foldl_cons, ih (h.addDocument d) fun e he => hds e (List.mem_cons_of_mem _ he),
      h.find?_addDocument (hds d List.mem_cons_self), List.filterMap_cons]
    cases d.offer? name <;> rfl

theorem find?_empty (name : String) : ({} : GlobalTable).find? name = none :=
  proper_empty.find?_eq name

/-- Every name is left with what settling all offers for it in order leaves. -/
theorem find?_ofDocuments {ds : Documents}
    (hds : ∀ d ∈ ds.toList, ∀ t, d.table? = some t → t.Named) (name : String) :
    (ofDocuments ds).find? name =
      ((mergeOrder ds).filterMap (·.offer? name)).foldl settle none := by
  rw [← find?_empty name]
  exact proper_empty.find?_foldl_addDocument
    (fun d hd => hds d ((mergeOrder_perm ds).mem_iff.1 hd)) name

/-! ## The winner -/

/-- What takes the place of a procedure heading: the first later procedure that has its body,
or the last later heading if none has. -/
def replacement? (later : List (Symbol × Path)) : Option (Symbol × Path) :=
  let procedures := later.filter (·.1.kind = .procedure)
  (procedures.find? (!·.1.isForward)).or procedures.getLast?

/-- What competing offers leave: the first of them, or what takes its place if it is a
procedure heading. -/
def winner? : List (Symbol × Path) → Option (Symbol × Path)
  | [] => none
  | first :: later =>
    if first.1.isHeading then (replacement? later).or (some first) else some first

theorem winner?_cons (first : Symbol × Path) (later : List (Symbol × Path)) :
    winner? (first :: later) =
      if first.1.isHeading then (replacement? later).or (some first) else some first := rfl

theorem replacement?_cons (offer : Symbol × Path) (later : List (Symbol × Path)) :
    replacement? (offer :: later) =
      if offer.1.kind = .procedure then
        if offer.1.isForward then (replacement? later).or (some offer) else some offer
      else replacement? later := by
  unfold replacement?
  dsimp only
  rw [List.filter_cons]
  by_cases hkind : offer.1.kind = .procedure
  · rw [if_pos hkind, if_pos (decide_eq_true hkind), List.find?_cons, List.getLast?_cons]
    cases offer.1.isForward with
    | false => rfl
    | true =>
      rw [if_pos rfl, Option.or_assoc]
      cases (later.filter (·.1.kind = .procedure)).getLast? <;> rfl
  · rw [if_neg hkind, if_neg (by rw [decide_eq_true_eq]; exact hkind)]

theorem mem_of_replacement? {later : List (Symbol × Path)} {offer : Symbol × Path}
    (h : replacement? later = some offer) : offer ∈ later := by
  unfold replacement? at h
  refine List.mem_of_mem_filter (p := (·.1.kind = .procedure)) ?_
  rcases Option.or_eq_some_iff.1 h with h | ⟨-, h⟩
  · exact List.mem_of_find?_eq_some h
  · exact List.mem_of_getLast? h

theorem replacement?_eq_none {later : List (Symbol × Path)} :
    replacement? later = none ↔ ∀ offer ∈ later, offer.1.kind ≠ .procedure := by
  unfold replacement?
  rw [Option.or_eq_none_iff, List.getLast?_eq_none_iff]
  constructor
  · rintro ⟨-, h⟩ offer hoffer hkind
    exact List.filter_eq_nil_iff.1 h offer hoffer (decide_eq_true hkind)
  · intro h
    have hnone : later.filter (·.1.kind = .procedure) = [] :=
      List.filter_eq_nil_iff.2 fun offer hoffer hkind => h offer hoffer (of_decide_eq_true hkind)
    exact ⟨hnone ▸ rfl, hnone⟩

theorem completes_of_not_heading (s : Symbol) {previous : Symbol} (h : previous.isHeading = false) :
    s.completes previous = false := by
  unfold Symbol.completes
  rw [h, Bool.false_and]

theorem foldl_settle_of_not_heading {found : Symbol × Path} (h : found.1.isHeading = false)
    (offers : List (Symbol × Path)) : offers.foldl settle (some found) = some found := by
  induction offers with
  | nil => rfl
  | cons offer offers ih =>
    have hkept : settle (some found) offer = some found :=
      if_neg (Bool.eq_false_iff.1 (completes_of_not_heading offer.1 h))
    rw [List.foldl_cons, hkept, ih]

/-- Each procedure takes the place of a heading, up to the first one that has its body. -/
theorem foldl_settle_of_heading {found : Symbol × Path} (h : found.1.isHeading)
    (offers : List (Symbol × Path)) :
    offers.foldl settle (some found) = (replacement? offers).or (some found) := by
  induction offers generalizing found with
  | nil => rfl
  | cons offer offers ih =>
    have hsettle : settle (some found) offer =
        if offer.1.kind = .procedure then some offer else some found := by
      unfold settle Symbol.completes
      simp only [h, Bool.true_and, decide_eq_true_eq]
    rw [List.foldl_cons, hsettle, replacement?_cons]
    split
    · next hkind =>
      split
      · next hforward =>
        have hheading : offer.1.isHeading := by
          unfold Symbol.isHeading
          rw [hforward, hkind]
          rfl
        rw [ih hheading, Option.or_assoc, Option.some_or]
      · next hbody =>
        have hno : offer.1.isHeading = false := by
          unfold Symbol.isHeading
          rw [Bool.eq_false_iff.2 hbody, Bool.false_and]
        exact foldl_settle_of_not_heading hno offers
    · exact ih h

theorem foldl_settle (offers : List (Symbol × Path)) :
    offers.foldl settle none = winner? offers := by
  cases offers with
  | nil => rfl
  | cons first later =>
    show later.foldl settle (some first) = _
    rw [winner?_cons]
    split
    · next hheading => exact foldl_settle_of_heading hheading later
    · next hno => exact foldl_settle_of_not_heading (Bool.eq_false_iff.2 hno) later

theorem winner?_eq_none {offers : List (Symbol × Path)} : winner? offers = none ↔ offers = [] := by
  cases offers with
  | nil => exact iff_of_true rfl rfl
  | cons first later =>
    refine iff_of_false (fun h => ?_) (List.cons_ne_nil _ _)
    rw [winner?_cons] at h
    split at h
    · exact Option.some_ne_none _ (Option.or_eq_none_iff.1 h).2
    · cases h

/-- The first offer wins unless it is a procedure heading and a procedure comes later. -/
theorem winner?_eq_head? {offers : List (Symbol × Path)}
    (hpaths : offers.Pairwise fun o p => o.2 ≠ p.2) :
    winner? offers = offers.head? ↔
      ∀ first ∈ offers.head?, first.1.isHeading →
        ∀ later ∈ offers.tail, later.1.kind ≠ .procedure := by
  cases offers with
  | nil => exact iff_of_true rfl fun _ h => nomatch h
  | cons first later =>
    obtain ⟨hapart, -⟩ := List.pairwise_cons.1 hpaths
    rw [winner?_cons, List.head?_cons, List.tail_cons]
    split
    · next hheading =>
      constructor
      · intro h _ _ _
        rw [← replacement?_eq_none, Option.eq_none_iff_forall_not_mem]
        -- what takes the place of the first has another path
        intro other hother
        rw [Option.mem_def] at hother
        rw [hother, Option.some_or] at h
        exact hapart other (mem_of_replacement? hother)
          (congrArg Prod.snd (Option.some.inj h)).symm
      · intro h
        rw [replacement?_eq_none.2 (h first rfl hheading), Option.none_or]
    · next hno =>
      refine iff_of_true rfl fun _ hfirst hheading => ?_
      rw [Option.mem_some_iff] at hfirst
      exact absurd (hfirst ▸ hheading) hno

end GlobalTable

theorem Document.path_of_offer? {d : Document} {name : String} {offer : Symbol × Path}
    (h : d.offer? name = some offer) : offer.2 = d.id := by
  unfold Document.offer? at h
  obtain ⟨t, -, h⟩ := Option.bind_eq_some_iff.1 h
  obtain ⟨s, -, h⟩ := Option.bind_eq_some_iff.1 h
  obtain ⟨o, -, h⟩ := Option.bind_eq_some_iff.1 h
  exact congrArg Prod.snd (Option.some.inj h).symm

/-- Different documents offer symbols with different paths. -/
theorem GlobalTable.offers_apart {ds : Documents} (h : ds.Sorted) (name : String) :
    ((mergeOrder ds).filterMap (·.offer? name)).Pairwise fun o p => o.2 ≠ p.2 := by
  have hapart : ds.toList.Pairwise fun d e => d.id ≠ e.id := h.imp fun hlt heq => by
    have hne := Path.not_beq_of_lt hlt
    rw [heq, beq_self_eq_true] at hne
    cases hne
  have hapart := (mergeOrder_perm ds).symm.pairwise hapart fun hne => hne.symm
  refine hapart.filterMap _ fun d e hde o ho p hp => ?_
  rw [Document.path_of_offer? ho, Document.path_of_offer? hp]
  exact hde

end SimFront
