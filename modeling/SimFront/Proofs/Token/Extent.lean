import SimFront.Proofs.Token.Literal
import SimFront.Proofs.Token.Coverage

/-!
# How far a lexeme reaches

`Lexeme.read` is made of six readers, of which the first character of the lexeme
chooses one (`read_eq`), and each of them sees nothing but the lexeme (`SelfContained`): what
follows a blank behind it plays no part, and a token read on its own is that token again.
-/

namespace SimFront

namespace Comment

theorem skip?_le {stack : List Form} {n m : Nat} {cs : List Char} (h : skip? stack n cs = some m) :
    m ≤ n + cs.length := by
  induction stack, n, cs using skip?.induct with
  | case1 n cs =>
    rw [skip?, Option.some.injEq] at h
    omega
  | case2 => simp [skip?] at h
  | case3 outer n cs ih =>
    have := ih (by simpa [skip?] using h)
    simp only [List.length_cons]
    omega
  | case4 outer n cs ih =>
    have := ih (by simpa [skip?] using h)
    simp only [List.length_cons]
    omega
  | case5 form outer n cs ih =>
    have := ih (by cases form <;> simpa [skip?] using h)
    simp only [List.length_cons]
    omega
  | case6 form outer n cs ih =>
    have := ih (by cases form <;> simpa [skip?] using h)
    simp only [List.length_cons]
    omega
  | case7 form outer n c cs hbrace hparen hopen hopen' ih =>
    have := ih (by rwa [skip?] at h <;> assumption)
    simp only [List.length_cons]
    omega

/-- A comment that is closed ends where it ends, whatever follows. -/
theorem skip?_append {stack : List Form} {n m : Nat} {cs : List Char}
    (h : skip? stack n cs = some m) (ds : List Char) : skip? stack n (cs ++ ds) = some m := by
  induction stack, n, cs using skip?.induct with
  | case1 n cs => simpa [skip?] using h
  | case2 => simp [skip?] at h
  | case3 outer n cs ih => simpa [skip?] using ih (by simpa [skip?] using h)
  | case4 outer n cs ih => simpa [skip?] using ih (by simpa [skip?] using h)
  | case5 form outer n cs ih =>
    have := ih (by cases form <;> simpa [skip?] using h)
    cases form <;> simpa [skip?] using this
  | case6 form outer n cs ih =>
    have := ih (by cases form <;> simpa [skip?] using h)
    cases form <;> simpa [skip?] using this
  | case7 form outer n c cs hbrace hparen hopen hopen' ih =>
    have hskip : skip? (form :: outer) (n + 1) cs = some m := by rwa [skip?] at h <;> assumption
    cases cs with
    | nil => simp [skip?] at hskip
    | cons e es =>
      rw [List.cons_append, skip?]
      · exact ih hskip
      · exact hbrace
      · intro tail hform hc htail
        exact hparen es hform hc (by rw [(List.cons.inj htail).1])
      · exact hopen
      · intro tail hc htail
        exact hopen' es hc (by rw [(List.cons.inj htail).1])

theorem length?_le {form : Form} {n : Nat} {cs : List Char} (h : length? form cs = some n) :
    n ≤ cs.length := by
  have hle := skip?_le h
  rwa [Nat.zero_add] at hle

theorem length?_append {form : Form} {n : Nat} {cs : List Char} (h : length? form cs = some n)
    (ds : List Char) : length? form (cs ++ ds) = some n := skip?_append h ds

end Comment

namespace Lexeme

/-! ## Marks and openers -/

theorem mark?_cons (c e : Char) (cs ds : List Char) : mark? c (e :: cs) = mark? c (e :: ds) := by
  unfold mark?
  split <;> simp_all

theorem mark?_blank {d : Char} (hd : isBlank d) (c : Char) (ds : List Char) :
    mark? c (d :: ds) = mark? c [] := by
  have heq : d ≠ '=' := ne_of_isBlank hd rfl
  have hgt : d ≠ '>' := ne_of_isBlank hd rfl
  have hdot : d ≠ '.' := ne_of_isBlank hd rfl
  unfold mark?
  split <;> simp_all

theorem mark?_append {d : Char} (hd : isBlank d) (c : Char) (cs ds : List Char) :
    mark? c (cs ++ d :: ds) = mark? c cs := by
  cases cs with
  | nil => exact mark?_blank hd c ds
  | cons e es => exact mark?_cons c e _ _

theorem mark?_take {c : Char} {cs : List Char} {m : Mark} {n : Nat} (h : mark? c cs = some (m, n)) :
    mark? c (cs.take n) = some (m, n) ∧ n ≤ cs.length := by
  unfold mark? at h
  split at h
  all_goals first
    | cases h; done
    | obtain ⟨rfl, rfl⟩ : _ = m ∧ _ = n := by simpa using h
      simp [mark?]

theorem opener?_cons (c e : Char) (cs ds : List Char) :
    opener? c (e :: cs) = opener? c (e :: ds) := by
  unfold opener?
  split <;> simp_all

theorem opener?_append {d : Char} (hd : isBlank d) (c : Char) (cs ds : List Char) :
    opener? c (cs ++ d :: ds) = opener? c cs := by
  have hstar : d ≠ '*' := ne_of_isBlank hd rfl
  cases cs with
  | nil =>
    unfold opener?
    split <;> simp_all
  | cons e es => exact opener?_cons c e _ _

theorem opener?_take {c : Char} {cs : List Char} (h : opener? c cs = none) (n : Nat) :
    opener? c (cs.take n) = none := by
  cases cs with
  | nil => rwa [List.take_nil]
  | cons e es =>
    cases n with
    | zero =>
      unfold opener? at h ⊢
      split <;> simp_all
    | succ n => rwa [List.take_succ_cons, opener?_cons c e _ es]

theorem opener?_le {c : Char} {cs : List Char} {form : Comment.Form} {n : Nat}
    (h : opener? c cs = some (form, n)) : n ≤ cs.length := by
  unfold opener? at h
  split at h
  · obtain ⟨-, rfl⟩ : Comment.Form.brace = form ∧ 0 = n := by simpa using h
    exact Nat.zero_le _
  · obtain ⟨-, rfl⟩ : Comment.Form.paren = form ∧ 1 = n := by simpa using h
    simp
  · cases h

/-! ## Readers -/

/-- Whether a lexeme ends before a blank `d`, whatever follows.  Runs of blanks do not, and of what
cannot be read only a line feed is the end, though not of a comment that is never closed. -/
def EndsBefore (d : Char) : Lexeme → Prop
  | blank => False
  | comment => True
  | token kind value => kind ≠ .error ∨ d = '\n' ∧ value ≠ .error .unterminatedComment

/-- A reader of what follows the first character of a lexeme sees nothing but the lexeme. -/
structure SelfContained (f : List Char → Lexeme × Nat) : Prop where
  /-- It takes no more than there is. -/
  le (cs : List Char) : (f cs).2 ≤ cs.length
  /-- It stops before a blank. -/
  append {d : Char} (hd : isBlank d) (cs : List Char) (hends : (f cs).1.EndsBefore d)
    (ds : List Char) : f (cs ++ d :: ds) = f cs
  /-- It reads the text of a token alone as the same token. -/
  take {cs : List Char} {kind : TokenKind} {value : TokenValue} {n : Nat}
    (h : f cs = (.token kind value, n)) (hread : kind ≠ .error) :
    f (cs.take n) = (.token kind value, n)

def readBlank (cs : List Char) : Lexeme × Nat := (.blank, (cs.takeWhile isBlank).length)

def readName (c : Char) (cs : List Char) : Lexeme × Nat :=
  (.token (nameKind (c :: cs.takeWhile isNameChar)) .none, (cs.takeWhile isNameChar).length)

def readNumber (cs : List Char) : Lexeme × Nat :=
  (.token (if (Literal.numberTail cs).1 then .real else .integer) .none, (Literal.numberTail cs).2)

def readString (cs : List Char) : Lexeme × Nat :=
  match Literal.stringTail cs with
  | (some s, n) => (.token .string (.string (String.ofList s)), n)
  | (none, n) => (invalid .unterminatedString, n)

def readChar (cs : List Char) : Lexeme × Nat :=
  match Literal.charTail cs with
  | (some v, n) => (.token .char (.char v), n)
  | (none, n) => (invalid .malformedCharacter, n)

/-- A comment or a mark. -/
def readSign (c : Char) (cs : List Char) : Lexeme × Nat :=
  match opener? c cs with
  | some (form, n) =>
    match Comment.length? form (cs.drop n) with
    | some len => (.comment, n + len)
    | none => (invalid .unterminatedComment, cs.length)
  | none =>
    match mark? c cs with
    | some (m, n) => (.token (.mark m) .none, n)
    | none => (invalid (.unexpectedCharacter c), 0)

/-- The first character decides which reader it is. -/
theorem read_eq (c : Char) :
    read c =
      if isBlank c then readBlank
      else if isNameStart c then readName c
      else if c.isDigit then readNumber
      else if c = '"' then readString
      else if c = Literal.quote then readChar
      else readSign c := by
  funext cs
  unfold read
  split_ifs <;> rfl

theorem readBlank_selfContained : SelfContained readBlank where
  le _ := (List.takeWhile_prefix isBlank).length_le
  append _ _ hends := hends.elim
  take h := nomatch h

theorem readName_selfContained (c : Char) : SelfContained (readName c) where
  le _ := (List.takeWhile_prefix isNameChar).length_le
  append := by
    intro d hd cs _ ds
    unfold readName
    rw [takeWhile_append_stop (isNameChar_of_isBlank hd)]
  take := by
    intro cs kind value n h _
    have hn : (cs.takeWhile isNameChar).length = n := congrArg Prod.snd h
    have htake : cs.take n = cs.takeWhile isNameChar := by
      rw [← hn]
      exact (List.prefix_iff_eq_take.1 (List.takeWhile_prefix isNameChar)).symm
    rw [← h, htake]
    unfold readName
    rw [List.takeWhile_takeWhile]
    simp

theorem readNumber_selfContained : SelfContained readNumber where
  le cs := Literal.numberTail_le cs
  append := by
    intro d hd cs _ ds
    unfold readNumber
    rw [Literal.numberTail_append hd]
  take := by
    intro cs kind value n h _
    have hn : (Literal.numberTail cs).2 = n := congrArg Prod.snd h
    have htake : Literal.numberTail (cs.take n) = Literal.numberTail cs := by
      rw [← hn]
      exact Literal.numberTail_take cs
    rw [← h]
    unfold readNumber
    rw [htake]

theorem readString_selfContained : SelfContained readString where
  le cs := by
    have hle := Literal.stringTail_le cs
    unfold readString
    split
    · next h => rwa [h] at hle
    · next h => rwa [h] at hle
  append := by
    intro d hd cs hends ds
    have hclosed : d = '\n' ∨ (Literal.stringTail cs).1.isSome := by
      unfold readString at hends
      split at hends
      · next h => exact Or.inr (by rw [h]; rfl)
      · next h => exact Or.inl (hends.resolve_left fun h => h rfl).1
    unfold readString
    rw [Literal.stringTail_append hd ds hclosed]
  take := by
    intro cs kind value n h hread
    unfold readString at h ⊢
    split at h
    · next s m hs =>
      obtain rfl : m = n := congrArg Prod.snd h
      rw [Literal.stringTail_take hs]
      exact h
    · exact absurd (congrArg (fun l => l.1) h) (by rintro ⟨⟩; exact hread rfl)

theorem readChar_selfContained : SelfContained readChar where
  le cs := by
    have hle := Literal.charTail_le cs
    unfold readChar
    split
    · next h => rwa [h] at hle
    · next h => rwa [h] at hle
  append := by
    intro d _ cs hends ds
    have hclosed : d = '\n' ∨ (Literal.charTail cs).1.isSome := by
      unfold readChar at hends
      split at hends
      · next h => exact Or.inr (by rw [h]; rfl)
      · next h => exact Or.inl (hends.resolve_left fun h => h rfl).1
    unfold readChar
    rw [Literal.charTail_append ds hclosed]
  take := by
    intro cs kind value n h hread
    unfold readChar at h ⊢
    split at h
    · next v m hv =>
      obtain rfl : m = n := congrArg Prod.snd h
      rw [Literal.charTail_take hv]
      exact h
    · exact absurd (congrArg (fun l => l.1) h) (by rintro ⟨⟩; exact hread rfl)

theorem readSign_selfContained (c : Char) : SelfContained (readSign c) where
  le cs := by
    unfold readSign
    split
    · next form n hopen =>
      have hn := opener?_le hopen
      split
      · next len hlen =>
        have hle := Comment.length?_le hlen
        rw [List.length_drop] at hle
        dsimp only
        omega
      · exact Nat.le_refl _
    · split
      · next m n hmark => exact (mark?_take hmark).2
      · exact Nat.zero_le _
  append := by
    intro d hd cs hends ds
    unfold readSign at hends ⊢
    rw [opener?_append hd, mark?_append hd]
    split at hends
    · next form n hopen =>
      have hn := opener?_le hopen
      split at hends
      · next len hlen =>
        rw [List.drop_append_of_le_length hn, Comment.length?_append hlen]
      · exact absurd rfl (hends.resolve_left fun h => h rfl).2
    · rfl
  take := by
    intro cs kind value n h hread
    unfold readSign at h ⊢
    split at h
    · split at h
      · cases h
      · cases h
        exact absurd rfl hread
    · next hopen =>
      rw [opener?_take hopen]
      dsimp only
      split at h
      · next m k hmark =>
        obtain rfl : k = n := congrArg Prod.snd h
        rw [(mark?_take hmark).1]
        exact h
      · cases h
        exact absurd rfl hread

/-- Whatever the first character is, the reader sees nothing but the lexeme. -/
theorem read_selfContained (c : Char) : SelfContained (read c) := by
  rw [read_eq]
  split_ifs
  · exact readBlank_selfContained
  · exact readName_selfContained c
  · exact readNumber_selfContained
  · exact readString_selfContained
  · exact readChar_selfContained
  · exact readSign_selfContained c

theorem isBlank_of_read {c : Char} {cs : List Char} {n : Nat} (h : read c cs = (.blank, n)) :
    isBlank c := by
  have hread := reading_read c cs
  rw [h] at hread
  cases hread with
  | blank first => exact first

end Lexeme

/-! ## Scanning -/

theorem tokenizeFrom_token {c : Char} {cs : List Char} {kind : TokenKind} {value : TokenValue}
    {n : Nat} (h : Lexeme.read c cs = (.token kind value, n)) (p : Position) :
    tokenizeFrom p (c :: cs) =
      ⟨kind, String.ofList (c :: cs.take n), value, ⟨p, p.advanceBy (c :: cs.take n)⟩⟩ ::
        tokenizeFrom (p.advanceBy (c :: cs.take n)) (cs.drop n) := by
  rw [tokenizeFrom, h]

theorem tokenizeFrom_comment {c : Char} {cs : List Char} {n : Nat}
    (h : Lexeme.read c cs = (.comment, n)) (p : Position) :
    tokenizeFrom p (c :: cs) = tokenizeFrom (p.advanceBy (c :: cs.take n)) (cs.drop n) := by
  rw [tokenizeFrom, h]

/-- All blanks at the head of a text are skipped at once. -/
theorem tokenizeFrom_takeWhile (p : Position) (cs : List Char) :
    tokenizeFrom p cs =
      tokenizeFrom (p.advanceBy (cs.takeWhile Lexeme.isBlank)) (cs.dropWhile Lexeme.isBlank) := by
  cases cs with
  | nil => rfl
  | cons c cs =>
    by_cases hc : Lexeme.isBlank c
    · have hread : Lexeme.read c cs = Lexeme.readBlank cs := by rw [Lexeme.read_eq, if_pos hc]
      have htake : cs.take (cs.takeWhile Lexeme.isBlank).length = cs.takeWhile Lexeme.isBlank :=
        (List.prefix_iff_eq_take.1 (List.takeWhile_prefix Lexeme.isBlank)).symm
      have hdrop : cs.drop (cs.takeWhile Lexeme.isBlank).length = cs.dropWhile Lexeme.isBlank := by
        have hsplit : (cs.takeWhile Lexeme.isBlank ++ cs.dropWhile Lexeme.isBlank).drop
            (cs.takeWhile Lexeme.isBlank).length = cs.dropWhile Lexeme.isBlank := List.drop_left
        rwa [List.takeWhile_append_dropWhile] at hsplit
      rw [tokenizeFrom, hread]
      dsimp only [Lexeme.readBlank]
      rw [htake, hdrop, List.takeWhile_cons_of_pos hc, List.dropWhile_cons_of_pos hc]
    · rw [List.takeWhile_cons_of_neg hc, List.dropWhile_cons_of_neg hc]
      rfl

/-- So they can be skipped one by one. -/
theorem tokenizeFrom_blank {c : Char} (hc : Lexeme.isBlank c) (p : Position) (cs : List Char) :
    tokenizeFrom p (c :: cs) = tokenizeFrom (p.advance c) cs := by
  rw [tokenizeFrom_takeWhile, List.takeWhile_cons_of_pos hc, List.dropWhile_cons_of_pos hc,
    tokenizeFrom_takeWhile (p.advance c)]
  rfl

/-- Induction along the lexemes of a text, where each blank counts for itself. -/
theorem scan_induction {P : Position → List Char → Prop} (ended : ∀ p, P p [])
    (blank : ∀ p c cs, Lexeme.isBlank c → P (p.advance c) cs → P p (c :: cs))
    (comment : ∀ p c cs n, Lexeme.read c cs = (.comment, n) →
      P (p.advanceBy (c :: cs.take n)) (cs.drop n) → P p (c :: cs))
    (token : ∀ p c cs kind value n, Lexeme.read c cs = (.token kind value, n) →
      P (p.advanceBy (c :: cs.take n)) (cs.drop n) → P p (c :: cs))
    (p : Position) (cs : List Char) : P p cs := by
  have shorter : ∀ len p (cs : List Char), cs.length ≤ len → P p cs := by
    intro len
    induction len with
    | zero =>
      intro p cs hlen
      rw [List.length_eq_zero_iff.1 (Nat.le_zero.1 hlen)]
      exact ended p
    | succ len ih =>
      intro p cs hlen
      cases cs with
      | nil => exact ended p
      | cons c cs =>
        rw [List.length_cons] at hlen
        have hrest : ∀ n q, P q (cs.drop n) := by
          intro n q
          refine ih q _ ?_
          rw [List.length_drop]
          omega
        match hread : Lexeme.read c cs with
        | (.blank, n) => exact blank p c cs (Lexeme.isBlank_of_read hread) (ih _ cs (by omega))
        | (.comment, n) => exact comment p c cs n hread (hrest n _)
        | (.token kind value, n) => exact token p c cs kind value n hread (hrest n _)
  exact shorter cs.length p cs (Nat.le_refl _)

/-- The list ends in `eof`, if not before. -/
theorem tokenizeFrom_ne_nil (p : Position) (cs : List Char) : tokenizeFrom p cs ≠ [] := by
  obtain ⟨ts, hts, -⟩ := (laid_tokenizeFrom p cs).closed
  rw [hts]
  simp

end SimFront
