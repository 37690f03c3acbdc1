import ReflectionTables.Proofs.MethodTails
import ReflectionTables.Proofs.SafeCuts
/-!
# Matching brackets

In the tokens of a text, or in as much of them as there is, brackets nest, and the parsers that skip
a group stop at the bracket that matches the opening one in this nesting. They go about it in three
ways: by the depths that braces carry, by a count of parentheses outside braces, and by a count of
square brackets alone. A skipped statement ends at the first semicolon outside the braces that were
opened in it.
-/

namespace ReflectionTables.Scanning

variable {t opening closing : Token} {ts us before after inner row rest more : List Token} {depth n : Nat}
  {outside : TokenKind → Bool} {kind : TokenKind}

/-- A token of two rows in sequence stands in one of them. -/
theorem exists_split_of_append (h : ts ++ us = before ++ t :: after) :
    (∃ between, ts = before ++ t :: between ∧ after = between ++ us) ∨
      ∃ between, before = ts ++ between ∧ us = between ++ t :: after := by
  obtain ⟨between, rfl, hus⟩ | ⟨between, rfl, hbehind⟩ := List.append_eq_append_iff.mp h
  · exact .inr ⟨between, rfl, hus⟩
  · cases between with
    | nil => exact .inr ⟨[], by simp, hbehind.symm⟩
    | cons _ between =>
      obtain ⟨rfl, rfl⟩ := List.cons.inj hbehind
      exact .inl ⟨between, rfl, rfl⟩

/-- If a token separates the rows, it stands in one of them or is this token. -/
theorem exists_split_of_separated {u : Token} (h : ts ++ u :: us = before ++ t :: after) :
    (∃ between, ts = before ++ t :: between ∧ after = between ++ u :: us) ∨ u = t ∧ us = after ∨
      ∃ between, us = between ++ t :: after := by
  obtain hinside | ⟨between, rfl, hbehind⟩ := exists_split_of_append h
  · exact .inl hinside
  · cases between with
    | nil => exact .inr (.inl (List.cons.inj hbehind))
    | cons _ between => exact .inr (.inr ⟨between, (List.cons.inj hbehind).2⟩)

/-- Whether the brackets of a row pair up. -/
abbrev PairedUp (ts : List Token) : Prop := Balanced (fun _ => true) ts

theorem Balanced.append (h : Balanced outside ts) (hus : PairedUp us) : PairedUp (ts ++ us) := by
  induction h with
  | nil => exact hus
  | token hkind _ _ ih => exact .token hkind rfl ih
  | @group outside opening closing inner ts hpair hinner _ _ ih =>
    rw [List.cons_append, List.append_assoc, List.cons_append]
    exact .group hpair hinner ih

theorem TokenKind.isBracket_of_closer? {kind kind' : TokenKind} (h : kind.closer? = some kind') :
    kind.isBracket = true := by
  cases kind <;> first | rfl | cases h

theorem TokenKind.closer?_of_closer? {kind kind' : TokenKind} (h : kind.closer? = some kind') :
    kind'.closer? = none := by
  cases kind <;> simp only [closer?, Option.some.injEq, reduceCtorEq] at h <;> subst h <;> rfl

/-- Whether a bracket and tokens up to a later one are a group, with the rest behind it. -/
structure Matches (opening : Token) (inner : List Token) (closing : Token) : Prop where
  pair : opening.kind.closer? = some closing.kind
  inner : PairedUp inner

/-- A bracket that opens a group among paired ones is matched there. -/
theorem Balanced.exists_match (h : Balanced outside ts) (hts : ts = before ++ opening :: after)
    (hopens : opening.kind.closer? = some kind) :
    ∃ inner closing rest, after = inner ++ closing :: rest ∧ Matches opening inner closing := by
  induction h generalizing before after with
  | nil => simp at hts
  | @token outside t ts hkind _ _ ih =>
    cases before with
    | nil =>
      obtain ⟨rfl, -⟩ := List.cons.inj hts
      rw [TokenKind.isBracket_of_closer? hopens] at hkind
      cases hkind
    | cons _ before =>
      obtain ⟨-, hts⟩ := List.cons.inj hts
      exact ih hts
  | @group outside first last inner ts hpair hinner _ ihinner ih =>
    cases before with
    | nil =>
      obtain ⟨rfl, rfl⟩ := List.cons.inj hts
      exact ⟨inner, last, ts, rfl, hpair, hinner⟩
    | cons _ before =>
      obtain ⟨-, hts⟩ := List.cons.inj hts
      obtain ⟨between, rfl, rfl⟩ | ⟨rfl, -⟩ | ⟨between, hbehind⟩ := exists_split_of_separated hts
      · obtain ⟨inner', closing, rest, rfl, hmatches⟩ := ihinner rfl
        exact ⟨inner', closing, rest ++ last :: ts, by simp, hmatches⟩
      · rw [TokenKind.closer?_of_closer? hpair] at hopens
        cases hopens
      · exact ih hbehind

/-- Rows of tokens that begin one whose brackets pair up. Each bracket is matched or open at the end. -/
inductive Unfinished : List Token → Prop
  | paired {ts : List Token} (h : PairedUp ts) : Unfinished ts
  | inside {before rest : List Token} {opening : Token} {kind : TokenKind} (hbefore : PairedUp before)
      (hopens : opening.kind.closer? = some kind) (hrest : Unfinished rest) :
      Unfinished (before ++ opening :: rest)

theorem Unfinished.append (hts : PairedUp ts) (h : Unfinished us) : Unfinished (ts ++ us) := by
  cases h with
  | paired h => exact .paired (hts.append h)
  | @inside before rest opening kind hbefore hopens hrest =>
    rw [← List.append_assoc]
    exact .inside (hts.append hbefore) hopens hrest

/-- What begins a row of paired brackets is unfinished. -/
theorem Balanced.unfinished (h : Balanced outside us) (hus : us = ts ++ more) : Unfinished ts := by
  induction h generalizing ts more with
  | nil =>
    obtain ⟨rfl, -⟩ := List.append_eq_nil_iff.mp hus.symm
    exact .paired .nil
  | @token outside t us hkind _ _ ih =>
    cases ts with
    | nil => exact .paired .nil
    | cons _ ts =>
      obtain ⟨rfl, hrest⟩ := List.cons.inj hus
      have htoken : PairedUp [t] := .token hkind rfl .nil
      exact Unfinished.append htoken (ih hrest)
  | @group outside opening closing inner us hpair hinner _ ihinner ih =>
    cases ts with
    | nil => exact .paired .nil
    | cons _ ts =>
      obtain ⟨rfl, hsplit⟩ := List.cons.inj hus
      obtain ⟨between, rfl, hrest⟩ | ⟨between, rfl, -⟩ := List.append_eq_append_iff.mp hsplit
      · cases between with
        | nil =>
          rw [List.append_nil]
          exact .inside .nil hpair (.paired hinner)
        | cons _ between =>
          obtain ⟨rfl, rfl⟩ := List.cons.inj hrest
          have hgroup : PairedUp (opening :: (inner ++ [closing])) := .group hpair hinner .nil
          have happend := Unfinished.append hgroup (ih rfl)
          simpa using happend
      · exact .inside .nil hpair (ihinner rfl)

theorem unfinished_of_pairedUp (h : ∃ more, PairedUp (ts ++ more)) : Unfinished ts := by
  obtain ⟨more, h⟩ := h
  exact h.unfinished rfl

/-- A bracket in an unfinished row is matched there, or what follows it is unfinished. -/
theorem Unfinished.matched_or_open (h : Unfinished ts) (hts : ts = before ++ opening :: after)
    (hopens : opening.kind.closer? = some kind) :
    (∃ inner closing rest, after = inner ++ closing :: rest ∧ Matches opening inner closing) ∨
      Unfinished after := by
  induction h generalizing before with
  | paired h => exact .inl (h.exists_match hts hopens)
  | @inside before' rest opening' kind' hbefore hopens' hrest ih =>
    obtain ⟨between, rfl, rfl⟩ | ⟨rfl, rfl⟩ | ⟨between, hbehind⟩ := exists_split_of_separated hts
    · obtain ⟨inner, closing, behind, rfl, hmatches⟩ := hbefore.exists_match rfl hopens
      exact .inl ⟨inner, closing, behind ++ opening' :: rest, by simp, hmatches⟩
    · exact .inr hrest
    · exact ih hbehind

/-- A bracket and paired ones in their place can be followed by what closes the group. -/
theorem nested_closed (hopens : opening.kind.closer? = some kind) (hpaired : PairedUp ts)
    (hnested : Nested depth (opening :: ts)) : Nested depth (opening :: (ts ++ [⟨kind, "", 0, depth⟩])) := by
  obtain ⟨hopen, hdepth, hinner⟩ := hnested
  obtain ⟨-, -, hown, -⟩ := TokenKind.depth_of_closer? hopens depth
  refine ⟨hopen, hdepth, ?_⟩
  rw [nested_append, (hpaired.le_depth hinner).2]
  refine ⟨hinner, fun hkind => ?_, hown.symm, trivial⟩
  obtain rfl : kind = .rBrace := hkind
  cases hopening : opening.kind <;> rw [hopening] at hopens <;> first
    | exact Nat.succ_pos depth
    | cases hopens

theorem Unfinished.exists_finished (h : Unfinished ts) (hnested : Nested depth ts) :
    ∃ more, PairedUp (ts ++ more) ∧ Nested depth (ts ++ more) := by
  induction h generalizing depth with
  | @paired ts h => exact ⟨[], by rwa [List.append_nil], by rwa [List.append_nil]⟩
  | @inside before rest opening kind hbefore hopens _ ih =>
    obtain ⟨hfirst, hsecond⟩ := (nested_append _ _ _).mp hnested
    rw [(hbefore.le_depth hfirst).2] at hsecond
    obtain ⟨hopen, hdepth, hrest⟩ := hsecond
    obtain ⟨more, hpaired, hmore⟩ := ih hrest
    let closing : Token := ⟨kind, "", 0, depth⟩
    have hgroup : PairedUp (opening :: ((rest ++ more) ++ [closing])) := .group hopens hpaired .nil
    have hlast : Nested depth (opening :: ((rest ++ more) ++ [closing])) :=
      nested_closed hopens hpaired ⟨hopen, hdepth, hmore⟩
    have hwhole : (before ++ opening :: rest) ++ (more ++ [closing]) =
        before ++ (opening :: ((rest ++ more) ++ [closing])) := by simp
    refine ⟨more ++ [closing], ?_, ?_⟩
    · rw [hwhole]
      exact hbefore.append hgroup
    · rw [hwhole, nested_append, (hbefore.le_depth hfirst).2]
      exact ⟨hfirst, hlast⟩

/-- Whether no row of a language goes on as another one. -/
def PrefixFree (L : List Token → Prop) : Prop := ∀ row more, L row → L (row ++ more) → more = []

theorem PrefixFree.eq {L : List Token → Prop} (hL : PrefixFree L) (hrow : L ts) (hrow' : L us)
    (h : ts ++ rest = us ++ more) : ts = us := by
  obtain ⟨between, rfl, -⟩ | ⟨between, rfl, -⟩ := List.append_eq_append_iff.mp h
  · rw [hL ts between hrow hrow', List.append_nil]
  · rw [hL us between hrow' hrow, List.append_nil]

theorem prefixFree_closesBrace : PrefixFree (ClosesBrace depth) := by
  intro row more hrow hmore
  induction hrow with
  | closing hclose =>
    rw [List.cons_append, closesBrace_cons, if_pos hclose] at hmore
    exact hmore
  | inside hinside _ ih =>
    rw [List.cons_append, closesBrace_cons, if_neg hinside] at hmore
    exact ih hmore

theorem prefixFree_closesParens : PrefixFree (ClosesParens n) := by
  intro row more hrow hmore
  induction hrow with
  | closing hkind => simpa [hkind] using hmore
  | closed hkind _ ih => exact ih (by simpa [hkind] using hmore)
  | opened hkind _ ih => exact ih (by simpa [hkind] using hmore)
  | @block n t inner ts hkind hinner hrest ih =>
    rw [List.cons_append, closesParens_cons] at hmore
    simp only [hkind] at hmore
    obtain ⟨inner', rest, heq, hinner', hrest'⟩ := hmore
    rw [List.append_assoc] at heq
    obtain rfl := prefixFree_closesBrace.eq hinner hinner' heq
    rw [← List.append_cancel_left heq] at hrest'
    exact ih hrest'
  | token hkind _ ih =>
    apply ih
    rw [List.cons_append, closesParens_cons] at hmore
    split at hmore <;> simp_all

theorem prefixFree_closesBrackets : PrefixFree (ClosesBrackets n) := by
  intro row more hrow hmore
  induction hrow with
  | closing hkind => simpa [hkind] using hmore
  | closed hkind _ ih => exact ih (by simpa [hkind] using hmore)
  | opened hkind _ ih => exact ih (by simpa [hkind] using hmore)
  | token hkind _ ih =>
    apply ih
    rw [List.cons_append, closesBrackets_cons] at hmore
    split at hmore <;> simp_all

/-- The rows that are gone through behind a bracket to end its group. -/
def ClosesGroup (opening : Token) : List Token → Prop :=
  match opening.kind with
  | .lBrace => ClosesBrace opening.depth
  | .lParen => ClosesParens 0
  | .lBracket => ClosesBrackets 0
  | _ => fun _ => False

theorem prefixFree_closesGroup (opening : Token) : PrefixFree (ClosesGroup opening) := by
  unfold ClosesGroup
  split
  · exact prefixFree_closesBrace
  · exact prefixFree_closesParens
  · exact prefixFree_closesBrackets
  · exact fun _ _ h => h.elim

/-- In its place, the row up to the matching bracket is one of them. -/
theorem Matches.closesGroup (h : Matches opening inner closing)
    (hnested : Nested depth (opening :: (inner ++ closing :: rest))) :
    ClosesGroup opening (inner ++ [closing]) := by
  obtain ⟨hpair, hinner⟩ := h
  obtain ⟨-, -, hinside, -, -⟩ := nested_group hpair hnested fun h => (hinner.le_depth h).2
  cases hopening : opening.kind <;> rw [hopening] at hpair <;>
    simp only [TokenKind.closer?, Option.some.injEq, reduceCtorEq] at hpair
  · simp only [ClosesGroup, hopening]
    exact closesBrace_of_balanced hopening hpair.symm hinner hnested
  · simp only [ClosesGroup, hopening]
    exact hinner.closesParens hinside (.closing hpair.symm)
  · simp only [ClosesGroup, hopening]
    exact hinner.closesBrackets (.closing hpair.symm)

/-- Where a bracket is open to the end, no row ends its group. -/
theorem Unfinished.not_closesGroup (h : Unfinished after) (hopens : opening.kind.closer? = some kind)
    (hnested : Nested depth (opening :: after)) (hafter : after = row ++ rest) : ¬ClosesGroup opening row := by
  intro hrow
  obtain ⟨hopen, hdepth, hinside⟩ := hnested
  obtain ⟨more, hpaired, hmore⟩ := h.exists_finished hinside
  have hmatches : Matches opening (after ++ more) ⟨kind, "", 0, depth⟩ := ⟨hopens, hpaired⟩
  have hgroup := hmatches.closesGroup (nested_closed hopens hpaired ⟨hopen, hdepth, hmore⟩)
  rw [hafter, List.append_assoc, List.append_assoc] at hgroup
  have hnil := prefixFree_closesGroup opening _ _ hrow hgroup
  simp at hnil

/-- A row that ends the group of a bracket in an unfinished row goes up to the matching bracket. -/
theorem Unfinished.matches_of_closesGroup (h : Unfinished (before ++ opening :: (row ++ rest)))
    (hopens : opening.kind.closer? = some kind) (hnested : Nested depth (before ++ opening :: (row ++ rest)))
    (hrow : ClosesGroup opening row) :
    ∃ inner closing, row = inner ++ [closing] ∧ Matches opening inner closing := by
  have hplace := ((nested_append _ _ _).mp hnested).2
  obtain ⟨inner, closing, behind, hafter, hmatches⟩ | hopen := h.matched_or_open rfl hopens
  · rw [hafter] at hplace
    have hgroup := hmatches.closesGroup hplace
    have hsame : row ++ rest = (inner ++ [closing]) ++ behind := by simpa using hafter
    exact ⟨inner, closing, (prefixFree_closesGroup opening).eq hrow hgroup hsame, hmatches⟩
  · exact absurd hrow (hopen.not_closesGroup hopens hplace rfl)

def BracesClosed (ts : List Token) : Prop :=
  ∀ before opening after, ts = before ++ opening :: after → opening.kind = .lBrace →
    ∃ inner closing rest, after = inner ++ closing :: rest ∧ Matches opening inner closing

/-- Whether a semicolon is the first one behind tokens that stands outside the braces opened there, and no
brace around them is closed before it. -/
structure FirstSemicolon (ts : List Token) (semicolon : Token) : Prop where
  kind_eq : semicolon.kind = .semicolon
  closed : BracesClosed ts
  first : ∀ before t after, ts = before ++ t :: after → BracesClosed before →
    t.kind ≠ .semicolon ∧ t.kind ≠ .rBrace

theorem bracesClosed_nil : BracesClosed [] := by
  intro before opening after h
  simp at h

theorem Balanced.bracesClosed (h : Balanced outside ts) : BracesClosed ts := by
  intro before opening after hts hkind
  exact h.exists_match hts (by rw [hkind]; rfl)

theorem BracesClosed.append (h : BracesClosed ts) (h' : BracesClosed us) : BracesClosed (ts ++ us) := by
  intro before opening after hsplit hkind
  obtain ⟨between, rfl, rfl⟩ | ⟨between, rfl, hbehind⟩ := exists_split_of_append hsplit
  · obtain ⟨inner, closing, rest, rfl, hmatches⟩ := h before opening between rfl hkind
    exact ⟨inner, closing, rest ++ us, by simp, hmatches⟩
  · exact h' between opening after hbehind hkind

theorem BracesClosed.of_append (h : BracesClosed (ts ++ us)) : BracesClosed us := by
  intro before opening after hus hkind
  exact h (ts ++ before) opening after (by rw [hus, List.append_assoc]) hkind

theorem bracesClosed_cons (hkind : t.kind ≠ .lBrace) (h : BracesClosed ts) : BracesClosed (t :: ts) := by
  intro before opening after hsplit hopening
  cases before with
  | nil =>
    obtain ⟨rfl, -⟩ := List.cons.inj hsplit
    exact absurd hopening hkind
  | cons _ before =>
    obtain ⟨-, hts⟩ := List.cons.inj hsplit
    exact h before opening after hts hopening

theorem Matches.bracesClosed (h : Matches opening inner closing) :
    BracesClosed (opening :: (inner ++ [closing])) := by
  have hgroup : PairedUp (opening :: (inner ++ [closing])) := .group h.pair h.inner .nil
  exact hgroup.bracesClosed

theorem Matches.not_bracesClosed (h : Matches opening inner closing) (hkind : opening.kind = .lBrace)
    (hnested : Nested depth (opening :: (inner ++ closing :: rest)))
    (hsplit : inner ++ [closing] = before ++ t :: after) : ¬BracesClosed (opening :: before) := by
  intro hclosed
  obtain ⟨inner', closing', behind, rfl, hmatches⟩ := hclosed [] opening before rfl hkind
  have hwhole : inner ++ closing :: rest = inner' ++ closing' :: (behind ++ t :: (after ++ rest)) := by
    rw [← List.singleton_append, ← List.append_assoc, hsplit]
    simp
  have hrow := h.closesGroup hnested
  rw [hwhole] at hnested
  have hrow' := hmatches.closesGroup hnested
  have hends : (inner' ++ [closing']) ++ (behind ++ t :: after) = (inner ++ [closing]) ++ [] := by simp [hsplit]
  have hsame := (prefixFree_closesGroup opening).eq hrow' hrow hends
  have hlength := congrArg List.length (hsame.trans hsplit)
  simp only [List.length_append, List.length_cons, List.length_nil] at hlength
  omega

/-- What is closed in front of a semicolon can be taken away. -/
theorem FirstSemicolon.behind {semicolon : Token} (h : FirstSemicolon (ts ++ us) semicolon)
    (hts : BracesClosed ts) : FirstSemicolon us semicolon where
  kind_eq := h.kind_eq
  closed := h.closed.of_append
  first before t after hus hbefore :=
    h.first (ts ++ before) t after (by rw [hus, List.append_assoc]) (hts.append hbefore)

/-- What is closed, and not before its end, can be put in front of a semicolon. -/
theorem FirstSemicolon.append {semicolon : Token} (h : FirstSemicolon us semicolon) (hts : BracesClosed ts)
    (hfirst : ∀ before t after, ts = before ++ t :: after → BracesClosed before →
      t.kind ≠ .semicolon ∧ t.kind ≠ .rBrace) : FirstSemicolon (ts ++ us) semicolon where
  kind_eq := h.kind_eq
  closed := hts.append h.closed
  first before t after hsplit hbefore := by
    obtain ⟨between, rfl, rfl⟩ | ⟨between, rfl, hbehind⟩ := exists_split_of_append hsplit
    · exact hfirst before t between rfl hbefore
    · exact h.first between t after hbehind hbefore.of_append

/-- In their place, the tokens up to the first semicolon are gone through as a statement. -/
theorem FirstSemicolon.endsStatement {semicolon : Token} (h : FirstSemicolon ts semicolon)
    (hnested : Nested depth (ts ++ [semicolon])) : EndsStatement (ts ++ [semicolon]) := by
  induction hlength : ts.length using Nat.strongRecOn generalizing ts with
  | ind n ih =>
    cases ts with
    | nil => exact .semicolon h.kind_eq
    | cons t ts =>
      obtain ⟨hsemicolon, hclose⟩ := h.first [] t ts rfl bracesClosed_nil
      by_cases hkind : t.kind = .lBrace
      · obtain ⟨inner, closing, rest, rfl, hmatches⟩ := h.closed [] t ts rfl hkind
        have hgroup : t :: (inner ++ closing :: rest) = (t :: (inner ++ [closing])) ++ rest := by simp
        have hwhole : t :: (inner ++ closing :: rest) ++ [semicolon] =
            t :: (inner ++ closing :: (rest ++ [semicolon])) := by simp
        rw [hwhole] at hnested ⊢
        have hclosed := hmatches.closesGroup hnested
        simp only [ClosesGroup, hkind] at hclosed
        obtain ⟨-, -, -, hbehind, -⟩ := nested_group hmatches.pair hnested fun h => (hmatches.inner.le_depth h).2
        rw [hgroup] at h
        have hrest := ih rest.length (by rw [← hlength]; simp; omega) (h.behind hmatches.bracesClosed) hbehind rfl
        have hblock := EndsStatement.block hkind hclosed hrest
        simpa using hblock
      · have hbrace := TokenKind.isBrace_eq_false hkind hclose
        obtain ⟨-, hbehind⟩ := nested_cons_of_isBrace hbrace hnested
        have hfirst : FirstSemicolon ([t] ++ ts) semicolon := h
        have hrest := ih ts.length (by rw [← hlength]; simp)
          (hfirst.behind (bracesClosed_cons hkind bracesClosed_nil)) hbehind rfl
        exact .token ⟨hsemicolon, hkind, hclose⟩ hrest

/-- What is gone through as a statement in an unfinished row goes up to the first semicolon. -/
theorem EndsStatement.firstSemicolon (h : EndsStatement row) (hrow : Unfinished (before ++ (row ++ rest)))
    (hnested : Nested depth (before ++ (row ++ rest))) :
    ∃ ts semicolon, row = ts ++ [semicolon] ∧ FirstSemicolon ts semicolon := by
  induction h generalizing before with
  | @semicolon t hkind =>
    refine ⟨[], t, rfl, hkind, bracesClosed_nil, fun before u after hsplit => ?_⟩
    simp at hsplit
  | @block t inner ts hkind hinner _ ih =>
    have hopens : t.kind.closer? = some .rBrace := by rw [hkind]; rfl
    have hgroup : ClosesGroup t inner := by
      simp only [ClosesGroup, hkind]
      exact hinner
    have hsplit : before ++ (t :: (inner ++ ts) ++ rest) = before ++ t :: (inner ++ (ts ++ rest)) := by simp
    rw [hsplit] at hrow hnested
    obtain ⟨inner, closing, rfl, hmatches⟩ := hrow.matches_of_closesGroup hopens hnested hgroup
    have hplace := ((nested_append _ _ _).mp hnested).2
    have hbehind : before ++ t :: (inner ++ [closing] ++ (ts ++ rest)) =
        (before ++ t :: (inner ++ [closing])) ++ (ts ++ rest) := by simp
    rw [hbehind] at hrow hnested
    obtain ⟨ts, semicolon, rfl, hfirst⟩ := ih hrow hnested
    refine ⟨t :: (inner ++ [closing]) ++ ts, semicolon, by simp, ?_⟩
    refine hfirst.append hmatches.bracesClosed fun before' u after hsplit hbefore => ?_
    cases before' with
    | nil =>
      obtain ⟨rfl, -⟩ := List.cons.inj hsplit
      simp [hkind]
    | cons _ before' =>
      obtain ⟨rfl, hinside⟩ := List.cons.inj hsplit
      rw [List.append_assoc, List.singleton_append] at hplace
      exact absurd hbefore (hmatches.not_bracesClosed hkind hplace hinside)
  | @token t ts hkind _ ih =>
    have hsplit : before ++ (t :: ts ++ rest) = (before ++ [t]) ++ (ts ++ rest) := by simp
    rw [hsplit] at hrow hnested
    obtain ⟨ts, semicolon, rfl, hfirst⟩ := ih hrow hnested
    refine ⟨[t] ++ ts, semicolon, rfl, ?_⟩
    refine hfirst.append (bracesClosed_cons hkind.2.1 bracesClosed_nil) fun before' u after hsplit _ => ?_
    cases before' with
    | nil =>
      obtain ⟨rfl, -⟩ := List.cons.inj hsplit
      exact ⟨hkind.1, hkind.2.2⟩
    | cons _ before' => simp at hsplit

end ReflectionTables.Scanning

namespace ReflectionTables.Parsing

open Text Scanning Reflected Parsing.Parser Reading

variable {text : String} {c : Reading text} {s s' : ParserState text} {p : Parser Token} {opening closing : Token}
  {before after inner row rest : List Token} {kind : TokenKind} {L : List Token → Prop}

theorem Parser.Obeys.run_of_readsOn {α : Type} {p : Parser α} {allowed : Request → Reading text → Prop}
    {Q : α → Reading text → Prop} {S : α → Prop} (h : p.Obeys allowed Q c)
    (hreads : p.Always c.role Request.ReadsOn S) :
    match p.run Reading.machine c with
    | .ok (a, c') => Q a c'
    | .error failure => ∃ e, failure = .rejected e := by
  induction p generalizing c with
  | done a => exact h
  | ask request next ih =>
    obtain ⟨hrequest, hnext⟩ := hreads
    have hanswered := (obeys_ask.mp h).2
    rw [Parser.run]
    cases hanswer : Reading.machine request c with
    | ok result =>
      rw [hanswer] at hanswered
      have hrole := role_machine hanswer
      exact ih result.1 hanswered (hrole.symm ▸ hnext result.1 (fits_machine hanswer))
    | error failure =>
      rw [hanswer] at hanswered
      cases failure with
      | rejected e => exact ⟨e, rfl⟩
      | stalled => exact hanswered.elim
      | aborted what =>
        obtain rfl | ⟨start, stop, rfl, -⟩ := request_of_aborted hanswer
        · exact hrequest.elim
        · obtain rfl : what = .list := hrequest
          obtain hexpected | hexpected := hanswered <;> cases hexpected

/-- Whether a parser reads on through a row of a language, up to the token that it returns. -/
structure Parser.ReadsThrough (p : Parser Token) (L : List Token → Prop) (c : Reading text) : Prop where
  consumes : p.Consumes L c
  returns : p.Meets (fun t c' => c'.delivered.head? = some t) c
  readsOn : p.Always c.role Request.ReadsOn fun _ => True

theorem readsThrough_throughBrace (hkind : opening.kind = .lBrace) :
    (throughBrace opening).ReadsThrough (ClosesGroup opening) c where
  consumes := by
    simp only [ClosesGroup, hkind]
    exact consumes_throughBrace
  returns := meets_throughBrace.mono fun _ _ h => h.1.holds.1
  readsOn := always_throughBrace

theorem readsThrough_throughParens (hkind : opening.kind = .lParen) (h : c.delivered.head? = some opening) :
    (throughParens opening).ReadsThrough (ClosesGroup opening) c where
  consumes := by
    simp only [ClosesGroup, hkind]
    exact consumes_throughParens hkind
  returns := by
    have hholds : c.Holds opening := ⟨h, by simp [hkind, TokenKind.isBrace]⟩
    exact (meets_throughParens hholds).mono fun _ _ h => h.1.holds.1
  readsOn := always_throughParens

theorem readsThrough_throughBrackets (hkind : opening.kind = .lBracket) (h : c.delivered.head? = some opening) :
    (throughBrackets opening).ReadsThrough (ClosesGroup opening) c where
  consumes := by
    have hrows : ClosesGroup opening = BehindBrackets opening := by
      funext ts
      simp [ClosesGroup, BehindBrackets, hkind]
    rw [hrows]
    exact consumes_throughBrackets
  returns := by
    have hholds : c.Holds opening := ⟨h, by simp [hkind, TokenKind.isBrace]⟩
    exact (meets_throughBrackets hholds).mono fun _ _ h => h.1.holds.1
  readsOn := always_throughBrackets

theorem readsThrough_throughStatement : throughStatement.ReadsThrough EndsStatement c where
  consumes := consumes_throughStatement
  returns := meets_throughStatement.mono fun _ _ h => h.holds.1
  readsOn := always_throughStatement

/-- Where a row of the language comes next, the parser stops behind it and returns its last token. -/
theorem Parser.ReadsThrough.exists_run (hp : p.ReadsThrough L s.reading) (hs : s.IsBehind before.length)
    (htokens : (tokensOf text).1 = before ++ (row ++ closing :: rest)) (hrow : L (row ++ [closing])) :
    ∃ s', p.run ParserState.machine s = .ok (closing, s') ∧ s'.IsBehind (before.length + row.length + 1) ∧
      s'.findings = s.findings := by
  obtain ⟨hshown, -, hpending⟩ := hs.reading_behind htokens
  have hsplit : s.reading.pending = (row ++ [closing]) ++ rest := by
    rw [hpending, List.append_assoc, List.singleton_append]
  obtain ⟨t, c', hrun, hrest, hfindings⟩ := (hp.consumes.yields hsplit hrow).exists_run hp.returns
  have hends := hp.returns.run
  rw [hrun] at hends
  have hlast : c'.delivered.head? = some t := hends
  have hwhole : (tokensOf text).1 = (before ++ row ++ [closing]) ++ rest := by
    rw [htokens]
    simp
  have hdelivered := Reading.delivered_of_pending hwhole hrest
  have hreverse : c'.delivered = closing :: (before ++ row).reverse := by
    rw [← List.reverse_reverse c'.delivered, hdelivered, List.reverse_append]
    rfl
  rw [hreverse] at hlast
  cases hlast
  obtain ⟨s', hrun', hshown'⟩ := hshown.exists_run hp.readsOn hrun
  have hbehind := hshown'.isBehind
  rw [hreverse, List.length_cons, List.length_reverse, List.length_append] at hbehind
  exact ⟨s', hrun', hbehind, hshown'.findings_eq.trans hfindings⟩

/-- Where no row of the language comes next, the parser rejects the text. -/
theorem Parser.ReadsThrough.exists_rejection (hp : p.ReadsThrough L s.reading) (hs : s.IsBehind before.length)
    (htokens : (tokensOf text).1 = before ++ after) (hnone : ∀ row rest, after = row ++ rest → ¬L row) :
    ∃ e, p.run ParserState.machine s = .error (.rejected e) := by
  obtain ⟨hshown, -, hpending⟩ := hs.reading_behind htokens
  have hends := hp.returns.run_of_readsOn hp.readsOn
  have hconsumes := hp.consumes
  rw [Parser.Consumes, hpending] at hconsumes
  have hboth := hshown.run hp.readsOn
  cases hrun : p.run Reading.machine s.reading with
  | ok result =>
    rw [hrun] at hconsumes
    obtain ⟨-, ⟨row, hrow⟩, hiff⟩ := hconsumes
    exact absurd ((hiff row _ hrow.symm).mpr rfl) (hnone row _ hrow.symm)
  | error failure =>
    rw [hrun] at hends hboth
    obtain ⟨e, rfl⟩ := hends
    exact ⟨e, hboth⟩

/-- What it means to stop at the token that matches an opening bracket: behind the tokens up to that one,
where nothing was found, if it is among the tokens to come, and by a rejection if it is not. -/
structure Parser.StopsAtMatch (p : Parser Token) (opening : Token) (after : List Token) (s : ParserState text) :
    Prop where
  matched : ∀ inner closing rest, after = inner ++ closing :: rest → Matches opening inner closing →
    ∃ s', p.run ParserState.machine s = .ok (closing, s') ∧
      s'.IsBehind (s.stream.delivered + inner.length + 1) ∧ s'.findings = s.findings
  unmatched : (∀ inner closing rest, after = inner ++ closing :: rest → ¬Matches opening inner closing) →
    ∃ e, p.run ParserState.machine s = .error (.rejected e)

theorem Parser.ReadsThrough.stopsAtMatch (hp : p.ReadsThrough (ClosesGroup opening) s.reading)
    (hstream : Unfinished (tokensOf text).1) (hopens : opening.kind.closer? = some kind)
    (hs : s.IsBehind (before.length + 1)) (htokens : (tokensOf text).1 = before ++ opening :: after) :
    p.StopsAtMatch opening after s := by
  have hsnoc : (tokensOf text).1 = (before ++ [opening]) ++ after := by
    rw [htokens, List.append_assoc, List.singleton_append]
  have hbehind : s.IsBehind (before ++ [opening]).length := by rwa [List.length_append]
  have hnested := nested_tokensOf text
  rw [htokens] at hnested hstream
  constructor
  · rintro inner closing rest rfl hmatches
    have hplace := ((nested_append _ _ _).mp hnested).2
    have hrun := hp.exists_run hbehind hsnoc (hmatches.closesGroup hplace)
    rwa [← hbehind.delivered_eq] at hrun
  · intro hunmatched
    apply hp.exists_rejection hbehind hsnoc
    rintro row rest rfl hrow
    obtain ⟨inner, closing, rfl, hmatches⟩ := hstream.matches_of_closesGroup hopens hnested hrow
    exact hunmatched inner closing rest (by simp) hmatches

/-- The parsers that skip a construct stop where brackets match, in a text whose tokens begin a row of nested
brackets. Behind an opening bracket they return the token that matches it, or fail if there is none. A pair
that is one token is complete. A statement is gone through to its first semicolon outside braces, and fails if
the braces around it are closed or the tokens end before that. -/
theorem skipping_stops_at_match (text : String) (hstream : ∃ more, PairedUp ((tokensOf text).1 ++ more))
    (s : ParserState text) (before after : List Token) :
    (∀ opening, (tokensOf text).1 = before ++ opening :: after → s.IsBehind (before.length + 1) →
      (opening.kind = .lBrace → (throughBrace opening).StopsAtMatch opening after s) ∧
      (opening.kind = .lParen → (throughParens opening).StopsAtMatch opening after s) ∧
      (opening.kind = .lBracket → (throughBrackets opening).StopsAtMatch opening after s) ∧
      (opening.kind = .emptyParens → (throughParens opening).run ParserState.machine s = .ok (opening, s)) ∧
      (opening.kind = .emptyBrackets → (throughBrackets opening).run ParserState.machine s = .ok (opening, s))) ∧
    ((tokensOf text).1 = before ++ after → s.IsBehind before.length →
      (∀ inner semicolon rest, after = inner ++ semicolon :: rest → FirstSemicolon inner semicolon →
        ∃ s', throughStatement.run ParserState.machine s = .ok (semicolon, s') ∧
          s'.IsBehind (before.length + inner.length + 1) ∧ s'.findings = s.findings) ∧
      ((∀ inner semicolon rest, after = inner ++ semicolon :: rest → ¬FirstSemicolon inner semicolon) →
        ∃ e, throughStatement.run ParserState.machine s = .error (.rejected e))) := by
  have hunfinished := unfinished_of_pairedUp hstream
  constructor
  · intro opening htokens hs
    obtain ⟨-, hdelivered, -⟩ := hs.reading_shownBy htokens
    have hhead : s.reading.delivered.head? = some opening := by rw [hdelivered, List.head?_cons]
    refine ⟨fun hkind => ?_, fun hkind => ?_, fun hkind => ?_, fun hkind => ?_, fun hkind => ?_⟩
    · exact (readsThrough_throughBrace hkind).stopsAtMatch hunfinished (by rw [hkind]; rfl) hs htokens
    · exact (readsThrough_throughParens hkind hhead).stopsAtMatch hunfinished (by rw [hkind]; rfl) hs htokens
    · exact (readsThrough_throughBrackets hkind hhead).stopsAtMatch hunfinished (by rw [hkind]; rfl) hs htokens
    · rw [throughParens, if_pos hkind]
      rfl
    · rw [throughBrackets, if_pos hkind]
      rfl
  · intro htokens hs
    have hnested := nested_tokensOf text
    constructor
    · rintro inner semicolon rest rfl hfirst
      have hsplit : before ++ (inner ++ semicolon :: rest) = before ++ ((inner ++ [semicolon]) ++ rest) := by simp
      rw [htokens, hsplit] at hnested
      have hplace := ((nested_append _ _ _).mp ((nested_append _ _ _).mp hnested).2).1
      exact readsThrough_throughStatement.exists_run hs htokens (hfirst.endsStatement hplace)
    · intro hnone
      apply readsThrough_throughStatement.exists_rejection hs htokens
      rintro row rest rfl hrow
      rw [htokens] at hunfinished hnested
      obtain ⟨inner, semicolon, rfl, hfirst⟩ := hrow.firstSemicolon hunfinished hnested
      exact hnone inner semicolon rest (by simp) hfirst

theorem exists_isBehind (role : FileRole) (before : List Token) (htokens : (tokensOf text).1 = before ++ after) :
    ∃ s : ParserState text, s.role = role ∧ s.IsBehind before.length := by
  induction before using List.reverseRecOn generalizing after with
  | nil => exact ⟨.new role text, rfl, ParserState.isBehind_new role text⟩
  | append_singleton before t ih =>
    rw [List.append_assoc, List.singleton_append] at htokens
    obtain ⟨s, hrole, hs⟩ := ih htokens
    obtain ⟨s', hread, hbehind⟩ := hs.next htokens
    exact ⟨s', (ParserState.fits_machine hread).2.trans hrole, by rwa [List.length_append]⟩

section Mixed

/-- The tokens of `a[(i)]{;()};`. -/
def mixedGroup : List Token :=
  [⟨.ident, "a", 2, 0⟩, ⟨.lBracket, "[", 3, 0⟩, ⟨.lParen, "(", 4, 0⟩, ⟨.ident, "i", 5, 0⟩,
    ⟨.rParen, ")", 6, 0⟩, ⟨.rBracket, "]", 7, 0⟩, ⟨.lBrace, "\x7b", 8, 0⟩, ⟨.semicolon, ";", 9, 1⟩,
    ⟨.emptyParens, "()", 10, 1⟩, ⟨.rBrace, "\x7d", 12, 0⟩, ⟨.semicolon, ";", 13, 0⟩]

theorem pairedUp_mixedGroup : PairedUp mixedGroup := by
  have hparens : PairedUp (⟨.lParen, "(", 4, 0⟩ :: ([⟨.ident, "i", 5, 0⟩] ++ [⟨.rParen, ")", 6, 0⟩])) :=
    .group rfl (.token rfl rfl .nil) .nil
  have hbraces : PairedUp (⟨.lBrace, "\x7b", 8, 0⟩ ::
      ([⟨.semicolon, ";", 9, 1⟩, ⟨.emptyParens, "()", 10, 1⟩] ++
        [⟨.rBrace, "\x7d", 12, 0⟩, ⟨.semicolon, ";", 13, 0⟩])) :=
    .group rfl (.token rfl rfl (.token rfl rfl .nil)) (.token rfl rfl .nil)
  have hbrackets : PairedUp (⟨.lBracket, "[", 3, 0⟩ ::
      ([⟨.lParen, "(", 4, 0⟩, ⟨.ident, "i", 5, 0⟩, ⟨.rParen, ")", 6, 0⟩] ++ ⟨.rBracket, "]", 7, 0⟩ ::
        mixedGroup.drop 6)) :=
    .group rfl hparens hbraces
  exact .token rfl rfl hbrackets

/-- As a statement these tokens end at their last semicolon, not at the one in the braces. -/
theorem firstSemicolon_mixedGroup : FirstSemicolon mixedGroup.dropLast ⟨.semicolon, ";", 13, 0⟩ := by
  have hinner : ClosesBrace 0
      [⟨.semicolon, ";", 9, 1⟩, ⟨.emptyParens, "()", 10, 1⟩, ⟨.rBrace, "\x7d", 12, 0⟩] := by
    decide
  have hblock := EndsStatement.block (t := ⟨.lBrace, "\x7b", 8, 0⟩) rfl hinner
    (EndsStatement.semicolon (t := ⟨.semicolon, ";", 13, 0⟩) rfl)
  have hends : EndsStatement mixedGroup :=
    .token (by decide) (.token (by decide) (.token (by decide) (.token (by decide) (.token (by decide)
      (.token (by decide) hblock)))))
  have hnested : Nested 0 mixedGroup := by
    simp [mixedGroup, Nested, TokenKind.ownDepth, TokenKind.depthAfter]
  have hwhole : Unfinished ([] ++ (mixedGroup ++ [])) := .paired pairedUp_mixedGroup
  obtain ⟨ts, semicolon, hsplit, hfirst⟩ := hends.firstSemicolon hwhole hnested
  have hsame : mixedGroup.dropLast ++ [⟨.semicolon, ";", 13, 0⟩] = ts ++ [semicolon] := hsplit
  obtain ⟨rfl, hlast⟩ := List.append_inj' hsame rfl
  cases hlast
  exact hfirst

/-- A text that ends in an open brace: the parentheses in it are matched behind brackets and braces with
others in them, a statement that begins in them ends there, and the brace is not matched. -/
theorem skipping_stops_at_match_mixed :
    let text := "f(a[(i)]\x7b;()\x7d;) + g\x7b x;"
    (∃ s s' : ParserState text, s.IsBehind 2 ∧
      (throughParens ⟨.lParen, "(", 1, 0⟩).run ParserState.machine s = .ok (⟨.rParen, ")", 14, 0⟩, s') ∧
      s'.IsBehind 14 ∧ s'.findings = s.findings) ∧
    (∃ s s' : ParserState text, s.IsBehind 2 ∧
      throughStatement.run ParserState.machine s = .ok (⟨.semicolon, ";", 13, 0⟩, s') ∧ s'.IsBehind 13) ∧
    ∃ (s : ParserState text) (e : ParseError), s.IsBehind 17 ∧
      (throughBrace ⟨.lBrace, "\x7b", 19, 0⟩).run ParserState.machine s = .error (.rejected e) := by
  intro text
  have htokens : (tokensOf text).1 = [⟨.ident, "f", 0, 0⟩] ++ ⟨.lParen, "(", 1, 0⟩ :: (mixedGroup ++
      ⟨.rParen, ")", 14, 0⟩ :: [⟨.plus, "+", 16, 0⟩, ⟨.ident, "g", 18, 0⟩, ⟨.lBrace, "\x7b", 19, 0⟩,
        ⟨.ident, "x", 21, 1⟩, ⟨.semicolon, ";", 22, 1⟩]) := by
    decide +kernel
  have hstream : ∃ more, PairedUp ((tokensOf text).1 ++ more) := by
    have hbraces : PairedUp (⟨.lBrace, "\x7b", 19, 0⟩ :: ([⟨.ident, "x", 21, 1⟩, ⟨.semicolon, ";", 22, 1⟩] ++
        [⟨.rBrace, "\x7d", 23, 0⟩])) :=
      .group rfl (.token rfl rfl (.token rfl rfl .nil)) .nil
    have hbehind : PairedUp (⟨.plus, "+", 16, 0⟩ :: ⟨.ident, "g", 18, 0⟩ :: ⟨.lBrace, "\x7b", 19, 0⟩ ::
        [⟨.ident, "x", 21, 1⟩, ⟨.semicolon, ";", 22, 1⟩, ⟨.rBrace, "\x7d", 23, 0⟩]) :=
      .token rfl rfl (.token rfl rfl hbraces)
    have hparens : PairedUp (⟨.lParen, "(", 1, 0⟩ :: (mixedGroup ++ ⟨.rParen, ")", 14, 0⟩ ::
        ⟨.plus, "+", 16, 0⟩ :: ⟨.ident, "g", 18, 0⟩ :: ⟨.lBrace, "\x7b", 19, 0⟩ ::
        [⟨.ident, "x", 21, 1⟩, ⟨.semicolon, ";", 22, 1⟩, ⟨.rBrace, "\x7d", 23, 0⟩])) :=
      .group rfl pairedUp_mixedGroup hbehind
    have hwhole : PairedUp (⟨.ident, "f", 0, 0⟩ :: _) := .token rfl rfl hparens
    refine ⟨[⟨.rBrace, "\x7d", 23, 0⟩], ?_⟩
    rw [htokens]
    simpa using hwhole
  refine ⟨?_, ?_, ?_⟩
  · obtain ⟨s, -, hs⟩ := exists_isBehind .header [⟨.ident, "f", 0, 0⟩, ⟨.lParen, "(", 1, 0⟩] htokens
    have hstops := ((skipping_stops_at_match text hstream s _ _).1 _ htokens hs).2.1 rfl
    obtain ⟨s', hrun, hbehind, hfindings⟩ := hstops.matched _ _ _ rfl ⟨rfl, pairedUp_mixedGroup⟩
    rw [hs.delivered_eq] at hbehind
    exact ⟨s, s', hs, hrun, hbehind, hfindings⟩
  · have hbefore : (tokensOf text).1 = [⟨.ident, "f", 0, 0⟩, ⟨.lParen, "(", 1, 0⟩] ++
        (mixedGroup.dropLast ++ ⟨.semicolon, ";", 13, 0⟩ :: (tokensOf text).1.drop 13) := by
      rw [htokens]
      rfl
    obtain ⟨s, -, hs⟩ := exists_isBehind .header _ hbefore
    obtain ⟨s', hrun, hbehind, -⟩ :=
      ((skipping_stops_at_match text hstream s _ _).2 hbefore hs).1 _ _ _ rfl firstSemicolon_mixedGroup
    exact ⟨s, s', hs, hrun, hbehind⟩
  · let before : List Token := ⟨.ident, "f", 0, 0⟩ :: ⟨.lParen, "(", 1, 0⟩ :: (mixedGroup ++
      [⟨.rParen, ")", 14, 0⟩, ⟨.plus, "+", 16, 0⟩, ⟨.ident, "g", 18, 0⟩])
    have hbrace : (tokensOf text).1 =
        before ++ ⟨.lBrace, "\x7b", 19, 0⟩ :: [⟨.ident, "x", 21, 1⟩, ⟨.semicolon, ";", 22, 1⟩] := htokens
    obtain ⟨s, -, hs⟩ := exists_isBehind .header (before ++ [⟨.lBrace, "\x7b", 19, 0⟩]) hbrace
    have hstops := ((skipping_stops_at_match text hstream s _ _).1 _ hbrace hs).1 rfl
    obtain ⟨e, hrun⟩ := hstops.unmatched fun inner closing rest hsplit hmatches => by
      have hmem : closing ∈ inner ++ closing :: rest := List.mem_append_right _ List.mem_cons_self
      have hkind : closing.kind = .rBrace := (Option.some.inj hmatches.pair).symm
      rw [← hsplit] at hmem
      simp only [List.mem_cons, List.not_mem_nil, or_false] at hmem
      obtain rfl | rfl := hmem
      · cases hkind
      · cases hkind
    exact ⟨s, e, hs, hrun⟩

end Mixed

end ReflectionTables.Parsing
