import ReflectionTables.Proofs.FreeDeclarations
import ReflectionTables.Proofs.VisitedItems
import Mathlib.Data.List.Infix
/-!
# Where an initializer ends

It is gone through as a row of tokens and groups, with a count of the lists in angle brackets that
are taken to be open: a `<` behind a name opens one if enough brackets that close follow, up to the
next semicolon or brace, and every `>` closes one, in an arrow too. A comma ends the initializer
just if the count is back at nothing.
-/

namespace ReflectionTables.Scanning

/-- How many lists in angle brackets a token closes. -/
def TokenKind.listsClosed : TokenKind → Nat
  | .gt => 1
  | .gtGt => 2
  | _ => 0

def TokenKind.listsOpened : TokenKind → Nat
  | .lt => 1
  | _ => 0

def TokenKind.total (count : TokenKind → Nat) : List TokenKind → Nat
  | [] => 0
  | kind :: kinds => count kind + total count kinds

@[simp] theorem TokenKind.total_nil (count : TokenKind → Nat) : total count [] = 0 := rfl

@[simp] theorem TokenKind.total_cons (count : TokenKind → Nat) (kind : TokenKind) (kinds : List TokenKind) :
    total count (kind :: kinds) = count kind + total count kinds := rfl

def TokenKind.endsLists : TokenKind → Bool
  | .semicolon | .lBrace | .rBrace => true
  | _ => false

theorem TokenKind.listsClosed_eq_zero {kind : TokenKind} (hgt : kind ≠ .gt) (hgtGt : kind ≠ .gtGt) :
    kind.listsClosed = 0 := by
  cases kind <;> first | rfl | contradiction

theorem TokenKind.listsOpened_eq_zero {kind : TokenKind} (hlt : kind ≠ .lt) : kind.listsOpened = 0 := by
  cases kind <;> first | rfl | contradiction

theorem TokenKind.endsLists_eq_false {kind : TokenKind} (hsemicolon : kind ≠ .semicolon)
    (hopen : kind ≠ .lBrace) (hclose : kind ≠ .rBrace) : kind.endsLists = false := by
  cases kind <;> first | rfl | contradiction

/-- Whether brackets that close `n` lists, and all that are opened in between, follow before a
semicolon or a brace does. -/
def ClosesAhead (n : Nat) (ts : List Token) : Prop :=
  ∃ seen ∈ ts.inits, (∀ t ∈ seen, t.kind.endsLists = false) ∧
    n + TokenKind.total TokenKind.listsOpened (seen.map (·.kind)) ≤
      TokenKind.total TokenKind.listsClosed (seen.map (·.kind))

instance (n : Nat) (ts : List Token) : Decidable (ClosesAhead n ts) :=
  inferInstanceAs (Decidable (∃ seen ∈ ts.inits, _ ∧ _))

theorem not_closesAhead_nil {n : Nat} (hn : 0 < n) : ¬ClosesAhead n [] := by
  rintro ⟨seen, hseen, -, hcount⟩
  rw [List.mem_inits, List.prefix_nil] at hseen
  rw [hseen] at hcount
  simp at hcount
  omega

theorem closesAhead_cons {n : Nat} (hn : 0 < n) (t : Token) (ts : List Token) :
    ClosesAhead n (t :: ts) ↔ t.kind.endsLists = false ∧
      (n + t.kind.listsOpened ≤ t.kind.listsClosed ∨
        ClosesAhead (n + t.kind.listsOpened - t.kind.listsClosed) ts) := by
  constructor
  · rintro ⟨seen, hseen, hclear, hcount⟩
    rw [List.mem_inits, List.prefix_cons_iff] at hseen
    rcases hseen with rfl | ⟨seen, rfl, hseen⟩
    · simp at hcount
      omega
    · rw [List.forall_mem_cons] at hclear
      simp only [List.map_cons, TokenKind.total_cons] at hcount
      refine ⟨hclear.1, ?_⟩
      by_cases hdone : n + t.kind.listsOpened ≤ t.kind.listsClosed
      · exact .inl hdone
      · exact .inr ⟨seen, (List.mem_inits _ _).2 hseen, hclear.2, by omega⟩
  · rintro ⟨hends, hdone | ⟨seen, hseen, hclear, hcount⟩⟩
    · exact ⟨[t], by simp, by simpa using hends, by simpa using hdone⟩
    · refine ⟨t :: seen, ?_, List.forall_mem_cons.2 ⟨hends, hclear⟩, ?_⟩
      · rw [List.mem_inits] at hseen ⊢
        exact List.cons_prefix_cons.2 ⟨rfl, hseen⟩
      · simp only [List.map_cons, TokenKind.total_cons]
        omega

/-- Where nothing closes a list before the next semicolon, nothing seems to be closed. -/
theorem not_closesAhead {n : Nat} {ts : List Token} (hn : 0 < n)
    (h : ∀ t ∈ ts.takeWhile (·.kind != .semicolon), t.kind.listsClosed = 0) : ¬ClosesAhead n ts := by
  induction ts generalizing n with
  | nil => exact not_closesAhead_nil hn
  | cons t ts ih =>
    rw [closesAhead_cons hn]
    rintro ⟨hends, hcloses⟩
    have hsemicolon : t.kind ≠ .semicolon := by
      intro hkind
      rw [hkind] at hends
      cases hends
    rw [List.takeWhile_cons_of_pos (by simpa using hsemicolon), List.forall_mem_cons] at h
    rcases hcloses with hdone | hcloses
    · omega
    · exact ih (by omega) h.2 hcloses

inductive Piece
  | token (t : Token) (plain : t.kind.isBracket = false)
  | parens (g : Group .lParen .rParen)
  | brackets (g : Group .lBracket .rBracket)
  | braces (g : Group .lBrace .rBrace)

namespace Piece

def tokens : Piece → List Token
  | token t _ => [t]
  | parens g => g.tokens
  | brackets g => g.tokens
  | braces g => g.tokens

def kind : Piece → TokenKind
  | token t _ => t.kind
  | parens _ => .lParen
  | brackets _ => .lBracket
  | braces _ => .lBrace

/-- How many lists a piece is taken to open: one if it is a `<` behind a name and the tokens after it
seem to close it. -/
def taken (after : List Token) (afterName : Bool) (p : Piece) : Nat :=
  if afterName ∧ p.kind = .lt ∧ ClosesAhead 1 after then 1 else 0

/-- How many lists the pieces of a row in front of more tokens are taken to open. -/
def listsTaken (after : List Token) : Bool → List Piece → Nat
  | _, [] => 0
  | afterName, p :: ps =>
    p.taken (ps.flatMap tokens ++ after) afterName + listsTaken after (p.kind == .ident) ps

/-- How many lists are closed outside groups. -/
def listsClosed (ps : List Piece) : Nat := TokenKind.total TokenKind.listsClosed (ps.map (·.kind))

/-- Whether, from any piece of a row on, as many lists are closed as were taken to be open, and so are
`n` lists that were open before. -/
def Settled (after : List Token) (n : Nat) (afterName : Bool) (ps : List Piece) : Prop :=
  (∀ qs, qs <:+ ps → listsTaken after false qs ≤ listsClosed qs) ∧
    n + listsTaken after afterName ps ≤ listsClosed ps

@[simp] theorem settled_nil {after : List Token} {n : Nat} {afterName : Bool} :
    Settled after n afterName [] ↔ n = 0 := by
  simp [Settled, listsTaken, listsClosed]

/-- A count of open lists that goes down no further than to nothing. -/
@[simp] theorem settled_cons {after : List Token} {n : Nat} {afterName : Bool} {p : Piece} {ps : List Piece} :
    Settled after n afterName (p :: ps) ↔
      Settled after (n + p.taken (ps.flatMap tokens ++ after) afterName - p.kind.listsClosed)
        (p.kind == .ident) ps := by
  have hclosed : listsClosed (p :: ps) = p.kind.listsClosed + listsClosed ps := rfl
  have htaken : ∀ b, listsTaken after b (p :: ps) = p.taken (ps.flatMap tokens ++ after) b +
      listsTaken after (p.kind == .ident) ps := fun _ => rfl
  have hfalse : p.taken (ps.flatMap tokens ++ after) false = 0 := by simp [taken]
  -- A piece that closes lists is neither a name nor a `<`.
  have hother : 0 < p.kind.listsClosed → (p.kind == .ident) = false ∧
      p.taken (ps.flatMap tokens ++ after) afterName = 0 := by
    intro hpos
    cases hkind : p.kind <;> rw [hkind] at hpos <;>
      first | exact absurd hpos (Nat.lt_irrefl 0) | exact ⟨rfl, by simp [taken, hkind]⟩
  constructor
  · rintro ⟨hsuffix, hcount⟩
    refine ⟨fun qs hqs => hsuffix qs (hqs.trans (List.suffix_cons p ps)), ?_⟩
    have hself := hsuffix _ List.suffix_rfl
    have hrest := hsuffix ps (List.suffix_cons p ps)
    rw [htaken] at hself hcount
    rcases Nat.eq_zero_or_pos p.kind.listsClosed with hzero | hpos
    · omega
    · rw [(hother hpos).1] at hcount ⊢
      omega
  · rintro ⟨hsuffix, hcount⟩
    have hrest := hsuffix _ List.suffix_rfl
    refine ⟨fun qs hqs => ?_, ?_⟩
    · rcases List.suffix_cons_iff.1 hqs with rfl | hqs
      · rw [htaken]
        omega
      · exact hsuffix qs hqs
    · rw [htaken]
      omega

theorem listsTaken_eq_zero {after : List Token} {ps : List Piece}
    (h : ∀ t ∈ ps.flatMap tokens ++ after.takeWhile (·.kind != .semicolon), t.kind.listsClosed = 0)
    (afterName : Bool) : listsTaken after afterName ps = 0 := by
  induction ps generalizing afterName with
  | nil => rfl
  | cons p ps ih =>
    rw [List.flatMap_cons, List.append_assoc, List.forall_mem_append] at h
    have htaken : p.taken (ps.flatMap tokens ++ after) afterName = 0 := by
      refine if_neg fun hless => not_closesAhead Nat.one_pos ?_ hless.2.2
      intro t ht
      refine h.2 t ?_
      rw [List.takeWhile_append] at ht
      split at ht
      · exact ht
      · exact List.mem_append_left _ ((List.takeWhile_sublist _).subset ht)
    rw [listsTaken, htaken, ih h.2]

end Piece

end ReflectionTables.Scanning

namespace ReflectionTables.Parsing

open Text Scanning Reflected Parsing.Parser Reading

variable {text : String} {role : FileRole} {c : Reading text} {us : List Token} {P : Standing}
  {t e : Token} {first : List Piece}

/-- Whether the brackets of `depth` open lists follow from the token `n` places ahead on. -/
def closeAheadFrom (depth : Int) (n : Nat) : Parser Bool :=
  .recurBy (fun ahead left => left - ahead.2)
    (fun again (depth, n) => do
      let token ← lookAt n
      let count (depth : Int) : Parser Bool :=
        if depth ≤ 0 then return true else again (depth, n + 1)
      match token.kind with
      | .lt => count (depth + 1)
      | .gt => count (depth - 1)
      | .gtGt => count (depth - 2)
      | .semicolon | .lBrace | .rBrace | .endOfText => return false
      | _ => count depth) (depth, n)

theorem anglesCloseAhead_eq : anglesCloseAhead = closeAheadFrom 1 0 := rfl

/-- The tokens ahead are looked at one by one, as far as there is a semicolon to stop at. -/
theorem yields_closeAheadFrom {n : Nat} (hn : 0 < n) (seen : List Token)
    (hend : ∃ t ∈ us, t.kind = .semicolon) (hc : c.Stands (seen ++ us) P) :
    (closeAheadFrom n seen.length).Yields
      (fun closes c' => closes = decide (ClosesAhead n us) ∧ c'.Stands (seen ++ us) P) c := by
  induction us generalizing n seen c with
  | nil => simp at hend
  | cons t us ih =>
    rw [closeAheadFrom]
    refine yields_recurBy fun again hagain => ?_
    refine (yields_lookAt hc (t := t) (by simp)).bind fun token c₁ h₁ => ?_
    obtain ⟨htoken, h₁⟩ := h₁
    rw [htoken]
    have hcount : ∀ depth : Int, depth = n + t.kind.listsOpened - t.kind.listsClosed →
        t.kind.endsLists = false →
        (if depth ≤ 0 then return true else again (depth, seen.length + 1) : Parser Bool).Yields
          (fun closes c' => closes = decide (ClosesAhead n (t :: us)) ∧
            c'.Stands (seen ++ t :: us) P) c₁ := by
      intro depth hdepth hends
      have hcons := closesAhead_cons hn t us
      split
      · have hdone : n + t.kind.listsOpened ≤ t.kind.listsClosed := by omega
        exact ⟨(decide_eq_true (hcons.2 ⟨hends, .inl hdone⟩)).symm, h₁⟩
      · obtain ⟨m, hm⟩ : ∃ m, n + t.kind.listsOpened - t.kind.listsClosed = m := ⟨_, rfl⟩
        have hmore : ¬n + t.kind.listsOpened ≤ t.kind.listsClosed := by omega
        have hdepth' : depth = (m : Int) := by omega
        have hsame : ClosesAhead n (t :: us) ↔ ClosesAhead m us := by
          rw [hcons, hm]
          exact ⟨fun h => h.2.resolve_left hmore, fun h => ⟨hends, .inr h⟩⟩
        have hlater : ∃ u ∈ us, u.kind = .semicolon := by
          obtain ⟨u, hu, hkind⟩ := hend
          rcases List.mem_cons.1 hu with rfl | hu
          · rw [hkind] at hends
            cases hends
          · exact ⟨u, hu, hkind⟩
        have hseen : (seen ++ [t]) ++ us = seen ++ t :: us := by simp
        have hnext := ih (n := m) (by omega) (seen ++ [t]) hlater (c := c₁) (by rwa [hseen])
        rw [hseen, List.length_append, List.length_singleton] at hnext
        simp only [hsame, hdepth']
        exact hagain _ c₁ _ hnext
    have hstops : t.kind.endsLists = true → false = decide (ClosesAhead n (t :: us)) := by
      intro hends
      rw [eq_comm, decide_eq_false_iff_not, closesAhead_cons hn, hends]
      simp
    split
    · rename_i hkind
      exact hcount _ (by rw [hkind]; rfl) (by rw [hkind]; rfl)
    · rename_i hkind
      exact hcount _ (by rw [hkind]; rfl) (by rw [hkind]; rfl)
    · rename_i hkind
      exact hcount _ (by rw [hkind]; rfl) (by rw [hkind]; rfl)
    · exact ⟨hstops (by rw [‹t.kind = _›]; rfl), h₁⟩
    · exact ⟨hstops (by rw [‹t.kind = _›]; rfl), h₁⟩
    · exact ⟨hstops (by rw [‹t.kind = _›]; rfl), h₁⟩
    · rename_i hkind
      have hmem : t ∈ c₁.pending := by simp [h₁.pending_eq]
      exact absurd hkind (standsIn_of_mem_tokensOf (c₁.mem_tokensOf (.inr hmem))).kind_ne_end
    · rename_i hlt hgt hgtGt hsemicolon hopen hclose _
      refine hcount _ ?_ (TokenKind.endsLists_eq_false hsemicolon hopen hclose)
      rw [TokenKind.listsOpened_eq_zero hlt, TokenKind.listsClosed_eq_zero hgt hgtGt]
      simp

/-- A bracket is taken to be closed if enough brackets that close follow. -/
theorem yields_anglesCloseAhead (hend : ∃ t ∈ us, t.kind = .semicolon) (hc : c.Stands us P) :
    anglesCloseAhead.Yields
      (fun closes c' => closes = decide (ClosesAhead 1 us) ∧ c'.Stands us P) c := by
  rw [anglesCloseAhead_eq]
  exact yields_closeAheadFrom Nat.one_pos [] hend hc

section Pieces

variable {n : Nat} {afterName : Bool} {ts : List Token}

/-- A token that neither ends an initializer nor opens a list closes those lists that it says. -/
theorem leads_initializer_token (hplain : t.kind.isBracket = false) (hcomma : t.kind ≠ .comma)
    (hsemicolon : t.kind ≠ .semicolon) (hlt : t.kind ≠ .lt) :
    (initializerEnd ⟨n, afterName⟩).Leads text [t]
      (initializerEnd ⟨n - t.kind.listsClosed, t.kind == .ident⟩) := by
  refine leads_token (fun _ => rfl) (fun again => ?_) (TokenKind.isBrace_of_isBracket hplain)
  cases hkind : t.kind <;> first | rfl | contradiction | (rw [hkind] at hplain; cases hplain)

theorem leadsTo_initializer_less (ht : t.kind = .lt) (hplain : t.kind.isBracket = false)
    (hend : ∃ t ∈ us, t.kind = .semicolon) (hc : c.Stands (t :: us) P) :
    (initializerEnd ⟨n, afterName⟩).LeadsTo c
      (initializerEnd ⟨n + (Piece.token t hplain).taken us afterName, false⟩) (·.Stands us P) := by
  refine leadsTo_recurBy fun again hagain => ?_
  have hgoOn : ∀ lists (c' : Reading text), c'.Stands us P →
      (again ⟨lists, t.kind == .ident⟩).LeadsTo c' (initializerEnd ⟨lists, false⟩) (·.Stands us P) := by
    intro lists c' h'
    rw [ht]
    refine (hagain _ c').trans ?_
    rintro _ rfl
    exact leadsTo_self h'
  refine (passes_next (by rw [ht]; rfl) c us P hc).leadsTo fun token c₁ h₁ => ?_
  obtain ⟨rfl, h₁⟩ := h₁
  simp only [ht, Piece.taken, Piece.kind] at hgoOn ⊢
  cases afterName with
  | false => simpa using hgoOn n c₁ h₁
  | true =>
    refine (yields_anglesCloseAhead hend h₁).leadsTo ?_
    rintro _ c₂ ⟨rfl, h₂⟩
    by_cases hcloses : ClosesAhead 1 us
    · simpa [hcloses] using hgoOn (n + 1) c₂ h₂
    · simpa [hcloses] using hgoOn n c₂ h₂

theorem leads_initializer_group (p : Piece) (hopener : p.kind.isBracket = true) :
    (initializerEnd ⟨n, afterName⟩).Leads text p.tokens (initializerEnd ⟨n, false⟩) := by
  cases p with
  | token t hplain =>
    rw [Piece.kind, hplain] at hopener
    cases hopener
  | parens g =>
    refine leads_recur (@passes_throughParens text g).discard (fun _ => rfl) (fun again => ?_)
      (by rw [g.opener.property]; rfl)
    simp only [g.opener.property]
    rfl
  | brackets g =>
    refine leads_recur (@passes_throughBrackets text g).discard (fun _ => rfl) (fun again => ?_)
      (by rw [g.opener.property]; rfl)
    simp only [g.opener.property]
    rfl
  | braces g =>
    refine leads_recur_lBrace (@passesInside_throughBrace text g).discard (fun _ => rfl)
      (fun again => ?_) g.opener.property
    simp only [g.opener.property]
    rfl

/-- A piece changes the count of open lists by those that it is taken to open and those that it
closes. -/
theorem leadsTo_initializer_piece (p : Piece) (hp : p.kind ≠ .comma ∧ p.kind ≠ .semicolon)
    (hend : ∃ t ∈ us, t.kind = .semicolon) (hc : c.Stands (p.tokens ++ us) P) :
    (initializerEnd ⟨n, afterName⟩).LeadsTo c
      (initializerEnd ⟨n + p.taken us afterName - p.kind.listsClosed, p.kind == .ident⟩)
      (·.Stands us P) := by
  by_cases hlt : p.kind = .lt
  · cases p with
    | token t hplain =>
      rw [hlt]
      exact leadsTo_initializer_less hlt hplain hend hc
    | parens | brackets | braces => cases hlt
  · have hnone : p.taken us afterName = 0 := if_neg fun h => hlt h.2.1
    rw [hnone]
    cases p with
    | token t hplain => exact leads_initializer_token hplain hp.1 hp.2 hlt c us P hc
    | parens g => exact leads_initializer_group (n := n) (.parens g) rfl c us P hc
    | brackets g => exact leads_initializer_group (n := n) (.brackets g) rfl c us P hc
    | braces g => exact leads_initializer_group (n := n) (.braces g) rfl c us P hc

/-- Behind a row of pieces no list is taken to be open just if the row is settled. -/
theorem exists_initializer_pieces (hfirst : ∀ p ∈ first, p.kind ≠ .comma ∧ p.kind ≠ .semicolon)
    (hend : ∃ t ∈ us, t.kind = .semicolon) (n : Nat) (afterName : Bool) :
    ∃ n' afterName', (n' = 0 ↔ Piece.Settled us n afterName first) ∧
      ∀ c : Reading text, c.Stands (first.flatMap Piece.tokens ++ us) P →
        (initializerEnd ⟨n, afterName⟩).LeadsTo c (initializerEnd ⟨n', afterName'⟩)
          (·.Stands us P) := by
  induction first generalizing n afterName with
  | nil => exact ⟨n, afterName, Piece.settled_nil.symm, fun c hc => leadsTo_self hc⟩
  | cons p ps ih =>
    rw [List.forall_mem_cons] at hfirst
    obtain ⟨n', afterName', hsettled, hleads⟩ := ih hfirst.2
      (n + p.taken (ps.flatMap Piece.tokens ++ us) afterName - p.kind.listsClosed) (p.kind == .ident)
    refine ⟨n', afterName', hsettled.trans Piece.settled_cons.symm, fun c hc => ?_⟩
    rw [List.flatMap_cons, List.append_assoc] at hc
    have hlater : ∃ t ∈ ps.flatMap Piece.tokens ++ us, t.kind = .semicolon := by
      obtain ⟨t, ht, hkind⟩ := hend
      exact ⟨t, List.mem_append_right _ ht, hkind⟩
    exact (leadsTo_initializer_piece p hfirst.1 hlater hc).trans hleads

end Pieces

/-- The comma behind a row ends an initializer in which no list is open; in another one it is gone
through like any token. -/
theorem leadsTo_initializer_comma {n : Nat} {afterName : Bool} (he : e.kind = .comma) (hn : n ≠ 0)
    (hc : c.Stands (e :: us) P) :
    (initializerEnd ⟨n, afterName⟩).LeadsTo c (initializerEnd ⟨n, false⟩) (·.Stands us P) := by
  have hleads : (initializerEnd ⟨n, afterName⟩).Leads text [e] (initializerEnd ⟨n, e.kind == .ident⟩) := by
    refine leads_token (fun _ => rfl) (fun again => ?_) (by rw [he]; rfl)
    simp only [he, if_neg hn]
  rw [he] at hleads
  exact hleads c us P hc

theorem yields_initializer_end {n : Nat} {afterName : Bool}
    (he : e.kind = .semicolon ∨ e.kind = .comma ∧ n = 0) (hc : c.Stands (e :: us) P) :
    (initializerEnd ⟨n, afterName⟩).Yields (fun t c' => t = e ∧ c'.Stands us P) c := by
  refine yields_recur fun again _ => ?_
  have hbrace : e.kind.isBrace = false := by rcases he with hkind | ⟨hkind, -⟩ <;> rw [hkind] <;> rfl
  refine (passes_next hbrace c us P hc).bind ?_
  rintro _ c₁ ⟨rfl, h₁⟩
  rcases he with hkind | ⟨hkind, hzero⟩
  · simp only [hkind]
    exact ⟨rfl, h₁⟩
  · simp only [hkind, if_pos hzero]
    exact ⟨rfl, h₁⟩

/-- Whether a parser ends with an answer, in front of the given tokens and without a finding. -/
def EndsAt {β : Type} (q : Parser β) (s : ParserState text) (b : β) (us : List Token) : Prop :=
  ∃ s', q.run ParserState.machine s = .ok (b, s') ∧ s'.toCome = us ∧ s'.findings = s.findings

/-- Where a parser ends on a stream of tokens can be told from a reading. -/
theorem endsAt_iff {β : Type} {allowed : Request → Reading text → Prop} {q : Parser β}
    {Q : β → Reading text → Prop} {s : ParserState text} (h : q.Obeys allowed Q c) (hs : c.Matches s)
    (b : β) (us : List Token) :
    EndsAt q s b us ↔
      ∃ c', q.run Reading.machine c = .ok (b, c') ∧ c'.pending = us ∧ c'.findings = c.findings := by
  have hstream := h.run_stream hs
  rw [EndsAt]
  cases hrun : q.run Reading.machine c with
  | ok result =>
    obtain ⟨b', c'⟩ := result
    rw [hrun] at hstream
    obtain ⟨s', hs', hmatches⟩ := hstream
    rw [hs']
    constructor
    · rintro ⟨_, heq, hpending, hfindings⟩
      cases heq
      refine ⟨c', rfl, ?_, ?_⟩
      · rw [← hmatches.toCome_eq, hpending]
      · rw [← hmatches.findings_eq, ← hs.findings_eq, hfindings]
    · rintro ⟨_, heq, hpending, hfindings⟩
      cases heq
      refine ⟨s', rfl, ?_, ?_⟩
      · rw [hmatches.toCome_eq, hpending]
      · rw [hmatches.findings_eq, hs.findings_eq, hfindings]
  | error failure =>
    rw [hrun] at hstream
    rw [hstream]
    refine iff_of_false ?_ ?_
    · rintro ⟨_, heq, -⟩
      cases heq
    · rintro ⟨_, heq, -⟩
      cases heq

/-- In front of a row and its end an initializer ends there just if that is a semicolon or the row is
settled. -/
theorem endsAt_initializer_iff {allowed : Request → Reading text → Prop}
    {Q : Token → Reading text → Prop} {s : ParserState text}
    (h : throughInitializer.Obeys allowed Q c) (hs : c.Matches s)
    (hfirst : ∀ p ∈ first, p.kind ≠ .comma ∧ p.kind ≠ .semicolon)
    (he : e.kind = .comma ∨ e.kind = .semicolon) (hend : ∃ t ∈ e :: us, t.kind = .semicolon)
    (hc : c.Stands (first.flatMap Piece.tokens ++ e :: us) P) :
    EndsAt throughInitializer s e us ↔
      e.kind = .semicolon ∨ Piece.Settled (e :: us) 0 false first := by
  rw [endsAt_iff h hs]
  obtain ⟨n, afterName, hsettled, hleads⟩ := exists_initializer_pieces (P := P) hfirst hend 0 false
  have hled := hleads c hc
  rw [← hsettled]
  by_cases hstop : e.kind = .semicolon ∨ e.kind = .comma ∧ n = 0
  · refine iff_of_true ?_ (hstop.imp_right And.right)
    have hyields := hled.yields fun c' h' => yields_initializer_end hstop h'
    rcases hyields.cases with ⟨_, c', hrun, rfl, h'⟩ | ⟨failure, hrun, hfailure⟩
    · exact ⟨c', hrun, h'.pending_eq, h'.findings_eq.trans hc.findings_eq.symm⟩
    · have hrun' : throughInitializer.run Reading.machine c = .error failure := hrun
      have hexpected := h.run
      rw [hrun'] at hexpected
      exact absurd hexpected hfailure
  · rw [not_or, not_and] at hstop
    have hcomma := he.resolve_right hstop.1
    have hopen := hstop.2 hcomma
    refine iff_of_false ?_ (not_or.2 ⟨hstop.1, hopen⟩)
    rintro ⟨c', hrun, hpending, -⟩
    -- The comma was delivered, and the token that ends the initializer is delivered behind it.
    obtain ⟨c₁, h₁, hrun₁⟩ :=
      (hled.trans fun _ h' => leadsTo_initializer_comma hcomma hopen h').exists_of_run hrun
    have hpast := (meets_initializerEnd (s := ⟨n, false⟩) (c := c₁)).run
    rw [hrun₁] at hpast
    have hlength := hpast.onward.length_lt
    have htotal := congrArg List.length (c'.delivered_pending.trans c₁.delivered_pending.symm)
    rw [hpending, h₁.pending_eq, List.length_append, List.length_append, List.length_reverse,
      List.length_reverse] at htotal
    omega

theorem yields_memberHead_names (type name : PlainName) (ht : t.kind = .eq)
    (hc : c.Stands (name.token :: t :: us) P) :
    (memberHead type.token).Yields
      (fun r c' => r = .declared ⟨[type.token, name.token], .value, none⟩ t ∧ c'.Stands us P) c := by
  rw [memberHead, headEnd]
  refine yields_recur fun again hagain => ?_
  simp only [type.isIdent, type.unreserved, reduceCtorEq, if_false]
  refine (passes_next (by rw [name.isIdent]; rfl) c _ P hc).bind ?_
  rintro _ c₁ ⟨rfl, h₁⟩
  refine hagain _ c₁ _ (yields_recur fun again hagain => ?_)
  simp only [name.isIdent, name.unreserved, reduceCtorEq, if_false]
  refine (passes_next (by rw [ht]; rfl) c₁ _ P h₁).bind ?_
  rintro _ c₂ ⟨rfl, h₂⟩
  refine hagain _ c₂ _ (yields_recur fun again _ => ?_)
  simp only [ht]
  exact ⟨rfl, h₂⟩

/-- The reading of a header comes to the initializer of the first member of a record. -/
theorem exists_visited_initializer {key : ClassKey} (word : ClassWord key) (record : TokenOf .ident)
    (opening : TokenOf .lBrace) (type name : PlainName) (assign : TokenOf .eq)
    (htokens : (tokensOf text).1 = word.val :: record.val :: opening.val :: type.token ::
      name.token :: assign.val :: us) :
    ∃ k c, Visits .header (throughInitializer >>= k) c ∧ (c : Reading text).pending = us := by
  obtain ⟨body, ctx, visible, k, c, hvisits, hpending, -⟩ :=
    exists_visited_item word record opening ⟨type.token, type.isIdent⟩ htokens
  obtain ⟨P, hc⟩ : ∃ P, c.Stands (name.token :: assign.val :: us) P :=
    ⟨⟨c.role, c.depth, c.scopes, c.findings⟩, rfl, hpending, rfl, rfl, rfl⟩
  have hspecifiers : (memberSpecifiers type.token).Yields (fun r c' => r = (false, type.token) ∧
      c'.Stands (name.token :: assign.val :: us) P) c := by
    refine yields_recur fun again _ => ?_
    simp only [type.unreserved]
    exact ⟨rfl, hc⟩
  simp only [bodyItem, type.unreserved, Option.bind_none, bind_assoc] at hvisits
  obtain ⟨_, c₁, ⟨rfl, h₁⟩, hvisits⟩ := hvisits.bind hspecifiers
  simp only [memberItem, type.isIdent, reduceCtorEq, if_false, bind_assoc] at hvisits
  obtain ⟨_, c₂, ⟨rfl, h₂⟩, hvisits⟩ :=
    hvisits.bind (yields_constructorAhead (by rw [name.isIdent]; rfl) h₁)
  simp only [type.unreserved, Bool.false_eq_true, if_false, memberDeclaration, bind_assoc] at hvisits
  obtain ⟨_, c₃, ⟨rfl, h₃⟩, hvisits⟩ :=
    hvisits.bind (yields_memberHead_names type name assign.property h₂)
  have hparens : assign.val.kind.opensParens = false := by rw [assign.property]; rfl
  simp only [hparens, Bool.false_eq_true, if_false, bind_assoc] at hvisits
  obtain ⟨base, c₄, ⟨-, hc₄⟩, hvisits⟩ := hvisits.bind (yields_span _ _)
  obtain ⟨typeText, c₅, ⟨-, hc₅⟩, hvisits⟩ := hvisits.bind (yields_span _ _)
  simp only [declaratorTail, declaratorSuffix, assign.property, pure_bind, afterMemberInitializer,
    bind_assoc] at hvisits
  exact ⟨_, c₅, hvisits, by rw [hc₅, hc₄, h₃.pending_eq]⟩

/-- Wherever the reading of a file comes to an initializer, it ends at the first comma or semicolon
outside groups just if that is the semicolon or, from each piece before it on, no more lists are taken
to be open than are closed. So where nothing closes a list, a comparison hides no comma. -/
theorem throughInitializer_ends_iff {history : List Request} {s : ParserState text}
    {k : Token → Parser Unit}
    (h : fileItems.Reaches ParserState.machine (.new role text) history (throughInitializer >>= k) s)
    (htokens : s.toCome = first.flatMap Piece.tokens ++ e :: us)
    (hfirst : ∀ p ∈ first, p.kind ≠ .comma ∧ p.kind ≠ .semicolon)
    (he : e.kind = .comma ∨ e.kind = .semicolon) (hend : ∃ t ∈ e :: us, t.kind = .semicolon) :
    (EndsAt throughInitializer s e us ↔ e.kind = .semicolon ∨
        ∀ ps, ps <:+ first → Piece.listsTaken (e :: us) false ps ≤ Piece.listsClosed ps) ∧
      ((∀ t ∈ first.flatMap Piece.tokens ++ (e :: us).takeWhile (·.kind != .semicolon),
          t.kind.listsClosed = 0) → EndsAt throughInitializer s e us) := by
  obtain ⟨c, hmatches, hobeys, -⟩ := exists_reading h
  rw [hmatches.toCome_eq] at htokens
  have hc : c.Stands (first.flatMap Piece.tokens ++ e :: us) ⟨c.role, c.depth, c.scopes, c.findings⟩ :=
    ⟨rfl, htokens, rfl, rfl, rfl⟩
  have hends := endsAt_initializer_iff hobeys.of_bind hmatches hfirst he hend hc
  rw [hends]
  have hsettled : Piece.Settled (e :: us) 0 false first ↔
      ∀ ps, ps <:+ first → Piece.listsTaken (e :: us) false ps ≤ Piece.listsClosed ps := by
    refine ⟨And.left, fun hall => ⟨hall, ?_⟩⟩
    rw [Nat.zero_add]
    exact hall first List.suffix_rfl
  rw [hsettled]
  refine ⟨Iff.rfl, fun hclosed => .inr fun ps hps => ?_⟩
  have hnone : Piece.listsTaken (e :: us) false ps = 0 := by
    refine Piece.listsTaken_eq_zero (fun t ht => hclosed t ?_) false
    rw [List.mem_append, List.mem_flatMap] at ht ⊢
    exact ht.imp_left fun ⟨p, hp, htp⟩ => ⟨p, hps.subset hp, htp⟩
  rw [hnone]
  exact Nat.zero_le _

/-- The text of a record with two members of one type; the value of the second has an arrow. -/
def arrowBehindLess : String := "struct S \x7b bool b = x < y, c = p->n; \x7d;"

/-- The arrow is taken to close a list that `x <` opens, so the comma does not end the first value. -/
theorem throughInitializer_ends_iff_arrow :
    ∃ history k, ∃ s : ParserState arrowBehindLess, ∃ later,
      fileItems.Reaches ParserState.machine (.new .header arrowBehindLess) history
        (throughInitializer >>= k) s ∧
      s.toCome = [⟨.ident, "x", 20, 1⟩, ⟨.lt, "<", 22, 1⟩, ⟨.ident, "y", 24, 1⟩] ++
        ⟨.comma, ",", 25, 1⟩ :: later ∧
      ¬EndsAt throughInitializer s ⟨.comma, ",", 25, 1⟩ later := by
  let first : List Piece := [.token ⟨.ident, "x", 20, 1⟩ rfl, .token ⟨.lt, "<", 22, 1⟩ rfl,
    .token ⟨.ident, "y", 24, 1⟩ rfl]
  let comma : Token := ⟨.comma, ",", 25, 1⟩
  let later : List Token := [⟨.ident, "c", 27, 1⟩, ⟨.eq, "=", 29, 1⟩, ⟨.ident, "p", 31, 1⟩,
    ⟨.minus, "-", 32, 1⟩, ⟨.gt, ">", 33, 1⟩, ⟨.ident, "n", 34, 1⟩, ⟨.semicolon, ";", 35, 1⟩,
    ⟨.rBrace, "\x7d", 37, 0⟩, ⟨.semicolon, ";", 38, 0⟩]
  let word : ClassWord .structKey := ⟨⟨.ident, "struct", 0, 0⟩, by decide⟩
  obtain ⟨k, c, hvisits, hpending⟩ := @exists_visited_initializer arrowBehindLess
    (first.flatMap Piece.tokens ++ comma :: later) _ word ⟨⟨.ident, "S", 7, 0⟩, rfl⟩
    ⟨⟨.lBrace, "\x7b", 9, 0⟩, rfl⟩ ⟨⟨.ident, "bool", 11, 1⟩, rfl, by decide⟩
    ⟨⟨.ident, "b", 16, 1⟩, rfl, by decide⟩ ⟨⟨.eq, "=", 18, 1⟩, rfl⟩ (by decide +kernel)
  obtain ⟨⟨history, s, hreaches, hmatches⟩, -⟩ := hvisits
  have htokens := hmatches.toCome_eq.trans hpending
  have hiff := (throughInitializer_ends_iff hreaches htokens (by decide) (.inl rfl) (by decide)).1
  refine ⟨history, k, s, later, hreaches, htokens, fun hends => ?_⟩
  have hsettled := (hiff.1 hends).resolve_left (by decide) first List.suffix_rfl
  exact absurd hsettled (by decide)

end ReflectionTables.Parsing
