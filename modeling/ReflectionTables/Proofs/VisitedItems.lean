import ReflectionTables.Proofs.HeaderRecords
import ReflectionTables.Proofs.OpenScopes
/-!
# Where the reading of a file comes to

If what is left to do begins with a parser that ends, the reading comes to what follows that parser.
So the way to an item of a body can be followed step by step, and an item is met wherever it stands
in a file.
-/

namespace ReflectionTables.Parsing

open Text Scanning Reflected Parsing.Parser Reading

variable {text : String} {role : FileRole} {α β σ : Type} {c : Reading text} {us : List Token}

/-- The tokens that were not delivered, if a token that is put back counts as one of them. -/
def ParserState.toCome (s : ParserState text) : List Token :=
  (tokensOf text).1.drop s.stream.delivered

theorem Reading.Matches.toCome_eq {s : ParserState text} (h : c.Matches s) :
    s.toCome = c.pending := by
  rw [ParserState.toCome, h.delivered_eq, ← c.delivered_pending, ← c.delivered.length_reverse,
    List.drop_left]

namespace Parser

variable {m : Machine σ} {p : Parser α} {s s' s'' : σ} {history : List Request}

/-- Behind a parser that ends, a run comes to what follows. -/
theorem Reaches.bind_run {q : Parser β} {f : β → Parser α} {b : β}
    (h : Reaches m p s history (q >>= f) s') (hrun : q.run m s' = .ok (b, s'')) :
    ∃ later, Reaches m p s (later ++ history) (f b) s'' := by
  induction q generalizing history s' with
  | done a =>
    cases hrun
    exact ⟨[], h⟩
  | ask request next ih =>
    rw [Parser.run] at hrun
    split at hrun
    · rename_i answer s₁ hanswer
      obtain ⟨later, hlater⟩ := ih answer (h.step hanswer) hrun
      exact ⟨later ++ [request], by simpa using hlater⟩
    · cases hrun

end Parser

/-- Whether the reading of a file comes to a place with a parser left to run, which keeps to its
rules. -/
structure Visits (role : FileRole) (p : Parser Unit) (c : Reading text) : Prop where
  reached : ∃ history s, fileItems.Reaches ParserState.machine (.new role text) history p s ∧ c.Matches s
  obeys : p.Obeys Request.Legal (fun _ c' => c'.Finished) c

theorem visits_new (role : FileRole) (text : String) :
    Visits role fileItems (Reading.new role text) :=
  ⟨⟨[], .new role text, .start, matches_new role text⟩, obeys_fileItems⟩

/-- Behind a parser that yields a result the reading comes to what follows. -/
theorem Visits.bind {q : Parser β} {f : β → Parser Unit} {Q : β → Reading text → Prop}
    (h : Visits role (q >>= f) c) (hq : q.Yields Q c) :
    ∃ b c', Q b c' ∧ Visits role (f b) c' := by
  obtain ⟨⟨history, s, hreaches, hmatches⟩, hobeys⟩ := h
  have hfirst := hobeys.of_bind
  have hrun := hfirst.run
  have hstream := hfirst.run_stream hmatches
  rw [Yields] at hq
  cases hresult : q.run Reading.machine c with
  | ok result =>
    rw [hresult] at hq hrun hstream
    obtain ⟨s', hs', hmatches'⟩ := hstream
    obtain ⟨later, hlater⟩ := hreaches.bind_run hs'
    exact ⟨result.1, result.2, hq, ⟨_, s', hlater, hmatches'⟩, hrun⟩
  | error failure =>
    rw [hresult] at hq hrun
    exact absurd hrun hq

/-- The reading of a repetition comes to its first round. -/
theorem Visits.recurBy {measure : α → Nat → Nat} {body : (α → Parser β) → α → Parser β} {a : α}
    {f : β → Parser Unit} (h : Visits role (Parser.recurBy measure body a >>= f) c) :
    ∃ again, Visits role (body again a >>= f) c := by
  rw [Parser.recurBy, ask_bind] at h
  obtain ⟨left, c', ⟨-, rfl⟩, hround⟩ := Visits.bind
    (q := .request .tokensLeft) (Q := fun _ c' => True ∧ c' = c) h ⟨trivial, rfl⟩
  rw [recurFrom] at hround
  exact ⟨_, hround⟩

variable {key : ClassKey} {first : Token}

/-- The reading of a header comes to the body of a record at its start. -/
theorem exists_visited_body (word : ClassWord key) (name : TokenOf .ident) (opening : TokenOf .lBrace)
    (htokens : (tokensOf text).1 = word.val :: name.val :: opening.val :: us) :
    ∃ task k c, Visits .header (recordMembers task >>= k) c ∧ (c : Reading text).pending = us ∧
      task.context.typeName = name.val.text ∧ task.opening = opening.val := by
  have hident := word.isIdent
  have hstands := Reading.stands_new .header text
  rw [htokens] at hstands
  have hvisits := visits_new .header text
  rw [← bind_pure fileItems, fileItems, loop, recur] at hvisits
  obtain ⟨again, hvisits⟩ := hvisits.recurBy
  simp only [bind_assoc] at hvisits
  obtain ⟨_, c₁, ⟨rfl, h₁⟩, hvisits⟩ := hvisits.bind (passes_nextOrEnd (by rw [hident]; rfl) _ _ _ hstands)
  rw [if_neg (by simp), fileItem_classWord, recordItem] at hvisits
  simp only [bind_assoc] at hvisits
  obtain ⟨_, c₂, h₂, hvisits⟩ := hvisits.bind
    (yields_throughHeadAttributes_named name.property (.inl opening.property) h₁)
  obtain ⟨_, c₃, ⟨rfl, h₃⟩, hvisits⟩ := hvisits.bind (passes_next (by rw [name.property]; rfl) _ _ _ h₂)
  rw [if_neg (by simp [name.property]), if_neg (by simp [name.property])] at hvisits
  simp only [bind_assoc] at hvisits
  obtain ⟨_, c₄, ⟨rfl, h₄⟩, hvisits⟩ := hvisits.bind
    (yields_writtenList?_of_ne (by simp [opening.property]) h₃)
  rw [recordFromName, recur] at hvisits
  obtain ⟨_, hvisits⟩ := hvisits.recurBy
  simp only [bind_assoc] at hvisits
  obtain ⟨_, c₅, ⟨rfl, h₅⟩, hvisits⟩ := hvisits.bind (readsOne_next _ _ _ _ h₄)
  simp only [opening.property, bind_assoc] at hvisits
  obtain ⟨_, _, ⟨rfl, rfl⟩, hinside⟩ := hvisits.bind (yields_roleOfFile h₅.stands)
  have hheader : ((Standing.new .header).behind opening.val).role = .header := rfl
  rw [if_pos hheader, recordBody, recordSegment_plain] at hinside
  simp only [bind_assoc, pure_bind] at hinside
  obtain ⟨_, c₆, h₆, hinside⟩ := hinside.bind
    (yields_enter (h₅.opened opening.property) (h₅.depth_of_lBrace opening.property))
  obtain ⟨_, c₇, ⟨rfl, h₇⟩, hinside⟩ := hinside.bind (yields_enclosingName h₆)
  obtain ⟨_, c₈, h₈, hinside⟩ := hinside.bind (yields_note h₇)
  exact ⟨_, _, c₈, hinside, h₈.pending_eq, rfl, rfl⟩

/-- The reading of a header comes to the first item of a record. -/
theorem exists_visited_item (word : ClassWord key) (name : TokenOf .ident) (opening : TokenOf .lBrace)
    (first : TokenOf .ident)
    (htokens : (tokensOf text).1 = word.val :: name.val :: opening.val :: first.val :: us) :
    ∃ body ctx visible k c, Visits .header (bodyItem body first.val ctx visible >>= k) c ∧
      (c : Reading text).pending = us ∧ ctx.typeName = name.val.text := by
  obtain ⟨task, k, c, hvisits, hpending, hname, -⟩ := exists_visited_body word name opening htokens
  rw [recordMembers, recur] at hvisits
  obtain ⟨body, hvisits⟩ := hvisits.recurBy
  rw [bodyItems, itemsEnd, recur] at hvisits
  obtain ⟨again, hvisits⟩ := hvisits.recurBy
  simp only [bind_assoc] at hvisits
  have hstands : c.Stands (first.val :: us) ⟨c.role, c.depth, c.scopes, c.findings⟩ :=
    ⟨rfl, hpending, rfl, rfl, rfl⟩
  obtain ⟨_, c', ⟨rfl, h'⟩, hvisits⟩ :=
    hvisits.bind (passes_next (by rw [first.property]; rfl) _ _ _ hstands)
  rw [if_neg (by simp [first.property])] at hvisits
  simp only [first.property, bind_assoc] at hvisits
  exact ⟨body, task.context, task.visible, _, c', hvisits, h'.pending_eq, hname⟩

end ReflectionTables.Parsing
