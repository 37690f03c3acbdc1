import ReflectionTables.Proofs.OpenedBodies
import ReflectionTables.Proofs.StreamReadings
/-!
# Opened bodies stand in the text in order

A brace can be put back only as long as nothing was looked at behind it and its scope is closed. So a brace
behind which a scope is open stays delivered, and so does a brace behind which another token was read. Bodies
that are opened later begin behind such a brace, and so does the brace that closes the body around them.
-/

namespace ReflectionTables.Parsing

open Scanning Reflected Parsing.Parser

variable {text : String} {α : Type}

namespace Reading

variable {c c' : Reading text} {t opening : Token} {low : Nat}

/-- Whether a brace was delivered and cannot be put back. -/
structure Keeps (c : Reading text) (t : Token) : Prop where
  mem : t ∈ c.delivered
  isBrace : t.kind.isBrace = true
  not_holds : ¬c.Holds t

theorem Delivers.keeps {u : Token} (h : c.Delivers u c') (hmem : t ∈ c.delivered)
    (hbrace : t.kind.isBrace = true) : c'.Keeps t := by
  have hle := h.past.stop_le hmem
  have hlt := (standsIn hmem).offset_lt_stop
  refine ⟨by simp [h.delivered_eq, hmem], hbrace, fun hholds => ?_⟩
  have heq : some u = some t := by rw [← h.holds.1, hholds.1]
  cases heq
  omega

theorem Keeps.read {u : Token} (h : c.Keeps t) (hread : c.read = .ok (u, c')) : c'.Keeps t := by
  rcases c.read_cases with ⟨v, d, hread', hdelivers⟩ | ⟨v, hread', -⟩ | ⟨e, hread'⟩
  · cases hread.symm.trans hread'
    exact hdelivers.keeps h.mem h.isBrace
  · cases hread.symm.trans hread'
    exact h
  · cases hread.symm.trans hread'

theorem Keeps.retreat {u : Token} (h : c.Keeps t) (hholds : c.Holds u) : (c.retreat u hholds).Keeps t := by
  have hne : t ≠ u := fun heq => h.not_holds (heq ▸ hholds)
  have hmem := h.mem
  rw [hholds.delivered_eq, List.mem_cons] at hmem
  refine ⟨hmem.resolve_left hne, h.isBrace, fun hback => ?_⟩
  exact absurd (hback.2 h.isBrace).1 (Nat.succ_ne_zero _)

theorem Keeps.look (h : c.Keeps t) (n : Nat) (hclear : ∀ u ∈ c.pending.take n, u.kind.isBrace = false) :
    (c.look n hclear).Keeps t := by
  refine ⟨h.mem, h.isBrace, fun hholds => h.not_holds ⟨hholds.1, fun hbrace => ?_⟩⟩
  have hzero : max c.ahead (min (n + 1) c.pending.length) = 0 := (hholds.2 hbrace).1
  exact ⟨by omega, (hholds.2 hbrace).2⟩

theorem Keeps.entered (h : c.Keeps t) (segment : String) (hopening : c.Holds opening ∧ opening.kind = .lBrace) :
    (c.entered segment opening hopening).Keeps t := by
  refine ⟨h.mem, h.isBrace, fun hholds => h.not_holds ⟨hholds.1, fun hbrace => ?_⟩⟩
  exact ⟨(hholds.2 hbrace).1, fun s hs => (hholds.2 hbrace).2 s (List.mem_cons_of_mem _ hs)⟩

/-- A brace at which a scope was entered is kept. -/
theorem keeps_entered (segment : String) (hopening : c.Holds opening ∧ opening.kind = .lBrace) :
    (c.entered segment opening hopening).Keeps opening := by
  have hbrace : opening.kind.isBrace = true := by rw [hopening.2]; rfl
  refine ⟨hopening.1.mem, hbrace, fun hholds => ?_⟩
  exact absurd ((hholds.2 hbrace).2 _ List.mem_cons_self) (Nat.lt_irrefl _)

/-- What is kept stays so, whatever is asked. -/
theorem Keeps.machine {request : Request} {answer : request.Answer} (h : c.Keeps t)
    (hanswer : Reading.machine request c = .ok (answer, c')) : c'.Keeps t := by
  cases request with
  | next =>
    simp only [Reading.machine] at hanswer
    split at hanswer
    · rename_i hread
      split at hanswer <;> cases hanswer
      exact h.read hread
    · cases hanswer
  | nextOrEnd => exact h.read hanswer
  | lookAt n =>
    simp only [Reading.machine] at hanswer
    split at hanswer
    · split at hanswer <;> cases hanswer
      · exact h.look n _
      · exact h.look n _
    · cases hanswer
  | putBack u =>
    simp only [Reading.machine] at hanswer
    split at hanswer
    · cases hanswer
      exact h.retreat _
    · split at hanswer <;> cases hanswer
      exact h
  | enter segment opening =>
    simp only [Reading.machine] at hanswer
    split at hanswer <;> cases hanswer
    exact h.entered segment _
  | reject | abort | stall => cases hanswer
  | note =>
    cases hanswer
    exact ⟨h.mem, h.isBrace, h.not_holds⟩
  | role | tokensLeft =>
    cases hanswer
    exact h
  | enclosingName | depth | cut =>
    simp only [Reading.machine] at hanswer
    split at hanswer <;> cases hanswer
    exact h

/-- Whether no token that is held from now on begins before an offset: it is the beginning of the text, or
the end of a brace that is kept. -/
def Floor (c : Reading text) (low : Nat) : Prop := low = 0 ∨ ∃ t, c.Keeps t ∧ t.stop = low

theorem Floor.le_offset (h : c.Floor low) (ht : c.Holds t) : low ≤ t.offset := by
  obtain rfl | ⟨u, hkeeps, rfl⟩ := h
  · exact Nat.zero_le _
  · have hne : u ≠ t := fun heq => hkeeps.not_holds (heq ▸ ht)
    have hmem := hkeeps.mem
    rw [ht.delivered_eq, List.mem_cons] at hmem
    exact stop_le_of_delivered ht.delivered_eq (hmem.resolve_left hne)

theorem Floor.le_size (h : c.Floor low) : low ≤ text.utf8ByteSize := by
  obtain rfl | ⟨u, hkeeps, rfl⟩ := h
  · exact Nat.zero_le _
  · exact (standsIn hkeeps.mem).stop_le

theorem Floor.machine {request : Request} {answer : request.Answer} (h : c.Floor low)
    (hanswer : Reading.machine request c = .ok (answer, c')) : c'.Floor low := by
  obtain rfl | ⟨t, hkeeps, rfl⟩ := h
  · exact .inl rfl
  · exact .inr ⟨t, hkeeps.machine hanswer, rfl⟩

theorem Keeps.run {p : Parser α} {a : α} (h : c.Keeps t) (hrun : p.run Reading.machine c = .ok (a, c')) :
    c'.Keeps t := by
  induction p generalizing c with
  | done b =>
    cases hrun
    exact h
  | ask request next ih =>
    rw [Parser.run] at hrun
    split at hrun
    · exact ih _ (h.machine ‹_›) hrun
    · cases hrun

theorem Floor.run {p : Parser α} {a : α} (h : c.Floor low) (hrun : p.run Reading.machine c = .ok (a, c')) :
    c'.Floor low := by
  obtain rfl | ⟨t, hkeeps, rfl⟩ := h
  · exact .inl rfl
  · exact .inr ⟨t, hkeeps.run hrun, rfl⟩

/-- A scope is entered at a brace that was delivered last, and then the brace is kept. -/
theorem keeps_of_openScope {tag : TypeTag} {segment name : String}
    (hrun : (openScope tag segment opening).run Reading.machine c = .ok (name, c')) :
    c.Holds opening ∧ opening.kind = .lBrace ∧ c'.Keeps opening := by
  obtain ⟨u, c₁, henter, hrest⟩ := exists_of_run_bind hrun
  have hanswer := answered_of_run henter
  simp only [Reading.machine] at hanswer
  split at hanswer
  · rename_i hopening
    cases hanswer
    exact ⟨hopening.1, hopening.2, (keeps_entered segment hopening).run hrest⟩
  · cases hanswer

theorem delivers_of_next (hrun : next.run Reading.machine c = .ok (t, c')) : c.Delivers t c' := by
  have hnext := (meets_next (c := c)).run
  rwa [hrun] at hnext

theorem delivered_of_noteReturns {returns : List Return}
    (hrun : (noteReturns returns).run Reading.machine c = .ok ((), c')) : c'.delivered = c.delivered := by
  induction returns generalizing c with
  | nil =>
    cases hrun
    rfl
  | cons r returns ih =>
    obtain ⟨u, c₁, hnote, hrest⟩ := exists_of_run_bind hrun
    cases hnote
    have hdelivered := ih hrest
    exact hdelivered

end Reading

open Reading

theorem Closes.holds {opening closing : Token} {c : Reading text}
    (h : Closes Reading.machine opening closing c) : c.Holds closing := by
  obtain ⟨c₀, hlast⟩ := h.last
  exact (delivers_of_next hlast).holds

/-- A body whose end was left and followed by a token lies below whatever comes. -/
theorem Closes.floor {opening closing after : Token} {returns : List Return} {c c' c'' : Reading text}
    (h : Closes Reading.machine opening closing c)
    (hleft : (noteReturns returns).run Reading.machine c = .ok ((), c'))
    (hfollowed : next.run Reading.machine c' = .ok (after, c'')) : c''.Floor closing.stop := by
  have hmem : closing ∈ c'.delivered := by
    rw [delivered_of_noteReturns hleft]
    exact h.holds.mem
  have hbrace : closing.kind.isBrace = true := by rw [h.kind_eq]; rfl
  exact .inr ⟨closing, (delivers_of_next hfollowed).keeps hmem hbrace, rfl⟩

theorem Closes.braces {opening closing : Token} {c c' : Reading text} (hopening : c.Holds opening)
    (hkind : opening.kind = .lBrace) (h : Closes Reading.machine opening closing c') :
    Bodies.Braces text opening closing :=
  ⟨c.mem_tokensOf (.inl hopening.mem), c'.mem_tokensOf (.inl h.holds.mem), hkind, h.kind_eq, h.depth_eq⟩

/-- Bodies stand in order, from a floor of the first state up to what bounds all floors of the last one. -/
theorem Opened.standIn {around : Option BodyContext} {c c' : Reading text} {bodies : Bodies}
    (h : Opened Reading.machine around c bodies c') {low high : Nat} (hlow : c.Floor low)
    (hhigh : ∀ n, c'.Floor n → n ≤ high) : bodies.StandIn text low high := by
  induction h generalizing low high with
  | refl => exact hhigh low hlow
  | step plain answered rest ih => exact ih (hlow.machine answered) hhigh
  | namespaceBody entered rest ih => exact ih (hlow.run entered) hhigh
  | enumeration opened read closed left followed further ih =>
    obtain ⟨hholds, hkind, hkeeps⟩ := keeps_of_openScope opened
    have hinside : Floor _ _ := .inr ⟨_, hkeeps.run read, rfl⟩
    exact ⟨closed.braces hholds hkind, hlow.le_offset hholds, hinside.le_offset closed.holds,
      ih (closed.floor left followed) hhigh⟩
  | record opened read closed inside inherited left followed further ihinside ih =>
    obtain ⟨hholds, hkind, hkeeps⟩ := keeps_of_openScope opened
    exact ⟨closed.braces hholds hkind, hlow.le_offset hholds,
      ihinside (.inr ⟨_, hkeeps, rfl⟩) fun n hn => hn.le_offset closed.holds,
      ih (closed.floor left followed) hhigh⟩

/-- In a header the members of an opened record have its parameters. -/
theorem Opened.ownMembers {around : Option BodyContext} {c c' : Reading text} {bodies : Bodies}
    (h : Opened Reading.machine around c bodies c') (hrole : c.role = .header) : bodies.OwnMembers := by
  induction h with
  | refl => trivial
  | step plain answered rest ih => exact ih ((role_machine answered).trans hrole)
  | namespaceBody entered rest ih => exact ih ((role_run entered).trans hrole)
  | enumeration opened read closed left followed further ih =>
    exact ih ((role_run followed).trans ((role_run left).trans ((role_run read).trans
      ((role_run opened).trans hrole))))
  | record opened read closed inside inherited left followed further ihinside ih =>
    have hopened := (role_run opened).trans hrole
    have howns := (@spares_recordMembers _ True hopened _).run_reading read
    exact ⟨howns, ihinside hopened, ih ((role_run followed).trans ((role_run left).trans
      ((role_run read).trans hopened)))⟩

end ReflectionTables.Parsing
