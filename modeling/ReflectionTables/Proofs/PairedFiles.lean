import ReflectionTables.Proofs.PairedReadings
/-!
# Files with like tokens are read alike

Files with like tokens are read alike, item by item. The parameter list of a template is read from
the text between its brackets, so either the texts are the same or the lists are not empty and name
their parameters in ASCII.
-/

namespace ReflectionTables.Parsing

open Text Scanning Reflected Parsing.Parser Reading

variable {text text' : String} {α α' β β' : Type}

/-- The measure of a repetition shows only where it stalls. -/
theorem run_recurBy (measure : α → Nat → Nat) (body : (α → Parser β) → α → Parser β) (a : α)
    (c : Reading text) :
    ∃ again, (Parser.recurBy measure body a).run Reading.machine c =
        (body again a).run Reading.machine c ∧
      ∀ b (d : Reading text), measure b d.tokensLeft < measure a c.tokensLeft →
        (again b).run Reading.machine d = (Parser.recurBy measure body b).run Reading.machine d := by
  refine ⟨fun b => ask .tokensLeft fun left =>
    if measure b left < measure a c.tokensLeft then recurFrom measure body (measure b left) b
    else ask .stall Empty.elim, ?_, ?_⟩
  · rw [Parser.recurBy, Parser.run]
    simp only [Reading.machine]
    rw [recurFrom]
  · intro b d hlt
    rw [Parser.recurBy, Parser.run, Parser.run]
    simp only [Reading.machine, if_pos hlt]

theorem run_nextOrEnd (c : Reading text) : nextOrEnd.run Reading.machine c = c.read := by
  rw [nextOrEnd, Parser.request, Parser.run]
  simp only [Reading.machine]
  cases c.read with
  | ok result => rfl
  | error failure => rfl

theorem run_fileItems (c : Reading text) :
    fileItems.run Reading.machine c =
      match c.read with
      | .error failure => .error failure
      | .ok (t, d) =>
        if t.kind = .endOfText then
          if d.depth = 0 then .ok ((), d) else .error (rejection text t .unclosedBlock)
        else
          match (fileItem t).run Reading.machine d with
          | .error failure => .error failure
          | .ok (_, e) => fileItems.run Reading.machine e := by
  obtain ⟨again, hrun, hagain⟩ := run_recurBy (fun _ left => left)
    (fun again (_ : Unit) => do
      let token ← nextOrEnd
      if token.kind = .endOfText then
        if (← openBraces) ≠ 0 then fail token .unclosedBlock
      else
        fileItem token
        again ()) () c
  rw [fileItems, loop, recur, hrun, run_bind, run_nextOrEnd]
  rcases c.read_cases with ⟨t, d, hread, hd⟩ | ⟨t, hread, hend⟩ | ⟨e, hread⟩
  · simp only [hread, if_neg hd.holds.kind_ne]
    rw [run_bind]
    have hitem := (meets_fileItem hd.holds).run
    cases hrun : (fileItem t).run Reading.machine d with
    | error failure => rfl
    | ok result =>
      rw [hrun] at hitem
      exact hagain () result.2 (tokensLeft_lt (hd.onward.trans_behind hitem).length_lt)
  · simp only [hread, if_pos hend.kind_eq]
    rw [run_bind, openBraces, Parser.request, Parser.run]
    simp only [Reading.machine, if_pos hend.ahead_eq, Parser.run]
    by_cases hdepth : c.depth = 0
    · rw [if_neg (not_not_intro hdepth), if_pos hdepth]
      rfl
    · rw [if_pos hdepth, if_neg hdepth]
      rfl
  · simp only [hread]

/-- Whether the parameter lists in a text are written out, in a way that names can be cut from. -/
structure PlainLists (text : String) : Prop where
  written : ∀ before word opening close after,
    (tokensOf text).1 = before ++ word :: opening :: close :: after →
      word.reserved? = some .templateWord → opening.kind = .lt → close.kind ≠ .gt
  named : ∀ start stop piece, slice? text start stop = some piece → (arguments? piece).isSome = true

namespace Pairing

variable {P : Pairing text text'} {R : α → α' → Prop} {S : β → β' → Prop} {c : Reading text}
  {c' : Reading text'} {t t' : Token}

def ListsAlike (P : Pairing text text') : Prop := P.exact ∨ PlainLists text ∧ PlainLists text'

theorem outcomes_bind {p : Parser α} {p' : Parser α'} {f : α → Parser β} {f' : α' → Parser β'}
    {Q : α → Reading text → Prop} {Q' : α' → Reading text' → Prop}
    (hp : p.Meets Q c) (hp' : p'.Meets Q' c')
    (h : P.Outcomes R (p.run Reading.machine c) (p'.run Reading.machine c'))
    (hf : ∀ a a' d d', R a a' → P.Together d d' → Q a d → Q' a' d' →
      P.Outcomes S ((f a).run Reading.machine d) ((f' a').run Reading.machine d')) :
    P.Outcomes S ((p >>= f).run Reading.machine c) ((p' >>= f').run Reading.machine c') := by
  have hQ := hp.run
  have hQ' := hp'.run
  rw [run_bind, run_bind]
  cases hrun : p.run Reading.machine c <;> cases hrun' : p'.run Reading.machine c' <;>
    rw [hrun, hrun'] at h
  · exact h
  · exact outcomes_error_of_part h _ _
  · exact h.elim
  · rw [hrun] at hQ
    rw [hrun'] at hQ'
    exact hf _ _ _ _ h.1 h.2 hQ hQ'

theorem ne_empty_of_plain {list : String} {d : Reading text} (hplain : PlainLists text)
    (hholds : c.Holds t) (hword : t.reserved? = some .templateWord)
    (h : c.MayDeliverList (some list) d) : list ≠ "" := by
  rintro rfl
  obtain ⟨opening, close, ts, hpending, hopening, hclose⟩ := h.pending_of_empty rfl
  refine hplain.written c.delivered.tail.reverse t opening close ts ?_ hword hopening hclose
  rw [← c.delivered_pending, hpending, hholds.delivered_eq]
  simp

theorem generics_of_list (hlists : P.ListsAlike) (hholds : c.Holds t) (hholds' : c'.Holds t')
    (hword : t.reserved? = some .templateWord) (hword' : t'.reserved? = some .templateWord)
    {list list' : String} {d : Reading text} {d' : Reading text'}
    (h : c.MayDeliverList (some list) d) (h' : c'.MayDeliverList (some list') d')
    (htexts : P.Texts list list') : P.Generics list list' := by
  rcases hlists with hexact | ⟨hplain, hplain'⟩
  · rw [htexts hexact]
    exact ⟨fun _ => rfl, Iff.rfl, rfl⟩
  · refine ⟨htexts, ?_, ?_⟩
    · exact iff_of_false (ne_empty_of_plain hplain' hholds' hword' h')
        (ne_empty_of_plain hplain hholds hword h)
    · obtain ⟨start, stop, hcut⟩ := h.isCut list rfl
      obtain ⟨start', stop', hcut'⟩ := h'.isCut list' rfl
      rw [hplain.named _ _ _ hcut, hplain'.named _ _ _ hcut']

variable [Fact P.top]

namespace Together

theorem depth_eq_of_top (h : P.Together c c') : c'.depth = c.depth := by
  rw [h.depth_eq, P.lift_of_top Fact.out, Nat.add_zero]

theorem scopes_of_top (h : P.Together c c') : List.Forall₂ P.Scopes c.scopes c'.scopes := by
  obtain ⟨inner, hinner, hall⟩ := h.scopes
  rwa [hinner, P.around_of_top Fact.out, List.append_nil]

theorem findings_eq_of_top (h : P.Together c c') (hexact : P.exact) :
    c'.findings = P.found.append c.findings := by
  have hqualify : P.qualify = id := funext (Likeness.qualify_of_top Fact.out)
  rw [h.findings_eq hexact, hqualify, Findings.renamed_id]

end Together

theorem outcomes_templateItem (hlists : P.ListsAlike) (h : P.Together c c') (hholds : c.Holds t)
    (hholds' : c'.Holds t') (hword : t.reserved? = some .templateWord)
    (hword' : t'.reserved? = some .templateWord) :
    P.Outcomes (fun _ _ => True) (templateItem.run Reading.machine c)
      (templateItem.run Reading.machine c') := by
  have hkind := Token.kind_of_reserved? hword
  have hkind' := Token.kind_of_reserved? hword'
  have hitem := hholds.inItem (by simp [hkind])
  have hitem' := hholds'.inItem (by simp [hkind'])
  have hlist := (meets_writtenList? hitem).and (meets_templateItem hitem).of_bind
  have hlist' := (meets_writtenList? hitem').and (meets_templateItem hitem').of_bind
  have houtcomes := outcomes_of_alike Likeness.alike_writtenList? h hlist hlist'
  rw [templateItem]
  refine outcomes_bind hlist hlist' houtcomes fun list? list?' d d' htexts hd hlist hlist' => ?_
  refine outcomes_of_alike ?_ hd hlist.2 hlist'.2
  have hshape := htexts.shape_eq
  cases list? with
  | none =>
    rw [Option.map_none, Option.map_eq_none_iff] at hshape
    subst hshape
    exact Likeness.alike_throughDeclaration.discard
  | some list =>
    obtain ⟨list', rfl, -⟩ := Option.map_eq_some_iff.1 hshape
    have hgenerics := generics_of_list hlists hholds hholds' hword hword' hlist.1 hlist'.1
      fun hexact => Option.some.inj (htexts.eq hexact)
    refine Likeness.alike_next.bind fun u u' hu => ?_
    simp only [hu.reserved?_eq]
    cases u.reserved?.bind classKey? with
    | some key => exact Likeness.alike_recordItem key hu hgenerics
    | none =>
      exact (Likeness.alike_putBack hu).bind fun _ _ _ => Likeness.alike_throughDeclaration.discard

theorem fileItem_of_templateWord (h : t.reserved? = some .templateWord) :
    fileItem t = templateItem := by
  rw [fileItem]
  simp only [Token.kind_of_reserved? h, namedItem, h]

theorem outcomes_fileItem (hlists : P.ListsAlike) (h : P.Together c c') (ht : P.Tokens t t')
    (hholds : c.Holds t) (hholds' : c'.Holds t') :
    P.Outcomes (fun _ _ => True) ((fileItem t).run Reading.machine c)
      ((fileItem t').run Reading.machine c') := by
  by_cases hword : t.reserved? = some .templateWord
  · have hword' := ht.reserved?_eq.trans hword
    rw [fileItem_of_templateWord hword, fileItem_of_templateWord hword']
    exact outcomes_templateItem hlists h hholds hholds' hword hword'
  · exact outcomes_of_alike (Likeness.alike_fileItem ht hword) h (meets_fileItem hholds)
      (meets_fileItem hholds')

omit [Fact P.top] in
/-- What is read next on both sides: a token of both texts, or what stands at their ends. -/
theorem read_together (h : P.Together c c') (hmore : P.whole ∨ c.pending ≠ []) :
    (∃ t t' d d', c.read = .ok (t, d) ∧ c'.read = .ok (t', d') ∧ P.Tokens t t' ∧ P.Together d d' ∧
      (c.Delivers t d ∧ c'.Delivers t' d' ∨ d = c ∧ d' = c' ∧ c.Ended t ∧ c'.Ended t')) ∨
    ∃ f f', c.read = .error f ∧ c'.read = .error f' ∧ (P.whole → P.Failures text text' f f') := by
  have hread := h.read hmore
  have hfails : ∀ e, c.read = .error (.ofScan e) → P.whole := by
    intro e hc
    refine hmore.resolve_right fun hpending => ?_
    obtain ⟨t, ts, hts⟩ := List.exists_cons_of_ne_nil hpending
    rw [read_of_pending hts] at hc
    cases hc
  rcases c.read_cases with ⟨t, d, hc, hd⟩ | ⟨t, hc, hend⟩ | ⟨e, hc⟩ <;>
    rcases c'.read_cases with ⟨t', d', hc', hd'⟩ | ⟨t', hc', hend'⟩ | ⟨e', hc'⟩ <;>
    rw [hc, hc'] at hread
  · exact .inl ⟨t, t', d, d', hc, hc', hread.1, hread.2, .inl ⟨hd, hd'⟩⟩
  · exact absurd (hread.1.kind_eq.symm.trans hend'.kind_eq) hd.holds.kind_ne
  · exact hread.elim
  · exact absurd (hread.1.kind_eq.trans hend.kind_eq) hd'.holds.kind_ne
  · exact .inl ⟨t, t', c, c', hc, hc', hread.1, hread.2, .inr ⟨rfl, rfl, hend, hend'⟩⟩
  · exact hread.elim
  · exact absurd (hfails e hc) hread
  · exact absurd (hfails e hc) hread
  · exact .inr ⟨_, _, hc, hc', hread⟩

/-- The item that begins with a token that is read on both sides. -/
theorem outcomes_item (hlists : P.ListsAlike) {d : Reading text} {d' : Reading text'}
    (ht : P.Tokens t t') (h : P.Together d d') (hd : c.Delivers t d) (hd' : c'.Delivers t' d')
    (hrest : ∀ e e', c.Onward e → P.Together e e' →
      P.Outcomes (fun _ _ => True) (fileItems.run Reading.machine e)
        (fileItems.run Reading.machine e')) :
    P.Outcomes (fun _ _ => True)
      (match (fileItem t).run Reading.machine d with
        | .error failure => .error failure
        | .ok (_, e) => fileItems.run Reading.machine e)
      (match (fileItem t').run Reading.machine d' with
        | .error failure => .error failure
        | .ok (_, e') => fileItems.run Reading.machine e') := by
  have hitem := outcomes_fileItem hlists h ht hd.holds hd'.holds
  have honward := (meets_fileItem hd.holds).run
  cases hrun : (fileItem t).run Reading.machine d <;>
    cases hrun' : (fileItem t').run Reading.machine d' <;> rw [hrun, hrun'] at hitem
  · exact hitem
  · exact outcomes_error_of_part hitem _ _
  · exact hitem.elim
  · rw [hrun] at honward
    exact hrest _ _ (hd.onward.trans_behind honward) hitem.2

/-- Two whole files with like tokens are read alike from like places on. -/
theorem outcomes_fileItems (hwhole : P.whole) (hlists : P.ListsAlike) (h : P.Together c c') :
    P.Outcomes (fun _ _ => True) (fileItems.run Reading.machine c)
      (fileItems.run Reading.machine c') := by
  induction hn : c.tokensLeft using Nat.strongRecOn generalizing c c' with
  | ind n ih =>
    subst hn
    rw [run_fileItems, run_fileItems]
    rcases read_together h (.inl hwhole) with ⟨t, t', d, d', hc, hc', ht, hd, hcases⟩ |
      ⟨f, f', hc, hc', hf⟩
    · rw [hc, hc']
      simp only [ht.kind_eq, hd.depth_eq_of_top]
      rcases hcases with ⟨hdelivers, hdelivers'⟩ | ⟨rfl, rfl, hend, hend'⟩
      · rw [if_neg hdelivers.holds.kind_ne, if_neg hdelivers.holds.kind_ne]
        exact outcomes_item hlists ht hd hdelivers hdelivers'
          fun e e' honward he => ih _ (tokensLeft_lt honward.length_lt) he rfl
      · rw [if_pos hend.kind_eq, if_pos hend.kind_eq]
        by_cases hdepth : d.depth = 0
        · rw [if_pos hdepth, if_pos hdepth]
          exact ⟨trivial, hd⟩
        · rw [if_neg hdepth, if_neg hdepth]
          exact fun _ => Likeness.failures_rejection ht fun _ _ => rfl
    · rw [hc, hc']
      exact hf

/-- Where the first text can be read to its end, the second one is read on from there. -/
theorem run_fileItems_of_ok (hlists : P.ListsAlike) (h : P.Together c c')
    {d : Reading text} (hrun : fileItems.run Reading.machine c = .ok ((), d)) :
    ∃ d', P.Together d d' ∧
      fileItems.run Reading.machine c' = fileItems.run Reading.machine d' := by
  induction hn : c.tokensLeft using Nat.strongRecOn generalizing c c' with
  | ind n ih =>
    subst hn
    rw [run_fileItems] at hrun
    by_cases hpending : c.pending = []
    · rw [read_of_pending_nil hpending] at hrun
      cases hend : (tokensOf text).2 with
      | error e =>
        rw [hend] at hrun
        cases hrun
      | ok t =>
        rw [hend] at hrun
        simp only [if_pos (congrArg Token.kind (ending_tokensOf hend))] at hrun
        split at hrun
        · cases hrun
          exact ⟨c', h, rfl⟩
        · cases hrun
    rcases read_together h (.inr hpending) with ⟨t, t', e, e', hc, hc', ht, he, hcases⟩ |
      ⟨f, f', hc, -, -⟩
    · rcases hcases with ⟨hdelivers, hdelivers'⟩ | ⟨-, -, hend, -⟩
      · rw [hc] at hrun
        simp only [if_neg hdelivers.holds.kind_ne] at hrun
        rw [run_fileItems c', hc']
        simp only [if_neg hdelivers'.holds.kind_ne]
        have hitem := outcomes_fileItem hlists he ht hdelivers.holds hdelivers'.holds
        have honward := (meets_fileItem hdelivers.holds).run
        cases hitemRun : (fileItem t).run Reading.machine e with
        | error f =>
          rw [hitemRun] at hrun
          cases hrun
        | ok result =>
          rw [hitemRun] at hrun hitem honward
          cases hitemRun' : (fileItem t').run Reading.machine e' with
          | error f' =>
            rw [hitemRun'] at hitem
            exact hitem.elim
          | ok result' =>
            rw [hitemRun'] at hitem
            exact ih _ (tokensLeft_lt (hdelivers.onward.trans_behind honward).length_lt) hitem.2
              hrun rfl
      · exact absurd hend.pending_eq hpending
    · rw [hc] at hrun
      cases hrun

end Pairing

end ReflectionTables.Parsing
