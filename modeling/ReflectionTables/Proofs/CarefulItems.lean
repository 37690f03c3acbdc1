import ReflectionTables.Proofs.CarefulBodies
/-!
# Contracts of the parsers of file scope

A token at hand may be the mark of the end, and a closing brace is put back for the caller. No
parser of an item puts back the token that the item began with, so the items of a file take up ever
more of it.
-/

namespace ReflectionTables.Parsing

open Text Scanning Reflected Parsing.Parser Reading

variable {text : String} {c : Reading text} {l : List Token} {start token first : Token}

theorem meets_behindParens {again : Token → Parser Nat} {token : Token} (h : c.Bears l token)
    (hend : token.kind ≠ .endOfText)
    (hagain : ∀ c₁ : Reading text, c₁.Behind c.delivered → c₁.InItem → (nextOrEnd >>= again).Meets
      (fun stop c' => IsEdge text stop ∧ c'.Behind l) c₁) :
    (behindParens again token).Meets (fun stop c' => IsEdge text stop ∧ c'.Behind l) c := by
  rw [behindParens]
  refine (meets_throughParens (h.holds hend)).bind fun close c₁ h₁ => ?_
  have hitem := h₁.1.holds.inItem h₁.2.2
  refine (meets_lookAt_zero hitem).bind fun t c₂ h₂ => ?_
  have hbehind := h₁.1.behind.of_delivered_eq h₂.delivered_eq
  have hitem₂ := hitem.of_delivered_eq h₂.delivered_eq
  split
  · exact hagain c₂ hbehind hitem₂
  · exact hagain c₂ hbehind hitem₂
  · exact ⟨edge_stop h₁.1.mem, hbehind.trans h.1⟩

theorem meets_throughUnknown (h : c.Bears l first) :
    (throughUnknown first).Meets (fun stop c' => IsEdge text stop ∧ c'.Behind l) c := by
  rw [throughUnknown]
  refine meets_recurBy (fun token c' => c'.Bears l token)
    (fun _ _ stop c' => IsEdge text stop ∧ c'.Behind l) (fun again token c h ih => ?_) h
  have hagain : ∀ c₁ : Reading text, token.kind ≠ .endOfText → c₁.Behind c.delivered →
      c₁.InItem → (nextOrEnd >>= again).Meets
        (fun stop c' => IsEdge text stop ∧ c'.Behind l) c₁ := by
    intro c₁ hend hbehind hitem
    refine (meets_nextOrEnd hitem).bind fun t c₂ h₂ => ?_
    exact ih t c₂ (h₂.bears (hbehind.trans h.1)) (h₂.leftWith_lt hbehind hend)
  split
  · exact ⟨h.edge_stop, h.1⟩
  · refine meets_throughBrace.bind fun close c₁ h₁ => ?_
    have hbehind := h₁.1.behind.trans h.1
    refine (meets_lookAt_zero (h₁.1.holds.inItem (by simp [h₁.2]))).bind fun t c₂ h₂ => ?_
    have hbehind₂ := hbehind.of_delivered_eq h₂.delivered_eq
    split
    · refine meets_next.bind fun last c₃ h₃ => ?_
      exact ⟨edge_stop h₃.holds.mem, h₃.behind hbehind₂⟩
    · exact ⟨edge_stop h₁.1.mem, hbehind₂⟩
  · refine (meets_putBack_bears h (.inl ‹_›)).bind fun _ c₁ h₁ => ?_
    exact ⟨h.edge_offset, h₁⟩
  · refine (meets_putBack_bears h (.inr ‹_›)).bind fun _ c₁ h₁ => ?_
    exact ⟨h.edge_offset, h₁⟩
  · rename_i hkind
    have hend : token.kind ≠ .endOfText := by simp [hkind]
    exact meets_behindParens h hend fun c₁ => hagain c₁ hend
  · rename_i hkind
    have hend : token.kind ≠ .endOfText := by simp [hkind]
    exact meets_behindParens h hend fun c₁ => hagain c₁ hend
  · rename_i hsemicolon _ _ hend _ _
    exact hagain c hend (.refl c) ((h.holds hend).inItem hsemicolon)

theorem meets_leaveUnparsed (h : c.Bears l token) (hstart : BeginsToken text start.offset) :
    (leaveUnparsed start token).Meets (fun _ c' => c'.Behind l) c := by
  rw [leaveUnparsed]
  refine (meets_throughUnknown h).bind fun stop c₁ h₁ => ?_
  have hstop : IsEdge text (max stop start.offset) := by
    rcases Nat.le_total stop start.offset with hle | hle
    · rw [Nat.max_eq_right hle]
      exact hstart.isEdge
    · rw [Nat.max_eq_left hle]
      exact h₁.1
  refine (meets_remarkUnparsed (Nat.le_max_right _ _) hstart hstop).mono fun _ c₂ h₂ => ?_
  obtain ⟨_, rfl⟩ := h₂
  exact h₁.2

theorem meets_announce {start stop : Nat} (hlt : start < stop) (hstart : BeginsToken text start)
    (hstop : IsEdge text stop) : (announce start stop).Meets (fun _ c' => c.SameBut c') c := by
  rw [announce]
  refine meets_roleOfFile.bind fun role c₁ h₁ => ?_
  subst h₁
  split
  · refine (meets_span (Nat.le_of_lt hlt) hstart hstop).bind fun declaration c₂ h₂ => ?_
    obtain ⟨rfl, hself, hshown⟩ := h₂
    exact meets_noteExtern ⟨hself, hshown hlt⟩
  · exact ⟨_, rfl⟩

theorem meets_throughDefinition :
    throughDefinition.Meets (fun _ c' => c'.Behind c.delivered) c := by
  rw [throughDefinition]
  refine meets_loop (fun _ => True) (fun again c' hbehind _ ih => ?_) trivial
  refine meets_next.bind fun t c₁ h₁ => ?_
  have hparens : (do
      discard (throughParens t)
      if (← lookAt 0).kind = TokenKind.colon then
        discard next
        throughConstructorInitializers
      else again).Meets (fun _ c' => c'.Behind c.delivered) c₁ := by
    refine (meets_throughParens h₁.holds).discard_bind fun close c₂ h₂ => ?_
    refine (meets_lookAt_zero (h₂.1.holds.inItem h₂.2.2)).bind fun t c₃ h₃ => ?_
    have honward := (h₁.onward.trans_behind h₂.1.behind).of_delivered_eq h₃.delivered_eq
    split
    · refine meets_next.discard_bind fun _ c₄ h₄ => ?_
      refine meets_throughConstructorInitializers.mono fun _ c₅ h₅ => ?_
      exact h₅.trans (h₄.behind (honward.behind.trans hbehind))
    · exact ih c₃ honward trivial
  split
  · exact h₁.behind hbehind
  · exact meets_throughBrace.discard fun _ c₂ h₂ => h₂.1.behind.trans (h₁.behind hbehind)
  · exact hparens
  · exact hparens
  · exact meets_fail h₁.holds.isTokenOf
  · exact ih c₁ h₁.onward trivial

theorem meets_afterInitializer (h : c.Bears l token) :
    (afterInitializer token).Meets (fun t c' => c'.Bears l t) c := by
  rw [afterInitializer]
  split
  · exact meets_throughInitializer.mono fun t c₁ h₁ => (h₁.trans h.1).bears
  · refine meets_throughBrace.discard_bind fun close c₁ h₁ => ?_
    refine (meets_nextOrEnd (h₁.1.holds.inItem (by simp [h₁.2]))).mono fun t c₂ h₂ => ?_
    exact h₂.bears (h₁.1.behind.trans h.1)
  · exact h

/-- The answer of `throughSuffixes`: an offset behind `low`, and a token at hand. -/
def SuffixesEndAt (l : List Token) (low : Nat) (r : Nat × Token) (c : Reading text) : Prop :=
  c.Bears l r.2 ∧ IsEdge text r.1 ∧ low ≤ r.1

theorem meets_throughSuffixes {stop : Nat} (h : c.Bears l first) (hstop : IsEdge text stop)
    (hle : stop ≤ first.offset) :
    (throughSuffixes stop first).Meets (SuffixesEndAt l stop) c := by
  rw [throughSuffixes]
  refine meets_recurBy (fun s c' => SuffixesEndAt l stop s c' ∧ stop ≤ s.2.offset)
    (fun _ _ => SuffixesEndAt l stop) ?_ ⟨⟨h, hstop, Nat.le_refl _⟩, hle⟩
  rintro again ⟨stop', token⟩ c ⟨hends, hle⟩ ih
  have h : c.Bears l token := hends.1
  simp only at hle ⊢
  split
  · rename_i hkind
    have hend : token.kind ≠ .endOfText :=
      ne_of_apply_ne TokenKind.opensBrackets (by rw [hkind]; decide)
    refine (meets_throughBrackets (h.holds hend)).bind fun close c₁ h₁ => ?_
    refine (meets_nextOrEnd (h₁.1.holds.inItem h₁.2.2.1)).bind fun t c₂ h₂ => ?_
    have hclose : stop ≤ close.offset := Nat.le_trans hle h₁.2.1
    refine ih (close.stop, t) c₂ ⟨⟨h₂.bears (h₁.1.behind.trans h.1), edge_stop h₁.1.mem,
      Nat.le_trans hclose (Nat.le_add_right _ _)⟩, Nat.le_trans hclose (h₂.offset_le h₁.1.mem)⟩ ?_
    exact h₂.leftWith_lt h₁.1.behind hend
  · exact hends

theorem meets_throughMarks (h : c.Bears l first) :
    (throughMarks first).Meets (fun t c' => c'.Bears l t ∧ first.offset ≤ t.offset) c := by
  rw [throughMarks]
  refine meets_recurBy (fun token c' => c'.Bears l token ∧ first.offset ≤ token.offset)
    (fun _ _ t c' => c'.Bears l t ∧ first.offset ≤ t.offset) ?_ ⟨h, Nat.le_refl _⟩
  rintro again token c ⟨h, hle⟩ ih
  split
  · rename_i hkind
    have hend : token.kind ≠ .endOfText :=
      ne_of_apply_ne TokenKind.isIndirection (by rw [hkind]; decide)
    have hsemicolon : token.kind ≠ .semicolon :=
      ne_of_apply_ne TokenKind.isIndirection (by rw [hkind]; decide)
    refine (meets_nextOrEnd ((h.holds hend).inItem hsemicolon)).bind fun t c₁ h₁ => ?_
    exact ih t c₁ ⟨h₁.bears h.1, Nat.le_trans hle (h₁.offset_le (h.holds hend).mem)⟩
      (h₁.leftWith_lt (.refl c) hend)
  · exact ⟨h, hle⟩

/-- A mark of the end or a closing brace is no mark of a declarator. -/
theorem meets_throughMarks_of_not (h : first.kind.isIndirection = false) :
    (throughMarks first).Meets (fun t c' => t = first ∧ c' = c) c := by
  rw [throughMarks]
  refine meets_recurBy (fun token c' => token = first ∧ c' = c)
    (fun _ _ t c' => t = first ∧ c' = c) ?_ ⟨rfl, rfl⟩
  rintro again token c' ⟨rfl, rfl⟩ -
  rw [if_neg (by simp [h])]
  exact ⟨rfl, rfl⟩

/-- A later declarator is shown behind the type words, of which there have to be some. -/
theorem meets_laterVariables {base : String} (hbase : (Finding.announced base).Clean) (hitem : c.InItem)
    (hstart : BeginsToken text start.offset) :
    (laterVariables start base).Meets (fun _ c' => c'.Behind c.delivered) c := by
  rw [laterVariables]
  refine meets_loop (·.InItem) (fun again c' hbehind hitem ih => ?_) hitem
  refine (meets_nextOrEnd hitem).bind fun first c₁ h₁ => ?_
  by_cases hlast : first.kind = .endOfText ∨ first.kind = .rBrace
  · have hmark : first.kind.isIndirection = false := by
      rcases hlast with hlast | hlast <;> rw [hlast] <;> rfl
    refine (meets_throughMarks_of_not hmark).bind fun name c₂ h₂ => ?_
    obtain ⟨rfl, rfl⟩ := h₂
    rw [if_pos (by rcases hlast with hlast | hlast <;> simp [hlast])]
    exact (meets_leaveUnparsed (h₁.bears (.refl c')) hstart).mono
      fun _ c₃ h₃ => h₃.trans hbehind
  obtain ⟨hend, hbrace⟩ := not_or.1 hlast
  have hfirst := h₁.delivers hend
  have honward := hfirst.onward
  refine (meets_throughMarks (hfirst.holds.bears (.refl c₁) hbrace)).bind fun name c₂ h₂ => ?_
  split
  · exact (meets_leaveUnparsed h₂.1 hstart).mono
      fun _ c₃ h₃ => h₃.trans (honward.behind.trans hbehind)
  rename_i hident
  have hident : name.kind = .ident := Decidable.not_not.1 hident
  have hname := h₂.1.holds (by simp [hident])
  refine (meets_nextOrEnd (hname.inItem (by simp [hident]))).bind fun t c₃ h₃ => ?_
  refine (meets_throughSuffixes (h₃.bears h₂.1.1) (edge_stop hname.mem)
    (h₃.stop_le hname.mem)).bind fun r c₄ h₄ => ?_
  obtain ⟨stop, token⟩ := r
  obtain ⟨hbears, hstop, hle⟩ := h₄
  have hspan : first.offset < stop :=
    Nat.lt_of_le_of_lt h₂.2 (Nat.lt_of_lt_of_le (standsIn hname.mem).offset_lt_stop hle)
  refine (meets_span (Nat.le_of_lt hspan) (begins_offset hfirst.holds.mem) hstop).bind
    fun declarator c₅ h₅ => ?_
  obtain ⟨rfl, hself, hshown⟩ := h₅
  refine (meets_noteExtern (hbase.join ⟨hself, hshown hspan⟩)).bind fun _ c₆ h₆ => ?_
  refine (meets_afterInitializer (h₆.bears hbears)).bind fun token c₇ h₇ => ?_
  have honward₇ := honward.trans_behind h₇.1
  split
  · exact honward₇.behind.trans hbehind
  · exact ih c₇ honward₇ ((h₇.holds (by simp [*])).inItem (by simp [*]))
  · exact (meets_leaveUnparsed h₇ hstart).mono
      fun _ c₈ h₈ => h₈.trans (honward.behind.trans hbehind)

theorem meets_functionEnd {stop : Nat} (hitem : c.InItem) (hstart : c.Reached start.offset)
    (hstop : IsEdge text stop) (hlt : start.offset < stop) :
    (functionEnd start stop).Meets (fun _ c' => c'.Behind c.delivered) c := by
  rw [functionEnd]
  refine meets_recur (fun stop c' => c'.InItem ∧ IsEdge text stop ∧ start.offset < stop) ?_
    ⟨hitem, hstop, hlt⟩
  intro again stop c₁ hbehind ⟨hitem, hstop, hlt⟩ ih
  refine (meets_nextOrEnd hitem).bind fun t c₂ h₂ => ?_
  have hbehind₂ := h₂.behind.trans hbehind
  -- A function that goes on was read up to the token that was delivered last.
  have hagain : ∀ (u : Token) (c₃ : Reading text), c₃.Past c₁.delivered u → u.kind ≠ .semicolon →
      (again u.stop).Meets (fun _ c' => c'.Behind c.delivered) c₃ := fun u c₃ hu hkind =>
    ih u.stop c₃ hu.onward
      ⟨hu.holds.inItem hkind, edge_stop hu.mem, (hstart.trans hbehind).lt_stop hu⟩
  have hself : ∀ kind : TokenKind, t.kind = kind → kind ≠ .endOfText → kind ≠ .semicolon →
      (again t.stop).Meets (fun _ c' => c'.Behind c.delivered) c₂ := by
    rintro kind rfl hend hkind
    exact hagain t c₂ (h₂.delivers hend).past hkind
  split
  · exact (meets_announce hlt hstart.1 hstop).mono fun _ c₃ h₃ =>
      hbehind₂.of_delivered_eq h₃.delivered_eq
  · refine (meets_announce hlt hstart.1 hstop).bind fun _ c₃ h₃ => ?_
    have hbehind₃ := hbehind₂.of_delivered_eq h₃.delivered_eq
    exact meets_throughBrace.discard fun _ c₄ h₄ => h₄.1.behind.trans hbehind₃
  · exact meets_throughStatement.discard fun _ c₃ h₃ => h₃.behind.trans hbehind₂
  · rename_i hkind
    have ht := (h₂.delivers (by simp [hkind])).past
    split
    · refine (meets_lookAt_zero (ht.holds.inItem (by simp [hkind]))).bind fun u c₃ h₃ => ?_
      have ht₃ := ht.of_delivered_eq h₃.delivered_eq (by rw [hkind]; rfl)
      split
      · refine meets_next.bind fun opening c₄ h₄ => ?_
        refine (meets_throughParens h₄.holds).bind fun close c₅ h₅ => ?_
        have hclose := (h₄.onward.trans_behind h₅.1.behind).past h₅.1.holds
        exact hagain close c₅ (hclose.trans ht₃.behind) h₅.2.2
      · exact hagain t c₃ ht₃ (by simp [hkind])
    · exact hself _ hkind (by simp) (by simp)
  · rename_i hkind
    have ht := (h₂.delivers (by simp [hkind])).past
    refine (meets_lookAt_zero (ht.holds.inItem (by simp [hkind]))).bind fun u c₃ h₃ => ?_
    have ht₃ := ht.of_delivered_eq h₃.delivered_eq (by rw [hkind]; rfl)
    split
    · rename_i hgt
      refine meets_next.bind fun v c₄ h₄ => ?_
      have hv : v = u := h₃.delivers (by simp [hgt]) h₃.delivered_eq h₄
      exact hagain v c₄ (h₄.past.trans ht₃.behind) (by simp [hv, hgt])
    · exact meets_leaveUnparsed (ht₃.trans hbehind).bears hstart.1
  · exact hself _ ‹_› (by simp) (by simp)
  · exact hself _ ‹_› (by simp) (by simp)
  · exact hself _ ‹_› (by simp) (by simp)
  · exact hself _ ‹_› (by simp) (by simp)
  · rename_i hkind
    have ht := (h₂.delivers (by simp [hkind])).past
    refine (meets_throughAngles ht.holds).bind fun list c₃ h₃ => ?_
    obtain ⟨u, hu, hstop', hkind'⟩ := h₃.last
    rw [hstop']
    exact hagain u c₃ (hu.trans ht.behind) hkind'
  · exact meets_leaveUnparsed (h₂.bears hbehind) hstart.1

theorem meets_freeFunction {params : Token} (h : c.Holds params)
    (hstart : BeginsToken text start.offset) (hle : start.offset ≤ params.offset) :
    (freeFunction start params).Meets (fun _ c' => c'.Behind c.delivered) c := by
  rw [freeFunction]
  refine (meets_throughParens h).bind fun close c₁ h₁ => ?_
  have hclose : start.offset ≤ close.offset := Nat.le_trans hle h₁.2.1
  refine (meets_functionEnd (h₁.1.holds.inItem h₁.2.2) ⟨hstart, close, h₁.1.mem, hclose⟩
    (edge_stop h₁.1.mem) ?_).mono fun _ c₂ h₂ => h₂.trans h₁.1.behind
  exact Nat.lt_of_le_of_lt hclose (standsIn h₁.1.mem).offset_lt_stop

theorem meets_freeOperator (hoperator : c.BehindOperator)
    (hstart : c.Reached start.offset) :
    (freeOperator start).Meets (fun _ c' => c'.Behind c.delivered) c := by
  rw [freeOperator]
  refine meets_operatorSymbol.bind fun _ c₁ h₁ => ?_
  have hnext : ∀ c' : Reading text, c'.Behind c.delivered → c'.BehindOperator := by
    intro c' hbehind
    obtain ⟨t, ht, hword⟩ := hoperator
    exact ⟨t, hbehind.subset ht, hword⟩
  refine (meets_nextOrEnd_operator (hnext c₁ h₁.behind)).bind fun first c₂ h₂ => ?_
  refine meets_recurBy (fun token c' => c'.Bears c.delivered token ∧ start.offset ≤ token.offset)
    (fun _ _ _ c' => c'.Behind c.delivered) ?_
    ⟨h₂.bears h₁.behind, Nat.le_of_lt ((hstart.trans h₁.behind).lt_of_comes h₂)⟩
  rintro again token c₃ ⟨hbears, hle⟩ ih
  have hparams : token.kind ≠ .endOfText →
      (freeFunction start token).Meets (fun _ c' => c'.Behind c.delivered) c₃ := fun hend =>
    (meets_freeFunction (hbears.holds hend) hstart.1 hle).mono fun _ c₄ h₄ => h₄.trans hbears.1
  split
  · exact hparams (by simp [*])
  · exact hparams (by simp [*])
  · exact meets_leaveUnparsed hbears hstart.1
  · exact meets_leaveUnparsed hbears hstart.1
  · exact meets_leaveUnparsed hbears hstart.1
  · exact meets_leaveUnparsed hbears hstart.1
  · rename_i hend
    refine (meets_nextOrEnd_operator (hnext c₃ hbears.1)).bind fun t c₄ h₄ => ?_
    exact ih t c₄ ⟨h₄.bears hbears.1, Nat.le_of_lt ((hstart.trans hbears.1).lt_of_comes h₄)⟩
      (h₄.leftWith_lt (.refl c₃) hend)

/-- Whether the offsets that a head keeps are edges between tokens and lie behind another one. The name
that a declaration begins with is its first. -/
structure FreeHead.Within (head : FreeHead) (text : String) (low : Nat) : Prop where
  name : 2 ≤ head.names → IsEdge text head.nameAt ∧ low < head.nameAt
  mark : ∀ offset, head.markAt = some offset → IsEdge text offset ∧ low < offset

theorem meets_freeVariables {head : FreeHead} (h : c.Bears l head.token)
    (hstart : BeginsToken text start.offset) (hlt : start.offset < head.token.offset)
    (hnames : 2 ≤ head.names) (hwithin : head.Within text start.offset) :
    (freeVariables start head).Meets (fun _ c' => c'.Behind l) c := by
  rw [freeVariables]
  refine (meets_announce hlt hstart h.edge_offset).bind fun _ c₁ h₁ => ?_
  refine (meets_afterInitializer (h₁.bears h)).bind fun last c₂ h₂ => ?_
  split
  · exact h₂.1
  · rename_i hkind
    obtain ⟨hbase, hlow⟩ := property_min_getD hwithin.mark (hwithin.name hnames)
    refine (meets_span (Nat.le_of_lt hlow) hstart hbase).bind fun base c₃ h₃ => ?_
    obtain ⟨rfl, hself, hshown⟩ := h₃
    have hitem := (h₂.holds (by simp [hkind])).inItem (by simp [hkind])
    exact (meets_laterVariables ⟨hself, hshown hlow⟩ hitem hstart).mono fun _ c₄ h₄ => h₄.trans h₂.1
  · exact meets_leaveUnparsed h₂ hstart

/-- The token that a head looks at: the name that the declaration began with, or a token that
came later. -/
structure FreeHead.Looks (c : Reading text) (start : Token) (head : FreeHead) (c' : Reading text) :
    Prop where
  behind : c'.Behind c.delivered
  edge : IsEdge text head.token.offset
  start_lt : head.token.kind = .ident ∧ head.names = 0 ∨ start.offset < head.token.offset
  within : head.Within text start.offset
  name : head.token.kind = .ident → head.token ∈ c'.delivered ∧ c'.InItem
  bears : head.token.kind ≠ .ident → c'.Bears c.delivered head.token

/-- A declaration does not begin with what is no name. -/
theorem FreeHead.Looks.lt_of_kind {head : FreeHead} {c' : Reading text} (h : FreeHead.Looks c start head c')
    (hkind : head.token.kind ≠ .ident) : start.offset < head.token.offset :=
  h.start_lt.resolve_left fun hfirst => hkind hfirst.1

theorem FreeHead.Looks.next {head head' : FreeHead} {c' c₁ c₂ : Reading text} {t : Token}
    (h : FreeHead.Looks c start head c') (hstart : c.Reached start.offset)
    (hbehind : c₁.Behind c'.delivered) (hwithin : head'.Within text start.offset)
    (ht : c₁.Comes t c₂) : FreeHead.Looks c start { head' with token := t } c₂ := by
  have hbehind₁ := hbehind.trans h.behind
  have hbears := ht.bears hbehind₁
  refine ⟨ht.behind.trans hbehind₁, hbears.edge_offset, .inr ((hstart.trans hbehind₁).lt_of_comes ht),
    ⟨hwithin.name, hwithin.mark⟩, fun hname => ?_, fun _ => hbears⟩
  have hname : t.kind = .ident := hname
  have hholds := hbears.holds (by simp [hname])
  exact ⟨hholds.mem, hholds.inItem (by simp [hname])⟩

theorem FreeHead.Looks.within_mark {head : FreeHead} {c' : Reading text}
    (h : FreeHead.Looks c start head c') (hkind : head.token.kind ≠ .ident) :
    FreeHead.Within { head with markAt := head.markAt.or (some head.token.offset) } text
      start.offset := by
  refine ⟨h.within.name, fun offset hoffset => ?_⟩
  rcases Option.or_eq_some_iff.1 hoffset with hmark | ⟨-, hmark⟩
  · exact h.within.mark offset hmark
  · cases hmark
    exact ⟨h.edge, h.lt_of_kind hkind⟩

theorem FreeHead.Looks.within_name {head : FreeHead} {c' : Reading text}
    (h : FreeHead.Looks c start head c') :
    FreeHead.Within { head with names := head.names + 1, nameAt := head.token.offset } text
      start.offset := by
  refine ⟨fun hnames => ⟨h.edge, h.start_lt.resolve_left fun hfirst => ?_⟩, h.within.mark⟩
  have hnames : 2 ≤ head.names + 1 := hnames
  have := hfirst.2
  omega

theorem FreeHead.Looks.meets_ite {head : FreeHead} {c' : Reading text} {enough : Prop}
    [Decidable enough] {p : Parser Unit} (h : FreeHead.Looks c start head c')
    (hstart : BeginsToken text start.offset) (hkind : head.token.kind ≠ .ident)
    (hp : enough → p.Meets (fun _ c' => c'.Behind c.delivered) c') :
    (if enough then p else leaveUnparsed start head.token).Meets
      (fun _ c' => c'.Behind c.delivered) c' := by
  split
  · exact hp ‹_›
  · exact meets_leaveUnparsed (h.bears hkind) hstart

theorem meets_freeDeclarationEnd {head : FreeHead} {c' : Reading text}
    (hstart : c.Reached start.offset) (hhead : FreeHead.Looks c start head c') :
    (freeDeclarationEnd start head).Meets (fun _ c' => c'.Behind c.delivered) c' := by
  rw [freeDeclarationEnd]
  refine meets_recurBy (FreeHead.Looks c start) (fun _ _ _ c' => c'.Behind c.delivered) ?_ hhead
  intro again head c' h ih
  have hgoOn : ∀ (head' : FreeHead) (c₁ : Reading text), head.token.kind ≠ .endOfText →
      c₁.Behind c'.delivered → c₁.InItem → head'.Within text start.offset →
      (nextOrEnd >>= fun t => again { head' with token := t }).Meets
        (fun _ c' => c'.Behind c.delivered) c₁ := by
    intro head' c₁ hend hbehind hitem hwithin
    refine (meets_nextOrEnd hitem).bind fun t c₂ h₂ => ?_
    exact ih _ c₂ (h.next hstart hbehind hwithin h₂) (h₂.leftWith_lt hbehind hend)
  have hmark : ∀ kind : TokenKind, head.token.kind = kind → kind ≠ .ident → kind ≠ .endOfText →
      kind ≠ .semicolon →
      (nextOrEnd >>= fun t => again
        { head with markAt := head.markAt.or (some head.token.offset), token := t }).Meets
        (fun _ c' => c'.Behind c.delivered) c' := by
    rintro kind rfl hkind hend hsemicolon
    exact hgoOn { head with markAt := head.markAt.or (some head.token.offset) } c' hend (.refl c')
      (((h.bears hkind).holds hend).inItem hsemicolon) (h.within_mark hkind)
  have hbrackets : ∀ kind : TokenKind, head.token.kind = kind → kind ≠ .ident →
      kind ≠ .endOfText → (if 2 ≤ head.names then do
          discard (throughBrackets head.token)
          again { head with token := ← nextOrEnd }
        else leaveUnparsed start head.token).Meets (fun _ c' => c'.Behind c.delivered) c' := by
    rintro kind rfl hkind hend
    refine h.meets_ite hstart.1 hkind fun _ => ?_
    refine (meets_throughBrackets ((h.bears hkind).holds hend)).discard_bind fun close c₁ h₁ => ?_
    exact hgoOn head c₁ hend h₁.1.behind (h₁.1.holds.inItem h₁.2.2.1) h.within
  have hvariables : head.token.kind ≠ .ident →
      (if 2 ≤ head.names then freeVariables start head
        else leaveUnparsed start head.token).Meets (fun _ c' => c'.Behind c.delivered) c' :=
    fun hkind => h.meets_ite hstart.1 hkind fun hnames =>
      meets_freeVariables (h.bears hkind) hstart.1 (h.lt_of_kind hkind) hnames h.within
  have hfunction : ∀ kind : TokenKind, head.token.kind = kind → kind ≠ .ident →
      kind ≠ .endOfText → (if 2 ≤ head.names then freeFunction start head.token
        else leaveUnparsed start head.token).Meets (fun _ c' => c'.Behind c.delivered) c' := by
    rintro kind rfl hkind hend
    exact h.meets_ite hstart.1 hkind fun _ => (meets_freeFunction ((h.bears hkind).holds hend)
      hstart.1 (Nat.le_of_lt (h.lt_of_kind hkind))).mono fun _ c₁ h₁ => h₁.trans h.behind
  simp only
  split
  · rename_i hkind
    obtain ⟨hmem, hitem⟩ := h.name hkind
    split
    · exact (meets_freeOperator ⟨_, hmem, ‹_›⟩ (hstart.trans h.behind)).mono
        fun _ c₁ h₁ => h₁.trans h.behind
    split
    · exact meets_throughDefinition.mono fun _ c₁ h₁ => h₁.trans h.behind
    · exact hgoOn { head with names := head.names + 1, nameAt := head.token.offset } c'
        (by simp [hkind]) (.refl c') hitem h.within_name
  · rename_i hkind
    split
    · exact meets_throughDefinition.mono fun _ c₁ h₁ => h₁.trans h.behind
    · have hholds := (h.bears (by simp [hkind])).holds (by simp [hkind])
      exact hgoOn head c' (by simp [hkind]) (.refl c') (hholds.inItem (by simp [hkind])) h.within
  · rename_i hkind
    refine h.meets_ite hstart.1 (by simp [hkind]) fun _ => ?_
    have hholds := (h.bears (by simp [hkind])).holds (by simp [hkind])
    refine (meets_throughAngles hholds).discard_bind fun list c₁ h₁ => ?_
    obtain ⟨u, hu, -, hsemicolon⟩ := h₁.last
    exact hgoOn head c₁ (by simp [hkind]) hu.behind (hu.holds.inItem hsemicolon) h.within
  · exact hmark _ ‹_› (by simp) (by simp) (by simp)
  · exact hmark _ ‹_› (by simp) (by simp) (by simp)
  · exact hmark _ ‹_› (by simp) (by simp) (by simp)
  · exact hbrackets _ ‹_› (by simp) (by simp)
  · exact hbrackets _ ‹_› (by simp) (by simp)
  · exact hvariables (by simp [*])
  · exact hvariables (by simp [*])
  · exact hvariables (by simp [*])
  · exact hvariables (by simp [*])
  · exact hfunction _ ‹_› (by simp) (by simp)
  · exact hfunction _ ‹_› (by simp) (by simp)
  · exact meets_leaveUnparsed (h.bears ‹_›) hstart.1

theorem meets_freeDeclaration (hident : first.kind = .ident) (hfirst : first ∈ c.delivered)
    (hitem : c.InItem) (hstart : c.Reached start.offset) :
    (freeDeclaration start first).Meets (fun _ c' => c'.Behind c.delivered) c :=
  meets_freeDeclarationEnd hstart ⟨.refl c, (begins_offset hfirst).isEdge, .inl ⟨hident, rfl⟩,
    ⟨by simp, by simp⟩, fun _ => ⟨hfirst, hitem⟩, fun h => absurd hident h⟩

theorem meets_recordFromName {key : ClassKey} {word name : Token} {arguments? : Option String}
    {generic : String} (hident : name.kind = .ident) (hname : name ∈ c.delivered)
    (hitem : c.InItem) (hword : c.Reached word.offset) :
    (recordFromName key word name arguments? generic).Meets (fun _ c' => c'.Behind c.delivered)
      c := by
  rw [recordFromName]
  refine meets_recur (fun _ c' => c'.InItem) (fun again inBases c' hbehind hitem ih => ?_) hitem
  refine meets_next.bind fun t c₁ h₁ => ?_
  have hbehind₁ := h₁.behind hbehind
  have hdeclare : (do
      putBack t
      freeDeclaration word name).Meets (fun _ c' => c'.Behind c.delivered) c₁ := by
    refine (meets_putBack h₁.holds).bind fun _ c₂ h₂ => ?_
    have heq : c₂.delivered = c'.delivered := by rw [h₂.1, h₁.delivered_eq, List.tail_cons]
    have hbehind₂ := hbehind.of_delivered_eq heq
    exact (meets_freeDeclaration hident (hbehind₂.subset hname) (hitem.of_delivered_eq heq)
      (hword.trans hbehind₂)).mono fun _ c₃ h₃ => h₃.trans hbehind₂
  have hagain : ∀ inBases : Bool, t.kind ≠ .semicolon →
      (again inBases).Meets (fun _ c' => c'.Behind c.delivered) c₁ :=
    fun inBases hkind => ih _ c₁ h₁.onward (h₁.holds.inItem hkind)
  split
  · rename_i hkind
    refine meets_roleOfFile.bind fun role c₂ h₂ => ?_
    subst h₂
    split
    · have hreads : recordMembers.Reads c' := fun task c _ hctx => meets_recordMembers hctx
      refine (meets_recordBody hreads h₁.holds h₁.onward hkind
        (standsIn (hbehind.subset hname)) hident).bind fun _ c₃ h₃ => ?_
      exact meets_expect.discard fun _ c₄ h₄ => h₄.1.behind (h₃.trans hbehind₁)
    · refine meets_throughBrace.discard_bind fun _ c₃ h₃ => ?_
      exact meets_throughStatement.discard fun _ c₄ h₄ =>
        h₄.behind.trans (h₃.1.behind.trans hbehind₁)
  · exact hbehind₁
  · exact hagain _ (by simp [*])
  · split
    · refine (meets_throughAngles h₁.holds).discard_bind fun list c₂ h₂ => ?_
      obtain ⟨u, hu, -, hsemicolon⟩ := h₂.last
      exact ih _ c₂ (h₁.onward.trans hu.onward) (hu.holds.inItem hsemicolon)
    · exact hdeclare
  · split
    · exact hagain _ (by simp [*])
    · exact hdeclare
  · split
    · exact hagain _ (by simp [*])
    · exact hdeclare
  · split
    · exact hagain _ (by simp [*])
    · exact hdeclare
  · exact hdeclare

/-- What it means to read a list in angle brackets where one comes next. -/
structure Reading.MayDeliverList (c : Reading text) (list? : Option String) (c' : Reading text) :
    Prop where
  behind : c'.Behind c.delivered
  inItem : c'.InItem
  isCut : ∀ list, list? = some list → ∃ start stop, slice? text start stop = some list
  pending_of_empty : list? = some "" →
    ∃ opening close ts, c.pending = opening :: close :: ts ∧ opening.kind = .lt ∧ close.kind = .gt

theorem meets_writtenList? (hitem : c.InItem) :
    writtenList?.Meets (fun list? c' => c.MayDeliverList list? c') c := by
  rw [writtenList?]
  refine (meets_lookAt_zero hitem).bind fun t c₁ h₁ => ?_
  have hbehind := (Behind.refl c).of_delivered_eq h₁.delivered_eq
  split
  · rename_i hkind
    refine meets_next.bind fun opening c₂ h₂ => ?_
    have hopening : opening = t := h₁.delivers (by simp [hkind]) h₁.delivered_eq h₂
    refine (meets_throughAngles h₂.holds).bind fun list c₃ h₃ => ?_
    obtain ⟨u, hu, -, hsemicolon⟩ := h₃.last
    refine ⟨hu.behind.trans (h₂.behind hbehind), hu.holds.inItem hsemicolon, ?_, ?_⟩
    · rintro _ ⟨⟩
      exact h₃.isCut
    · intro hempty
      obtain ⟨close, hclose, hgt⟩ := h₃.head_of_empty (Option.some.inj hempty)
      obtain ⟨ts, hts⟩ := List.head?_eq_some_iff.1 hclose
      refine ⟨opening, close, ts, ?_, by rw [hopening, hkind], hgt⟩
      rw [← pending_eq_of_delivered_eq h₁.delivered_eq, h₂.pending_eq, hts]
  · exact ⟨hbehind, hitem.of_delivered_eq h₁.delivered_eq, by rintro _ ⟨⟩, by rintro ⟨⟩⟩

theorem meets_recordItem {key : ClassKey} {word : Token} {generic : String} (h : c.Holds word)
    (hword : word.kind = .ident) :
    (recordItem key word generic).Meets (fun _ c' => c'.Behind c.delivered) c := by
  rw [recordItem]
  refine (meets_throughHeadAttributes (h.inItem (by simp [hword]))).bind fun _ c₁ h₁ => ?_
  refine meets_next.bind fun name c₂ h₂ => ?_
  have hpast := h₂.past.trans h₁.1
  split
  · refine meets_throughBrace.discard_bind fun _ c₃ h₃ => ?_
    refine meets_throughStatement.bind fun last c₄ h₄ => ?_
    have hpast₄ := (h₄.trans h₃.1.behind).trans hpast.behind
    refine (meets_remarkUnparsed (hpast₄.offset_le_stop h.mem) (begins_offset h.mem)
      (edge_stop h₄.mem)).mono fun _ c₅ h₅ => ?_
    exact hpast₄.behind.of_delivered_eq h₅.delivered_eq
  split
  · exact meets_fail h₂.holds.isTokenOf
  rename_i hident
  have hident : name.kind = .ident := Decidable.not_not.1 hident
  refine (meets_writtenList? (h₂.holds.inItem (by simp [hident]))).bind
    fun arguments? c₃ h₃ => ?_
  exact (meets_recordFromName hident (h₃.1.subset h₂.holds.mem) h₃.2
    ((reached_offset h.mem).trans (h₃.1.trans hpast.behind))).mono
      fun _ c₄ h₄ => h₄.trans (h₃.1.trans hpast.behind)

theorem meets_namespaceItem : namespaceItem.Meets (fun _ c' => c'.Behind c.delivered) c := by
  rw [namespaceItem]
  refine meets_next.bind fun name c₁ h₁ => ?_
  have hbehind₁ := h₁.past.behind
  split
  · exact meets_throughBrace.discard fun _ c₂ h₂ => h₂.1.behind.trans hbehind₁
  split
  · exact meets_fail h₁.holds.isTokenOf
  refine meets_next.bind fun t c₂ h₂ => ?_
  split
  · exact (meets_enter h₂.holds ‹_›).mono fun _ c₃ h₃ => (h₂.behind hbehind₁).of_delivered_eq h₃
  · exact meets_throughStatement.discard fun _ c₃ h₃ => h₃.behind.trans (h₂.behind hbehind₁)
  · exact meets_fail h₂.holds.isTokenOf

theorem meets_templateItem (hitem : c.InItem) :
    templateItem.Meets (fun _ c' => c'.Behind c.delivered) c := by
  rw [templateItem]
  refine (meets_writtenList? hitem).bind fun list? c₁ h₁ => ?_
  split
  · exact meets_throughDeclaration.discard fun _ c₂ h₂ => h₂.behind.trans h₁.behind
  refine meets_next.bind fun word c₂ h₂ => ?_
  split
  · rename_i hkey
    obtain ⟨w, hw, -⟩ := Option.bind_eq_some_iff.1 hkey
    exact (meets_recordItem h₂.holds (Token.kind_of_reserved? hw)).mono
      fun _ c₃ h₃ => h₃.trans (h₂.behind h₁.behind)
  · refine (meets_putBack h₂.holds).bind fun _ c₃ h₃ => ?_
    have heq : c₃.delivered = c₁.delivered := by rw [h₃.1, h₂.delivered_eq, List.tail_cons]
    exact meets_throughDeclaration.discard fun _ c₄ h₄ =>
      h₄.behind.trans (h₁.behind.of_delivered_eq heq)

theorem meets_enumItem : enumItem.Meets (fun _ c' => c'.Behind c.delivered) c := by
  rw [enumItem]
  refine meets_enumAfterWord.bind fun form c₁ h₁ => ?_
  split
  · exact h₁.1
  · exact meets_throughStatement.discard fun _ c₂ h₂ => h₂.behind.trans h₁.1
  · exact meets_expect.discard fun _ c₂ h₂ => h₂.1.behind h₁.1
  · exact meets_expect.discard fun _ c₂ h₂ => h₂.1.behind h₁.1

theorem meets_namedItem (h : c.Holds token) (hident : token.kind = .ident) :
    (namedItem token).Meets (fun _ c' => c'.Behind c.delivered) c := by
  have hitem := h.inItem (by simp [hident])
  rw [namedItem]
  split
  · exact meets_namespaceItem
  · exact meets_throughStatement.discard fun _ c₁ h₁ => h₁.behind
  · exact meets_throughStatement.discard fun _ c₁ h₁ => h₁.behind
  · exact meets_throughStatement.discard fun _ c₁ h₁ => h₁.behind
  · exact meets_recordItem h hident
  · exact meets_recordItem h hident
  · exact meets_recordItem h hident
  · exact meets_enumItem
  · exact meets_templateItem hitem
  · refine (meets_lookAt_zero hitem).bind fun t c₁ h₁ => ?_
    have hbehind := (Behind.refl c).of_delivered_eq h₁.delivered_eq
    split
    · refine meets_next.discard_bind fun _ c₂ h₂ => ?_
      exact meets_namespaceItem.mono fun _ c₃ h₃ => h₃.trans (h₂.behind hbehind)
    · exact meets_throughDefinition.mono fun _ c₂ h₂ => h₂.trans hbehind
  · exact meets_throughDefinition
  · exact meets_throughDefinition
  · exact meets_throughDefinition
  · split
    · exact meets_throughDefinition
    · exact meets_freeDeclaration hident h.mem hitem (reached_offset h.mem)

theorem meets_fileItem (h : c.Holds token) :
    (fileItem token).Meets (fun _ c' => c'.Behind c.delivered) c := by
  rw [fileItem]
  split
  · exact .refl c
  · exact .refl c
  · exact (meets_throughBrackets h).discard fun _ _ h₁ => h₁.1.behind
  · rename_i hkind
    exact meets_namedItem h hkind
  · rename_i hbrace _ _
    exact meets_leaveUnparsed (h.bears (.refl c) hbrace) (begins_offset h.mem)

/-- Whether a reading stands at the end of a text whose braces are all closed. -/
def Reading.Finished (c : Reading text) : Prop :=
  c.pending = [] ∧ (∃ t, (tokensOf text).2 = .ok t) ∧ c.depth = 0

theorem Parser.Obeys.legal {α : Type} {Q : α → Reading text → Prop} {p : Parser α}
    (h : p.Meets Q c) : p.Obeys Request.Legal Q c :=
  h.weaken fun _ _ hcareful => hcareful.legal

theorem obeys_openBraces (h : c.ahead = 0) :
    openBraces.Obeys Request.Legal (fun depth c' => c' = c ∧ depth = c.depth) c := by
  rw [openBraces, Parser.request, obeys_ask]
  refine ⟨trivial, ?_⟩
  simp only [machine, if_pos h]
  exact ⟨rfl, rfl⟩

/-- A file is read to its end, and there all braces are closed. -/
theorem obeys_fileItems : fileItems.Obeys Request.Legal (fun _ c' => c'.Finished) c := by
  rw [fileItems, loop, recur]
  refine Obeys.recurBy (fun (_ : Unit) (_ : Reading text) => True) (fun _ _ _ c' => c'.Finished) ?_
    (fun _ => trivial) trivial
  intro again _ c _ ih
  refine (obeys_nextOrEnd trivial).bind fun t c₁ h₁ => ?_
  split
  · rename_i hkind
    rcases h₁ with h₁ | ⟨rfl, hend⟩
    · exact absurd hkind h₁.holds.kind_ne
    refine (obeys_openBraces hend.ahead_eq).bind fun depth c₂ h₂ => ?_
    obtain ⟨rfl, rfl⟩ := h₂
    split
    · exact Parser.Obeys.legal (meets_fail (.inr hend.ending_eq))
    · rename_i hdepth
      exact ⟨hend.pending_eq, ⟨t, hend.ending_eq⟩, Decidable.not_not.1 hdepth⟩
  · rename_i hend
    have hdelivers := Comes.delivers h₁ hend
    refine (Parser.Obeys.legal (meets_fileItem hdelivers.holds)).bind fun _ c₂ h₂ => ?_
    exact ih () c₂ trivial (tokensLeft_lt (hdelivers.onward.trans_behind h₂).length_lt)

end ReflectionTables.Parsing
