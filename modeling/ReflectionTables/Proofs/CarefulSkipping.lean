import ReflectionTables.Proofs.ReadingSteps
/-!
# Contracts of the parsers that go through a construct

Contracts of the parsers that go through a construct without looking at what it says. Each delivers
tokens up to one that it names, and looks ahead no further than a semicolon or a brace.
-/

namespace ReflectionTables.Parsing

open Text Scanning Reflected Parsing.Parser Reading

variable {text : String} {c : Reading text} {l : List Token} {opening : Token}

theorem meets_throughBrace :
    (throughBrace opening).Meets (fun t c' => c'.Past c.delivered t ∧ t.kind = .rBrace) c := by
  rw [throughBrace]
  refine meets_loop (fun _ => True) (fun again c' hbehind _ ih => ?_) trivial
  refine meets_next.bind fun t c'' ht => ?_
  split
  · rename_i h
    exact ⟨ht.past.trans hbehind, h.1⟩
  · exact ih c'' ht.onward trivial

/-- Going through a group ends at the opening itself or behind it. -/
theorem meets_throughParens (h : c.Holds opening) :
    (throughParens opening).Meets
      (fun t c' => c'.At c.delivered t ∧ opening.offset ≤ t.offset ∧ t.kind ≠ .semicolon) c := by
  rw [throughParens]
  split
  · rename_i hkind
    exact ⟨h.at, Nat.le_refl _, by rw [hkind]; simp⟩
  refine meets_recur (fun _ _ => True) (fun again inner c' hbehind _ ih => ?_) trivial
  refine meets_next.bind fun t c'' ht => ?_
  split
  · exact ih _ c'' ht.onward trivial
  · rename_i hkind
    have hpast := ht.past.trans hbehind
    exact ⟨hpast.at, hpast.offset_le h.mem, by rw [hkind]; simp⟩
  · exact ih _ c'' ht.onward trivial
  · refine meets_throughBrace.discard_bind fun close c₃ h₃ => ?_
    exact ih _ c₃ (ht.onward.trans h₃.1.onward) trivial
  · exact ih _ c'' ht.onward trivial

theorem meets_throughBrackets (h : c.Holds opening) :
    (throughBrackets opening).Meets
      (fun t c' => c'.At c.delivered t ∧ opening.offset ≤ t.offset ∧ t.kind ≠ .semicolon ∧
        (opening.kind ≠ .emptyBrackets → opening.stop ≤ t.offset)) c := by
  rw [throughBrackets]
  split
  · rename_i hkind
    exact ⟨h.at, Nat.le_refl _, by rw [hkind]; simp, fun hne => absurd hkind hne⟩
  refine meets_recur (fun _ _ => True) (fun again inner c' hbehind _ ih => ?_) trivial
  refine meets_next.bind fun t c'' ht => ?_
  split
  · exact ih _ c'' ht.onward trivial
  · rename_i hkind
    have hpast := ht.past.trans hbehind
    exact ⟨hpast.at, hpast.offset_le h.mem, by rw [hkind]; simp, fun _ => hpast.stop_le h.mem⟩
  · exact ih _ c'' ht.onward trivial
  · exact ih _ c'' ht.onward trivial

theorem meets_throughStatement :
    throughStatement.Meets (fun t c' => c'.Past c.delivered t) c := by
  rw [throughStatement]
  refine meets_loop (fun _ => True) (fun again c' hbehind _ ih => ?_) trivial
  refine meets_next.bind fun t c'' ht => ?_
  split
  · exact ht.past.trans hbehind
  · refine meets_throughBrace.discard_bind fun close c₃ h₃ => ?_
    exact ih c₃ (ht.onward.trans h₃.1.onward) trivial
  · exact meets_fail ht.holds.isTokenOf
  · exact ih c'' ht.onward trivial

theorem meets_throughDeclaration :
    throughDeclaration.Meets (fun t c' => c'.Past c.delivered t) c := by
  rw [throughDeclaration]
  refine meets_loop (fun _ => True) (fun again c' hbehind _ ih => ?_) trivial
  refine meets_next.bind fun t c'' ht => ?_
  split
  · exact ht.past.trans hbehind
  · exact meets_throughBrace.mono fun close c₃ h₃ => h₃.1.trans (ht.behind hbehind)
  · refine (meets_throughParens ht.holds).discard_bind fun close c₃ h₃ => ?_
    exact ih c₃ (ht.onward.trans_behind h₃.1.behind) trivial
  · exact meets_fail ht.holds.isTokenOf
  · exact ih c'' ht.onward trivial

/-- A token that begins where an earlier one ends was delivered next after it. -/
private theorem head_pending_of_offset_le {c' c'' : Reading text} {t : Token} (h : c.Holds opening)
    (hc' : c' = c ∨ c.Onward c') (ht : c'.Delivers t c'') (hle : t.offset ≤ opening.stop) :
    c.pending.head? = some t := by
  rcases hc' with rfl | honward
  · rw [ht.pending_eq]
    rfl
  · obtain ⟨u, hu, htail⟩ := honward.exists_last
    have hafter := stop_le_of_delivered hu (htail.subset h.mem)
    have hmem : u ∈ c'.delivered := by
      rw [hu]
      exact List.mem_cons_self
    have hbefore := ht.past.stop_le hmem
    have := (c'.standsIn hmem).offset_lt_stop
    omega

/-- What it means to go through a list in angle brackets. It is empty only if its second bracket
comes at once. -/
structure Reading.DeliversList (c : Reading text) (list : AngleList) (c' : Reading text) : Prop where
  isCut : ∃ start stop, slice? text start stop = some list.text
  head_of_empty : list.text = "" → ∃ t, c.pending.head? = some t ∧ t.kind = .gt
  last : ∃ t, c'.Past c.delivered t ∧ list.stop = t.stop ∧ t.kind ≠ .semicolon

theorem meets_throughAngles (h : c.Holds opening) :
    (throughAngles opening).Meets (fun list c' => c.DeliversList list c') c := by
  rw [throughAngles]
  refine meets_recur (fun _ c' => c' = c ∨ c.Onward c') (fun again depth c' hbehind hc' ih => ?_)
    (.inl rfl)
  refine meets_next.bind fun t c'' ht => ?_
  have hpast := ht.past.trans hbehind
  have hclose : ∀ (depth : Int) (offset : Nat), t.stop = offset + 1 → t.offset ≤ offset →
      IsBoundary text offset → t.kind ≠ .semicolon → (t.offset = offset → t.kind = .gt) →
      (if depth < 0 then fail t .overclosedList
        else if depth = 0 then do return ⟨← cut .list opening.stop offset, offset + 1⟩
        else again depth : Parser AngleList).Meets (fun list c' => c.DeliversList list c') c'' := by
    intro depth offset hstop hoffset hboundary hkind hgt
    have hle := hpast.stop_le h.mem
    split
    · exact meets_fail ht.holds.isTokenOf
    split
    · have hstart := (edge_stop h.mem).isBoundary
      refine (meets_cut (Request.careful_cut (by simp)) (by omega) hstart hboundary).bind fun piece c₃ hcut => ?_
      obtain ⟨rfl, hcut⟩ := hcut
      refine ⟨⟨_, _, hcut⟩, fun hempty => ⟨t, ?_, ?_⟩, t, hpast, hstop.symm, hkind⟩
      · have hsize := size_of_slice? hcut
        simp only at hempty
        rw [hempty, String.utf8ByteSize_empty] at hsize
        exact head_pending_of_offset_le h hc' ht (by omega)
      · have hsize := size_of_slice? hcut
        simp only at hempty
        rw [hempty, String.utf8ByteSize_empty] at hsize
        exact hgt (by omega)
    · exact ih _ c'' ht.onward (.inr hpast.onward)
  have hin := ht.holds.standsIn
  split
  · exact ih _ c'' ht.onward (.inr hpast.onward)
  · rename_i hkind
    exact hclose _ _ (hin.stop_of_gt hkind) (Nat.le_refl _) (begins_offset ht.holds.mem).isBoundary
      (by rw [hkind]; simp) fun _ => hkind
  · rename_i hkind
    obtain ⟨hstop, hboundary⟩ := hin.isBoundary_of_gtGt hkind
    exact hclose _ _ hstop (by omega) hboundary (by rw [hkind]; simp) (by omega)
  · exact meets_fail ht.holds.isTokenOf
  · exact meets_fail ht.holds.isTokenOf
  · refine (meets_throughParens ht.holds).discard_bind fun close c₃ h₃ => ?_
    exact ih _ c₃ (ht.onward.trans_behind h₃.1.behind) 
      (.inr (hpast.onward.trans_behind h₃.1.behind))
  · exact ih _ c'' ht.onward (.inr hpast.onward)

theorem meets_anglesCloseAhead (h : c.InItem) :
    anglesCloseAhead.Meets (fun _ c' => c'.delivered = c.delivered) c := by
  rw [anglesCloseAhead]
  refine meets_recurBy (fun ahead c' => c'.delivered = c.delivered ∧ c'.Clear ahead.2)
    (fun _ _ _ c' => c'.delivered = c.delivered) ?_ ⟨rfl, c.clear_zero⟩
  rintro again ⟨depth, n⟩ c' ⟨hdelivered, hclear⟩ ih
  refine (meets_lookAt (h.of_delivered_eq hdelivered) hclear).bind fun t c'' ht => ?_
  have hdelivered' := ht.delivered_eq.trans hdelivered
  have hcount : ∀ depth : Int, t.kind ≠ .endOfText → t.kind.isBrace = false →
      t.kind ≠ .semicolon → (if depth ≤ 0 then pure true else again (depth, n + 1)).Meets
        (fun _ c' => c'.delivered = c.delivered) c'' := by
    intro depth hend hbrace hsemicolon
    split
    · exact hdelivered'
    refine ih _ c'' ⟨hdelivered', ht.clear hclear hbrace hsemicolon⟩ ?_
    have hseen := ht.seen.resolve_right fun hnone => hend (by rw [ending_tokensOf hnone.2])
    have hlt := (List.getElem?_eq_some_iff.1 hseen).1
    have hle := c'.length_pending_le
    simp only [tokensLeft, ht.delivered_eq] at hle ⊢
    omega
  split
  · rename_i hkind
    exact hcount _ (by simp [hkind]) (by rw [hkind]; rfl) (by simp [hkind])
  · rename_i hkind
    exact hcount _ (by simp [hkind]) (by rw [hkind]; rfl) (by simp [hkind])
  · rename_i hkind
    exact hcount _ (by simp [hkind]) (by rw [hkind]; rfl) (by simp [hkind])
  · exact hdelivered'
  · exact hdelivered'
  · exact hdelivered'
  · exact hdelivered'
  · rename_i hsemicolon hopen hclose hend
    exact hcount _ hend (TokenKind.isBrace_eq_false hopen hclose) hsemicolon

theorem meets_initializerEnd {s : InitializerState} :
    (initializerEnd s).Meets (fun t c' => c'.Past c.delivered t) c := by
  refine meets_recur (fun _ _ => True) (fun again s c' hbehind _ ih => ?_) trivial
  refine meets_next.bind fun t c'' ht => ?_
  have hagain : ∀ lists c₃, c'.Onward c₃ →
      (again ⟨lists, t.kind == .ident⟩).Meets (fun t c' => c'.Past c.delivered t) c₃ :=
    fun lists c₃ h₃ => ih _ c₃ h₃ trivial
  split
  · exact ht.past.trans hbehind
  · split
    · exact ht.past.trans hbehind
    · exact hagain _ c'' ht.onward
  · refine (meets_throughParens ht.holds).discard_bind fun close c₃ h₃ => ?_
    exact hagain _ c₃ (ht.onward.trans_behind h₃.1.behind)
  · refine meets_throughBrace.discard_bind fun close c₃ h₃ => ?_
    exact hagain _ c₃ (ht.onward.trans h₃.1.onward)
  · refine (meets_throughBrackets ht.holds).discard_bind fun close c₃ h₃ => ?_
    exact hagain _ c₃ (ht.onward.trans_behind h₃.1.behind)
  · rename_i hkind
    split
    · refine (meets_anglesCloseAhead (ht.holds.inItem (by simp [hkind]))).bind fun b c₃ h₃ => ?_
      have honward := ht.onward.of_delivered_eq h₃
      split
      · exact hagain _ c₃ honward
      · exact hagain _ c₃ honward
    · exact hagain _ c'' ht.onward
  · exact hagain _ c'' ht.onward
  · exact hagain _ c'' ht.onward
  · exact meets_fail ht.holds.isTokenOf
  · exact hagain _ c'' ht.onward

theorem meets_throughInitializer :
    throughInitializer.Meets (fun t c' => c'.Past c.delivered t) c :=
  meets_initializerEnd

theorem meets_throughConstructorInitializers :
    throughConstructorInitializers.Meets (fun _ c' => c'.Behind c.delivered) c := by
  rw [throughConstructorInitializers]
  refine meets_recur (fun _ _ => True) (fun again afterName c' hbehind _ ih => ?_) trivial
  refine meets_next.bind fun t c'' ht => ?_
  split
  · exact ih _ c'' ht.onward trivial
  · exact ih _ c'' ht.onward trivial
  · refine (meets_throughAngles ht.holds).discard_bind fun list c₃ h₃ => ?_
    obtain ⟨u, hu, -⟩ := h₃.last
    exact ih _ c₃ (ht.onward.trans hu.onward) trivial
  · refine (meets_throughParens ht.holds).discard_bind fun close c₃ h₃ => ?_
    exact ih _ c₃ (ht.onward.trans_behind h₃.1.behind) trivial
  · refine (meets_throughParens ht.holds).discard_bind fun close c₃ h₃ => ?_
    exact ih _ c₃ (ht.onward.trans_behind h₃.1.behind) trivial
  · refine meets_throughBrace.discard_bind fun close c₃ h₃ => ?_
    exact ih _ c₃ (ht.onward.trans h₃.1.onward) trivial
  · exact meets_throughBrace.discard fun close c₃ h₃ => h₃.1.behind.trans (ht.behind hbehind)
  · exact ih _ c'' ht.onward trivial
  · exact ih _ c'' ht.onward trivial
  · exact meets_fail ht.holds.isTokenOf

theorem meets_throughMethodTail {params : Token} (h : c.Holds params) :
    (throughMethodTail params).Meets (fun _ c' => c'.Behind c.delivered) c := by
  rw [throughMethodTail]
  split
  · exact meets_fail_bind h.isTokenOf
  refine (meets_throughParens h).discard_bind fun close c₁ h₁ => ?_
  refine meets_loop (fun _ => True) (fun again c' hbehind _ ih => ?_) trivial
  refine meets_next.bind fun t c'' ht => ?_
  have hbehind' := (ht.behind hbehind).trans h₁.1.behind
  split
  · exact hbehind'
  · exact meets_throughBrace.discard fun close c₃ h₃ => h₃.1.behind.trans hbehind'
  · exact meets_throughStatement.discard fun close c₃ h₃ => h₃.behind.trans hbehind'
  · exact meets_throughConstructorInitializers.mono fun _ c₃ h₃ => h₃.trans hbehind'
  · refine (meets_throughParens ht.holds).discard_bind fun close c₃ h₃ => ?_
    exact ih c₃ (ht.onward.trans_behind h₃.1.behind) trivial
  · refine (meets_throughParens ht.holds).discard_bind fun close c₃ h₃ => ?_
    exact ih c₃ (ht.onward.trans_behind h₃.1.behind) trivial
  · refine (meets_throughBrackets ht.holds).discard_bind fun close c₃ h₃ => ?_
    exact ih c₃ (ht.onward.trans_behind h₃.1.behind) trivial
  · refine (meets_throughBrackets ht.holds).discard_bind fun close c₃ h₃ => ?_
    exact ih c₃ (ht.onward.trans_behind h₃.1.behind) trivial
  · refine (meets_throughAngles ht.holds).discard_bind fun list c₃ h₃ => ?_
    obtain ⟨u, hu, -⟩ := h₃.last
    exact ih c₃ (ht.onward.trans hu.onward) trivial
  all_goals first
    | exact ih c'' ht.onward trivial
    | exact meets_fail ht.holds.isTokenOf

theorem meets_markerAhead (h : c.InItem) (hclear : c.Clear 1) :
    markerAhead.Meets (fun _ c' => c'.delivered = c.delivered) c := by
  rw [markerAhead]
  refine (meets_lookAt_zero h).bind fun t c₁ h₁ => ?_
  split
  · exact h₁.delivered_eq
  have hclear₁ : c₁.Clear 1 := by rwa [Clear, pending_eq_of_delivered_eq h₁.delivered_eq]
  refine (meets_lookAt (h.of_delivered_eq h₁.delivered_eq) hclear₁).bind fun name c₂ h₂ => ?_
  have hdelivered := h₂.delivered_eq.trans h₁.delivered_eq
  split
  · exact hdelivered
  rename_i hname
  have hident : name.kind = .ident := Decidable.not_not.1 fun hne => hname (.inl hne)
  have hclear₂ := h₂.clear hclear₁ (by rw [hident]; rfl) (by simp [hident])
  refine (meets_lookAt (h.of_delivered_eq hdelivered) hclear₂).bind fun after c₃ h₃ => ?_
  exact h₃.delivered_eq.trans hdelivered

theorem meets_attributeAhead {word : Token} (h : c.InItem) (hclear : c.Clear 1) :
    (attributeAhead word).Meets (fun _ c' => c'.delivered = c.delivered) c := by
  rw [attributeAhead]
  split
  · exact (meets_lookAt h hclear).bind fun t c₁ h₁ => h₁.delivered_eq
  · rfl

theorem meets_throughHeadAttributes (h : c.InItem) :
    throughHeadAttributes.Meets (fun _ c' => c'.Behind c.delivered ∧ c'.InItem) c := by
  rw [throughHeadAttributes]
  refine meets_loop (·.InItem) (fun again c' hbehind hitem ih => ?_) h
  refine (meets_lookAt_zero hitem).bind fun t c₁ h₁ => ?_
  have hitem₁ := hitem.of_delivered_eq h₁.delivered_eq
  split
  · refine meets_next.bind fun opening c₂ h₂ => ?_
    refine (meets_throughBrackets h₂.holds).discard_bind fun close c₃ h₃ => ?_
    exact ih c₃ ((h₂.onward.trans_behind h₃.1.behind).from_delivered_eq h₁.delivered_eq)
      (h₃.1.holds.inItem h₃.2.2.1)
  · rename_i hident
    have hclear := h₁.clear c'.clear_zero (by rw [hident]; rfl) (by simp [hident])
    refine (meets_attributeAhead hitem₁ hclear).bind fun specifier c₂ h₂ => ?_
    have heq₂ := h₂.trans h₁.delivered_eq
    split
    · refine meets_next.discard_bind fun word c₃ h₃ => ?_
      refine meets_next.bind fun opening c₄ h₄ => ?_
      refine (meets_throughParens h₄.holds).discard_bind fun close c₅ h₅ => ?_
      have honward := (h₃.onward.trans h₄.onward).trans_behind h₅.1.behind
      exact ih c₅ (honward.from_delivered_eq heq₂) (h₅.1.holds.inItem h₅.2.2)
    have hclear₂ : c₂.Clear 1 := by rwa [Clear, pending_eq_of_delivered_eq h₂]
    refine (meets_markerAhead (hitem.of_delivered_eq heq₂) hclear₂).bind fun b c₃ h₃ => ?_
    have heq₃ := h₃.trans heq₂
    split
    · refine meets_next.discard_bind fun word c₄ h₄ => ?_
      have hword : word = t := h₁.delivers (by simp [hident]) heq₃ h₄
      exact ih c₄ (h₄.onward.from_delivered_eq heq₃) (h₄.holds.inItem (by simp [hword, hident]))
    · exact ⟨hbehind.of_delivered_eq heq₃, hitem.of_delivered_eq heq₃⟩
  · exact ⟨hbehind.of_delivered_eq h₁.delivered_eq, hitem₁⟩

theorem meets_throughBases :
    throughBases.Meets (fun t c' => c'.Past c.delivered t ∧ t.kind = .lBrace) c := by
  rw [throughBases]
  refine meets_loop (fun _ => True) (fun again c' hbehind _ ih => ?_) trivial
  refine meets_next.bind fun t c'' ht => ?_
  split
  · exact ⟨ht.past.trans hbehind, ‹_›⟩
  · refine (meets_throughAngles ht.holds).discard_bind fun list c₃ h₃ => ?_
    obtain ⟨u, hu, -⟩ := h₃.last
    exact ih c₃ (ht.onward.trans hu.onward) trivial
  all_goals first
    | exact ih c'' ht.onward trivial
    | exact meets_fail ht.holds.isTokenOf

end ReflectionTables.Parsing
