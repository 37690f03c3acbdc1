import ReflectionTables.Proofs.CarefulSkipping
/-!
# Contracts of the parsers of enumerations and data members

Contracts of the parsers of enumerations and of data members. The offsets that a declaration keeps
are those of tokens that were delivered, in their order, so its pieces can be cut out.
-/

namespace ReflectionTables.Parsing

open Text Scanning Reflected Parsing.Parser Reading

variable {text : String} {c : Reading text} {l : List Token} {opening : Token}

def Reading.Closes (c : Reading text) (l : List Token) (opening : Token) : Prop :=
  ∃ close, c.Past l close ∧ close.kind = .rBrace ∧ close.depth = opening.depth

theorem Reading.Closes.behind (h : c.Closes l opening) : c.Behind l := by
  obtain ⟨close, hpast, -⟩ := h
  exact hpast.behind

theorem meets_throughEnumeratorValue :
    (throughEnumeratorValue opening).Meets
      (fun ended c' => c'.Behind c.delivered ∧ (ended = true → c'.Closes c.delivered opening)) c := by
  rw [throughEnumeratorValue]
  refine meets_loop (fun _ => True) (fun again c' hbehind _ ih => ?_) trivial
  refine meets_next.bind fun t c'' ht => ?_
  split
  · exact ⟨ht.behind hbehind, by simp⟩
  · rename_i hkind
    split
    · rename_i hdepth
      exact ⟨ht.behind hbehind, fun _ => ⟨t, ht.past.trans hbehind, hkind, hdepth⟩⟩
    · exact ih c'' ht.onward trivial
  · refine (meets_throughParens ht.holds).discard_bind fun close c₃ h₃ => ?_
    exact ih c₃ (ht.onward.trans_behind h₃.1.behind) trivial
  · refine meets_throughBrace.discard_bind fun close c₃ h₃ => ?_
    exact ih c₃ (ht.onward.trans h₃.1.onward) trivial
  · exact ih c'' ht.onward trivial

theorem meets_enumeratorNames :
    (enumeratorNames opening).Meets (fun _ c' => c'.Closes c.delivered opening) c := by
  rw [enumeratorNames]
  refine meets_recur (fun _ _ => True) (fun again names c' hbehind _ ih => ?_) trivial
  refine meets_next.bind fun t c'' ht => ?_
  split
  · rename_i hclose
    exact ⟨t, ht.past.trans hbehind, hclose⟩
  split
  · exact meets_fail_bind ht.holds.isTokenOf
  refine meets_next.bind fun after c₁ h₁ => ?_
  have honward := ht.onward.trans h₁.onward
  split
  · exact ih _ c₁ honward trivial
  · rename_i hkind
    split
    · rename_i hdepth
      exact ⟨after, h₁.past.trans (ht.behind hbehind), hkind, hdepth⟩
    · exact meets_fail h₁.holds.isTokenOf
  · refine meets_throughEnumeratorValue.bind fun ended c₂ h₂ => ?_
    split
    · rename_i hended
      obtain ⟨close, hpast, hclose⟩ := h₂.2 hended
      exact ⟨close, hpast.trans (honward.behind.trans hbehind), hclose⟩
    · exact ih _ c₂ (honward.trans_behind h₂.1) trivial
  · exact meets_fail h₁.holds.isTokenOf

theorem meets_throughUnderlyingType :
    throughUnderlyingType.Meets (fun t c' => c'.Past c.delivered t ∧
      (t.kind = .lBrace ∨ t.kind = .semicolon)) c := by
  rw [throughUnderlyingType]
  refine meets_loop (fun _ => True) (fun again c' hbehind _ ih => ?_) trivial
  refine meets_next.bind fun t c'' ht => ?_
  split
  · rename_i hkind
    exact ⟨ht.past.trans hbehind, hkind⟩
  · exact ih c'' ht.onward trivial

theorem meets_afterUnderlyingType {token : Token} (h : c.Past l token) :
    (afterUnderlyingType token).Meets (fun t c' => c'.Past l t ∧
      (t.kind ≠ .lBrace → t.kind ≠ .semicolon → t = token ∧ c' = c)) c := by
  rw [afterUnderlyingType]
  split
  · refine meets_throughUnderlyingType.mono fun t c' h' => ⟨h'.1.trans h.behind, ?_⟩
    exact fun hopen hsemicolon => absurd h'.2 (by simp [hopen, hsemicolon])
  · exact ⟨h, fun _ _ => ⟨rfl, rfl⟩⟩

theorem meets_enumBody {name : Token} {dependent : Bool} (h : c.Holds opening)
    (hkind : opening.kind = .lBrace) :
    (enumBody name opening dependent).Meets (fun _ c' => c'.Behind c.delivered) c := by
  rw [enumBody]
  refine meets_roleOfFile.bind fun role c' hc' => ?_
  subst hc'
  split
  · exact meets_throughBrace.discard fun close c₁ h₁ => h₁.1.behind
  refine meets_enter_declaration h hkind fun qualified c₁ h₁ => ?_
  refine meets_enumeratorNames.bind fun enumerators c₂ h₂ => ?_
  have hbehind := h₂.behind.trans ((Behind.refl c').of_delivered_eq h₁.delivered_eq)
  split
  · refine (meets_remark (Finding.clean_notReflected _)).mono fun _ c₃ h₃ => ?_
    obtain ⟨_, rfl⟩ := h₃
    exact hbehind
  · refine meets_noteType.mono fun _ c₃ h₃ => ?_
    obtain ⟨_, rfl⟩ := h₃
    exact hbehind

/-- A name that is used as a type is the last token again. -/
theorem meets_enumAfterWord {dependent : Bool} :
    (enumAfterWord dependent).Meets (fun form c' => c'.Behind c.delivered ∧
      ∀ name, form = .elaborated name → c'.Past c.delivered name ∧ name.kind = .ident) c := by
  rw [enumAfterWord]
  refine meets_next.bind fun word c₁ h₁ => ?_
  refine (meets_nextIf h₁.past).bind fun first c₂ h₂ => ?_
  refine (meets_nextIf h₂.1).bind fun token c₃ h₃ => ?_
  refine (meets_afterUnderlyingType h₃.1).bind fun last c₄ h₄ => ?_
  split
  · rename_i hfirst
    split
    · exact ⟨h₄.1.behind, by simp⟩
    · exact (meets_enumBody h₄.1.holds ‹_›).bind fun _ c₅ h₅ =>
        ⟨h₅.trans h₄.1.behind, by simp⟩
    · rename_i hsemicolon hopen
      obtain ⟨rfl, rfl⟩ := h₄.2 hopen hsemicolon
      have hdelivers : c₂.Delivers last c₄ := by simpa [hfirst] using h₃.2
      refine (meets_putBack hdelivers.holds).bind fun _ c₅ h₅ => ?_
      have hdelivered : c₅.delivered = c₂.delivered := by
        rw [h₅.1, hdelivers.delivered_eq, List.tail_cons]
      refine ⟨h₂.1.behind.of_delivered_eq hdelivered, fun name hname => ?_⟩
      cases hname
      exact ⟨h₂.1.of_delivered_eq hdelivered (by rw [hfirst]; rfl), hfirst⟩
  · split
    · refine meets_throughBrace.discard_bind fun close c₅ h₅ => ?_
      exact ⟨h₅.1.behind.trans h₄.1.behind, by simp⟩
    · exact meets_fail h₄.1.holds.isTokenOf

section Declarators

variable {first name : Token} {kind : MemberKind} {typeText base : String} {accept : Bool}
  {ctx : BodyContext}

theorem meets_throughDimensions (h : c.Holds first) :
    (throughDimensions first).Meets (fun t c' => c'.At c.delivered t) c := by
  rw [throughDimensions]
  refine meets_recur (fun token c' => c'.Holds token) (fun again token c' hbehind h ih => ?_) h
  split
  · refine (meets_throughBrackets h).discard_bind fun close c₁ h₁ => ?_
    refine meets_next.bind fun t c₂ h₂ => ?_
    exact ih t c₂ (h₂.onward.from_behind h₁.1.behind) h₂.holds
  · exact ⟨h, hbehind⟩

theorem meets_throughWidth : throughWidth.Meets (fun t c' => c'.Past c.delivered t) c := by
  rw [throughWidth]
  refine meets_loop (fun _ => True) (fun again c' hbehind _ ih => ?_) trivial
  refine meets_next.bind fun t c'' ht => ?_
  split
  · exact ht.past.trans hbehind
  · exact ht.past.trans hbehind
  · exact ht.past.trans hbehind
  · exact ht.past.trans hbehind
  · exact ih c'' ht.onward trivial

theorem meets_declaratorSuffix (h : c.Holds first) (hname : BeginsToken text name.offset)
    (hle : name.offset ≤ first.offset) :
    (declaratorSuffix name kind first).Meets (fun r c' => c'.At c.delivered r.2) c := by
  rw [declaratorSuffix]
  split
  · rename_i hkind
    refine (meets_throughBrackets h).bind fun close c₁ h₁ => ?_
    refine (meets_cut (Request.careful_cut (by simp)) (h₁.2.2.2 (by simp [hkind])) (edge_stop h.mem).isBoundary
      (begins_offset h₁.1.mem).isBoundary).bind fun arity c₂ h₂ => ?_
    obtain ⟨rfl, -⟩ := h₂
    refine meets_next.bind fun t c₃ h₃ => ?_
    exact (meets_throughDimensions h₃.holds).bind fun _ _ h₄ =>
      h₄.trans (h₃.behind h₁.1.behind)
  · have hstop : name.offset ≤ first.stop := Nat.le_trans hle (Nat.le_add_right _ _)
    refine (meets_remarkUnparsed hstop hname (edge_stop h.mem)).bind fun _ c₁ h₁ => ?_
    obtain ⟨_, rfl⟩ := h₁
    exact meets_next.bind fun t c₂ h₂ => h₂.past.at
  · exact meets_throughWidth.bind fun t c₁ h₁ => h₁.at
  · exact h.at

theorem meets_afterMemberInitializer (h : c.Holds first) :
    (afterMemberInitializer first).Meets (fun t c' => c'.At c.delivered t) c := by
  rw [afterMemberInitializer]
  split
  · exact meets_throughInitializer.mono fun t c₁ h₁ => h₁.at
  · refine meets_throughBrace.discard_bind fun close c₁ h₁ => ?_
    exact meets_next.mono fun t c₂ h₂ => h₂.past.at.trans h₁.1.behind
  · exact h.at

theorem meets_declaratorTail (h : c.Holds first) (hname : BeginsToken text name.offset)
    (hle : name.offset ≤ first.offset) :
    (declaratorTail name typeText kind first accept ctx).Meets
      (fun r c' => c'.At c.delivered r.1) c := by
  rw [declaratorTail]
  refine (meets_declaratorSuffix h hname hle).bind fun r c₁ h₁ => ?_
  refine (meets_afterMemberInitializer h₁.holds).bind fun t c₂ h₂ => ?_
  split
  · exact meets_fail_bind h₂.holds.isTokenOf
  · exact h₂.trans h₁.behind

theorem meets_declaratorMarks (h : c.Holds first) :
    (declaratorMarks first).Meets (fun r c' => c'.At c.delivered r.2.2) c := by
  rw [declaratorMarks]
  refine meets_recur (fun r c' => c'.Holds r.2.2) ?_ h
  rintro again ⟨kind, marks, token⟩ c' hbehind h ih
  simp only
  split
  · exact meets_next.bind fun t c₁ h₁ =>
      ih (markKind token, marks ++ token.text, t) c₁ h₁.onward h₁.holds
  · exact ⟨h, hbehind⟩

theorem meets_declarators :
    (declarators base accept ctx).Meets (fun _ c' => c'.Behind c.delivered) c := by
  rw [declarators]
  refine meets_recur (fun _ _ => True) (fun again members c' hbehind _ ih => ?_) trivial
  refine meets_next.bind fun t c₁ h₁ => ?_
  refine (meets_declaratorMarks h₁.holds).bind fun r c₂ h₂ => ?_
  obtain ⟨kind, marks, name⟩ := r
  have hat : c₂.At c₁.delivered name := h₂
  simp only
  split
  · exact meets_fail_bind hat.holds.isTokenOf
  refine meets_next.bind fun first c₃ h₃ => ?_
  refine (meets_declaratorTail h₃.holds (begins_offset hat.mem)
    (h₃.past.offset_le hat.mem)).bind fun r c₄ h₄ => ?_
  have honward := (h₁.onward.trans_behind (h₃.behind hat.behind)).trans_behind h₄.behind
  split
  · exact honward.behind.trans hbehind
  · exact ih _ c₄ honward trivial

theorem meets_operatorSymbol : operatorSymbol.Meets (fun _ c' => c.Onward c') c := by
  rw [operatorSymbol]
  refine meets_next.bind fun symbol c₁ h₁ => ?_
  split
  · exact meets_expect.discard fun _ c₂ h₂ => h₁.onward.trans h₂.1.onward
  · exact h₁.onward

theorem meets_operatorParameters :
    operatorParameters.Meets (fun params c' => c'.Past c.delivered params) c := by
  rw [operatorParameters]
  refine meets_loop (fun _ => True) (fun again c' hbehind _ ih => ?_) trivial
  refine meets_next.bind fun t c'' ht => ?_
  have hpast := ht.past.trans hbehind
  split
  · exact hpast
  · exact hpast
  · exact meets_fail ht.holds.isTokenOf
  · exact meets_fail ht.holds.isTokenOf
  · exact meets_fail ht.holds.isTokenOf
  · exact ih c'' ht.onward trivial

theorem meets_operatorMember : operatorMember.Meets (fun _ c' => c'.Behind c.delivered) c := by
  rw [operatorMember]
  refine meets_operatorSymbol.bind fun _ c₁ h₁ => ?_
  refine meets_operatorParameters.bind fun params c₂ h₂ => ?_
  exact (meets_throughMethodTail h₂.holds).mono fun _ c₃ h₃ =>
    (h₃.trans h₂.behind).trans h₁.behind

theorem meets_throughMacroCall {params : Token} (h : c.Holds params) :
    (throughMacroCall params).Meets (fun _ c' => c'.Behind c.delivered) c := by
  rw [throughMacroCall]
  refine (meets_throughParens h).discard_bind fun close c₁ h₁ => ?_
  refine (meets_lookAt_zero (h₁.1.holds.inItem h₁.2.2)).bind fun t c₂ h₂ => ?_
  have hbehind := h₁.1.behind.of_delivered_eq h₂.delivered_eq
  split
  · exact meets_next.discard fun _ c₃ h₃ => h₃.behind hbehind
  · exact meets_throughStatement.discard fun _ c₃ h₃ => h₃.behind.trans hbehind
  · exact meets_throughStatement.discard fun _ c₃ h₃ => h₃.behind.trans hbehind
  · exact hbehind

end Declarators

/-- Whether tokens begin at the offsets that a head keeps, and these lie between two others. -/
structure MemberHead.Within (head : MemberHead) (text : String) (low high : Nat) : Prop where
  names : ∀ name ∈ head.names,
    BeginsToken text name.offset ∧ low ≤ name.offset ∧ name.offset ≤ high
  mark : ∀ offset, head.markAt = some offset → BeginsToken text offset ∧ low ≤ offset

namespace MemberHead.Within

variable {head : MemberHead} {low high high' : Nat} {token : Token}

theorem mono (h : head.Within text low high) (hle : high ≤ high') : head.Within text low high' :=
  ⟨fun name hname => ⟨(h.names name hname).1, (h.names name hname).2.1,
    Nat.le_trans (h.names name hname).2.2 hle⟩, h.mark⟩

theorem add_name (h : head.Within text low token.offset) (htoken : BeginsToken text token.offset)
    (hlow : low ≤ token.offset) :
    { head with names := head.names ++ [token] }.Within text low token.offset := by
  refine ⟨fun name hname => ?_, h.mark⟩
  rcases List.mem_append.1 hname with hname | hname
  · exact h.names name hname
  · rw [List.mem_singleton.1 hname]
    exact ⟨htoken, hlow, Nat.le_refl _⟩

theorem add_mark (h : head.Within text low high) (htoken : BeginsToken text token.offset)
    (hlow : low ≤ token.offset) : (head.mark token).Within text low high := by
  refine ⟨h.names, fun offset hoffset => ?_⟩
  rcases Option.or_eq_some_iff.1 hoffset with hmark | ⟨-, hmark⟩
  · exact h.mark offset hmark
  · cases hmark
    exact ⟨htoken, hlow⟩

end MemberHead.Within

/-- What holds of a name and of a mark, if there is one, holds of the first of them. -/
theorem property_min_getD {P : Nat → Prop} {mark : Option Nat} {name : Nat}
    (hmark : ∀ offset, mark = some offset → P offset) (hname : P name) :
    P (min (mark.getD name) name) := by
  rcases Nat.le_total (mark.getD name) name with hle | hle
  · rw [Nat.min_eq_left hle]
    cases mark with
    | none => exact hname
    | some offset => exact hmark offset rfl
  · rwa [Nat.min_eq_right hle]

section Declarations

variable {start first : Token} {accept : Bool} {ctx : BodyContext}

/-- Where a head ends: behind the word `operator`, or at a token behind what it keeps. -/
def HeadEndsAt (l : List Token) (low : Nat) (r : HeadEnd) (c : Reading text) : Prop :=
  match r with
  | .operator => c.Behind l
  | .declared head token => c.At l token ∧ head.Within text low token.offset

theorem meets_memberHead (h : c.Holds first) :
    (memberHead first).Meets (HeadEndsAt c.delivered first.offset) c := by
  rw [memberHead]
  refine meets_recur (fun s c' => c'.Holds s.2 ∧ first.offset ≤ s.2.offset ∧
    s.1.Within text first.offset s.2.offset) ?_ ⟨h, Nat.le_refl _, by simp, by simp⟩
  rintro again ⟨head, token⟩ c' hbehind ⟨hholds, hle, hwithin⟩ ih
  simp only at hholds hle hwithin
  have hbegins := begins_offset hholds.mem
  have hgoOn : ∀ (head' : MemberHead) (c₁ : Reading text), c₁.Behind c'.delivered →
      head'.Within text first.offset token.offset →
      (next >>= fun t => again (head', t)).Meets (HeadEndsAt c.delivered first.offset) c₁ := by
    intro head' c₁ h₁ hwithin'
    refine meets_next.bind fun t c₂ h₂ => ?_
    have hoffset := (h₂.past.trans h₁).offset_le hholds.mem
    exact ih (head', t) c₂ (h₂.onward.from_behind h₁)
      ⟨h₂.holds, Nat.le_trans hle hoffset, hwithin'.mono hoffset⟩
  simp only
  split
  · split
    · exact hbehind
    · exact hgoOn _ c' (.refl c') (hwithin.add_name hbegins hle)
  · exact hgoOn _ c' (.refl c') hwithin
  · split
    · exact ⟨⟨hholds, hbehind⟩, hwithin⟩
    · refine (meets_throughAngles hholds).discard_bind fun list c₁ h₁ => ?_
      obtain ⟨u, hu, -⟩ := h₁.last
      exact hgoOn _ c₁ hu.behind hwithin
  · exact hgoOn _ c' (.refl c') (hwithin.add_mark hbegins hle)
  · exact hgoOn _ c' (.refl c') (hwithin.add_mark hbegins hle)
  · exact hgoOn _ c' (.refl c') (hwithin.add_mark hbegins hle)
  · exact ⟨⟨hholds, hbehind⟩, hwithin⟩

theorem meets_memberDeclaration (h : c.Holds first) (hstart : BeginsToken text start.offset)
    (hle : start.offset ≤ first.offset) :
    (memberDeclaration start first accept ctx).Meets (fun _ c' => c'.Behind c.delivered) c := by
  rw [memberDeclaration]
  refine (meets_memberHead h).bind fun r c₁ h₁ => ?_
  cases r with
  | operator => exact meets_operatorMember.bind fun _ c₂ h₂ => h₂.trans h₁
  | declared head token =>
    obtain ⟨hat, hwithin⟩ := h₁
    simp only
    split
    · split
      · exact (meets_throughMacroCall hat.holds).bind fun _ c₂ h₂ => h₂.trans hat.behind
      · exact (meets_throughMethodTail hat.holds).bind fun _ c₂ h₂ => h₂.trans hat.behind
    · split
      · rename_i first' second more hnames
        have hname : (second :: more).getLastD first' ∈ head.names := by
          rw [hnames]
          exact List.getLastD_mem_cons
        generalize (second :: more).getLastD first' = name at hname ⊢
        obtain ⟨hbegins, hlow, hhigh⟩ := hwithin.names name hname
        obtain ⟨hbase, hlowBase⟩ := property_min_getD hwithin.mark ⟨hbegins, hlow⟩
        refine (meets_span (Nat.le_trans hle hlowBase) hstart hbase.isEdge).bind fun base c₂ h₂ => ?_
        obtain ⟨rfl, -⟩ := h₂
        refine (meets_span (Nat.le_trans hle hlow) hstart hbegins.isEdge).bind fun typeText c₃ h₃ => ?_
        obtain ⟨rfl, -⟩ := h₃
        refine (meets_declaratorTail hat.holds hbegins hhigh).bind fun r c₄ h₄ => ?_
        have hbehind := h₄.behind.trans hat.behind
        split
        · exact meets_declarators.bind fun _ c₅ h₅ => h₅.trans hbehind
        · exact hbehind
      · exact meets_fail hat.holds.isTokenOf

end Declarations

end ReflectionTables.Parsing
