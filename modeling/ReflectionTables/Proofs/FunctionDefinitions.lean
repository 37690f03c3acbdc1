import ReflectionTables.Proofs.FreeDeclarations
import ReflectionTables.Proofs.HeaderRecords
import ReflectionTables.Proofs.JoinedFiles
import ReflectionTables.Proofs.VisitedItems
/-!
# Functions that are defined

Functions that are defined at the start of a file. A function ends at its body, so what stands
behind it says what it says alone. A class key before its type makes no difference as long as more
than `final` stands between the name of the type and the parameters.
-/

namespace ReflectionTables.Parsing

open Text Scanning Reflected Parsing.Parser Reading

/-- What follows the name of a function that is defined. -/
structure FunctionTail where
  params : ParameterList
  qualifiers : List (TokenOf .ident)
  body : Group .lBrace .rBrace

namespace FunctionTail

def ending (tail : FunctionTail) : List Token :=
  tail.qualifiers.map Subtype.val ++ tail.body.tokens

def tokens (tail : FunctionTail) : List Token := tail.params.tokens ++ tail.ending

end FunctionTail

/-- A function that is defined. A class key may stand before its type. -/
structure FunctionDefinition where
  word? : Option ((key : ClassKey) × ClassWord key)
  first : PlainName
  more : List PlainName
  marks : List Mark
  name : PlainName
  tail : FunctionTail

/-- Whether a name before two other tokens is taken for a marker before the name of a type. -/
def isMarker (t u v : Token) : Bool :=
  !t.text.toList.any Char.isLower && u.kind == .ident && !u.isWord "final" && v.isWord "final"

def behindMarker : List Token → List Token
  | t :: u :: v :: ts => if isMarker t u v then u :: v :: ts else t :: u :: v :: ts
  | ts => ts

namespace FunctionDefinition

def head (d : FunctionDefinition) : List Token :=
  d.first.token :: (d.more.map PlainName.token ++ (d.marks.map Subtype.val ++ [d.name.token]))

def tokens (d : FunctionDefinition) : List Token :=
  (d.word?.map (·.2.val)).toList ++ (d.head ++ d.tail.tokens)

/-- Whether more than `final` stands behind the name of a type with a class key. -/
def NamesMore (d : FunctionDefinition) : Prop :=
  d.word?.isSome = true → ∃ t ∈ (behindMarker d.head).tail, t.isWord "final" = false

end FunctionDefinition

def InHead (t : Token) : Prop :=
  (t.kind = .ident ∧ t.reserved? = none) ∨ t.kind.isIndirection = true

structure Reading.BehindBody {text : String} (c : Reading text) (us : List Token) (P : Standing) :
    Prop where
  ahead_eq : c.ahead = 0
  announced : ∃ texts : List String, texts.length ≤ 1 ∧ c.Stands us (P.announcing texts)

variable {text : String} {c : Reading text} {us rest : List Token} {P : Standing}
  {t first start : Token} {tail : FunctionTail}

/-- Nothing was looked at behind the body of a function. -/
theorem yields_body (body : Group .lBrace .rBrace) {texts : List String} (htexts : texts.length ≤ 1)
    (hc : c.StandsBehind body.opener.val (body.inner ++ [body.closer.val] ++ us) (P.announcing texts)) :
    (discard (throughBrace body.opener.val)).Yields (fun _ c' => c'.BehindBody us P) c := by
  have hstands := (passesInside_throughBrace body) c us _ (hc.depth_of_lBrace body.opener.property)
    hc.scopes_lt (hc.opened body.opener.property)
  have hmeets := (@meets_throughBrace text c body.opener.val).run
  refine Yields.bind (P := fun _ c' => c'.BehindBody us P) ?_ fun _ _ h => h
  rw [Yields] at hstands ⊢
  cases hrun : (throughBrace body.opener.val).run Reading.machine c with
  | error failure =>
    rw [hrun] at hstands
    exact hstands
  | ok result =>
    rw [hrun] at hstands hmeets
    exact ⟨(hmeets.1.holds.2 (by rw [hmeets.2]; rfl)).1, texts, htexts, hstands.2⟩

@[simp] theorem Standing.announcing_nil : P.announcing [] = P := by
  simp [announcing]

theorem yields_announce_of (hc : c.Stands us P) (start stop : Nat) :
    (announce start stop).Yields
      (fun _ c' => ∃ texts : List String, texts.length ≤ 1 ∧ c'.Stands us (P.announcing texts)) c := by
  cases hrole : P.role with
  | source =>
    exact (yields_announce hc hrole start stop).mono fun _ _ h => ⟨[_], Nat.le_refl 1, h⟩
  | header =>
    refine (yields_roleOfFile hc).bind ?_
    rintro _ _ ⟨rfl, rfl⟩
    rw [if_neg (by simp [hrole])]
    exact ⟨[], Nat.zero_le 1, by rwa [Standing.announcing_nil]⟩

/-- No parenthesis and no colon stands behind the parameters of a function that is defined. -/
theorem FunctionTail.exists_ending (tail : FunctionTail) (us : List Token) :
    ∃ t rest, tail.ending ++ us = t :: rest ∧ (t.kind = .ident ∨ t.kind = .lBrace) := by
  obtain ⟨params, qualifiers, body⟩ := tail
  cases qualifiers with
  | nil => exact ⟨body.opener, _, rfl, .inr body.opener.property⟩
  | cons qualifier qualifiers => exact ⟨qualifier, _, rfl, .inl qualifier.property⟩

theorem yields_functionEnd_defined {stop : Nat} (hc : c.Stands (tail.ending ++ us) P) :
    (functionEnd start stop).Yields (fun _ c' => c'.BehindBody us P) c := by
  obtain ⟨params, qualifiers, body⟩ := tail
  induction qualifiers generalizing c stop with
  | nil =>
    refine yields_recur fun again _ => ?_
    refine (readsOne_nextOrEnd c body.opener _ P hc).bind ?_
    rintro _ c₁ ⟨rfl, h₁⟩
    simp only [body.opener.property]
    refine (yields_announce_of h₁.stands _ _).bind ?_
    rintro _ c₂ ⟨texts, htexts, h₂⟩
    exact yields_body body htexts (h₁.announcing h₂)
  | cons qualifier qualifiers ih =>
    obtain ⟨t, rest, heq, ht⟩ := FunctionTail.exists_ending ⟨params, qualifiers, body⟩ us
    have hparens : t.kind.opensParens = false := by rcases ht with h | h <;> rw [h] <;> rfl
    have hstands : c.Stands ((Trailer.word qualifier).tokens ++ t :: rest) P := by
      rw [← heq]
      exact hc
    exact yields_trailer [] (.word qualifier) hparens hstands fun c' h' => ih (heq ▸ h')

/-- Names and marks are gone through in a definition that is not announced. -/
theorem yields_throughDefinition_plain {Q : Unit → Reading text → Prop} (ts : List Token)
    (hts : ∀ t ∈ ts, t.kind = .ident ∨ t.kind.isIndirection = true) (hc : c.Stands (ts ++ us) P)
    (hrest : ∀ c', c'.Stands us P → throughDefinition.Yields Q c') :
    throughDefinition.Yields Q c := by
  induction ts generalizing c with
  | nil => exact hrest c hc
  | cons t ts ih =>
    have ht := hts t List.mem_cons_self
    have hbrace : t.kind.isBrace = false := by
      rcases ht with h | h
      · rw [h]
        rfl
      · exact isBrace_of_isIndirection h
    refine yields_loop fun again hagain => ?_
    refine (passes_next hbrace c _ P hc).bind ?_
    rintro t c₁ ⟨rfl, h₁⟩
    have hnext := hagain c₁ Q (ih (fun u hu => hts u (List.mem_cons_of_mem t hu)) h₁)
    rcases ht with hkind | hkind
    · simp only [hkind]
      exact hnext
    · cases hcases : t.kind <;> rw [hcases] at hkind <;>
        first | exact absurd hkind Bool.false_ne_true | exact hnext

/-- A definition that is not announced is gone through from its parameters to its end. -/
theorem yields_throughDefinition_tail (hc : c.Stands (tail.tokens ++ us) P) :
    throughDefinition.Yields (fun _ c' => c'.BehindBody us P) c := by
  obtain ⟨t, rest, heq, ht⟩ := tail.exists_ending us
  have hopener := tail.params.kind_opener
  rw [FunctionTail.tokens, List.append_assoc, heq, Bracketed.tokens, List.cons_append] at hc
  refine yields_loop fun again hagain => ?_
  refine (passes_next (by rcases hopener with h | h <;> rw [h] <;> rfl) c _ P hc).bind ?_
  rintro _ c₁ ⟨rfl, h₁⟩
  have hnext : (do
      discard (throughParens tail.params.opener)
      if (← lookAt 0).kind = .colon then
        discard next
        throughConstructorInitializers
      else again : Parser Unit).Yields (fun _ c' => c'.BehindBody us P) c₁ := by
    refine (passes_parameterList tail.params c₁ _ P h₁).discard_bind ?_
    rintro _ c₂ ⟨-, h₂⟩
    refine (yields_lookAt (n := 0) h₂ rfl).bind ?_
    rintro _ c₃ ⟨rfl, h₃⟩
    rw [if_neg (by rcases ht with h | h <;> simp [h])]
    rw [← heq, FunctionTail.ending, List.append_assoc] at h₃
    refine hagain c₃ _ (yields_throughDefinition_plain _ ?_ h₃ fun c₄ h₄ => ?_)
    · rw [List.forall_mem_map]
      exact fun qualifier _ => .inl qualifier.property
    · refine yields_loop fun again _ => ?_
      refine (readsOne_next c₄ tail.body.opener _ P h₄).bind ?_
      rintro _ c₅ ⟨rfl, h₅⟩
      simp only [tail.body.opener.property]
      have hnone : c₅.StandsBehind tail.body.opener.val
          (tail.body.inner ++ [tail.body.closer.val] ++ us) (P.announcing []) := by
        rwa [Standing.announcing_nil]
      exact yields_body tail.body (by simp) hnone
  rcases hopener with hkind | hkind <;> simp only [hkind] <;> exact hnext

theorem InHead.kind_cases (h : InHead t) : t.kind = .ident ∨ t.kind.isIndirection = true :=
  h.imp_left And.left

theorem InHead.isBrace (h : InHead t) : t.kind.isBrace = false := by
  rcases h.kind_cases with hkind | hkind
  · rw [hkind]
    rfl
  · exact isBrace_of_isIndirection hkind

theorem InHead.ne (h : InHead t) {kind : TokenKind} (hname : kind ≠ .ident)
    (hmark : kind.isIndirection = false) : t.kind ≠ kind := by
  rintro rfl
  rcases h.kind_cases with hkind | hkind
  · exact hname hkind
  · rw [hmark] at hkind
    cases hkind

/-- A function is read from a token of its head to its end, if it has two names. -/
theorem yields_freeHead (head : List Token) (hhead : ∀ t ∈ head, InHead t) {n nameAt : Nat}
    {markAt : Option Nat} (hn : 2 ≤ n + head.countP (·.kind == .ident))
    (heq : head ++ (tail.tokens ++ us) = first :: rest) (hc : c.StandsBehind first rest P) :
    (freeHeadEnd start (n, nameAt, markAt) first).Yields (fun _ c' => c'.BehindBody us P) c := by
  induction head generalizing c first rest n nameAt markAt with
  | nil =>
    obtain ⟨rfl, rfl⟩ := List.cons.inj heq
    have hopener := tail.params.kind_opener
    have hfunction : (freeFunction start tail.params.opener).Yields
        (fun _ c' => c'.BehindBody us P) c := by
      have hplain : c.Stands (tail.params.rest ++ (tail.ending ++ us)) P := by
        rw [← List.append_assoc]
        exact hc.plain (by rcases hopener with h | h <;> rw [h] <;> rfl)
      refine (passes_parameterList tail.params c _ P hplain).bind ?_
      rintro _ c₁ ⟨rfl, h₁⟩
      exact yields_functionEnd_defined h₁
    rw [List.countP_nil, Nat.add_zero] at hn
    refine yields_recurBy fun again _ => ?_
    rcases hopener with hkind | hkind <;> simp only [hkind, if_pos hn] <;> exact hfunction
  | cons t head ih =>
    obtain ⟨rfl, hrest⟩ := List.cons.inj heq
    have hlater : ∀ u ∈ head, InHead u := fun u hu => hhead u (List.mem_cons_of_mem t hu)
    obtain ⟨u, us', hnext⟩ : ∃ u us', head ++ (tail.tokens ++ us) = u :: us' :=
      List.exists_cons_of_ne_nil (by simp [FunctionTail.tokens, Bracketed.tokens])
    rw [List.countP_cons] at hn
    rcases hhead t List.mem_cons_self with ⟨hident, hreserved⟩ | hmark
    · let name : PlainName := ⟨t, hident, hreserved⟩
      cases hqualified : isQualified t with
      | true =>
        have hstands : c.Stands (head ++ (tail.tokens ++ us)) P := by
          rw [show head ++ (tail.tokens ++ us) = rest from hrest]
          exact hc.plain name.isBrace
        refine yields_recurBy fun again _ => ?_
        simp only [hident, hreserved, hqualified, reduceCtorEq, if_false, if_true]
        exact yields_throughDefinition_plain head (fun u hu => (hlater u hu).kind_cases) hstands
          fun _ h' => yields_throughDefinition_tail h'
      | false =>
        refine crosses_freeName name hqualified _ c t u rest us' P ?_ hc fun c₁ h₁ =>
          ih hlater ?_ hnext h₁
        · rw [← hnext]
          exact congrArg (t :: ·) hrest
        · simpa [hident, Nat.add_assoc, Nat.add_comm 1] using hn
    · refine crosses_freeMarks [⟨t, hmark⟩] _ c t u rest us' P ?_ hc fun c₁ h₁ =>
        ih hlater ?_ hnext h₁
      · rw [← hnext]
        exact congrArg (t :: ·) hrest
      · have hkind : t.kind ≠ .ident := by
          rintro hkind
          rw [hkind] at hmark
          exact absurd hmark Bool.false_ne_true
        simpa [hkind] using hn

section ClassKeys

variable {u v : Token} {key : ClassKey} {word : Token}

/-- Whether a name is taken for a marker is seen from the two tokens behind it. -/
theorem yields_markerAhead (hv : v.kind ≠ .lBrace ∧ v.kind ≠ .colon ∧ v.kind ≠ .lt)
    (hc : c.Stands (t :: u :: v :: us) P) :
    markerAhead.Yields
      (fun b c' => b = isMarker t u v ∧ c'.Stands (t :: u :: v :: us) P) c := by
  refine (yields_lookAt (n := 0) hc rfl).bind ?_
  rintro t c₁ ⟨rfl, h₁⟩
  split
  · rename_i hlower
    exact ⟨by simp [isMarker, hlower], h₁⟩
  rename_i hlower
  refine (yields_lookAt (n := 1) h₁ rfl).bind ?_
  rintro u c₂ ⟨rfl, h₂⟩
  split
  · rename_i hname
    refine ⟨?_, h₂⟩
    rcases hname with hname | hname <;> simp [isMarker, hname]
  · rename_i hname
    rw [not_or, not_not, Bool.not_eq_true] at hname
    refine (yields_lookAt (n := 2) h₂ rfl).bind ?_
    rintro v c₃ ⟨rfl, h₃⟩
    exact ⟨by simp [isMarker, hname, Bool.eq_false_iff.2 hlower, hv], h₃⟩

/-- One marker is gone through, since `final` follows the name behind it. -/
theorem yields_throughHeadAttributes_marker (ht : t.kind = .ident) (hu : u.kind ≠ .lParen)
    (hv : v.kind ≠ .lBrace ∧ v.kind ≠ .colon ∧ v.kind ≠ .lt)
    (hc : c.Stands (t :: u :: v :: us) P) :
    throughHeadAttributes.Yields (fun _ c' =>
      c'.Stands (if isMarker t u v then u :: v :: us else t :: u :: v :: us) P) c := by
  cases hmarker : isMarker t u v with
  | false =>
    exact yields_throughHeadAttributes_of ht hu (fun c' h' => hmarker ▸ yields_markerAhead hv h') hc
  | true =>
    have hparts := hmarker
    simp only [isMarker, Bool.and_eq_true, beq_iff_eq] at hparts
    obtain ⟨⟨⟨-, hident⟩, -⟩, hfinal⟩ := hparts
    have hparen : v.kind ≠ .lParen := by
      intro hkind
      simp [Token.isWord, hkind] at hfinal
    refine yields_loop fun again hagain => ?_
    refine (yields_lookAt (n := 0) hc rfl).bind ?_
    rintro t c₁ ⟨rfl, h₁⟩
    simp only [ht]
    refine (yields_attributeAhead hu h₁).bind ?_
    rintro _ c₂ ⟨rfl, h₂⟩
    rw [if_neg Bool.false_ne_true]
    refine (yields_markerAhead hv h₂).bind ?_
    rintro _ c₃ ⟨rfl, h₃⟩
    rw [if_pos hmarker]
    refine (passes_next (by rw [ht]; rfl) c₃ _ P h₃).discard_bind ?_
    rintro _ c₄ ⟨-, h₄⟩
    exact hagain c₄ _ (yields_throughHeadAttributes_of hident hparen
      (fun c' h' => yields_markerAhead_last (.inr hfinal) h') h₄)

/-- The head of a function is left as it is, apart from a marker. -/
theorem yields_throughHeadAttributes_head {ts : List Token} (hhead : ∀ w ∈ t :: u :: ts, InHead w)
    (ht : t.kind = .ident) (hc : c.Stands (t :: u :: ts ++ (tail.tokens ++ us)) P) :
    throughHeadAttributes.Yields
      (fun _ c' => c'.Stands (behindMarker (t :: u :: ts) ++ (tail.tokens ++ us)) P) c := by
  have hu : u.kind ≠ .lParen := (hhead u (by simp)).ne (by simp) rfl
  cases ts with
  | nil =>
    -- The parameters are no `final`.
    have hopener : tail.params.opener.kind ≠ .lBrace ∧ tail.params.opener.kind ≠ .colon ∧
        tail.params.opener.kind ≠ .lt ∧ tail.params.opener.kind ≠ .ident := by
      rcases tail.params.kind_opener with h | h <;> simp [h]
    have hmarker : isMarker t u tail.params.opener = false := by
      simp [isMarker, Token.isWord, hopener]
    have hyields := yields_throughHeadAttributes_marker ht hu ⟨hopener.1, hopener.2.1, hopener.2.2.1⟩ hc
    rwa [hmarker] at hyields
  | cons v ts =>
    have hv : InHead v := hhead v (by simp)
    refine (yields_throughHeadAttributes_marker ht hu
      ⟨hv.ne (by simp) rfl, hv.ne (by simp) rfl, hv.ne (by simp) rfl⟩ hc).mono fun _ c' h' => ?_
    rw [behindMarker]
    split at h' <;> simp only [*, if_true, if_false, Bool.false_eq_true] <;> exact h'

/-- Behind the name of a type and `final` a declaration is read instead of a record. -/
theorem yields_recordFromName_declaring {Q : Unit → Reading text → Prop} {name : Token}
    {arguments? : Option String} {generic : String} (finals : List Token)
    (hfinals : ∀ t ∈ finals, t.isWord "final" = true) (ht : InHead t) (hfinal : t.isWord "final" = false)
    (hc : c.Stands (finals ++ t :: us) P)
    (hdeclaring : ∀ c', c'.Stands (t :: us) P → (freeDeclaration word name).Yields Q c') :
    (recordFromName key word name arguments? generic).Yields Q c := by
  rw [recordFromName]
  induction finals generalizing c with
  | nil =>
    have hdeclare : ∀ c', c'.Stands us P → (do
        putBack t
        freeDeclaration word name : Parser Unit).Yields Q c' := fun c' h' =>
      (yields_putBack h' ht.isBrace (ht.ne (by simp) rfl)).bind fun _ c'' h'' => hdeclaring c'' h''
    refine yields_recur fun again _ => ?_
    refine (passes_next ht.isBrace c _ P hc).bind ?_
    rintro t c₁ ⟨rfl, h₁⟩
    rcases ht.kind_cases with hkind | hkind
    · simp only [hkind, hfinal, Bool.or_false, Bool.false_eq_true, if_false]
      exact hdeclare c₁ h₁
    · cases hcases : t.kind <;> rw [hcases] at hkind <;>
        first | exact absurd hkind Bool.false_ne_true | exact hdeclare c₁ h₁
  | cons f finals ih =>
    have hf := hfinals f List.mem_cons_self
    have hident : f.kind = .ident := by
      simp only [Token.isWord, Bool.and_eq_true, beq_iff_eq] at hf
      exact hf.1
    refine yields_recur fun again hagain => ?_
    refine (passes_next (by rw [hident]; rfl) c _ P hc).bind ?_
    rintro f c₁ ⟨rfl, h₁⟩
    simp only [hident, hf, Bool.or_true, if_true]
    exact hagain _ c₁ Q (ih (fun u hu => hfinals u (List.mem_cons_of_mem f hu)) h₁)

theorem exists_behindMarker (ts : List Token) (ht : t.kind = .ident) :
    ∃ name rest, behindMarker (t :: u :: ts) = name :: rest ∧ name.kind = .ident ∧
      name :: rest <:+ t :: u :: ts := by
  cases ts with
  | nil => exact ⟨t, [u], rfl, ht, List.suffix_rfl⟩
  | cons v ts =>
    rw [behindMarker]
    cases hmarker : isMarker t u v with
    | false => exact ⟨t, u :: v :: ts, rfl, ht, List.suffix_rfl⟩
    | true =>
      simp only [isMarker, Bool.and_eq_true, beq_iff_eq] at hmarker
      exact ⟨u, v :: ts, rfl, hmarker.1.1.2, List.suffix_cons _ _⟩

theorem exists_first_of_final {ts : List Token} (h : ∃ t ∈ ts, t.isWord "final" = false) :
    ∃ finals t more, ts = finals ++ t :: more ∧ (∀ u ∈ finals, u.isWord "final" = true) ∧
      t.isWord "final" = false := by
  have hsome : (ts.find? (!·.isWord "final")).isSome = true :=
    List.find?_isSome.2 (h.imp fun t ht => ⟨ht.1, by rw [ht.2]; rfl⟩)
  obtain ⟨t, ht⟩ := Option.isSome_iff_exists.1 hsome
  obtain ⟨hfinal, finals, more, heq, hfinals⟩ := List.find?_eq_some_iff_append.1 ht
  exact ⟨finals, t, more, heq, fun u hu => by simpa using hfinals u hu, by simpa using hfinal⟩

/-- A function whose type begins with a class key is read to its end. -/
theorem yields_recordItem_function {ts : List Token} (hhead : ∀ w ∈ t :: u :: ts, InHead w)
    (ht : t.kind = .ident) (hlast : ∀ w ∈ (t :: u :: ts).getLast?, w.kind = .ident)
    (hmore : ∃ w ∈ (behindMarker (t :: u :: ts)).tail, w.isWord "final" = false) {generic : String}
    (hc : c.Stands (t :: u :: ts ++ (tail.tokens ++ us)) P) :
    (recordItem key word generic).Yields (fun _ c' => c'.BehindBody us P) c := by
  obtain ⟨name, behind, hname, hident, hsuffix⟩ := @exists_behindMarker t u ts ht
  rw [hname, List.tail_cons] at hmore
  obtain ⟨finals, v, more, rfl, hfinals, hfinal⟩ := exists_first_of_final hmore
  have hbehind : ∀ w ∈ name :: (finals ++ v :: more), InHead w := fun w hw => hhead w (hsuffix.subset hw)
  have hdeclaring : ∀ w ∈ name :: v :: more, InHead w := by
    intro w hw
    refine hbehind w ?_
    simp only [List.mem_cons, List.mem_append] at hw ⊢
    tauto
  have hcount : 2 ≤ 0 + (name :: v :: more).countP (·.kind == .ident) := by
    obtain ⟨before, hbefore⟩ := hsuffix
    have hpos : 0 < (v :: more).countP (·.kind == .ident) := by
      refine List.countP_pos_iff.2 ⟨(v :: more).getLast (by simp), List.getLast_mem _, ?_⟩
      rw [beq_iff_eq]
      refine hlast _ ?_
      rw [← hbefore, ← List.cons_append, ← List.append_assoc, List.getLast?_append_of_ne_nil _ (by simp)]
      exact List.getLast?_eq_getLast_of_ne_nil _
    rw [List.countP_cons_of_pos (by simp [hident])]
    omega
  obtain ⟨r, rs, hrest⟩ := List.exists_cons_of_ne_nil (l := finals ++ v :: more) (by simp)
  have hr : r.kind ≠ .lt := (hbehind r (by simp [hrest])).ne (by simp) rfl
  refine (yields_throughHeadAttributes_head hhead ht hc).bind fun _ c₁ h₁ => ?_
  rw [hname, hrest] at h₁
  refine (readsOne_next c₁ name _ P h₁).bind ?_
  rintro name c₂ ⟨rfl, h₂⟩
  rw [if_neg (by simp [hident]), if_neg (by simp [hident])]
  refine (yields_writtenList?_of_ne hr (h₂.plain (by rw [hident]; rfl))).bind ?_
  rintro _ c₃ ⟨rfl, h₃⟩
  have hfinals' : c₃.Stands (finals ++ v :: (more ++ (tail.tokens ++ us))) P := by
    rwa [← List.cons_append, ← List.append_assoc, hrest]
  refine yields_recordFromName_declaring finals hfinals (hbehind v (by simp)) hfinal hfinals'
    fun c₄ h₄ => ?_
  have hstands : c₄.StandsBehind name (v :: (more ++ (tail.tokens ++ us))) P :=
    ⟨by rwa [Standing.behind_of_isBrace (by rw [hident]; rfl)], h₂.standsIn, h₂.depth_eq, h₂.scopes_lt⟩
  exact yields_freeHead (name :: v :: more) hdeclaring hcount rfl hstands

end ClassKeys

namespace FunctionDefinition

variable (d : FunctionDefinition)

theorem inHead {w : Token} (hw : w ∈ d.head) : InHead w := by
  have hname : ∀ name : PlainName, InHead name.token := fun name => .inl ⟨name.isIdent, name.unreserved⟩
  simp only [head, List.mem_cons, List.mem_append, List.mem_map, List.not_mem_nil, or_false] at hw
  rcases hw with rfl | ⟨name, -, rfl⟩ | ⟨mark, -, rfl⟩ | rfl
  · exact hname d.first
  · exact hname name
  · exact .inr mark.property
  · exact hname d.name

theorem exists_head : ∃ u ts, d.head = d.first.token :: u :: ts := by
  obtain ⟨u, ts, h⟩ := List.exists_cons_of_ne_nil
    (l := d.more.map PlainName.token ++ (d.marks.map Subtype.val ++ [d.name.token])) (by simp)
  exact ⟨u, ts, congrArg (d.first.token :: ·) h⟩

theorem getLast?_head : d.head.getLast? = some d.name.token := by
  rw [head, ← List.append_assoc, ← List.cons_append, List.getLast?_concat]

theorem two_le_countP : 2 ≤ 0 + d.head.countP (·.kind == .ident) := by
  have hlast : 0 < [d.name.token].countP (·.kind == .ident) :=
    List.countP_pos_iff.2 ⟨_, List.mem_singleton_self _, by simp [d.name.isIdent]⟩
  rw [head, List.countP_cons_of_pos (by simp [d.first.isIdent]), List.countP_append, List.countP_append]
  omega

end FunctionDefinition

theorem yields_fileItem_function (d : FunctionDefinition) (hmore : d.NamesMore)
    (heq : d.tokens ++ us = first :: rest) (hc : c.StandsBehind first rest P) :
    (fileItem first).Yields (fun _ c' => c'.BehindBody us P) c := by
  obtain ⟨u, ts, hhead⟩ := d.exists_head
  have hall : ∀ w ∈ d.head, InHead w := fun w hw => d.inHead hw
  rw [FunctionDefinition.tokens, List.append_assoc, List.append_assoc] at heq
  cases hword : d.word? with
  | some keyword =>
    obtain ⟨key, word⟩ := keyword
    rw [hword] at heq
    obtain ⟨rfl, rfl⟩ := List.cons.inj heq
    have hlast : ∀ w ∈ d.head.getLast?, w.kind = .ident := by
      rw [d.getLast?_head]
      rintro _ ⟨⟩
      exact d.name.isIdent
    rw [fileItem_classWord]
    have hnames := hmore (by rw [hword]; rfl)
    have hstands : c.Stands (d.head ++ (d.tail.tokens ++ us)) P :=
      hc.plain (by rw [word.isIdent]; rfl)
    rw [hhead] at hall hlast hnames hstands
    exact yields_recordItem_function hall d.first.isIdent hlast hnames hstands
  | none =>
    rw [hword] at heq
    have hfirst := heq
    rw [Option.map_none, Option.toList_none, List.nil_append, hhead] at hfirst
    obtain ⟨rfl, hrest⟩ := List.cons.inj hfirst
    simp only [fileItem, d.first.isIdent, namedItem, d.first.unreserved]
    cases hqualified : isQualified d.first.token with
    | true =>
      rw [if_pos rfl]
      have hstands := hc.plain d.first.isBrace
      rw [← hrest] at hstands
      refine yields_throughDefinition_plain (u :: ts) (fun w hw => ?_) hstands
        fun _ h' => yields_throughDefinition_tail h'
      exact (hall w (by rw [hhead]; exact List.mem_cons_of_mem _ hw)).kind_cases
    | false =>
      rw [if_neg Bool.false_ne_true]
      exact yields_freeHead d.head hall d.two_le_countP heq hc

theorem exists_behind_function (role : FileRole) (d : FunctionDefinition) (hmore : d.NamesMore)
    (htokens : (tokensOf text).1 = d.tokens ++ us) :
    ∃ e : Reading text, fileItems.run Reading.machine (.new role text) = fileItems.run Reading.machine e ∧
      e.BehindBody us (.new role) := by
  have hstands := Reading.stands_new role text
  rw [htokens] at hstands
  obtain ⟨first, rest, hfirst⟩ := List.exists_cons_of_ne_nil (l := d.tokens ++ us)
    (by simp [FunctionDefinition.tokens, FunctionDefinition.head])
  rw [hfirst] at hstands
  have hpending := hstands.pending_eq
  have hyields := yields_fileItem_function d hmore hfirst (hstands.behind (hstands.advance hpending))
  have hmeets := (meets_fileItem (delivers_advance hpending).holds).run
  rw [Yields] at hyields
  rw [run_fileItems, read_of_pending hpending]
  simp only [if_neg hstands.kind_ne_end]
  cases hrun : (fileItem first).run Reading.machine
      ((Reading.new role text).advance first rest hpending) with
  | error failure =>
    rw [hrun] at hyields hmeets
    exact absurd hmeets hyields
  | ok result =>
    rw [hrun] at hyields
    exact ⟨result.2, rfl, hyields⟩

variable {a : String}

theorem depthBehind_function (d : FunctionDefinition) (hmore : d.NamesMore)
    (htokens : (tokensOf a).1 = d.tokens) : depthBehind 0 (tokensOf a).1 = 0 := by
  obtain ⟨e, -, -, texts, -, he⟩ := exists_behind_function .header d hmore
    (htokens.trans (List.append_nil _).symm)
  have hdepth := he.depth_eq
  rwa [Reading.depth, ← List.append_nil e.delivered.reverse, ← he.pending_eq, e.delivered_pending]
    at hdepth

/-- A function ends at its body. Behind it a file says what it says alone, apart from one text that
may be announced for the function, and fails just if it fails alone. -/
theorem findings_behind_function (role : FileRole) (b : String) (d : FunctionDefinition)
    (hmore : d.NamesMore) (htokens : (tokensOf a).1 = d.tokens)
    (hstop : d.tail.body.closer.val.stop = a.utf8ByteSize) :
    ∃ announced : List String, announced.length ≤ 1 ∧
      match findingsOf role b, findingsOf role (a ++ b) with
      | .ok g, .ok joined => joined = Findings.append { externs := announced } g
      | .error failure, .error failure' => failure.RepeatedBehind a failure'
      | _, _ => False := by
  have hend : EndsInToken a := by
    refine ⟨d.tail.body.closer.val, ?_, .inr d.tail.body.closer.property, hstop⟩
    rw [htokens]
    simp [FunctionDefinition.tokens, FunctionTail.tokens, FunctionTail.ending, Group.tokens]
  have hjoined := tokensOf_append b hend (depthBehind_function d hmore htokens)
  obtain ⟨e, hrun, hahead, texts, htexts, he⟩ := @exists_behind_function (a ++ b) _ role d hmore
    (by rw [hjoined, htokens])
  have hfindings : e.findings = { externs := texts } := by
    rw [he.findings_eq]
    simp [Standing.announcing, Standing.new]
  refine ⟨texts, htexts, ?_⟩
  rw [← hfindings]
  exact findings_of_second role hrun he.role_eq he.pending_eq hahead he.scopes_eq he.depth_eq
    (congrArg Prod.snd hjoined)

/-- The tokens of `struct S *f() const \x7b g(1); \x7d`. -/
def structFunction : FunctionDefinition where
  word? := some ⟨.structKey, ⟨.ident, "struct", 0, 0⟩, by decide⟩
  first := ⟨⟨.ident, "S", 7, 0⟩, rfl, by decide⟩
  more := []
  marks := [⟨⟨.star, "*", 9, 0⟩, rfl⟩]
  name := ⟨⟨.ident, "f", 10, 0⟩, rfl, by decide⟩
  tail := {
    params := .empty ⟨⟨.emptyParens, "()", 11, 0⟩, rfl⟩
    qualifiers := [⟨⟨.ident, "const", 14, 0⟩, rfl⟩]
    body := {
      opener := ⟨⟨.lBrace, "\x7b", 20, 0⟩, rfl⟩
      inner := [⟨.ident, "g", 22, 1⟩, ⟨.lParen, "(", 23, 1⟩, ⟨.number, "1", 24, 1⟩,
        ⟨.rParen, ")", 25, 1⟩, ⟨.semicolon, ";", 26, 1⟩]
      closer := ⟨⟨.rBrace, "\x7d", 28, 0⟩, rfl⟩
      balanced := .token rfl rfl (@Balanced.group _ _ _ [_] _ rfl (.token rfl rfl .nil)
        (.token rfl rfl .nil)) } }

/-- A function whose type begins with a class key leaves the variable behind it. -/
theorem findings_behind_function_struct :
    ∃ announced : List String, announced.length ≤ 1 ∧
      match findingsOf .source "int x;",
        findingsOf .source ("struct S *f() const \x7b g(1); \x7d" ++ "int x;") with
      | .ok g, .ok joined => joined = Findings.append { externs := announced } g
      | .error failure, .error failure' =>
        failure.RepeatedBehind "struct S *f() const \x7b g(1); \x7d" failure'
      | _, _ => False :=
  findings_behind_function .source _ structFunction (fun _ => by decide +kernel) (by decide +kernel)
    (by decide +kernel)

end ReflectionTables.Parsing
