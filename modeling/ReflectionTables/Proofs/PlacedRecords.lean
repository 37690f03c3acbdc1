import ReflectionTables.Proofs.ConsumedTokens
import ReflectionTables.Proofs.EnclosedRecords
import ReflectionTables.Proofs.JoinedFiles
import ReflectionTables.Proofs.OpenScopes
import ReflectionTables.Proofs.OpenedBodies
/-!
# A record on its own and in its place

A record that is a header on its own, and its text in records and namespaces. The same parser reads
its body in both places, and the two runs are alike: the text stands deeper, and the names of the
scopes around it stand before all names that are found in it.
-/

namespace ReflectionTables.Reflected

/-- What is found in a text, where a path leads to it. -/
def Findings.within (f : Findings) (path : List String) : Findings :=
  f.renamed fun name => Parsing.qualified (path ++ [name])

end ReflectionTables.Reflected

namespace ReflectionTables.Scanning

/-- A token of a text, where another text stands before it and braces are open around it. -/
def Token.within (t : Token) (before : String) (lift : Nat) : Token :=
  { t.behind before with depth := t.depth + lift }

section Within

variable (before : String) (lift : Nat) {n m : Nat} {outside : TokenKind → Bool} {ts : List Token}
  {opening closing : TokenKind}

def placed (ts : List Token) : List Token := ts.map (·.within before lift)

@[simp] theorem placed_append (ts us : List Token) :
    placed before lift (ts ++ us) = placed before lift ts ++ placed before lift us := List.map_append

theorem Balanced.within (h : Balanced outside ts) : Balanced outside (placed before lift ts) := by
  induction h with
  | nil => exact .nil
  | token hkind hallowed _ ih => exact .token hkind hallowed ih
  | @group outside first last inner ts hpair _ _ ihinner ih =>
    have hgroup : Balanced outside (first.within before lift :: (placed before lift inner ++
        last.within before lift :: placed before lift ts)) := .group hpair ihinner ih
    simpa [placed] using hgroup

def TokenOf.within {kind : TokenKind} (t : TokenOf kind) : TokenOf kind :=
  ⟨t.val.within before lift, t.property⟩

def Group.within (g : Group opening closing) : Group opening closing where
  opener := TokenOf.within before lift g.opener
  inner := placed before lift g.inner
  closer := TokenOf.within before lift g.closer
  balanced := g.balanced.within before lift

@[simp] theorem Group.tokens_within (g : Group opening closing) :
    (g.within before lift).tokens = placed before lift g.tokens := by
  simp [tokens, within, placed, TokenOf.within]

theorem AngleRun.within (h : AngleRun n ts m) : AngleRun n (placed before lift ts) m := by
  induction h with
  | nil => exact .nil
  | token hkind _ ih => exact .token hkind ih
  | opened hkind _ ih => exact .opened hkind ih
  | closed hkind _ ih => exact .closed hkind ih
  | closedTwo hkind _ ih => exact .closedTwo hkind ih
  | parens g _ ih =>
    rw [placed_append, ← Group.tokens_within]
    exact .parens (g.within before lift) ih
  | @braces n m first last inner ts hopening hclosing _ _ ihinner ih =>
    have hgroup : AngleRun n (first.within before lift :: (placed before lift inner ++
        last.within before lift :: placed before lift ts)) m := .braces hopening hclosing ihinner ih
    simpa [placed] using hgroup

def AngleGroup.within (g : AngleGroup) : AngleGroup where
  opener := TokenOf.within before lift g.opener
  inner := placed before lift g.inner
  closer := g.closer.within before lift
  closed := g.closed
  run := g.run.within before lift
  closes := g.closes

@[simp] theorem AngleGroup.tokens_within (g : AngleGroup) :
    (g.within before lift).tokens = placed before lift g.tokens := by
  simp [tokens, within, placed, TokenOf.within]

end Within

/-- The brace that ends a body is its last token, if no other brace behind it closes one. -/
theorem ClosesBrace.eq_of_append {depth : Nat} {body us : List Token} {closing : Token}
    (h : ClosesBrace depth body)
    (hclosing : closing.kind = .rBrace ∧ closing.depth = depth) (hus : ∀ u ∈ us, u.kind ≠ .rBrace)
    {before rest : List Token} (heq : before ++ closing :: rest = body ++ us) : rest = us := by
  induction h generalizing before with
  | @closing t hclose =>
    cases before with
    | nil => exact (List.cons.inj heq).2
    | cons u before =>
      have hmem : closing ∈ us := by
        have heq : before ++ closing :: rest = us := (List.cons.inj heq).2
        simp [← heq]
      exact absurd hclosing.1 (hus closing hmem)
  | @inside t ts hinside _ ih =>
    cases before with
    | nil =>
      rw [(List.cons.inj heq).1] at hclosing
      exact absurd hclosing hinside
    | cons u before => exact ih (List.cons.inj heq).2

end ReflectionTables.Scanning

namespace ReflectionTables.Parsing

open Text Scanning Reflected Parsing.Parser Reading

variable {text : String}

section Within

variable (before : String) (lift : Nat)

def BasePart.within : BasePart → BasePart
  | .word t h => .word (t.within before lift) h
  | .list g => .list (g.within before lift)

@[simp] theorem BasePart.tokens_within (part : BasePart) :
    (part.within before lift).tokens = placed before lift part.tokens := by
  cases part with
  | word t h => rfl
  | list g => exact g.tokens_within before lift

def BaseClause.within (bases : BaseClause) : BaseClause where
  colon := TokenOf.within before lift bases.colon
  parts := bases.parts.map (BasePart.within before lift)

@[simp] theorem BaseClause.tokens_within (bases : BaseClause) :
    (bases.within before lift).tokens = placed before lift bases.tokens := by
  have hparts : (bases.parts.map (BasePart.within before lift)).flatMap BasePart.tokens =
      placed before lift (bases.parts.flatMap BasePart.tokens) := by
    rw [placed, List.map_flatMap, List.flatMap_map]
    exact List.flatMap_congr fun part _ => part.tokens_within before lift
  rw [tokens, within, hparts]
  rfl

def RecordHead.within (head : RecordHead) : RecordHead where
  final? := head.final?.map fun final => ⟨final.val.within before lift, final.property⟩
  bases? := head.bases?.map (BaseClause.within before lift)

theorem RecordHead.tokens_within (head : RecordHead) :
    (head.within before lift).tokens = placed before lift head.tokens := by
  obtain ⟨final?, bases?⟩ := head
  rw [tokens, tokens, placed_append]
  congr 1
  · cases final? <;> rfl
  · cases bases? with
    | none => rfl
    | some bases => exact bases.tokens_within before lift

def NamedRecord.within (r : NamedRecord) : NamedRecord where
  key := r.key
  word := ⟨r.word.val.within before lift, r.word.property⟩
  name := TokenOf.within before lift r.name
  head := r.head.within before lift
  opening := TokenOf.within before lift r.opening
  body := placed before lift r.body

@[simp] theorem NamedRecord.tokens_within (r : NamedRecord) :
    (r.within before lift).tokens = placed before lift r.tokens := by
  rw [tokens, within, RecordHead.tokens_within]
  simp [tokens, placed, TokenOf.within]

end Within

variable {c d : Reading text} {t opening name : Token} {us : List Token} {f : Findings}
  {r : NamedRecord} {semicolon : TokenOf .semicolon}

theorem closes_recordBody (key : ClassKey) (arguments? : Option String) (generic : String)
    (dependent : Bool) (h : c.Holds opening) (hkind : opening.kind = .lBrace)
    (hname : name.StandsIn text) (hident : name.kind = .ident) :
    (recordBody recordMembers key name arguments? opening generic dependent).Meets
      (fun _ c' => ∃ closing, c'.Past c.delivered closing ∧ closing.kind = .rBrace ∧
        closing.depth = opening.depth) c := by
  rw [recordBody]
  refine meets_recordSegment.bind fun segment c₁ h₁ => ?_
  subst h₁
  refine meets_enter_declaration h hkind fun qualified c₂ h₂ => ?_
  have hnamed : (BodyContext.mk name.text qualified generic dependent).Named text :=
    fun t ht heq => hname.kind_of_text_eq ht hident heq
  refine (meets_recordMembers hnamed).with_run.bind fun r c₃ h₃ => ?_
  obtain ⟨closing, members⟩ := r
  obtain ⟨hpast, hrun⟩ := h₃
  have hcloses := relates_recordMembers Reading.machine _ c₂ _ c₃ hrun
  dsimp only at hpast hcloses ⊢
  rw [h₂.delivered_eq] at hpast
  have hnoted : ∀ c₄ : Reading text, c₃.SameBut c₄ → ∃ closing, c₄.Past c₁.delivered closing ∧
      closing.kind = .rBrace ∧ closing.depth = opening.depth := by
    rintro c₄ ⟨findings, rfl⟩
    exact ⟨closing, ⟨hpast.holds, hpast.tail⟩, hcloses.kind_eq, hcloses.depth_eq⟩
  split
  · exact hnoted c₃ ⟨_, rfl⟩
  split
  · exact (meets_remark (Finding.clean_notReflected qualified)).mono fun _ => hnoted
  · exact meets_noteType.mono fun _ => hnoted

/-- The place behind the body of a record that nothing is around. -/
theorem stands_behind_body (hbody : ClosesBrace r.opening.val.depth r.body)
    (hname : r.name.val.StandsIn text) (hholds : c.Holds r.opening.val)
    (hc : c.StandsBehind r.opening.val (r.body ++ [semicolon.val]) (.new .header))
    (hrun : (recordBody recordMembers r.key r.name.val none r.opening.val "" false).run
      Reading.machine c = .ok ((), d)) :
    d.Stands [semicolon.val] ⟨.header, 0, [], d.findings⟩ := by
  have hcloses := (closes_recordBody r.key none "" false hholds r.opening.property hname
    r.name.property).run
  rw [hrun] at hcloses
  obtain ⟨closing, hpast, hclose, hdepth⟩ := hcloses
  have hpending : d.pending = [semicolon.val] := by
    obtain ⟨mid, hmid⟩ := hpast.tail
    have heq := d.delivered_pending.trans c.delivered_pending.symm
    rw [hpast.holds.delivered_eq, ← hmid, hc.stands.pending_eq] at heq
    simp only [List.reverse_cons, List.reverse_append, List.append_assoc] at heq
    refine hbody.eq_of_append ⟨hclose, hdepth⟩ ?_ (List.append_cancel_left heq)
    intro u hu
    rw [List.mem_singleton.1 hu, semicolon.property]
    simp
  have hzero : d.depth = 0 := by
    rw [depth_eq_of_rBrace hpast.holds.1 hclose, hdepth]
    exact hc.depth_of_lBrace r.opening.property
  have hscopes : d.scopes = [] := by
    refine List.eq_nil_iff_forall_not_mem.2 fun s hs => ?_
    have := d.scopes_lt s hs
    omega
  exact ⟨(role_run hrun).trans hc.stands.role_eq, hpending, hzero, hscopes, rfl⟩

/-- A header that holds one record is read to the body of the record, and behind the body to its end.
What is found is found in the body. -/
theorem exists_body_of_findings (hfound : findingsOf .header text = .ok f)
    (htokens : (tokensOf text).1 = r.tokens ++ [semicolon.val])
    (hbody : ClosesBrace r.opening.val.depth r.body) :
    ∃ c d : Reading text, c.Holds r.opening.val ∧
      c.StandsBehind r.opening.val (r.body ++ [semicolon.val]) (.new .header) ∧
      (recordBody recordMembers r.key r.name.val none r.opening.val "" false).run Reading.machine c =
        .ok ((), d) ∧
      d.Stands [semicolon.val] ⟨.header, 0, [], f⟩ := by
  have hstands := Reading.stands_new .header text
  have hall : r.tokens ++ [semicolon.val] = r.word.val :: r.name.val :: (r.head.tokens ++
      r.opening.val :: (r.body ++ [semicolon.val])) := by simp [NamedRecord.tokens]
  rw [htokens, hall] at hstands
  rw [findingsOf_eq] at hfound
  rcases hrun : fileItems.run Reading.machine (.new .header text) with _ | ⟨⟨⟩, e⟩ <;>
    rw [hrun] at hfound
  · cases hfound
  cases hfound
  have hfinished := (obeys_fileItems (c := Reading.new .header text)).run
  rw [hrun] at hfinished
  obtain ⟨-, ⟨t, hending⟩, -⟩ := hfinished
  obtain ⟨c, ⟨hholds, hc⟩, hrest⟩ := (fileItems_leadsTo r rfl hstands).exists_of_run hrun
  rw [recordAtFileScope, bind_assoc] at hrest
  obtain ⟨_, d, hd, hrest⟩ := exists_of_run_bind hrest
  have hname : r.name.val.StandsIn text := standsIn_of_mem_tokensOf (by simp [htokens, hall])
  have hplace := stands_behind_body hbody hname hholds hc hd
  -- Behind the body only the semicolon is left, which says nothing.
  have hexpect := (@passes_expect text _ .semicolon .semicolonAfterRecord semicolon.property
    (by rw [semicolon.property]; rfl)).discard d [] _ hplace
  have hfindings := hexpect.bind fun _ c' h' => yields_fileItems_nil h'.2 rfl (by rw [hending]; rfl)
  rw [Yields, hrest] at hfindings
  exact ⟨c, d, hholds, hc, hd, by rwa [hfindings]⟩

variable {text' before after : String} {lift : Nat} {P : Standing} {us' earlier later : List Token}

theorem Parser.Yields.of_bind {α β : Type} {p : Parser α} {k : α → Parser β} {R : β → Reading text → Prop}
    (h : (p >>= k).Yields R c) : p.Yields (fun a c' => (k a).Yields R c') c := by
  rw [Yields, run_bind] at h
  rw [Yields]
  cases hrun : p.run Reading.machine c <;> rw [hrun] at h <;> exact h

/-- The body of a record yields what it does if the bodies in it are read by another parser. -/
theorem BodyParser.Unrolls.recordBody {body : BodyParser} (hbody : body.Unrolls text) {key : ClassKey}
    {arguments? : Option String} {generic : String} {dependent : Bool} {R : Unit → Reading text → Prop}
    (h : (recordBody recordMembers key name arguments? opening generic dependent).Yields R c) :
    (Parsing.recordBody body key name arguments? opening generic dependent).Yields R c := by
  rw [Parsing.recordBody] at h ⊢
  refine h.of_bind.bind fun segment c₁ h => ?_
  refine h.of_bind.bind fun _ c₂ h => ?_
  refine h.of_bind.bind fun qualified c₃ h => ?_
  refine h.of_bind.bind fun _ c₄ h => ?_
  exact (hbody _ _ _ h.of_bind).bind fun _ _ h => h

theorem eq_of_append_cons_eq {ts ts' : List Token} (h : ts ++ t :: us = (tokensOf text).1)
    (h' : ts' ++ t :: us' = (tokensOf text).1) : ts = ts' ∧ us = us' := by
  have hnodup : (ts ++ t :: us).Nodup := by
    rw [h]
    refine (ordered_tokensOf text).imp fun hlt heq => ?_
    rw [heq] at hlt
    exact Nat.lt_irrefl _ hlt
  rw [List.nodup_append, List.nodup_cons] at hnodup
  obtain ⟨hbefore, -, hbehind⟩ :=
    (List.append_cons_inj_of_notMem (fun hmem => hnodup.2.2 t hmem t List.mem_cons_self rfl)
      hnodup.2.1.1).1 (h.trans h'.symm)
  exact ⟨hbefore, hbehind⟩

/-- So many braces are open before a text as its tokens stand deeper. -/
theorem depthBehind_earlier {first : Token} {rest : List Token}
    (htokens : (tokensOf text).1 = first :: rest) (hfirst : first.kind = .ident)
    (hsplit : earlier ++ placed before lift (tokensOf text).1 ++ later = (tokensOf text').1) :
    depthBehind 0 earlier = lift := by
  have hnested := nested_tokensOf text
  have hnested' := nested_tokensOf text'
  rw [htokens] at hnested
  rw [← hsplit, htokens, List.append_assoc, nested_append] at hnested'
  obtain ⟨-, hown, -⟩ := hnested
  obtain ⟨-, -, hown', -⟩ := hnested'
  have hdepth : (first.within before lift).depth = first.depth + lift := rfl
  have hkind : (first.within before lift).kind = .ident := hfirst
  rw [hkind, hdepth, hown, hfirst] at hown'
  simp only [TokenKind.ownDepth, reduceCtorEq, if_false] at hown'
  omega

/-- How a text compares to the same text in another one. -/
def insideLikeness (before : String) (lift : Nat) (around : List Scope) : Likeness where
  exact := True
  shift := before.utf8ByteSize
  top := False
  lift := lift
  around := around
  lift_of_top := False.elim
  around_of_top := False.elim

theorem tokens_within (around : List Scope) (t : Token) :
    (insideLikeness before lift around).Tokens t (t.within before lift) :=
  ⟨rfl, rfl, rfl, fun _ => rfl⟩

/-- A token that repeats another one exactly is the other one at its place. -/
theorem eq_within_of_tokens {around : List Scope} {u : Token}
    (h : (insideLikeness before lift around).Tokens t u) : u = t.within before lift := by
  obtain ⟨hkind, htext, hdepth, hoffset⟩ := h
  cases u
  cases t
  cases hkind
  cases htext
  cases hdepth
  cases hoffset trivial
  rfl

theorem forall₂_placed (around : List Scope) (ts : List Token) :
    List.Forall₂ (insideLikeness before lift around).Tokens ts (placed before lift ts) := by
  rw [placed, List.forall₂_map_right_iff]
  exact List.forall₂_same.2 fun t _ => tokens_within around t

structure Placement (text before after : String) (P : Standing) where
  earlier : List Token
  later : List Token
  split : earlier ++ placed before P.depth (tokensOf text).1 ++ later =
    (tokensOf (before ++ text ++ after)).1
  depth_earlier : depthBehind 0 earlier = P.depth
  scopes_lt : ∀ s ∈ P.scopes, s.depth < P.depth
  ends : ∃ t, (tokensOf text).1.getLast? = some t ∧ t.kind = .semicolon

namespace Placement

variable (E : Placement text before after P) {c' : Reading (before ++ text ++ after)}

/-- The text on its own and in the place. -/
def pairing : Pairing text (before ++ text ++ after) where
  toLikeness := insideLikeness before P.depth P.scopes
  earlier := E.earlier.reverse
  later := E.later
  found := P.found
  whole := False
  depth_earlier := by
    rw [List.reverse_reverse]
    exact E.depth_earlier
  around_lt := E.scopes_lt
  cut_eq := by
    intro _ start stop piece hpiece
    have hinside : slice? (text ++ after) start stop = some piece := by
      rw [slice?_append_left (slice?_eq_some_iff.1 hpiece).2.2.1.le_size, hpiece]
    rw [String.append_assoc]
    exact cut_behind before hinside
  ends_of_whole := False.elim
  ends_of_part := fun _ => ⟨E.ends, False.elim⟩

/-- Behind a token of the text, the same tokens were delivered and are to come, alone and in the
place. -/
theorem delivered_pending_eq (hholds : c.Holds t) (hpending : c.pending = us)
    (hholds' : c'.Holds (t.within before P.depth)) (hpending' : c'.pending = us') :
    c'.delivered = placed before P.depth c.delivered ++ E.earlier.reverse ∧
      us' = placed before P.depth us ++ E.later := by
  obtain ⟨hdelivered, hdelivered'⟩ := And.intro hholds.delivered_eq hholds'.delivered_eq
  generalize c.delivered.tail = tail at hdelivered
  generalize c'.delivered.tail = tail' at hdelivered'
  have hwhole : (E.earlier ++ placed before P.depth tail.reverse) ++ t.within before P.depth ::
      (placed before P.depth us ++ E.later) = (tokensOf (before ++ text ++ after)).1 := by
    rw [← E.split, ← c.delivered_pending, hdelivered, hpending]
    simp [placed]
  have hhere : tail'.reverse ++ t.within before P.depth :: us' = (tokensOf (before ++ text ++ after)).1 := by
    rw [← c'.delivered_pending, hdelivered', hpending']
    simp
  obtain ⟨htail, hus⟩ := eq_of_append_cons_eq hhere hwhole
  refine ⟨?_, hus⟩
  rw [hdelivered, hdelivered', ← List.reverse_reverse tail', htail]
  simp [placed]

/-- Behind an opening brace at file scope, the text is read on alike, alone and in the place. -/
theorem together (ht : t.kind = .lBrace) (hrole : P.role = .header) (hholds : c.Holds t)
    (hc : c.StandsBehind t us (.new .header)) (hholds' : c'.Holds (t.within before P.depth))
    (hc' : c'.StandsBehind (t.within before P.depth) us' P) : E.pairing.Together c c' := by
  obtain ⟨hdelivered, hpending⟩ :=
    E.delivered_pending_eq hholds hc.stands.pending_eq hholds' hc'.stands.pending_eq
  have hplace := hc.opened ht
  have hplace' := hc'.opened (t := t.within before P.depth) ht
  have hbrace : t.kind.isBrace = true := by
    rw [ht]
    rfl
  refine ⟨?_, ⟨_, hdelivered, forall₂_placed _ _⟩, ⟨_, ?_, forall₂_placed _ _⟩, ?_,
    ⟨[], hplace'.scopes_eq, ?_⟩, ?_, fun _ => ?_⟩
  · rw [hplace'.role_eq, hplace.role_eq]
    exact hrole
  · rw [hplace'.pending_eq, hplace.pending_eq]
    exact hpending
  · rw [(hholds.2 hbrace).1, (hholds'.2 hbrace).1]
  · rw [hplace.scopes_eq]
    exact .nil
  · rw [hplace'.findings_eq, hplace.findings_eq]
    exact congrArg Findings.shape P.found.append_nil.symm
  · rw [hplace'.findings_eq, hplace.findings_eq]
    exact P.found.append_nil.symm

/-- Where the body of a record can be read in the text alone, it can be read in the place. -/
theorem exists_run (key : ClassKey) (hname : name ∈ (tokensOf text).1) (hident : name.kind = .ident)
    (hkind : opening.kind = .lBrace) (hholds : c.Holds opening)
    (hholds' : c'.Holds (opening.within before P.depth)) (h : E.pairing.Together c c')
    (hrun : (recordBody recordMembers key name none opening "" false).run Reading.machine c = .ok ((), d)) :
    ∃ d', (recordBody recordMembers key (name.within before P.depth) none (opening.within before P.depth) ""
      false).run Reading.machine c' = .ok ((), d') ∧ E.pairing.Together d d' := by
  have hname' : name.within before P.depth ∈ (tokensOf (before ++ text ++ after)).1 := by
    rw [← E.split]
    exact List.mem_append_left _ (List.mem_append_right _ (List.mem_map_of_mem hname))
  have halike : E.pairing.Alike (fun _ _ => True) (recordBody recordMembers key name none opening "" false)
      (recordBody recordMembers key (name.within before P.depth) none (opening.within before P.depth) ""
        false) :=
    Likeness.alike_recordBody Likeness.alike_recordMembers key (tokens_within _ _)
      Likeness.arguments_none (tokens_within _ _) Likeness.generics_empty false
  have hcloses := closes_recordBody key none "" false hholds hkind (standsIn_of_mem_tokensOf hname) hident
  have hcloses' := closes_recordBody key none "" false hholds' hkind (standsIn_of_mem_tokensOf hname')
    hident
  have houtcomes := Pairing.outcomes_of_alike halike h hcloses hcloses'
  rw [hrun] at houtcomes
  cases hrun' : (recordBody recordMembers key (name.within before P.depth) none
      (opening.within before P.depth) "" false).run Reading.machine c' with
  | error failure =>
    rw [hrun'] at houtcomes
    exact houtcomes.elim
  | ok result =>
    rw [hrun'] at houtcomes
    exact ⟨result.2, rfl, houtcomes.2⟩

variable {E}

/-- What was found in the text alone is found in the place. -/
theorem stands_of_together (h : E.pairing.Together c c') (hrole : P.role = .header)
    (hc : c.Stands [t] ⟨.header, 0, [], f⟩) :
    c'.Stands (t.within before P.depth :: E.later) (P.gaining (f.within P.path)) := by
  obtain ⟨ts, hts, hall⟩ := h.pending
  obtain ⟨inner, hinner, hscopes⟩ := h.scopes
  rw [hc.pending_eq] at hall
  rw [hc.scopes_eq, List.forall₂_nil_left_iff] at hscopes
  obtain ⟨u, rest, hu, hrest, rfl⟩ := List.forall₂_cons_left_iff.1 hall
  rw [List.forall₂_nil_left_iff] at hrest
  refine ⟨?_, ?_, ?_, ?_, ?_⟩
  · rw [h.role_eq, hc.role_eq]
    exact hrole.symm
  · rw [hts, hrest, eq_within_of_tokens hu]
    rfl
  · rw [h.depth_eq, hc.depth_eq]
    exact Nat.zero_add _
  · rw [hinner, hscopes]
    rfl
  · rw [h.findings_eq trivial, hc.findings_eq]
    rfl

end Placement

/-- A record that can be read in a header on its own is read so in any other place of a header, and
what is found in it has names that begin with the path to the place. -/
theorem read_within (hfound : findingsOf .header text = .ok f)
    (htokens : (tokensOf text).1 = r.tokens ++ [semicolon.val])
    (hbody : ClosesBrace r.opening.val.depth r.body)
    (hstretch : placed before lift (tokensOf text).1 <:+: (tokensOf (before ++ text ++ after)).1) :
    (r.within before lift).Read (before ++ text ++ after) f.within := by
  intro body c' us P hunrolls hrole hholds' hc'
  replace hholds' : c'.Holds (r.opening.val.within before lift) := hholds'
  replace hc' : c'.StandsBehind (r.opening.val.within before lift) (placed before lift r.body ++ us) P := hc'
  obtain ⟨c, d, hholds, hc, hrun, hd⟩ := exists_body_of_findings hfound htokens hbody
  have hlift : lift = P.depth := by
    have hopening : r.opening.val.depth = 0 := hc.depth_of_lBrace r.opening.property
    have hdepth : r.opening.val.depth + lift = P.depth := hc'.depth_of_lBrace r.opening.property
    omega
  subst hlift
  obtain ⟨earlier, later, hsplit⟩ := hstretch
  let E : Placement text before after P :=
    { earlier := earlier
      later := later
      split := hsplit
      depth_earlier := depthBehind_earlier htokens r.word.isIdent hsplit
      scopes_lt := hc'.scopes_lt
      ends := ⟨semicolon.val, by rw [htokens, List.getLast?_concat], semicolon.property⟩ }
  have hus : us = semicolon.val.within before P.depth :: later := by
    have hplace :=
      (E.delivered_pending_eq hholds hc.stands.pending_eq hholds' hc'.stands.pending_eq).2
    rw [placed_append, List.append_assoc] at hplace
    exact List.append_cancel_left hplace
  subst hus
  have htogether := E.together r.opening.property hrole hholds hc hholds' hc'
  obtain ⟨d', hrun', hd'⟩ := E.exists_run r.key (by simp [htokens, NamedRecord.tokens]) r.name.property
    r.opening.property hholds hholds' htogether hrun
  refine hunrolls.recordBody ?_
  change (recordBody recordMembers r.key (r.name.val.within before P.depth) none
    (r.opening.val.within before P.depth) "" false).Yields _ c'
  rw [Yields, hrun']
  exact Placement.stands_of_together hd' hrole hd

/-- A header that holds the definition of a record, and the same text in records and namespaces: what
is found there of the record is what is found in the header, with the path to the place before all
names, and it stands between what the surroundings say. -/
theorem findings_of_enclosed (S : Surroundings) (htokens : (tokensOf text).1 = r.tokens ++ [semicolon.val])
    (hbody : ClosesBrace r.opening.val.depth r.body) (hfound : findingsOf .header text = .ok f)
    (hplaced : (tokensOf (before ++ text ++ after)).1 = S.tokens (placed before S.depth (tokensOf text).1))
    (hend : (tokensOf (before ++ text ++ after)).2.isOk = true) :
    findingsOf .header (before ++ text ++ after) =
      .ok ((S.leading (before ++ text ++ after)).append
        ((f.within S.path).append (S.trailing (before ++ text ++ after)))) := by
  let d : Definition :=
    { record := r.within before S.depth
      ending := .closed (TokenOf.within before S.depth semicolon)
      found := f.within }
  have hstretch : placed before S.depth (tokensOf text).1 <:+: (tokensOf (before ++ text ++ after)).1 := by
    rw [hplaced]
    exact S.infix_tokens _
  have htokens' : placed before S.depth (tokensOf text).1 = d.tokens := by
    rw [htokens, placed_append, ← NamedRecord.tokens_within]
    rfl
  exact S.findingsOf_eq (d := d) (read_within hfound htokens hbody hstretch) rfl (by rw [hplaced, htokens'])
    hend

/-- A record with a head, an enumeration and a record in it. -/
def recordAlone : String :=
  "struct B final : A<int>, n::C \x7b enum E \x7b x, y \x7d; float v; struct D \x7b int w; \x7d; \x7d;"

/-- The record stands where members of a class in a namespace are visible. -/
theorem findings_of_enclosed_class :
    findingsOf .header ("namespace m \x7b class K \x7b int h; public: " ++ recordAlone ++
        " private: int z; \x7d; \x7d") = .ok
      { types := [.enumeration ⟨"m::K::B::E", ["x", "y"]⟩,
          .record ⟨.structKey, "m::K::B::D", "", [⟨"w", "int", "", .value⟩]⟩,
          .record ⟨.structKey, "m::K::B", "", [⟨"v", "float", "", .value⟩]⟩]
        declarations := [⟨.record .classKey, "m::K"⟩, ⟨.record .structKey, "m::K::B"⟩,
          ⟨.enumeration, "m::K::B::E"⟩, ⟨.record .structKey, "m::K::B::D"⟩] } := by
  let argument : AngleGroup := ⟨⟨⟨.lt, "<", 18, 0⟩, rfl⟩, [⟨.ident, "int", 19, 0⟩], ⟨.gt, ">", 22, 0⟩, 1,
    .token rfl .nil, .inl ⟨rfl, rfl⟩⟩
  let r : NamedRecord :=
    { key := .structKey
      word := ⟨⟨.ident, "struct", 0, 0⟩, by decide⟩
      name := ⟨⟨.ident, "B", 7, 0⟩, rfl⟩
      head :=
        { final? := some ⟨⟨.ident, "final", 9, 0⟩, by decide⟩
          bases? := some ⟨⟨⟨.colon, ":", 15, 0⟩, rfl⟩, [.word ⟨.ident, "A", 17, 0⟩ (.inl rfl), .list argument,
            .word ⟨.comma, ",", 23, 0⟩ (.inr (.inl rfl)), .word ⟨.ident, "n::C", 25, 0⟩ (.inl rfl)]⟩ }
      opening := ⟨⟨.lBrace, "\x7b", 30, 0⟩, rfl⟩
      body := ((tokensOf recordAlone).1.drop 11).dropLast }
  let h : DataDeclaration :=
    ⟨[], ⟨⟨⟨⟨.ident, "int", 24, 2⟩, rfl, by decide⟩, none⟩, []⟩,
      ⟨⟨[], ⟨⟨.ident, "h", 28, 2⟩, rfl, by decide⟩, .absent, .absent⟩, [],
        ⟨⟨.semicolon, ";", 29, 2⟩, rfl⟩⟩⟩
  let z : DataDeclaration :=
    ⟨[], ⟨⟨⟨⟨.ident, "int", 130, 2⟩, rfl, by decide⟩, none⟩, []⟩,
      ⟨⟨[], ⟨⟨.ident, "z", 134, 2⟩, rfl, by decide⟩, .absent, .absent⟩, [],
        ⟨⟨.semicolon, ";", 135, 2⟩, rfl⟩⟩⟩
  let S : Surroundings :=
    { before := .nil
      after := .nil
      spaces := [
        { start := ⟨none, ⟨⟨.ident, "namespace", 0, 0⟩, by decide⟩, ⟨⟨.ident, "m", 10, 0⟩, rfl⟩,
            ⟨⟨.lBrace, "\x7b", 12, 0⟩, rfl⟩⟩
          before := .nil
          after := .nil
          closing := ⟨⟨.rBrace, "\x7d", 140, 0⟩, rfl⟩ }]
      records := [
        { key := .classKey
          word := ⟨⟨.ident, "class", 14, 1⟩, by decide⟩
          name := ⟨⟨.ident, "K", 20, 1⟩, rfl⟩
          head := .nothing
          opening := ⟨⟨.lBrace, "\x7b", 22, 1⟩, rfl⟩
          before := .data h <| .access ⟨.ident, "public", 31, 2⟩ true (by decide)
            ⟨⟨.colon, ":", 37, 2⟩, rfl⟩ .nil
          after := .access ⟨.ident, "private", 121, 2⟩ false (by decide) ⟨⟨.colon, ":", 128, 2⟩, rfl⟩ <|
            .data z .nil
          closing := ⟨⟨.rBrace, "\x7d", 137, 1⟩, rfl⟩
          ending := .closed ⟨⟨.semicolon, ";", 138, 1⟩, rfl⟩ }]
      closed := fun _ hframe => ⟨_, congrArg RecordFrame.ending (Option.some.inj hframe).symm⟩ }
  let semicolon : TokenOf .semicolon := ⟨⟨.semicolon, ";", 80, 0⟩, rfl⟩
  have htokens : (tokensOf recordAlone).1 = r.tokens ++ [semicolon.val] := by decide +kernel
  have hbody : ClosesBrace r.opening.val.depth r.body := by decide +kernel
  have hfound : findingsOf .header recordAlone = .ok
      { types := [.enumeration ⟨"B::E", ["x", "y"]⟩, .record ⟨.structKey, "B::D", "", [⟨"w", "int", "", .value⟩]⟩,
          .record ⟨.structKey, "B", "", [⟨"v", "float", "", .value⟩]⟩]
        declarations := [⟨.record .structKey, "B"⟩, ⟨.enumeration, "B::E"⟩,
          ⟨.record .structKey, "B::D"⟩] } := by decide +kernel
  refine (findings_of_enclosed S htokens hbody hfound (by decide +kernel) (by decide +kernel)).trans ?_
  refine congrArg Except.ok ?_
  decide +kernel

end ReflectionTables.Parsing
