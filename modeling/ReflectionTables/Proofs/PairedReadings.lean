import ReflectionTables.Proofs.AlikeItems
import ReflectionTables.Proofs.CarefulItems
/-!
# Runs on two texts with like tokens

Runs of parsers that are alike, on two texts with like tokens. The second text may have more tokens
before and behind those of the first one. What comes behind is never reached by a parser that keeps
inside an item, if the last token of the first text is a semicolon.
-/

namespace ReflectionTables.Reflected

def Findings.shape (f : Findings) : Findings where
  types := f.types.map ReflectedType.shape
  declarations := f.declarations.map Declaration.shape
  externs := f.externs.map fun _ => ""
  remarks := f.remarks.map Remark.shape

def Findings.renamed (rename : String → String) (f : Findings) : Findings where
  types := f.types.map (ReflectedType.renamed rename)
  declarations := f.declarations.map (Declaration.renamed rename)
  externs := f.externs
  remarks := f.remarks.map (Remark.renamed rename)

@[simp] theorem Findings.shape_add (f : Findings) (x : Finding) :
    (f.add x).shape = f.shape.add x.shape := by
  cases x <;> simp [Findings.add, Findings.shape, Finding.shape]

theorem Findings.renamed_add (rename : String → String) (f : Findings) (x : Finding) :
    (f.add x).renamed rename = (f.renamed rename).add (x.renamed rename) := by
  cases x <;> simp [Findings.add, Findings.renamed, Finding.renamed]

@[simp] theorem ReflectedType.renamed_id : ReflectedType.renamed id = id := by
  funext type
  cases type <;> rfl

@[simp] theorem Remark.renamed_id : Remark.renamed id = id := by
  funext r
  cases r <;> rfl

@[simp] theorem Findings.renamed_id (f : Findings) : f.renamed id = f := by
  have hdeclarations : Declaration.renamed id = id := rfl
  simp [renamed, hdeclarations]

end ReflectionTables.Reflected

namespace ReflectionTables.Parsing

open Text Scanning Reflected Parsing.Parser Reading

variable {text text' : String} {α α' β β' : Type}

theorem intercalate_append (names : List String) {inner : List String} (h : inner ≠ []) :
    "::".intercalate (names ++ inner) = "::".intercalate (names ++ ["::".intercalate inner]) := by
  induction names with
  | nil => exact (String.intercalate_singleton).symm
  | cons name names ih =>
    rw [List.cons_append, List.cons_append, String.intercalate_cons_of_ne_nil (by simp [h]),
      String.intercalate_cons_of_ne_nil (by simp), ih]

namespace Likeness

variable (L : Likeness)

structure Scopes (scope scope' : Scope) : Prop where
  depth_eq : scope'.depth = scope.depth + L.lift
  segments : L.Texts scope.segment scope'.segment

def Failures (text text' : String) : Failure → Failure → Prop
  | .rejected e, .rejected e' => L.exact → L.top → e'.fault.message = e.fault.message ∧
      ∃ offset, e.location = .ofOffset text offset ∧ e'.location = .ofOffset text' (offset + L.shift)
  | .aborted what, .aborted what' => what' = what
  | _, _ => False

def Endings (text text' : String) : Except ScanError Token → Except ScanError Token → Prop
  | .ok t, .ok t' => L.Tokens t t'
  | .error e, .error e' => L.Failures text text' (.ofScan e) (.ofScan e')
  | _, _ => False

variable {L}

theorem depthBehind_eq {ts ts' : List Token} (h : List.Forall₂ L.Tokens ts ts') (depth : Nat) :
    depthBehind depth ts' = depthBehind depth ts := by
  induction h generalizing depth with
  | nil => rfl
  | @cons t t' ts ts' ht _ ih =>
    change depthBehind (t'.kind.depthAfter depth) ts' = depthBehind (t.kind.depthAfter depth) ts
    rw [ht.kind_eq, ih]

/-- Where no brace closes that was not opened, the second text stands deeper all along. -/
theorem depthBehind_lift {ts ts' : List Token} (h : List.Forall₂ L.Tokens ts ts') {depth : Nat}
    (hnested : Nested depth ts) :
    depthBehind (depth + L.lift) ts' = depthBehind depth ts + L.lift := by
  induction h generalizing depth with
  | nil => rfl
  | @cons t t' ts ts' ht _ ih =>
    obtain ⟨hopen, -, hrest⟩ := hnested
    have hdepth : t'.kind.depthAfter (depth + L.lift) = t.kind.depthAfter depth + L.lift := by
      rw [ht.kind_eq]
      cases hkind : t.kind <;> simp only [TokenKind.depthAfter]
      case lBrace => omega
      case rBrace =>
        have := hopen hkind
        omega
    change depthBehind (t'.kind.depthAfter (depth + L.lift)) ts' =
      depthBehind (t.kind.depthAfter depth) ts + L.lift
    rw [hdepth, ih hrest]

/-- The scopes around the second text are not closed in it. -/
theorem scopes_scopesBehind (haround : ∀ s ∈ L.around, s.depth < L.lift) {scopes scopes' : List Scope}
    {t t' : Token} (ht : L.Tokens t t') (h : List.Forall₂ L.Scopes scopes scopes') :
    ∃ inner, scopesBehind t' (scopes' ++ L.around) = inner ++ L.around ∧
      List.Forall₂ L.Scopes (scopesBehind t scopes) inner := by
  rw [scopesBehind, scopesBehind, ht.kind_eq, ht.depth_eq]
  split
  · induction h with
    | nil =>
      refine ⟨[], ?_, .nil⟩
      cases hscopes : L.around with
      | nil => rfl
      | cons s scopes =>
        have hs := haround s (by rw [hscopes]; exact List.mem_cons_self)
        rw [List.nil_append, List.dropWhile_cons_of_neg (by simp; omega)]
    | @cons s s' scopes scopes' hs hscopes ih =>
      have hdepth : (s'.depth == t.depth + L.lift) = (s.depth == t.depth) := by
        rw [Bool.eq_iff_iff, beq_iff_eq, beq_iff_eq, hs.depth_eq, Nat.add_right_cancel_iff]
      rw [List.cons_append, List.dropWhile_cons, List.dropWhile_cons, hdepth]
      split
      · exact ih
      · exact ⟨s' :: scopes', rfl, .cons hs hscopes⟩
  · exact ⟨scopes', rfl, h⟩

theorem failures_rejection {t t' : Token} {fault fault' : ParseFault} (ht : L.Tokens t t')
    (h : L.Faults fault fault') :
    L.Failures text text' (rejection text t fault) (rejection text' t' fault') :=
  fun hexact htop => ⟨h hexact htop, t.offset, rfl, by rw [ht.offset_eq hexact]⟩

theorem failures_ofScan {e e' : ScanError} (hfault : e'.fault = e.fault)
    (h : ∃ offset, e.location = .ofOffset text offset ∧
      e'.location = .ofOffset text' (offset + L.shift)) :
    L.Failures text text' (.ofScan e) (.ofScan e') := by
  rw [Failure.ofScan, Failure.ofScan, hfault]
  split
  · rfl
  · exact fun _ _ => ⟨rfl, h⟩

end Likeness

structure Pairing (text text' : String) extends Likeness where
  /-- The tokens of the second text that come before, the last one first. -/
  earlier : List Token
  /-- The tokens of the second text that come behind. -/
  later : List Token
  /-- What was found before. -/
  found : Findings
  /-- Whether both texts end together. -/
  whole : Prop
  depth_earlier : depthBehind 0 earlier.reverse = lift
  around_lt : ∀ s ∈ around, s.depth < lift
  cut_eq : exact → ∀ start stop piece, slice? text start stop = some piece →
    slice? text' (start + shift) (stop + shift) = some piece
  ends_of_whole : whole →
    later = [] ∧ toLikeness.Endings text text' (tokensOf text).2 (tokensOf text').2
  ends_of_part : ¬whole →
    (∃ t, (tokensOf text).1.getLast? = some t ∧ t.kind = .semicolon) ∧
      (top → ∀ t ∈ (tokensOf text).1, t.reserved? ≠ some .operatorWord)

namespace Pairing

/-- The pairing of two texts that end together. -/
def ofWhole (L : Likeness) (earlier : List Token) (found : Findings)
    (hdepth : depthBehind 0 earlier.reverse = L.lift) (haround : ∀ s ∈ L.around, s.depth < L.lift)
    (hcut : L.exact → ∀ start stop piece, slice? text start stop = some piece →
      slice? text' (start + L.shift) (stop + L.shift) = some piece)
    (hends : L.Endings text text' (tokensOf text).2 (tokensOf text').2) : Pairing text text' where
  toLikeness := L
  earlier := earlier
  later := []
  found := found
  whole := True
  depth_earlier := hdepth
  around_lt := haround
  cut_eq := hcut
  ends_of_whole := fun _ => ⟨rfl, hends⟩
  ends_of_part := fun h => absurd trivial h

theorem depthBehind_nothing : depthBehind 0 ([] : List Token).reverse = 0 := rfl

variable {P : Pairing text text'}

/-- Whether two parsers stand at like places of their texts. -/
structure Together (P : Pairing text text') (c : Reading text) (c' : Reading text') : Prop where
  role_eq : c'.role = c.role
  delivered : ∃ ts, c'.delivered = ts ++ P.earlier ∧ List.Forall₂ P.Tokens c.delivered ts
  pending : ∃ ts, c'.pending = ts ++ P.later ∧ List.Forall₂ P.Tokens c.pending ts
  ahead_eq : c'.ahead = c.ahead
  scopes : ∃ inner, c'.scopes = inner ++ P.around ∧ List.Forall₂ P.Scopes c.scopes inner
  findings_shape : c'.findings.shape = (P.found.append c.findings).shape
  findings_eq : P.exact → c'.findings = P.found.append (c.findings.renamed P.qualify)

/-- Whether two runs end alike. Where the first text is only a part, a run that fails there says
nothing of the other. -/
def Outcomes (P : Pairing text text') (R : α → α' → Prop) :
    Except Failure (α × Reading text) → Except Failure (α' × Reading text') → Prop
  | .ok (a, c), .ok (a', c') => R a a' ∧ P.Together c c'
  | .error f, .error f' => P.whole → P.Failures text text' f f'
  | .error _, .ok _ => ¬P.whole
  | .ok _, .error _ => False

theorem outcomes_error_of_part {R : α → α' → Prop} (h : ¬P.whole) (f : Failure)
    (outcome : Except Failure (α' × Reading text')) : P.Outcomes R (.error f) outcome := by
  cases outcome with
  | ok => exact h
  | error => exact fun hwhole => absurd hwhole h

/-- Inside an item of a part, there is more to come. -/
theorem pending_ne_nil {c : Reading text} (h : ¬P.whole) (hitem : c.InItem) : c.pending ≠ [] := by
  intro hpending
  obtain ⟨⟨t, hlast, hkind⟩, -⟩ := P.ends_of_part h
  rw [← c.delivered_pending, hpending, List.append_nil, List.getLast?_reverse] at hlast
  exact hitem t hlast hkind

/-- A part at file scope has no operators. -/
theorem not_behindOperator {c : Reading text} (h : ¬P.whole) (htop : P.top) : ¬c.BehindOperator := by
  rintro ⟨u, hu, hword⟩
  exact (P.ends_of_part h).2 htop u (c.mem_tokensOf (.inl hu)) hword

/-- Inside an item of a part, one does not look behind it. -/
theorem lt_length_pending {c : Reading text} {n : Nat} (h : ¬P.whole)
    (hcareful : Request.Careful (.lookAt n) c) : n < c.pending.length := by
  have hne := pending_ne_nil h hcareful.1
  obtain ⟨⟨t, hlast, hkind⟩, -⟩ := P.ends_of_part h
  refine Nat.lt_of_not_le fun hle => ?_
  rw [← c.delivered_pending, List.getLast?_append_of_ne_nil _ hne] at hlast
  refine hcareful.2 t ?_ hkind
  rw [List.take_of_length_le hle]
  exact List.mem_of_getLast? hlast

namespace Together

variable {c : Reading text} {c' : Reading text'} {t t' : Token}

theorem depth_eq (h : P.Together c c') : c'.depth = c.depth + P.lift := by
  obtain ⟨ts, hts, hall⟩ := h.delivered
  have hnested := nested_tokensOf text
  rw [← c.delivered_pending, nested_append] at hnested
  rw [depth, depth, hts, List.reverse_append, depthBehind_append, P.depth_earlier]
  have hlift := Likeness.depthBehind_lift (List.forall₂_reverse_iff.2 hall) hnested.1
  rwa [Nat.zero_add] at hlift

/-- In a scope of the first text, the scopes around the second one stand before its name. -/
theorem enclosingName (h : P.Together c c') (hscopes : c.scopes ≠ []) :
    P.Names c.enclosingName c'.enclosingName := by
  intro hexact
  obtain ⟨inner, hinner, hall⟩ := h.scopes
  have hsegments : inner.map (·.segment) = c.scopes.map (·.segment) := by
    clear hinner hscopes
    generalize c.scopes = scopes at hall
    induction hall with
    | nil => rfl
    | cons hs _ ih => rw [List.map_cons, List.map_cons, hs.segments hexact, ih]
  rw [Reading.enclosingName, Reading.enclosingName, hinner, List.reverse_append, List.map_append,
    List.map_reverse (l := inner), hsegments, ← List.map_reverse, Likeness.qualify,
    intercalate_append _ (by simpa using hscopes)]

theorem note (h : P.Together c c') {x x' : Finding} (hx : P.Found Finding.shape Finding.renamed x x') :
    P.Together { c with findings := c.findings.add x } { c' with findings := c'.findings.add x' } := by
  refine ⟨h.role_eq, h.delivered, h.pending, h.ahead_eq, h.scopes, ?_, fun hexact => ?_⟩
  · rw [Findings.append_add, Findings.shape_add, Findings.shape_add, h.findings_shape, hx.shape_eq]
  · rw [Findings.renamed_add, Findings.append_add, h.findings_eq hexact, hx.eq hexact]

theorem advance (h : P.Together c c') {ts ts' : List Token} (hpending : c.pending = t :: ts)
    (hpending' : c'.pending = t' :: ts') :
    P.Tokens t t' ∧ P.Together (c.advance t ts hpending) (c'.advance t' ts' hpending') := by
  obtain ⟨us, hus, hall⟩ := h.pending
  rw [hpending] at hall
  obtain ⟨u, us, ht, hrest, rfl⟩ := List.forall₂_cons_left_iff.1 hall
  rw [hus, List.cons_append] at hpending'
  cases hpending'
  obtain ⟨vs, hvs, hdelivered⟩ := h.delivered
  obtain ⟨inner, hinner, hscopes⟩ := h.scopes
  refine ⟨ht, h.role_eq, ⟨t' :: vs, ?_, .cons ht hdelivered⟩, ⟨us, rfl, hrest⟩, ?_, ?_,
    h.findings_shape, h.findings_eq⟩
  · simp only [Reading.advance, hvs, List.cons_append]
  · simp only [Reading.advance, h.ahead_eq]
  · simp only [Reading.advance, hinner]
    exact Likeness.scopes_scopesBehind P.around_lt ht hscopes

/-- Reading on, with more to come or at the ends of both texts. -/
theorem read (h : P.Together c c') (hmore : P.whole ∨ c.pending ≠ []) :
    P.Outcomes P.Tokens c.read c'.read := by
  obtain ⟨us, hus, hall⟩ := h.pending
  cases hpending : c.pending with
  | cons t ts =>
    rw [hpending] at hall
    obtain ⟨u, us, ht, hrest, rfl⟩ := List.forall₂_cons_left_iff.1 hall
    rw [read_of_pending hpending, read_of_pending hus]
    exact h.advance hpending hus
  | nil =>
    obtain ⟨hlater, hends⟩ := P.ends_of_whole (hmore.resolve_right fun hne => hne hpending)
    rw [hpending, List.forall₂_nil_left_iff] at hall
    rw [hall, hlater] at hus
    rw [read_of_pending_nil hpending, read_of_pending_nil hus]
    cases hend : (tokensOf text).2 <;> cases hend' : (tokensOf text').2 <;>
      rw [hend, hend'] at hends
    · exact fun _ => hends
    · exact hends.elim
    · exact hends.elim
    · exact ⟨hends, h⟩

theorem look (h : P.Together c c') {n : Nat} (hmore : P.whole ∨ n < c.pending.length)
    (hclear : ∀ t ∈ c.pending.take n, t.kind.isBrace = false)
    (hclear' : ∀ t ∈ c'.pending.take n, t.kind.isBrace = false) :
    P.Together (c.look n hclear) (c'.look n hclear') := by
  refine ⟨h.role_eq, h.delivered, h.pending, ?_, h.scopes, h.findings_shape, h.findings_eq⟩
  obtain ⟨us, hus, hall⟩ := h.pending
  have hlength := hall.length_eq
  simp only [Reading.look, h.ahead_eq, hus, List.length_append]
  rcases hmore with hwhole | hlt
  · simp [(P.ends_of_whole hwhole).1, hlength]
  · omega

theorem retreat (h : P.Together c c') (ht : P.Tokens t t') (hholds : c.Holds t)
    (hholds' : c'.Holds t') : P.Together (c.retreat t hholds) (c'.retreat t' hholds') := by
  obtain ⟨vs, hvs, hdelivered⟩ := h.delivered
  obtain ⟨us, hus, hpending⟩ := h.pending
  rw [hholds.delivered_eq] at hdelivered
  obtain ⟨v, vs, -, hrest, rfl⟩ := List.forall₂_cons_left_iff.1 hdelivered
  refine ⟨h.role_eq, ⟨vs, ?_, hrest⟩, ⟨t' :: us, ?_, .cons ht hpending⟩, ?_, h.scopes,
    h.findings_shape, h.findings_eq⟩
  · simp only [Reading.retreat, hvs, List.cons_append, List.tail_cons]
  · simp only [Reading.retreat, hus, List.cons_append]
  · simp only [Reading.retreat, h.ahead_eq]

theorem enter (h : P.Together c c') {segment segment' : String} {opening opening' : Token}
    (hsegment : P.Texts segment segment') (hopening : P.Tokens opening opening')
    (henter : c.Holds opening ∧ opening.kind = .lBrace)
    (henter' : c'.Holds opening' ∧ opening'.kind = .lBrace) :
    P.Together (c.entered segment opening henter) (c'.entered segment' opening' henter') := by
  obtain ⟨inner, hinner, hscopes⟩ := h.scopes
  refine ⟨h.role_eq, h.delivered, h.pending, h.ahead_eq, ⟨⟨segment', opening'.depth⟩ :: inner, ?_,
    .cons ⟨hopening.depth_eq, hsegment⟩ hscopes⟩, h.findings_shape, h.findings_eq⟩
  simp only [Reading.entered, hinner, List.cons_append]

end Together

/-- The answer to a request that meets a contract, or the failure. -/
theorem machine_cases {allowed : Request → Reading text → Prop} {Q : α → Reading text → Prop}
    {request : Request} {next : request.Answer → Parser α} {c : Reading text}
    (h : (ask request next).Obeys allowed Q c) :
    (∃ answer d, Reading.machine request c = .ok (answer, d) ∧
      (ask request next).run Reading.machine c = (next answer).run Reading.machine d ∧
      (next answer).Obeys allowed Q d) ∨
    ∃ f, Reading.machine request c = .error f ∧
      (ask request next).run Reading.machine c = .error f ∧ f.Expected := by
  rw [obeys_ask] at h
  have h := h.2
  cases hc : Reading.machine request c with
  | ok result =>
    rw [hc] at h
    exact .inl ⟨result.1, result.2, rfl, by simp only [Parser.run, hc], h⟩
  | error f =>
    rw [hc] at h
    exact .inr ⟨f, rfl, by simp only [Parser.run, hc], h⟩

variable {R : α → α' → Prop} {Q : α → Reading text → Prop} {Q' : α' → Reading text' → Prop}
  {c : Reading text} {c' : Reading text'}

theorem Outcomes.mono {S : α → α' → Prop} {outcome : Except Failure (α × Reading text)}
    {outcome' : Except Failure (α' × Reading text')} (h : P.Outcomes R outcome outcome')
    (hS : ∀ a a', R a a' → S a a') : P.Outcomes S outcome outcome' := by
  cases outcome <;> cases outcome'
  · exact h
  · exact h
  · exact h
  · exact ⟨hS _ _ h.1, h.2⟩

namespace Together

theorem next (h : P.Together c c') :
    P.Outcomes P.Tokens (Reading.machine .next c) (Reading.machine .next c') := by
  by_cases hmore : P.whole ∨ c.pending ≠ []
  · have hread := h.read hmore
    simp only [Reading.machine]
    cases hc : c.read <;> cases hc' : c'.read <;> rw [hc, hc'] at hread
    · exact hread
    · rename_i f result'
      obtain ⟨t', d'⟩ := result'
      simp only
      split
      · exact fun hwhole => absurd hwhole hread
      · exact hread
    · exact hread.elim
    · rename_i result result'
      obtain ⟨t, d⟩ := result
      obtain ⟨t', d'⟩ := result'
      obtain ⟨ht, hd⟩ := hread
      simp only [ht.kind_eq]
      by_cases hend : t.kind = .endOfText
      · rw [if_pos hend, if_pos hend]
        exact fun _ => Likeness.failures_rejection ht fun _ _ => rfl
      · rw [if_neg hend, if_neg hend]
        exact ⟨ht, hd⟩
  · obtain ⟨hpart, hpending⟩ := not_or.1 hmore
    rw [ne_eq, Decidable.not_not] at hpending
    simp only [Reading.machine, read_of_pending_nil hpending]
    cases hend : (tokensOf text).2 with
    | error e => exact outcomes_error_of_part hpart _ _
    | ok t =>
      simp only [if_pos (congrArg Token.kind (ending_tokensOf hend))]
      exact outcomes_error_of_part hpart _ _

theorem nextOrEnd (h : P.Together c c') (htop : P.top) (hcareful : Request.Careful .nextOrEnd c) :
    P.Outcomes P.Tokens (Reading.machine .nextOrEnd c) (Reading.machine .nextOrEnd c') := by
  by_cases hwhole : P.whole
  · exact h.read (.inl hwhole)
  · have hitem := hcareful.resolve_right (not_behindOperator hwhole htop)
    exact h.read (.inr (pending_ne_nil hwhole hitem))

theorem lookAt (h : P.Together c c') {n : Nat} (hcareful : Request.Careful (.lookAt n) c)
    (hclear : ∀ t ∈ c.pending.take n, t.kind.isBrace = false)
    (hclear' : ∀ t ∈ c'.pending.take n, t.kind.isBrace = false) :
    P.Outcomes P.Tokens (Reading.machine (.lookAt n) c) (Reading.machine (.lookAt n) c') := by
  have hmore : P.whole ∨ n < c.pending.length := by
    by_cases hwhole : P.whole
    · exact .inl hwhole
    · exact .inr (lt_length_pending hwhole hcareful)
  have hlook := h.look hmore hclear hclear'
  obtain ⟨us, hus, hall⟩ := h.pending
  simp only [Reading.machine, dif_pos hclear, dif_pos hclear']
  by_cases hlt : n < c.pending.length
  · have hlt' : n < us.length := by rwa [← hall.length_eq]
    have hseen' : c'.pending[n]? = some us[n] := by
      rw [hus, List.getElem?_append_left hlt', List.getElem?_eq_getElem hlt']
    simp only [List.getElem?_eq_getElem hlt, hseen']
    exact ⟨hall.get hlt hlt', hlook⟩
  · obtain ⟨hlater, hends⟩ := P.ends_of_whole (hmore.resolve_right hlt)
    have hle : c.pending.length ≤ n := Nat.le_of_not_lt hlt
    have hle' : c'.pending.length ≤ n := by
      rw [hus, hlater, List.append_nil, ← hall.length_eq]
      exact hle
    simp only [List.getElem?_eq_none hle, List.getElem?_eq_none hle']
    cases hend : (tokensOf text).2 <;> cases hend' : (tokensOf text').2 <;>
      rw [hend, hend'] at hends
    · exact fun _ => hends
    · exact hends.elim
    · exact hends.elim
    · exact ⟨hends, hlook⟩

end Together

/-- A request on both sides, and going on from its answers. -/
theorem outcomes_of_request {request request' : Request} {k : request.Answer → Parser α}
    {k' : request'.Answer → Parser α'} (hc : (ask request k).Meets Q c)
    (hc' : (ask request' k').Meets Q' c')
    (h : P.Outcomes (fun a a' => ∀ {d d'}, P.Together d d' → (k a).Meets Q d → (k' a').Meets Q' d' →
      P.Outcomes R ((k a).run Reading.machine d) ((k' a').run Reading.machine d'))
      (Reading.machine request c) (Reading.machine request' c')) :
    P.Outcomes R ((ask request k).run Reading.machine c)
      ((ask request' k').run Reading.machine c') := by
  rcases machine_cases hc with ⟨a, d, ha, hrun, hd⟩ | ⟨f, hf, hrun, -⟩ <;>
    rcases machine_cases hc' with ⟨a', d', ha', hrun', hd'⟩ | ⟨f', hf', hrun', -⟩
  · rw [ha, ha'] at h
    rw [hrun, hrun']
    exact h.1 h.2 hd hd'
  · rw [ha, hf'] at h
    exact h.elim
  · rw [hf, ha'] at h
    rw [hrun]
    exact outcomes_error_of_part h f _
  · rw [hf, hf'] at h
    rw [hrun, hrun']
    exact h

theorem clear_of_lookAt {n : Nat} {k : Token → Parser α}
    (h : (ask (.lookAt n) k).Meets Q c) : ∀ t ∈ c.pending.take n, t.kind.isBrace = false := by
  by_cases hclear : ∀ t ∈ c.pending.take n, t.kind.isBrace = false
  · exact hclear
  · have h := (obeys_ask.1 h).2
    simp only [Reading.machine, dif_neg hclear] at h
    exact h.elim

theorem putBack_cases {t : Token} {k : Unit → Parser α} (h : (ask (.putBack t) k).Meets Q c) :
    (∃ hholds : c.Holds t, Reading.machine (.putBack t) c = .ok ((), c.retreat t hholds)) ∨
      t.kind = .endOfText ∧ Reading.machine (.putBack t) c = .ok ((), c) := by
  by_cases hholds : c.Holds t
  · exact .inl ⟨hholds, by simp only [Reading.machine, dif_pos hholds]⟩
  · by_cases hmark : c.pending = [] ∧ (tokensOf text).2.toOption = some t
    · refine .inr ⟨?_, by simp only [Reading.machine, dif_neg hholds, if_pos hmark]⟩
      cases hend : (tokensOf text).2 with
      | error e => simp [hend, Except.toOption] at hmark
      | ok u =>
        have hu : u = t := by simpa [hend, Except.toOption] using hmark.2
        rw [← hu, ending_tokensOf hend]
    · have h := (obeys_ask.1 h).2
      simp only [Reading.machine, dif_neg hholds, if_neg hmark] at h
      exact h.elim

theorem holds_of_enter {segment : String} {opening : Token} {k : Unit → Parser α}
    (h : (ask (.enter segment opening) k).Meets Q c) :
    c.Holds opening ∧ opening.kind = .lBrace := by
  by_cases henter : c.Holds opening ∧ opening.kind = .lBrace
  · exact henter
  · have h := (obeys_ask.1 h).2
    simp only [Reading.machine, dif_neg henter] at h
    exact h.elim

theorem ahead_of_enclosingName {k : String → Parser α}
    (h : (ask .enclosingName k).Meets Q c) : c.ahead = 0 := by
  by_cases hahead : c.ahead = 0
  · exact hahead
  · have h := (obeys_ask.1 h).2
    simp only [Reading.machine, if_neg hahead] at h
    exact h.elim

theorem ahead_of_depth {k : Nat → Parser α} (h : (ask .depth k).Meets Q c) : c.ahead = 0 := by
  by_cases hahead : c.ahead = 0
  · exact hahead
  · have h := (obeys_ask.1 h).2
    simp only [Reading.machine, if_neg hahead] at h
    exact h.elim

theorem exists_of_cut {what : Cut} {start stop : Nat} {k : String → Parser α}
    (h : (ask (.cut what start stop) k).Meets Q c)
    (hwhat : what ≠ .token ∧ what ≠ .parameterName) :
    ∃ piece, slice? text start stop = some piece := by
  cases hpiece : slice? text start stop with
  | some piece => exact ⟨piece, rfl⟩
  | none =>
    have h := (obeys_ask.1 h).2
    simp only [Reading.machine, hpiece] at h
    exact (h.elim hwhat.1 hwhat.2).elim

theorem outcomes_of_alike {p : Parser α} {p' : Parser α'} (h : P.Alike R p p')
    (ht : P.Together c c') (hc : p.Meets Q c) (hc' : p'.Meets Q' c') :
    P.Outcomes R (p.run Reading.machine c) (p'.run Reading.machine c') := by
  induction h generalizing c c' with
  | done h => exact ⟨h, ht⟩
  | role _ ih =>
    refine outcomes_of_request hc hc' ⟨?_, ht⟩
    rw [ht.role_eq]
    exact ih _
  | next _ ih => exact outcomes_of_request hc hc' (ht.next.mono fun t t' h => ih t t' h)
  | nextOrEnd htop _ ih =>
    have hnext := ht.nextOrEnd htop (obeys_ask.1 hc).1
    exact outcomes_of_request hc hc' (hnext.mono fun t t' h => ih t t' h)
  | @lookAt n k k' _ ih =>
    have hlook := ht.lookAt (obeys_ask.1 hc).1 (clear_of_lookAt hc) (clear_of_lookAt hc')
    exact outcomes_of_request hc hc' (hlook.mono fun t t' h => ih t t' h)
  | @putBack t t' k k' hu _ ih =>
    refine outcomes_of_request hc hc' ?_
    rcases putBack_cases hc with ⟨hholds, h⟩ | ⟨hkind, h⟩ <;>
      rcases putBack_cases hc' with ⟨hholds', h'⟩ | ⟨hkind', h'⟩ <;> rw [h, h']
    · exact ⟨ih, ht.retreat hu hholds hholds'⟩
    · exact absurd (hu.kind_eq.symm.trans hkind') hholds.kind_ne
    · exact absurd (hu.kind_eq.trans hkind) hholds'.kind_ne
    · exact ⟨ih, ht⟩
  | enter hsegment hopening _ ih =>
    have henter := holds_of_enter hc
    have henter' := holds_of_enter hc'
    refine outcomes_of_request hc hc' ?_
    simp only [Reading.machine, dif_pos henter, dif_pos henter']
    exact ⟨ih, ht.enter hsegment hopening henter henter'⟩
  | enclosingName _ ih =>
    refine outcomes_of_request hc hc' ?_
    simp only [Reading.machine, if_pos (ahead_of_enclosingName hc),
      if_pos (ahead_of_enclosingName hc')]
    exact ⟨ih _ _ (ht.enclosingName (obeys_ask.1 hc).1), ht⟩
  | depth _ ih =>
    refine outcomes_of_request hc hc' ?_
    simp only [Reading.machine, if_pos (ahead_of_depth hc), if_pos (ahead_of_depth hc'), ht.depth_eq]
    exact ⟨ih _, ht⟩
  | tokensLeft _ ih => exact outcomes_of_request hc hc' ⟨ih _ _, ht⟩
  | cut hwhat hstart hstop _ ih =>
    obtain ⟨piece, hpiece⟩ := exists_of_cut hc hwhat
    obtain ⟨piece', hpiece'⟩ := exists_of_cut hc' hwhat
    refine outcomes_of_request hc hc' ?_
    simp only [Reading.machine, hpiece, hpiece']
    refine ⟨ih _ _ fun hexact => ?_, ht⟩
    have heq := P.cut_eq hexact _ _ _ hpiece
    rw [← hstart hexact, ← hstop hexact, hpiece', Option.some.injEq] at heq
    exact heq
  | note hfinding _ ih =>
    exact outcomes_of_request hc hc' ⟨ih, ht.note hfinding⟩
  | reject hu hfault =>
    exact outcomes_of_request hc hc' fun _ => Likeness.failures_rejection hu hfault
  | abort => exact outcomes_of_request hc hc' fun _ => rfl
  | stalled => exact (obeys_ask.1 hc).2.elim
  | stalled' => exact (obeys_ask.1 hc').2.elim

end Pairing

end ReflectionTables.Parsing
