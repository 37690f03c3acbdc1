import ReflectionTables.Proofs.BodyForests
import ReflectionTables.Proofs.RunRelations
import ReflectionTables.Proofs.SparingParsers
/-!
# The bodies that a parser opens on its way

A run on any machine, from any state, is cut into the bodies that it opens one after the other and what it
asks for between them. A record is read in a body of its own, with the bodies in it, and what a body depends
on is handed down from the records around it. Behind each body a token is read.
-/

namespace ReflectionTables.Reflected

open Scanning

def Return.finding : Return → Finding
  | .reflected type => .type type
  | .dropped declaration => .remark (.notReflected declaration.name)

end ReflectionTables.Reflected

namespace ReflectionTables.Parsing

open Scanning Reflected Parsing.Parser

variable {α β σ τ : Type}

/-- Enters the scope of a body and declares it. The answer is its name. -/
def openScope (tag : TypeTag) (segment : String) (opening : Token) : Parser String := do
  enter segment opening
  let qualified ← enclosingName
  noteDeclaration ⟨tag, qualified⟩
  return qualified

def noteReturns (returns : List Return) : Parser Unit := returns.forM fun r => note r.finding

@[simp] theorem noteReturns_singleton (r : Return) : noteReturns [r] = note r.finding := bind_pure _

theorem enumBody_eq (name opening : Token) (dependent : Bool) :
    enumBody name opening dependent = (do
      if (← roleOfFile) = .source then discard (throughBrace opening)
      else
        let qualified ← openScope .enumeration name.text opening
        let enumerators ← enumeratorNames opening
        noteReturns [(ReflectedType.enumeration ⟨qualified, enumerators⟩).return dependent]) := by
  cases dependent <;> simp only [noteReturns_singleton] <;> rfl

theorem recordBody_eq (body : BodyParser) (key : ClassKey) (name : Token)
    (arguments? : Option String) (opening : Token) (generic : String) (dependent : Bool) :
    recordBody body key name arguments? opening generic dependent = (do
      let segment ← recordSegment name.text arguments? generic dependent
      let qualified ← openScope (.record key) segment opening
      let (_, members) ← body ⟨opening, ⟨name.text, qualified, generic, dependent⟩,
        (TypeTag.record key).startsPublic⟩
      noteReturns ((RecordType.mk key qualified generic members).returns dependent)) := by
  have hreturn : ∀ (qualified : String) (members : List Member),
      noteReturns ((RecordType.mk key qualified generic members).returns dependent) =
        if members = [] then return
        else if dependent then remark (.notReflected qualified)
        else noteType (.record ⟨key, qualified, generic, members⟩) := by
    intro qualified members
    rw [RecordType.returns]
    split
    · rfl
    · rw [noteReturns_singleton]
      cases dependent <;> rfl
  simp only [hreturn]
  rfl

/-- What may be asked between bodies: no scope is entered, and nothing is learnt of types. In a body
nothing is announced either. -/
def Request.Plain (around : Option BodyContext) : Request → Prop
  | .enter _ _ => False
  | .note (.announced _) => around = none
  | .note (.remark (.unparsed _)) => True
  | .note _ => False
  | _ => True

/-- Whether a type that is read in a body, or in none, has a name that depends on parameters. -/
def dependsIn (around : Option BodyContext) : Bool := around.any (·.nestsDependent)

structure Closes (m : Machine σ) (opening closing : Token) (s : σ) : Prop where
  kind_eq : closing.kind = .rBrace
  depth_eq : closing.depth = opening.depth
  last : ∃ s₀, next.run m s₀ = .ok (closing, s)

/-- The bodies that are opened one after the other on the way from one state to another, in a body or in
none. What is asked between them is plain. Only what is in no body may enter a namespace, and in a body a
record has the parameters of the record around it. -/
inductive Opened (m : Machine σ) : Option BodyContext → σ → Bodies → σ → Prop
  | refl (around : Option BodyContext) (s : σ) : Opened m around s .none s
  | step {around : Option BodyContext} {s s₁ s' : σ} {bodies : Bodies} {request : Request}
      {answer : request.Answer} (plain : request.Plain around)
      (answered : m request s = .ok (answer, s₁)) (rest : Opened m around s₁ bodies s') :
    Opened m around s bodies s'
  | namespaceBody {s s₁ s' : σ} {bodies : Bodies} {segment : String} {opening : Token}
      (entered : (enter segment opening).run m s = .ok ((), s₁)) (rest : Opened m none s₁ bodies s') :
    Opened m none s bodies s'
  | enumeration {around : Option BodyContext} {s s₁ s₂ s₃ s₄ s' : σ} {rest : Bodies} {type : EnumType}
      {segment : String} {opening closing after : Token}
      (opened : (openScope .enumeration segment opening).run m s = .ok (type.name, s₁))
      (read : (enumeratorNames opening).run m s₁ = .ok (type.enumerators, s₂))
      (closed : Closes m opening closing s₂)
      (left : (noteReturns [(ReflectedType.enumeration type).return (dependsIn around)]).run m s₂ =
        .ok ((), s₃))
      (followed : next.run m s₃ = .ok (after, s₄)) (further : Opened m around s₄ rest s') :
    Opened m around s (.enumeration type opening closing rest) s'
  | record {around : Option BodyContext} {s s₁ s₂ s₃ s₄ s' : σ} {inner rest : Bodies} {type : RecordType}
      {typeName segment : String} {opening closing after : Token}
      (opened : (openScope (.record type.key) segment opening).run m s = .ok (type.name, s₁))
      (read : (recordMembers ⟨opening, ⟨typeName, type.name, type.generic, dependsIn around⟩,
        (TypeTag.record type.key).startsPublic⟩).run m s₁ = .ok ((closing, type.members), s₂))
      (closed : Closes m opening closing s₂)
      (inside : Opened m (some ⟨typeName, type.name, type.generic, dependsIn around⟩) s₁ inner s₂)
      (inherited : ∀ ctx, around = some ctx → type.generic = ctx.generic)
      (left : (noteReturns (type.returns (dependsIn around))).run m s₂ = .ok ((), s₃))
      (followed : next.run m s₃ = .ok (after, s₄)) (further : Opened m around s₄ rest s') :
    Opened m around s (.record type opening closing inner rest) s'

instance (role : FileRole) : Request.Admits role (Request.Plain none) where
  of_quiet request h := by
    cases request with
    | note finding =>
      cases finding with
      | announced => rfl
      | remark r =>
        cases r with
        | unparsed => trivial
        | notReflected => exact h.elim
      | _ => exact h.elim
    | enter => exact h.elim
    | _ => trivial

instance (role : FileRole) (around : Option BodyContext) :
    Request.AdmitsForward role (Request.Plain around) where
  of_forward request h := by
    cases request with
    | note finding =>
      cases finding with
      | remark r =>
        cases r with
        | unparsed => trivial
        | notReflected => exact h.elim
      | _ => exact h.elim
    | enter => exact h.elim
    | _ => trivial

namespace Opened

variable {m : Machine σ} {around : Option BodyContext} {s s₁ s' : σ} {bodies bodies' : Bodies}

theorem trans (h : Opened m around s bodies s₁) (h' : Opened m around s₁ bodies' s') :
    Opened m around s (bodies.append bodies') s' := by
  induction h with
  | refl => exact h'
  | step plain answered rest ih => exact .step plain answered (ih h')
  | namespaceBody entered rest ih => exact .namespaceBody entered (ih h')
  | enumeration opened read closed left followed further ih =>
    exact .enumeration opened read closed left followed (ih h')
  | record opened read closed inside inherited left followed further ihinside ih =>
    exact .record opened read closed inside inherited left followed (ih h')

theorem of_follows {m' : Machine τ} {view : σ → τ} (hview : m.Follows m' view)
    (h : Opened m around s bodies s') : Opened m' around (view s) bodies (view s') := by
  have hclosed : ∀ {opening closing : Token} {s : σ}, Closes m opening closing s →
      Closes m' opening closing (view s) := by
    intro opening closing s h
    obtain ⟨s₀, hlast⟩ := h.last
    exact ⟨h.kind_eq, h.depth_eq, view s₀, run_of_follows hview hlast⟩
  induction h with
  | refl => exact .refl _ _
  | step plain answered rest ih => exact .step plain (hview _ _ _ _ answered) ih
  | namespaceBody entered rest ih => exact .namespaceBody (run_of_follows hview entered) ih
  | enumeration opened read closed left followed further ih =>
    exact .enumeration (run_of_follows hview opened) (run_of_follows hview read) (hclosed closed)
      (run_of_follows hview left) (run_of_follows hview followed) ih
  | record opened read closed inside inherited left followed further ihinside ih =>
    exact .record (run_of_follows hview opened) (run_of_follows hview read) (hclosed closed) ihinside
      inherited (run_of_follows hview left) (run_of_follows hview followed) ih

end Opened

def Parser.Opens (m : Machine σ) (around : Option BodyContext) (p : Parser α) : Prop :=
  p.Relates m fun s _ s' => ∃ bodies, Opened m around s bodies s'

/-- Whether all that a parser does is to open bodies, once the next token is read. -/
def Parser.OpensToNext (m : Machine σ) (around : Option BodyContext) (p : Parser α) : Prop :=
  p.Relates m fun s _ s' => ∀ after s'', next.run m s' = .ok (after, s'') →
    ∃ bodies, Opened m around s bodies s''

/-- Whether a parser of bodies opens what is in them, and where it ends it has read a body. -/
def BodyParser.OpensInside (body : BodyParser) (m : Machine σ) : Prop :=
  ∀ task, (body task).Opens m (some task.context) ∧ (body task).RunsAs m (recordMembers task)

section Opens

variable {m : Machine σ} {around : Option BodyContext}

theorem Parser.Opens.of_opened {p : Parser α} (hp : p.Opens m around) {s s₁ s' : σ} {a : α}
    (h : ∃ bodies, Opened m around s bodies s₁) (hrun : p.run m s₁ = .ok (a, s')) :
    ∃ bodies, Opened m around s bodies s' := by
  obtain ⟨bodies, h⟩ := h
  obtain ⟨bodies', h'⟩ := hp s₁ a s' hrun
  exact ⟨bodies.append bodies', h.trans h'⟩

theorem Parser.Opens.bind {p : Parser α} {f : α → Parser β} (hp : p.Opens m around)
    (hf : ∀ a, (f a).Opens m around) : (p >>= f).Opens m around := by
  refine Relates.bind hp hf ?_
  rintro s a s₁ b s' ⟨bodies, h⟩ ⟨bodies', h'⟩
  exact ⟨bodies.append bodies', h.trans h'⟩

/-- What reads a token first may stand behind a body. -/
theorem Parser.OpensToNext.bind {p : Parser α} {f : α → Token → Parser β} (hp : p.OpensToNext m around)
    (hf : ∀ a token, (f a token).Opens m around) :
    (p >>= fun a => next >>= f a).Opens m around := by
  intro s b s' hrun
  obtain ⟨a, s₁, hfirst, hrest⟩ := exists_of_run_bind hrun
  obtain ⟨token, s₂, hnext, hrest⟩ := exists_of_run_bind hrest
  exact (hf a token).of_opened (hp s a s₁ hfirst token s₂ hnext) hrest

theorem opens_pure {a : α} : (pure a : Parser α).Opens m around :=
  relates_pure fun s => ⟨.none, .refl around s⟩

theorem opens_fail {token : Token} {fault : ParseFault} : (fail token fault : Parser α).Opens m around :=
  relates_fail

theorem opens_recurBy {measure : α → Nat → Nat} {body : (α → Parser β) → α → Parser β}
    (round : ∀ again, (∀ a, (again a).Opens m around) → ∀ a, (body again a).Opens m around) (a : α) :
    (Parser.recurBy measure body a).Opens m around := by
  apply relates_recurBy (fun _ s _ s' => ∃ bodies, Opened m around s bodies s')
  · rintro s left s₁ a b s' hanswer ⟨bodies, h⟩
    have hplain : Request.Plain around .tokensLeft := trivial
    exact ⟨bodies, .step hplain hanswer h⟩
  · intro again hagain _ a
    exact round again hagain a

theorem opens_loop {body : Parser β → Parser β}
    (round : ∀ again, again.Opens m around → (body again).Opens m around) : (loop body).Opens m around :=
  opens_recurBy (fun again ih a => round (again a) (ih a)) ()

theorem opens_next : next.Opens m around := by
  intro s token s' hrun
  have hplain : Request.Plain around .next := trivial
  exact ⟨.none, .step hplain (answered_of_run hrun) (.refl around s')⟩

/-- What is left of an expected token, once it is read. -/
theorem opens_expected {kind : TokenKind} {what : Expectation} {token : Token} :
    (Functor.discard (if token.kind = kind then return token
      else fail token (.expected what token) : Parser Token)).Opens m around := by
  split
  · exact opens_pure
  · exact relates_fail_bind

theorem discard_expect_eq (kind : TokenKind) (what : Expectation) :
    Functor.discard (expect kind what) = next >>= fun token =>
      Functor.discard (if token.kind = kind then return token
        else fail token (.expected what token) : Parser Token) := rfl

theorem opens_putBack {token : Token} : (putBack token).Opens m around := by
  intro s u s' hrun
  have hplain : Request.Plain around (.putBack token) := trivial
  exact ⟨.none, .step hplain (answered_of_run hrun) (.refl around s')⟩

theorem Parser.Opens.toNext {p : Parser α} (hp : p.Opens m around) : p.OpensToNext m around := by
  intro s a s₁ hrun after s' hnext
  exact opens_next.of_opened (hp s a s₁ hrun) hnext

theorem Parser.Opens.bind_toNext {p : Parser α} {f : α → Parser β} (hp : p.Opens m around)
    (hf : ∀ a, (f a).OpensToNext m around) : (p >>= f).OpensToNext m around := by
  refine Relates.bind hp hf ?_
  rintro s a s₁ b s' ⟨bodies, h⟩ hrest after s'' hnext
  obtain ⟨bodies', h'⟩ := hrest after s'' hnext
  exact ⟨bodies.append bodies', h.trans h'⟩

variable [m.HasRole]

theorem opened_of_always {p : Parser α} {Q : α → Prop} {s s' : σ} {a : α}
    (h : p.Always (m.roleOf s) (Request.Plain around) Q) (hrun : p.run m s = .ok (a, s')) :
    Opened m around s .none s' := by
  apply Always.run_induction _ _ h hrun
  · exact fun s => .refl around s
  · exact fun request s answer s₁ s' hplain hanswer rest => .step hplain hanswer rest

theorem opens_of_always {p : Parser α} {Q : FileRole → α → Prop}
    (h : ∀ role, p.Always role (Request.Plain around) (Q role)) : p.Opens m around := by
  intro s a s' hrun
  exact ⟨.none, opened_of_always (h (m.roleOf s)) hrun⟩

theorem opens_bind_of_always {p : Parser α} {f : α → Parser β} {Q : FileRole → α → Prop}
    (h : ∀ role, p.Always role (Request.Plain around) (Q role)) (hf : ∀ a, (f a).Opens m around) :
    (p >>= f).Opens m around :=
  (opens_of_always h).bind hf

end Opens

section Enumerations

variable {m : Machine σ} {around : Option BodyContext} {name opening : Token}

theorem relates_throughEnumeratorValue (m : Machine σ) (opening : Token) :
    (throughEnumeratorValue opening).Relates m fun _ ended s' =>
      ended = true → ∃ closing, Closes m opening closing s' := by
  apply relates_recurBy (fun _ _ ended s' => ended = true → ∃ closing, Closes m opening closing s')
  · intro s left s₁ u ended s' _ h
    exact h
  intro again ih _ u s ended s' hrun
  obtain ⟨token, s₁, hnext, hrun⟩ := exists_of_run_bind hrun
  split at hrun
  · cases hrun
    simp
  · split at hrun
    · rename_i hkind hdepth
      cases hrun
      exact fun _ => ⟨token, hkind, hdepth, s, hnext⟩
    · exact ih () s₁ ended s' hrun
  · obtain ⟨u, s₂, -, hrun⟩ := exists_of_run_bind hrun
    exact ih () s₂ ended s' hrun
  · obtain ⟨u, s₂, -, hrun⟩ := exists_of_run_bind hrun
    exact ih () s₂ ended s' hrun
  · exact ih () s₁ ended s' hrun

/-- The list of enumerators ends at the brace that closes it. -/
theorem relates_enumeratorNames (m : Machine σ) (opening : Token) :
    (enumeratorNames opening).Relates m fun _ _ s' => ∃ closing, Closes m opening closing s' := by
  apply relates_recurBy (fun _ _ _ s' => ∃ closing, Closes m opening closing s')
  · intro s left s₁ names more s' _ h
    exact h
  intro again ih _ names s more s' hrun
  obtain ⟨token, s₁, hnext, hrun⟩ := exists_of_run_bind hrun
  split at hrun
  · rename_i hcloses
    cases hrun
    exact ⟨token, hcloses.1, hcloses.2, s, hnext⟩
  split at hrun
  · exact (relates_fail_bind (S := fun _ _ _ => False) s₁ more s' hrun).elim
  obtain ⟨after, s₂, hafter, hrun⟩ := exists_of_run_bind hrun
  split at hrun
  · exact ih _ s₂ more s' hrun
  · rename_i hkind
    split at hrun
    · rename_i hdepth
      cases hrun
      exact ⟨after, hkind, hdepth, s₁, hafter⟩
    · exact (relates_fail (R := fun _ _ _ => False) s₂ more s' hrun).elim
  · obtain ⟨ended, s₃, hvalue, hrun⟩ := exists_of_run_bind hrun
    split at hrun
    · rename_i hended
      cases hrun
      exact relates_throughEnumeratorValue m opening s₂ ended _ hvalue hended
    · exact ih _ s₃ more s' hrun
  · exact (relates_fail (R := fun _ _ _ => False) s₂ more s' hrun).elim

variable [m.HasRole]

theorem opensToNext_enumBody : (enumBody name opening (dependsIn around)).OpensToNext m around := by
  rw [enumBody_eq]
  have hrole : roleOfFile.Opens m around := opens_of_always fun _ => always_roleOfFile
  apply hrole.bind_toNext
  intro role
  split
  · have hbrace : (Functor.discard (throughBrace opening)).Opens m around :=
      opens_of_always fun _ => always_throughBrace.discard
    exact hbrace.toNext
  intro s a s' hrun after s'' hnext
  obtain ⟨qualified, s₁, hopened, hrun⟩ := exists_of_run_bind hrun
  obtain ⟨enumerators, s₂, hread, hleft⟩ := exists_of_run_bind hrun
  obtain ⟨closing, hcloses⟩ := relates_enumeratorNames m opening s₁ _ s₂ hread
  exact ⟨.enumeration ⟨qualified, enumerators⟩ opening closing .none,
    .enumeration hopened hread hcloses hleft hnext (.refl around s'')⟩

/-- Whether all that was done to read an enumeration up to a form is to open bodies. If the form has a
body, the token behind it is still to be read. -/
def EnumForm.Follows (m : Machine σ) (around : Option BodyContext) (s : σ) (form : EnumForm) (s' : σ) : Prop :=
  match form with
  | .named _ => ∀ after s'', next.run m s' = .ok (after, s'') → ∃ bodies, Opened m around s bodies s''
  | _ => ∃ bodies, Opened m around s bodies s'

theorem relates_enumAfterWord :
    (enumAfterWord (dependsIn around)).Relates m (EnumForm.Follows m around) := by
  intro s form s' hrun
  obtain ⟨word, s₁, hword, hrun⟩ := exists_of_run_bind hrun
  obtain ⟨first, s₂, hfirst, hrun⟩ := exists_of_run_bind hrun
  obtain ⟨token, s₃, htoken, hrun⟩ := exists_of_run_bind hrun
  obtain ⟨last, s₄, hlast, hrun⟩ := exists_of_run_bind hrun
  have hword₁ : Opened m around s .none s₁ := opened_of_always always_next hword
  have hfirst₂ : Opened m around s₁ .none s₂ := opened_of_always always_nextIf hfirst
  have htoken₃ : Opened m around s₂ .none s₃ := opened_of_always always_nextIf htoken
  have hlast₄ : Opened m around s₃ .none s₄ := opened_of_always always_afterUnderlyingType hlast
  have hlead : Opened m around s .none s₄ := ((hword₁.trans hfirst₂).trans htoken₃).trans hlast₄
  split at hrun
  · split at hrun
    · cases hrun
      exact ⟨.none, hlead⟩
    · obtain ⟨u, s₅, hbody, hrun⟩ := exists_of_run_bind hrun
      cases hrun
      intro after s'' hnext
      obtain ⟨bodies, h⟩ := opensToNext_enumBody s₄ u _ hbody after s'' hnext
      exact ⟨bodies, hlead.trans h⟩
    · obtain ⟨u, s₅, hputBack, hrun⟩ := exists_of_run_bind hrun
      cases hrun
      exact opens_putBack.of_opened ⟨.none, hlead⟩ hputBack
  split at hrun
  · obtain ⟨u, s₅, hbrace, hrun⟩ := exists_of_run_bind hrun
    cases hrun
    exact ⟨.none, hlead.trans (opened_of_always always_throughBrace.discard hbrace)⟩
  · exact (relates_fail (R := fun _ _ _ => False) s₄ form s' hrun).elim

/-- What reads an enumeration may go on with a token behind its body. -/
theorem opens_enumAfterWord_bind {f : EnumForm → Parser β} {rest : Token → Token → Parser β}
    (hf : ∀ form, (∀ name, form ≠ .named name) → (f form).Opens m around)
    (hnamed : ∀ name, f (.named name) = next >>= rest name)
    (hrest : ∀ name token, (rest name token).Opens m around) :
    (enumAfterWord (dependsIn around) >>= f).Opens m around := by
  intro s b s' hrun
  obtain ⟨form, s₁, hform, hrun⟩ := exists_of_run_bind hrun
  have hfollows := relates_enumAfterWord s form s₁ hform
  cases form with
  | named name =>
    rw [hnamed] at hrun
    obtain ⟨token, s₂, hnext, hrun⟩ := exists_of_run_bind hrun
    exact (hrest name token).of_opened (hfollows token s₂ hnext) hrun
  | _ => exact (hf _ (by simp)).of_opened hfollows hrun

end Enumerations

section Bodies

variable {m : Machine σ} {around : Option BodyContext} {body : BodyParser} {key : ClassKey}
  {word name first token opening : Token} {arguments? : Option String} {generic : String}
  {ctx : BodyContext} {visible accept : Bool}

theorem relates_bodyItems (m : Machine σ) (body : BodyParser) (task : BodyTask) :
    (bodyItems body task).Relates m fun _ r s' => Closes m task.opening r.1 s' := by
  apply relates_recurBy (fun _ _ (r : Token × List Member) s' => Closes m task.opening r.1 s')
  · intro s left s₁ visible r s' _ h
    exact h
  rintro again ih - ⟨visible, members⟩ s r s' hrun
  obtain ⟨token, s₁, hnext, hrun⟩ := exists_of_run_bind hrun
  dsimp only at hrun
  split at hrun
  · rename_i hcloses
    cases hrun
    exact ⟨hcloses.1, hcloses.2, s, hnext⟩
  have hitem : ∀ {s₁ : σ}, (bodyItem body token task.context visible >>= fun r =>
      again (r.1, members ++ r.2)).run m s₁ = .ok (r, s') → Closes m task.opening r.1 s' := by
    intro s₁ hrun
    obtain ⟨more, s₂, -, hrun⟩ := exists_of_run_bind hrun
    exact ih _ s₂ r s' hrun
  split at hrun
  · exact ih _ s₁ r s' hrun
  · exact hitem hrun
  · exact hitem hrun
  · exact hitem hrun
  · obtain ⟨u, s₂, -, hrun⟩ := exists_of_run_bind hrun
    exact ih _ s₂ r s' hrun
  · exact (relates_fail (R := fun _ _ _ => False) s₁ r s' hrun).elim

theorem relates_recordMembers (m : Machine σ) (task : BodyTask) :
    (recordMembers task).Relates m fun _ r s' => Closes m task.opening r.1 s' := by
  apply relates_recurBy fun (task : BodyTask) _ (r : Token × List Member) s' => Closes m task.opening r.1 s'
  · intro s left s₁ task r s' _ h
    exact h
  · exact fun again _ _ task => relates_bodyItems m again task

theorem opens_recordSegment {segment : String} {dependent : Bool} :
    (recordSegment segment arguments? generic dependent).Opens m around := by
  unfold recordSegment
  split
  · exact opens_pure
  split
  · split
    · exact opens_pure
    · intro s a s' hrun
      exact (run_stop_ne_ok Empty.elim hrun).elim
  · exact opens_pure

theorem opensToNext_recordBody (hbody : body.OpensInside m)
    (hgeneric : ∀ ctx, around = some ctx → generic = ctx.generic) :
    (recordBody body key name arguments? opening generic (dependsIn around)).OpensToNext m around := by
  rw [recordBody_eq]
  apply opens_recordSegment.bind_toNext
  intro segment s u s' hrun after s'' hnext
  obtain ⟨qualified, s₁, hopened, hrun⟩ := exists_of_run_bind hrun
  obtain ⟨⟨closing, members⟩, s₂, hread, hleft⟩ := exists_of_run_bind hrun
  obtain ⟨hopens, hmembers⟩ := hbody ⟨opening, ⟨name.text, qualified, generic, dependsIn around⟩,
    (TypeTag.record key).startsPublic⟩
  obtain ⟨inner, hinner⟩ := hopens s₁ _ s₂ hread
  have hread := hmembers s₁ _ s₂ hread
  exact ⟨.record ⟨key, qualified, generic, members⟩ opening closing inner .none,
    .record hopened hread (relates_recordMembers m _ s₁ _ s₂ hread) hinner hgeneric hleft hnext
      (.refl around s'')⟩

variable [m.HasRole]

/-- The members of a record without a name are read in the context of the record around it. -/
theorem opens_innerRecord (hbody : body.OpensInside m) :
    (innerRecord body key word ctx visible accept).Opens m (some ctx) := by
  apply opens_bind_of_always fun _ => always_throughHeadAttributes
  intro _
  apply opens_bind_of_always fun _ => always_lookAt
  intro first
  split
  · apply opens_bind_of_always fun _ => always_next
    intro opening
    apply (hbody ⟨opening, ctx, visible⟩).1.bind
    intro r
    apply opens_bind_of_always fun _ => always_next
    intro token
    split
    · exact opens_pure
    · apply opens_bind_of_always fun _ => always_throughStatement
      intro last
      exact opens_bind_of_always (fun _ => always_remarkUnparsed) fun _ => opens_pure
  split
  · exact opens_fail
  apply opens_bind_of_always fun _ => always_lookAt
  intro after
  split
  · apply opens_bind_of_always fun _ => always_next.discard
    intro _
    exact opens_bind_of_always (fun _ => always_next.discard) fun _ => opens_pure
  apply opens_bind_of_always fun _ => always_next
  intro name
  split
  · apply opens_bind_of_always fun _ => always_throughBases
    intro opening
    have hrecord : (recordBody body key name none opening ctx.generic ctx.nestsDependent).OpensToNext m
        (some ctx) :=
      opensToNext_recordBody hbody fun _ heq => by cases heq; rfl
    apply hrecord.bind
    intro _ token
    split
    · exact opens_pure
    · exact opens_putBack.bind fun _ => opens_of_always fun _ => always_declarators
  · exact opens_of_always fun _ => always_memberDeclaration

theorem opens_innerEnum : (innerEnum word ctx accept).Opens m (some ctx) := by
  apply opens_enumAfterWord_bind
  · intro form hform
    cases form with
    | declared => exact opens_pure
    | elaborated name => exact opens_of_always fun _ => always_memberDeclaration
    | anonymous =>
      apply opens_next.bind
      intro token
      split
      · exact opens_pure
      apply opens_putBack.bind
      intro _
      apply opens_bind_of_always fun _ => always_throughStatement
      intro last
      exact opens_bind_of_always (fun _ => always_remarkUnparsed) fun _ => opens_pure
    | named name => exact absurd rfl (hform name)
  · exact fun name => rfl
  · intro name token
    split
    · exact opens_pure
    · exact opens_putBack.bind fun _ => opens_of_always fun _ => always_declarators

theorem opens_memberItem (hbody : body.OpensInside m) :
    (memberItem body token ctx visible accept).Opens m (some ctx) := by
  rw [memberItem]
  split
  · apply opens_bind_of_always fun _ => always_expect.discard
    intro _
    apply opens_bind_of_always fun _ => always_next
    intro params
    exact opens_bind_of_always (fun _ => always_throughMethodTail) fun _ => opens_pure
  apply opens_bind_of_always fun _ => always_constructorAhead
  intro constructs
  split
  · exact opens_innerRecord hbody
  · exact opens_innerRecord hbody
  · exact opens_innerRecord hbody
  · exact opens_innerEnum
  · exact opens_bind_of_always (fun _ => always_throughStatement.discard) fun _ => opens_pure
  · exact opens_bind_of_always (fun _ => always_throughStatement.discard) fun _ => opens_pure
  · exact opens_bind_of_always (fun _ => always_throughStatement.discard) fun _ => opens_pure
  · exact opens_bind_of_always (fun _ => always_throughDeclaration.discard) fun _ => opens_pure
  · apply opens_bind_of_always fun _ => always_expect
    intro opening
    apply opens_bind_of_always fun _ => always_throughAngles.discard
    intro _
    exact opens_bind_of_always (fun _ => always_throughDeclaration.discard) fun _ => opens_pure
  · split
    · apply opens_bind_of_always fun _ => always_next
      intro params
      exact opens_bind_of_always (fun _ => always_throughMethodTail) fun _ => opens_pure
    · exact opens_of_always fun _ => always_memberDeclaration

theorem opens_bodyItem (hbody : body.OpensInside m) :
    (bodyItem body first ctx visible).Opens m (some ctx) := by
  rw [bodyItem]
  split
  · exact opens_bind_of_always (fun _ => always_expect.discard) fun _ => opens_pure
  · apply opens_bind_of_always fun _ => always_memberSpecifiers
    intro r
    exact (opens_memberItem hbody).bind fun _ => opens_pure

theorem opens_bodyItems (hbody : body.OpensInside m) (task : BodyTask) :
    (bodyItems body task).Opens m (some task.context) := by
  apply opens_recurBy
  rintro again ih ⟨visible, members⟩
  apply opens_bind_of_always fun _ => always_next
  intro token
  dsimp only
  split
  · exact opens_pure
  have hitem : (bodyItem body token task.context visible >>= fun r => again (r.1, members ++ r.2)).Opens
      m (some task.context) :=
    (opens_bodyItem hbody).bind fun r => ih _
  split
  · exact ih _
  · exact hitem
  · exact hitem
  · exact hitem
  · exact opens_bind_of_always (fun _ => always_throughBrackets.discard) fun _ => ih _
  · exact opens_fail

/-- A body opens the bodies in it, which depend on what it depends on. -/
theorem opens_recordMembers (task : BodyTask) : (recordMembers task).Opens m (some task.context) := by
  apply relates_recurBy fun (task : BodyTask) s _ s' => ∃ bodies, Opened m (some task.context) s bodies s'
  · rintro s left s₁ task r s' hanswer ⟨bodies, h⟩
    have hplain : Request.Plain (some task.context) .tokensLeft := trivial
    exact ⟨bodies, .step hplain hanswer h⟩
  · intro again hopens hruns task
    exact opens_bodyItems (fun task => ⟨hopens task, hruns task⟩) task

theorem opensInside_recordMembers : BodyParser.OpensInside recordMembers m :=
  fun task => ⟨opens_recordMembers task, fun _ _ _ hrun => hrun⟩

end Bodies

section Items

variable {m : Machine σ} [m.HasRole] {key : ClassKey} {word name token : Token}
  {arguments? : Option String} {generic : String}

theorem opens_recordFromName :
    (recordFromName key word name arguments? generic).Opens m none := by
  apply opens_recurBy
  intro again ih inBases
  apply opens_bind_of_always fun _ => always_next
  intro token
  have hdeclare : (do
      putBack token
      freeDeclaration word name).Opens m none :=
    opens_putBack.bind fun _ => opens_of_always fun _ => always_freeDeclaration
  have hchoice : ∀ {c : Prop} [Decidable c], (if c then again inBases else do
      putBack token
      freeDeclaration word name).Opens m none := by
    intro c _
    split
    · exact ih _
    · exact hdeclare
  split
  · apply opens_bind_of_always fun _ => always_roleOfFile
    intro role
    split
    · have hrecord : (recordBody recordMembers key name arguments? token generic false).OpensToNext m none :=
        opensToNext_recordBody opensInside_recordMembers fun _ heq => by cases heq
      simp only [discard_expect_eq]
      exact hrecord.bind fun _ _ => opens_expected
    · apply opens_bind_of_always fun _ => always_throughBrace.discard
      intro _
      exact opens_of_always fun _ => always_throughStatement.discard
  · exact opens_pure
  · exact ih _
  · split
    · exact opens_bind_of_always (fun _ => always_throughAngles.discard) fun _ => ih _
    · exact hdeclare
  · exact hchoice
  · exact hchoice
  · exact hchoice
  · exact hdeclare

theorem opens_recordItem : (recordItem key word generic).Opens m none := by
  apply opens_bind_of_always fun _ => always_throughHeadAttributes
  intro _
  apply opens_bind_of_always fun _ => always_next
  intro name
  split
  · apply opens_bind_of_always fun _ => always_throughBrace.discard
    intro _
    apply opens_bind_of_always fun _ => always_throughStatement
    intro last
    exact opens_of_always fun _ => always_remarkUnparsed
  split
  · exact opens_fail
  · exact opens_bind_of_always (fun _ => always_writtenList?) fun _ => opens_recordFromName

theorem opens_namespaceItem : namespaceItem.Opens m none := by
  apply opens_bind_of_always fun _ => always_next
  intro name
  split
  · exact opens_of_always fun _ => always_throughBrace.discard
  split
  · exact opens_fail
  apply opens_bind_of_always fun _ => always_next
  intro token
  split
  · intro s u s' hrun
    exact ⟨.none, .namespaceBody hrun (.refl none s')⟩
  · exact opens_of_always fun _ => always_throughStatement.discard
  · exact opens_fail

theorem opens_enumItem : enumItem.Opens m none := by
  apply opens_enumAfterWord_bind
  · intro form hform
    cases form with
    | declared => exact opens_pure
    | elaborated name => exact opens_of_always fun _ => always_throughStatement.discard
    | anonymous => exact opens_of_always fun _ => always_expect.discard
    | named name => exact absurd rfl (hform name)
  · exact fun _ => discard_expect_eq _ _
  · exact fun _ _ => opens_expected

theorem opens_templateItem : templateItem.Opens m none := by
  apply opens_bind_of_always fun _ => always_writtenList?
  intro list?
  split
  · exact opens_of_always fun _ => always_throughDeclaration.discard
  apply opens_bind_of_always fun _ => always_next
  intro token
  split
  · exact opens_recordItem
  · exact opens_putBack.bind fun _ => opens_of_always fun _ => always_throughDeclaration.discard

theorem opens_namedItem : (namedItem token).Opens m none := by
  rw [namedItem]
  split
  · exact opens_namespaceItem
  · exact opens_of_always fun _ => always_throughStatement.discard
  · exact opens_of_always fun _ => always_throughStatement.discard
  · exact opens_of_always fun _ => always_throughStatement.discard
  · exact opens_recordItem
  · exact opens_recordItem
  · exact opens_recordItem
  · exact opens_enumItem
  · exact opens_templateItem
  · apply opens_bind_of_always fun _ => always_lookAt
    intro after
    split
    · exact opens_bind_of_always (fun _ => always_next.discard) fun _ => opens_namespaceItem
    · exact opens_of_always fun _ => always_throughDefinition
  · exact opens_of_always fun _ => always_throughDefinition
  · exact opens_of_always fun _ => always_throughDefinition
  · exact opens_of_always fun _ => always_throughDefinition
  · split
    · exact opens_of_always fun _ => always_throughDefinition
    · exact opens_of_always fun _ => always_freeDeclaration

theorem opens_fileItem : (fileItem token).Opens m none := by
  rw [fileItem]
  split
  · exact opens_pure
  · exact opens_pure
  · exact opens_of_always fun _ => always_throughBrackets.discard
  · exact opens_namedItem
  · exact opens_of_always fun _ => always_leaveUnparsed

theorem opens_fileItems : fileItems.Opens m none := by
  apply opens_loop
  intro again ih
  apply opens_bind_of_always fun _ => always_nextOrEnd
  intro token
  split
  · apply opens_bind_of_always fun _ => always_openBraces
    intro depth
    split
    · exact opens_fail
    · exact opens_pure
  · exact opens_fileItem.bind fun _ => ih

end Items

end ReflectionTables.Parsing
