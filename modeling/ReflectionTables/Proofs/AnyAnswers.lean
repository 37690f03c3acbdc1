import ReflectionTables.Proofs.Readings
/-!
# What a parser does whatever it is answered

Only the role of the file is fixed, so a statement of this kind needs no state: it says which
requests are made at all, and what can come out. A parser that enters no body makes quiet requests
only.
-/

namespace ReflectionTables.Parsing

open Scanning Reflected

variable {α β : Type}

/-- Whether an answer can be given while a file of the given role is read. -/
def Request.Fits (role : FileRole) : (request : Request) → request.Answer → Prop
  | .role, answer => answer = role
  | _, _ => True

theorem Reading.fits_machine {text : String} {c c' : Reading text} {request : Request}
    {answer : request.Answer} (h : Reading.machine request c = .ok (answer, c')) :
    request.Fits c.role answer := by
  cases request with
  | role =>
    cases h
    rfl
  | _ => trivial

/-- A token changes nothing but the stream that it is taken from. -/
theorem ParserState.keeps_take {text : String} {s s' : ParserState text} {t : Token}
    (step : TokenStream text → Except ScanError Token × TokenStream text)
    (h : s.take step = .ok (t, s')) : s'.role = s.role ∧ s'.findings = s.findings := by
  rw [take] at h
  split at h
  · cases h
    exact ⟨rfl, rfl⟩
  · cases h

theorem ParserState.fits_machine {text : String} {s s' : ParserState text} {request : Request}
    {answer : request.Answer} (h : ParserState.machine request s = .ok (answer, s')) :
    request.Fits s.role answer ∧ s'.role = s.role := by
  cases request with
  | next =>
    simp only [machine] at h
    split at h
    · rename_i hstep
      split at h <;> cases h
      exact ⟨trivial, (keeps_take _ hstep).1⟩
    · cases h
  | nextOrEnd => exact ⟨trivial, (keeps_take _ h).1⟩
  | lookAt n => exact ⟨trivial, (keeps_take (·.lookAt n) h).1⟩
  | cut what start stop =>
    simp only [machine] at h
    split at h <;> cases h
    exact ⟨trivial, rfl⟩
  | reject | abort | stall => cases h
  | _ =>
    cases h
    exact ⟨by first | rfl | trivial, rfl⟩

theorem ParserState.findings_machine {text : String} {s s' : ParserState text} {request : Request}
    {answer : request.Answer} (h : ParserState.machine request s = .ok (answer, s'))
    (hnote : ∀ finding, request ≠ .note finding) : s'.findings = s.findings := by
  cases request with
  | note finding => exact absurd rfl (hnote finding)
  | next =>
    simp only [machine] at h
    split at h
    · rename_i hstep
      split at h <;> cases h
      exact (keeps_take _ hstep).2
    · cases h
  | nextOrEnd => exact (keeps_take _ h).2
  | lookAt n => exact (keeps_take (·.lookAt n) h).2
  | cut what start stop =>
    simp only [machine] at h
    split at h <;> cases h
    rfl
  | reject | abort | stall => cases h
  | _ =>
    cases h
    rfl

theorem ParserState.findings_note {text : String} {s s' : ParserState text} {finding : Finding} {u : Unit}
    (h : ParserState.machine (.note finding) s = .ok (u, s')) : s'.findings = s.findings.add finding := by
  cases h
  rfl

/-- The requests of a parser that enters no scope, reflects nothing, announces nothing in a header and
never aborts. -/
def Request.Quiet (role : FileRole) : Request → Prop
  | .enter _ _ | .abort _ => False
  | .note (.announced _) => role = .source
  | .note (.type _) | .note (.declaration _) | .note (.remark (.notReflected _)) => False
  | .cut what _ _ => what = .list ∨ what = .arity ∨ what = .span
  | _ => True

class Request.Admits (role : FileRole) (allowed : Request → Prop) : Prop where
  of_quiet : ∀ request : Request, request.Quiet role → allowed request

instance (role : FileRole) : Request.Admits role (Request.Quiet role) := ⟨fun _ h => h⟩

theorem Request.allowed_of_quiet {allowed : Request → Prop} (role : FileRole)
    [Request.Admits role allowed] {request : Request} (h : request.Quiet role) : allowed request :=
  Request.Admits.of_quiet request h

/-- The requests of a parser that reads on to the end of a construct and at most cuts it out. -/
def Request.ReadsOn : Request → Prop
  | .next | .tokensLeft | .reject _ _ | .stall => True
  | .cut what _ _ => what = .list
  | _ => False

class Request.AdmitsReading (role : FileRole) (allowed : Request → Prop) : Prop where
  of_readsOn : ∀ request : Request, request.ReadsOn → allowed request

instance (role : FileRole) : Request.AdmitsReading role Request.ReadsOn := ⟨fun _ h => h⟩

/-- The requests of a parser that only goes forward: it puts nothing back, and all that it learns is that
something was left unparsed. -/
def Request.Forward : Request → Prop
  | .putBack _ | .enter _ _ | .abort _ => False
  | .note (.announced _) | .note (.type _) | .note (.declaration _) => False
  | .note (.remark (.notReflected _)) => False
  | .cut what _ _ => what = .list ∨ what = .arity ∨ what = .span
  | _ => True

class Request.AdmitsForward (role : FileRole) (allowed : Request → Prop) : Prop where
  of_forward : ∀ request : Request, request.Forward → allowed request

theorem Request.Forward.quiet {role : FileRole} {request : Request} (h : request.Forward) :
    request.Quiet role := by
  cases request with
  | note finding =>
    cases finding with
    | remark r =>
      cases r with
      | unparsed => trivial
      | notReflected => exact h.elim
    | _ => exact h.elim
  | cut => exact h
  | putBack | enter | abort => exact h.elim
  | _ => trivial

theorem Request.ReadsOn.forward {request : Request} (h : request.ReadsOn) : request.Forward := by
  cases request with
  | cut => exact .inl h
  | next | tokensLeft | reject | stall => trivial
  | _ => exact h.elim

instance (role : FileRole) (allowed : Request → Prop) [Request.Admits role allowed] :
    Request.AdmitsForward role allowed :=
  ⟨fun _ h => Request.allowed_of_quiet role h.quiet⟩

theorem Request.allowed_of_forward {allowed : Request → Prop} (role : FileRole)
    [Request.AdmitsForward role allowed] {request : Request} (h : request.Forward) :
    allowed request :=
  have admits : Request.AdmitsForward role allowed := inferInstance
  admits.of_forward request h

instance (role : FileRole) (allowed : Request → Prop) [Request.AdmitsForward role allowed] :
    Request.AdmitsReading role allowed :=
  ⟨fun _ h => Request.allowed_of_forward role h.forward⟩

theorem Request.allowed_of_readsOn {allowed : Request → Prop} (role : FileRole)
    [Request.AdmitsReading role allowed] {request : Request} (h : request.ReadsOn) :
    allowed request :=
  have admits : Request.AdmitsReading role allowed := inferInstance
  admits.of_readsOn request h

namespace Parser

/-- Whether a parser that is called again is a repetition, or stalls where the measure has not fallen. -/
def CallsAgain (measure : α → Nat → Nat) (body : (α → Parser β) → α → Parser β) (again : α → Parser β) : Prop :=
  ∃ bound, ∀ a, again a = ask .tokensLeft fun left =>
    if measure a left < bound then recurFrom measure body (measure a left) a else ask .stall Empty.elim

/-- What is true of a repetition for each argument, if each round passes it on. -/
theorem recurBy_induction {measure : α → Nat → Nat} {body : (α → Parser β) → α → Parser β}
    (P : α → Parser β → Prop) (hleft : ∀ a f, (∀ left, P a (f left)) → P a (ask .tokensLeft f))
    (hstall : ∀ a f, P a (ask .stall f))
    (round : ∀ again, CallsAgain measure body again → (∀ a, P a (again a)) → ∀ a, P a (body again a))
    (a : α) : P a (Parser.recurBy measure body a) := by
  have hfrom : ∀ bound a, P a (recurFrom measure body bound a) := by
    intro bound
    induction bound using Nat.strongRecOn with
    | ind bound ih =>
      intro a
      rw [recurFrom]
      apply round
      · exact ⟨bound, fun _ => rfl⟩
      · intro a'
        apply hleft
        intro left
        split
        · exact ih _ ‹_› a'
        · exact hstall a' _
  exact hleft a _ fun left => hfrom _ a

/-- Whether a parser makes allowed requests only, and ends as said, whatever it is answered. -/
def Always (role : FileRole) (allowed : Request → Prop) (Q : α → Prop) : Parser α → Prop
  | done a => Q a
  | ask request next =>
    allowed request ∧ ∀ answer, request.Fits role answer → (next answer).Always role allowed Q

variable {role : FileRole} {allowed : Request → Prop} {P Q : α → Prop} {R : β → Prop}

theorem always_bind {p : Parser α} {f : α → Parser β} :
    (p >>= f).Always role allowed R ↔
      p.Always role allowed fun a => (f a).Always role allowed R := by
  induction p with
  | done a => rfl
  | ask request next ih =>
    rw [ask_bind, Always, Always]
    exact and_congr_right fun _ => forall_congr' fun answer => imp_congr_right fun _ => ih answer

theorem Always.mono {p : Parser α} (h : p.Always role allowed P) (hQ : ∀ a, P a → Q a) :
    p.Always role allowed Q := by
  induction p with
  | done a => exact hQ a h
  | ask request next ih => exact ⟨h.1, fun answer hfits => ih answer (h.2 answer hfits)⟩

theorem Always.weaken {allowed' : Request → Prop} {p : Parser α} (h : p.Always role allowed Q)
    (hallowed : ∀ request, allowed request → allowed' request) : p.Always role allowed' Q := by
  induction p with
  | done a => exact h
  | ask request next ih => exact ⟨hallowed _ h.1, fun answer hfits => ih answer (h.2 answer hfits)⟩

theorem Always.bind {p : Parser α} {f : α → Parser β} (h : p.Always role allowed P)
    (hf : ∀ a, P a → (f a).Always role allowed R) : (p >>= f).Always role allowed R :=
  always_bind.2 (h.mono hf)

theorem Always.discard {p : Parser α} (h : p.Always role allowed P) :
    (Functor.discard p).Always role allowed fun _ => True :=
  h.bind fun _ _ => trivial

/-- What can come out of a parser comes out of its runs, where the machine answers what fits. -/
theorem Always.run {σ : Type} {m : Machine σ} (Inv : σ → Prop) {p : Parser α} {s s' : σ} {a : α}
    (hm : ∀ request s answer s', Inv s → m request s = .ok (answer, s') →
      request.Fits role answer ∧ Inv s')
    (h : p.Always role allowed Q) (hs : Inv s) (hrun : p.run m s = .ok (a, s')) : Q a := by
  induction p generalizing s with
  | done b =>
    cases hrun
    exact h
  | ask request next ih =>
    rw [Parser.run] at hrun
    split at hrun
    · rename_i answer s₁ hanswer
      obtain ⟨hfits, hs₁⟩ := hm request s answer s₁ hs hanswer
      exact ih answer (h.2 answer hfits) hs₁ hrun
    · cases hrun

theorem Always.run_reading {text : String} {p : Parser α} {c c' : Reading text} {a : α}
    (h : p.Always c.role allowed Q) (hrun : p.run Reading.machine c = .ok (a, c')) : Q a := by
  refine Always.run (·.role = c.role) (fun request d answer d' hd hanswer => ?_) h rfl hrun
  rw [← hd]
  exact ⟨Reading.fits_machine hanswer, Reading.role_machine hanswer⟩

theorem always_request [Request.Admits role allowed] {r : Request} (h : r.Quiet role) :
    (request r).Always role allowed (r.Fits role) :=
  ⟨Request.allowed_of_quiet role h, fun _ hfits => hfits⟩

section ReadingOn

variable [Request.AdmitsReading role allowed]

theorem always_readsOn {r : Request} (h : r.ReadsOn) :
    (request r).Always role allowed (r.Fits role) :=
  ⟨Request.allowed_of_readsOn role h, fun _ hfits => hfits⟩

/-- The rule for repetition: each round passes on what it was given. -/
theorem always_recurBy {measure : α → Nat → Nat} {body : (α → Parser β) → α → Parser β}
    (Inv : α → Prop) (Post : α → β → Prop)
    (round : ∀ again a, Inv a → (∀ a', Inv a' → (again a').Always role allowed (Post a')) →
      (body again a).Always role allowed (Post a))
    {a : α} (h : Inv a) : (Parser.recurBy measure body a).Always role allowed (Post a) := by
  revert h
  apply recurBy_induction fun a p => Inv a → p.Always role allowed (Post a)
  · exact fun a f hf h => ⟨Request.allowed_of_readsOn role trivial, fun left _ => hf left h⟩
  · exact fun a f h => ⟨Request.allowed_of_readsOn role trivial, fun answer => answer.elim⟩
  · exact fun again _ ih a h => round again a h ih

end ReadingOn

end Parser

open Parsing.Parser

variable {role : FileRole} {allowed : Request → Prop} {Q : α → Prop} {R : β → Prop}

section ReadingOn

variable [Request.AdmitsReading role allowed]

theorem always_recur {body : (α → Parser β) → α → Parser β} (Inv : α → Prop)
    (round : ∀ again a, Inv a → (∀ a', Inv a' → (again a').Always role allowed R) →
      (body again a).Always role allowed R)
    {a : α} (h : Inv a) : (recur body a).Always role allowed R :=
  always_recurBy Inv (fun _ => R) round h

theorem always_loop {body : Parser β → Parser β}
    (round : ∀ again, again.Always role allowed R → (body again).Always role allowed R) :
    (loop body).Always role allowed R :=
  always_recur (fun _ => True) (fun again a _ ih => round (again a) (ih a trivial)) trivial

theorem always_next : next.Always role allowed fun _ => True := always_readsOn trivial

theorem always_cut_list {start stop : Nat} :
    (cut .list start stop).Always role allowed fun _ => True :=
  (always_readsOn (r := .cut .list start stop) rfl).mono fun _ _ => trivial

theorem always_fail {token : Token} {fault : ParseFault} :
    (fail token fault : Parser α).Always role allowed Q :=
  ⟨Request.allowed_of_readsOn role trivial, fun answer => answer.elim⟩

theorem always_fail_bind {token : Token} {fault : ParseFault} {f : α → Parser β} :
    (fail token fault >>= f).Always role allowed R :=
  (always_fail (Q := fun _ => False)).bind fun _ h => h.elim

end ReadingOn

section GoingForward

variable [Request.AdmitsForward role allowed]

theorem always_forward {r : Request} (h : r.Forward) :
    (request r).Always role allowed (r.Fits role) :=
  ⟨Request.allowed_of_forward role h, fun _ hfits => hfits⟩

theorem always_nextOrEnd : nextOrEnd.Always role allowed fun _ => True := always_forward trivial

theorem always_lookAt {n : Nat} : (lookAt n).Always role allowed fun _ => True :=
  always_forward trivial

theorem always_roleOfFile : roleOfFile.Always role allowed (· = role) := always_forward trivial

theorem always_enclosingName : enclosingName.Always role allowed fun _ => True :=
  always_forward trivial

theorem always_openBraces : openBraces.Always role allowed fun _ => True := always_forward trivial

theorem always_cut {what : Cut} {start stop : Nat}
    (h : what = .list ∨ what = .arity ∨ what = .span) :
    (cut what start stop).Always role allowed fun _ => True :=
  (always_forward (r := .cut what start stop) h).mono fun _ _ => trivial

theorem always_span {start stop : Nat} : (span start stop).Always role allowed fun _ => True :=
  (always_cut (.inr (.inr rfl))).bind fun _ _ => trivial

theorem always_nextIf {skips : Bool} {token : Token} :
    (nextIf skips token).Always role allowed fun _ => True := by
  rw [nextIf]
  split
  · exact always_next
  · trivial

theorem always_expect {kind : TokenKind} {what : Expectation} :
    (expect kind what).Always role allowed fun _ => True := by
  refine always_next.bind fun token _ => ?_
  split
  · trivial
  · exact always_fail

theorem always_remarkUnparsed {start stop : Nat} :
    (remarkUnparsed start stop).Always role allowed fun _ => True :=
  always_span.bind fun shown _ => always_forward (r := .note (.remark (.unparsed shown))) trivial

end GoingForward

variable [Request.Admits role allowed]

theorem always_putBack {token : Token} : (putBack token).Always role allowed fun _ => True :=
  always_request trivial

theorem always_noteExtern {declaration : String} :
    (noteExtern declaration).Always role allowed fun _ => True := by
  refine always_roleOfFile.bind fun current hcurrent => ?_
  split
  · rename_i hsource
    exact always_request (r := .note (.announced declaration)) (hcurrent.symm.trans hsource)
  · trivial

end ReflectionTables.Parsing
