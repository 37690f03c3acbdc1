import ReflectionTables.Proofs.CleanSpans
import ReflectionTables.Proofs.Readings
/-!
# Contracts of parsers

A parser obeys a contract from a reading if every request it makes is allowed there, every failure
is an expected one, and what it ends with satisfies the postcondition. Contracts compose along the
steps of a parser, and a repetition obeys a contract that each round passes on to shorter input.
-/

namespace ReflectionTables.Parsing

open Text Scanning Reflected

variable {text : String} {α β : Type}

namespace Reading

/-- Whether the last token that was delivered does not end an item. -/
def InItem (c : Reading text) : Prop := ∀ t, c.delivered.head? = some t → t.kind ≠ .semicolon

/-- Whether an operator was read, which takes any token as its symbol. -/
def BehindOperator (c : Reading text) : Prop :=
  ∃ t ∈ c.delivered, t.reserved? = some .operatorWord

/-- Whether a declaration has the name of the scope that was just entered. -/
def Declares (c : Reading text) (declaration : Declaration) : Prop :=
  c.ahead = 0 ∧ declaration.name = c.enclosingName ∧
    ∃ opening scope, c.delivered.head? = some opening ∧ opening.kind = .lBrace ∧
      c.scopes.head? = some scope ∧ scope.depth = opening.depth

end Reading

def IsTokenOf (text : String) (t : Token) : Prop := t ∈ (tokensOf text).1 ∨ (tokensOf text).2 = .ok t

/-- The requests that a parser may make anywhere: it stops only at tokens of the text, names and declares
only scopes that it enters, the texts that it shows are clean, and spans of the text go from a token to an
edge between tokens. -/
def Request.Legal : Request → Reading text → Prop
  | .reject token _, _ => IsTokenOf text token
  | .enclosingName, c => c.scopes ≠ []
  | .note (.declaration declaration), c => c.Declares declaration
  | .note finding, _ => finding.Clean
  | .cut .span start stop, _ => BeginsToken text start ∧ IsEdge text stop
  | _, _ => True

/-- The requests that a parser may make inside an item: it does not look or read for the end of
the text behind a semicolon, unless that is the symbol of an operator. -/
def Request.Careful : Request → Reading text → Prop
  | .nextOrEnd, c => c.InItem ∨ c.BehindOperator
  | .lookAt n, c => c.InItem ∧ ∀ t ∈ c.pending.take n, t.kind ≠ .semicolon
  | request, c => request.Legal c

/-- The failures of a parser that keeps to its rules: a token that is not allowed, or one that
cannot be cut. -/
def Failure.Expected : Failure → Prop
  | .rejected _ => True
  | .aborted what => what = .token ∨ what = .parameterName
  | .stalled => False

theorem Request.Careful.legal {request : Request} {c : Reading text} (h : request.Careful c) :
    request.Legal c := by
  cases request with
  | nextOrEnd => trivial
  | lookAt n => trivial
  | _ => exact h

theorem Request.careful_cut {what : Cut} {start stop : Nat} {c : Reading text}
    (h : what ≠ .span) : (Request.cut what start stop).Careful c := by
  cases what with
  | span => exact absurd rfl h
  | _ => trivial

/-- A successful result and what was computed of it. -/
theorem exists_of_any_toOption {ε α : Type} {x : Except ε α} {p : α → Bool}
    (h : x.toOption.any p = true) : ∃ a, x = .ok a ∧ p a = true := by
  cases x with
  | error e => cases h
  | ok a => exact ⟨a, rfl, h⟩

namespace Parser

theorem run_bind {σ : Type} (m : Machine σ) (p : Parser α) (f : α → Parser β) (s : σ) :
    (p >>= f).run m s =
      match p.run m s with
      | .ok (a, s') => (f a).run m s'
      | .error failure => .error failure := by
  induction p generalizing s with
  | done a => rfl
  | ask request next ih =>
    rw [ask_bind, run, run]
    cases m request s with
    | ok answer => exact ih _ _
    | error failure => rfl

/-- A run that ends, ends in its first part. -/
theorem exists_of_run_bind {σ : Type} {m : Machine σ} {s s'' : σ} {q : Parser β} {f : β → Parser α}
    {a : α} (h : (q >>= f).run m s = .ok (a, s'')) :
    ∃ b s', q.run m s = .ok (b, s') ∧ (f b).run m s' = .ok (a, s'') := by
  rw [run_bind] at h
  split at h
  · exact ⟨_, _, ‹_›, h⟩
  · cases h

/-- Whether all that a parser does from a reading is allowed, and what it ends with is as said. -/
def Obeys (allowed : Request → Reading text → Prop) (Q : α → Reading text → Prop) :
    Parser α → Reading text → Prop
  | done a, c => Q a c
  | ask request next, c =>
    allowed request c ∧
      match Reading.machine request c with
      | .ok (answer, c') => (next answer).Obeys allowed Q c'
      | .error failure => failure.Expected

/-- The contract of a parser that works inside an item. -/
abbrev Meets (Q : α → Reading text → Prop) (p : Parser α) (c : Reading text) : Prop :=
  p.Obeys Request.Careful Q c

variable {allowed : Request → Reading text → Prop} {P Q : α → Reading text → Prop}
  {R : β → Reading text → Prop} {c c' : Reading text}

theorem obeys_ask {request : Request} {next : request.Answer → Parser α} :
    (ask request next).Obeys allowed Q c ↔
      allowed request c ∧
        match Reading.machine request c with
        | .ok (answer, c') => (next answer).Obeys allowed Q c'
        | .error failure => failure.Expected := by
  rw [Obeys]

theorem Obeys.mono {p : Parser α} (h : p.Obeys allowed P c)
    (hQ : ∀ a c', P a c' → Q a c') : p.Obeys allowed Q c := by
  induction p generalizing c with
  | done a => exact hQ a c h
  | ask request next ih =>
    rw [obeys_ask] at h ⊢
    refine ⟨h.1, ?_⟩
    have h := h.2
    split at h
    · exact ih _ h
    · exact h

theorem Obeys.weaken {allowed' : Request → Reading text → Prop} {p : Parser α}
    (h : p.Obeys allowed Q c) (hallowed : ∀ request c', allowed request c' → allowed' request c') :
    p.Obeys allowed' Q c := by
  induction p generalizing c with
  | done a => exact h
  | ask request next ih =>
    rw [obeys_ask] at h ⊢
    refine ⟨hallowed _ _ h.1, ?_⟩
    have h := h.2
    split at h
    · exact ih _ h
    · exact h

theorem Obeys.and {p : Parser α} (hP : p.Obeys allowed P c) (hQ : p.Obeys allowed Q c) :
    p.Obeys allowed (fun a c' => P a c' ∧ Q a c') c := by
  induction p generalizing c with
  | done a => exact ⟨hP, hQ⟩
  | ask request next ih =>
    rw [obeys_ask] at hP hQ ⊢
    refine ⟨hP.1, ?_⟩
    have hP := hP.2
    have hQ := hQ.2
    cases hanswer : Reading.machine request c with
    | ok answer =>
      rw [hanswer] at hP hQ
      exact ih _ hP hQ
    | error failure =>
      rw [hanswer] at hP
      exact hP

theorem Obeys.bind {p : Parser α} {f : α → Parser β} (h : p.Obeys allowed P c)
    (hf : ∀ a c', P a c' → (f a).Obeys allowed R c') : (p >>= f).Obeys allowed R c := by
  induction p generalizing c with
  | done a => exact hf a c h
  | ask request next ih =>
    rw [obeys_ask] at h
    rw [ask_bind, obeys_ask]
    refine ⟨h.1, ?_⟩
    have h := h.2
    split at h
    · exact ih _ h
    · exact h

theorem Obeys.of_bind {p : Parser α} {f : α → Parser β} (h : (p >>= f).Obeys allowed R c) :
    p.Obeys allowed (fun a c' => (f a).Obeys allowed R c') c := by
  induction p generalizing c with
  | done a => exact h
  | ask request next ih =>
    rw [ask_bind, obeys_ask] at h
    rw [obeys_ask]
    refine ⟨h.1, ?_⟩
    have h := h.2
    split at h
    · exact ih _ h
    · exact h

theorem Obeys.discard {p : Parser α} {S : Unit → Reading text → Prop}
    (h : p.Obeys allowed P c) (hS : ∀ a c', P a c' → S () c') :
    (Functor.discard p).Obeys allowed S c :=
  h.bind hS

theorem Obeys.discard_bind {p : Parser α} {f : Unit → Parser β} (h : p.Obeys allowed P c)
    (hf : ∀ a c', P a c' → (f ()).Obeys allowed R c') :
    (Functor.discard p >>= f).Obeys allowed R c :=
  (h.discard (S := fun _ c' => ∃ a, P a c') fun a _ ha => ⟨a, ha⟩).bind
    fun _ c' ⟨a, ha⟩ => hf a c' ha

/-- A run of a parser that obeys a contract ends as the contract says. -/
theorem Obeys.run {p : Parser α} (h : p.Obeys allowed Q c) :
    match p.run Reading.machine c with
    | .ok (a, c') => Q a c'
    | .error failure => failure.Expected := by
  induction p generalizing c with
  | done a => exact h
  | ask request next ih =>
    rw [obeys_ask] at h
    have h := h.2
    rw [Parser.run]
    split at h
    · rename_i heq
      simp only [heq]
      exact ih _ h
    · rename_i heq
      simp only [heq]
      exact h

theorem Obeys.exists_of_run_error {p : Parser α} {failure : Failure} (h : p.Obeys allowed Q c)
    (hrun : p.run Reading.machine c = .error failure) :
    ∃ request c', allowed request c' ∧ Reading.machine request c' = .error failure := by
  induction p generalizing c with
  | done a => cases hrun
  | ask request next ih =>
    rw [obeys_ask] at h
    rw [Parser.run] at hrun
    cases hanswer : Reading.machine request c with
    | error =>
      rw [hanswer] at hrun
      cases hrun
      exact ⟨request, c, h.1, hanswer⟩
    | ok answer =>
      have h := h.2
      rw [hanswer] at h hrun
      exact ih _ h hrun

/-- Whatever a parser ends with is the outcome of its run. -/
theorem Obeys.with_run {p : Parser α} (h : p.Obeys allowed Q c) :
    p.Obeys allowed (fun a c' => Q a c' ∧ p.run Reading.machine c = .ok (a, c')) c := by
  induction p generalizing c with
  | done a => exact ⟨h, rfl⟩
  | ask request next ih =>
    rw [obeys_ask] at h ⊢
    refine ⟨h.1, ?_⟩
    have h := h.2
    cases hanswer : Reading.machine request c with
    | error failure =>
      rw [hanswer] at h
      exact h
    | ok result =>
      rw [hanswer] at h
      refine (ih result.1 h).mono fun a c' h' => ⟨h'.1, ?_⟩
      simp only [Parser.run, hanswer]
      exact h'.2

/-- The rule for repetition. In a round the parser may be called again wherever its measure has
fallen, and then runs as it would on its own. -/
theorem Obeys.recurBy_run {measure : α → Nat → Nat} {body : (α → Parser β) → α → Parser β}
    (Inv : α → Reading text → Prop) (Post : α → Reading text → β → Reading text → Prop)
    (round : ∀ again a c, Inv a c →
      (∀ a' c', Inv a' c' → measure a' c'.tokensLeft < measure a c.tokensLeft →
        (again a').Obeys allowed (fun r c'' => Post a' c' r c'' ∧
          (Parser.recurBy measure body a').run Reading.machine c' = .ok (r, c'')) c') →
      (body again a).Obeys allowed (Post a c) c)
    (hleft : ∀ c, allowed .tokensLeft c) {a : α} (h : Inv a c) :
    (Parser.recurBy measure body a).Obeys allowed (Post a c) c := by
  have hfrom : ∀ bound a c, Inv a c → measure a c.tokensLeft ≤ bound →
      (recurFrom measure body bound a).Obeys allowed (Post a c) c := by
    intro bound
    induction bound using Nat.strongRecOn with
    | ind bound ih =>
      intro a c h hbound
      rw [recurFrom]
      apply round _ _ _ h
      intro a' c' h' hlt
      rw [obeys_ask]
      refine ⟨hleft c', ?_⟩
      have hlt' : measure a' c'.tokensLeft < bound := by omega
      simp only [Reading.machine, if_pos hlt']
      exact (ih _ hlt' a' c' h' (Nat.le_refl _)).with_run
  rw [Parser.recurBy, obeys_ask]
  exact ⟨hleft c, hfrom _ a c h (Nat.le_refl _)⟩

theorem Obeys.recurBy {measure : α → Nat → Nat} {body : (α → Parser β) → α → Parser β}
    (Inv : α → Reading text → Prop) (Post : α → Reading text → β → Reading text → Prop)
    (round : ∀ again a c, Inv a c →
      (∀ a' c', Inv a' c' → measure a' c'.tokensLeft < measure a c.tokensLeft →
        (again a').Obeys allowed (Post a' c') c') → (body again a).Obeys allowed (Post a c) c)
    (hleft : ∀ c, allowed .tokensLeft c) {a : α} (h : Inv a c) :
    (Parser.recurBy measure body a).Obeys allowed (Post a c) c :=
  Obeys.recurBy_run Inv Post (fun again a c h ih => round again a c h fun a' c' h' hlt =>
    (ih a' c' h' hlt).mono fun _ _ h => h.1) hleft h

end Parser

theorem Reading.length_delivered_le (c : Reading text) :
    c.delivered.length ≤ text.utf8ByteSize := by
  have hlength := length_tokensOf_le text
  rw [← c.delivered_pending, List.length_append, List.length_reverse] at hlength
  omega

theorem Reading.tokensLeft_lt {c c' : Reading text}
    (h : c.delivered.length < c'.delivered.length) : c'.tokensLeft < c.tokensLeft := by
  have := c'.length_delivered_le
  simp only [Reading.tokensLeft]
  omega

namespace Reading

variable {c c' c'' : Reading text} {l : List Token}

def Behind (c : Reading text) (l : List Token) : Prop := l <:+ c.delivered

/-- Whether the second reading stands behind the first and more was delivered. -/
structure Onward (c c' : Reading text) : Prop where
  behind : c'.Behind c.delivered
  length_lt : c.delivered.length < c'.delivered.length

theorem Onward.from_behind (h : c'.Onward c'') (hbehind : c'.Behind c.delivered) :
    c.Onward c'' :=
  ⟨List.IsSuffix.trans hbehind h.behind, Nat.lt_of_le_of_lt hbehind.length_le h.length_lt⟩

theorem Onward.of_delivered_eq (h : c.Onward c') (heq : c''.delivered = c'.delivered) :
    c.Onward c'' :=
  ⟨by rw [Behind, heq]; exact h.behind, by rw [heq]; exact h.length_lt⟩

theorem Onward.from_delivered_eq (h : c'.Onward c'') (heq : c'.delivered = c.delivered) :
    c.Onward c'' :=
  ⟨heq ▸ h.behind, heq ▸ h.length_lt⟩

theorem Behind.of_delivered_eq (h : c.Behind l) (heq : c'.delivered = c.delivered) :
    c'.Behind l := by
  rwa [Behind, heq]

theorem Behind.refl (c : Reading text) : c.Behind c.delivered := List.suffix_rfl

theorem Behind.trans (h : c'.Behind c.delivered) (hl : c.Behind l) : c'.Behind l :=
  List.IsSuffix.trans hl h

theorem Onward.trans (h : c.Onward c') (h' : c'.Onward c'') : c.Onward c'' :=
  ⟨h'.behind.trans h.behind, Nat.lt_trans h.length_lt h'.length_lt⟩

theorem Onward.trans_behind (h : c.Onward c') (h' : c''.Behind c'.delivered) : c.Onward c'' :=
  ⟨h'.trans h.behind, Nat.lt_of_lt_of_le h.length_lt h'.length_le⟩

end Reading

variable {R : β → Reading text → Prop} {c : Reading text}

theorem meets_recurBy {measure : α → Nat → Nat} {body : (α → Parser β) → α → Parser β}
    (Inv : α → Reading text → Prop) (Post : α → Reading text → β → Reading text → Prop)
    (round : ∀ again a c, Inv a c →
      (∀ a' c', Inv a' c' → measure a' c'.tokensLeft < measure a c.tokensLeft →
        (again a').Meets (Post a' c') c') → (body again a).Meets (Post a c) c)
    {a : α} (h : Inv a c) : (Parser.recurBy measure body a).Meets (Post a c) c :=
  Parser.Obeys.recurBy Inv Post round (fun _ => trivial) h

/-- The rule for repetition where every round delivers a token. -/
theorem meets_recur {body : (α → Parser β) → α → Parser β} (Inv : α → Reading text → Prop)
    (round : ∀ again a c', c'.Behind c.delivered → Inv a c' →
      (∀ a' c'', c'.Onward c'' → Inv a' c'' → (again a').Meets R c'') →
      (body again a).Meets R c')
    {a : α} (h : Inv a c) : (recur body a).Meets R c := by
  refine meets_recurBy (fun a c' => c'.Behind c.delivered ∧ Inv a c') (fun _ _ => R) ?_
    ⟨.refl c, h⟩
  intro again a c' h ih
  refine round again a c' h.1 h.2 fun a' c'' honward h' => ?_
  exact ih a' c'' ⟨honward.behind.trans h.1, h'⟩ (Reading.tokensLeft_lt honward.length_lt)

theorem meets_loop {body : Parser β → Parser β} (Inv : Reading text → Prop)
    (round : ∀ again c', c'.Behind c.delivered → Inv c' →
      (∀ c'', c'.Onward c'' → Inv c'' → again.Meets R c'') → (body again).Meets R c')
    (h : Inv c) : (loop body).Meets R c :=
  meets_recur (fun _ => Inv) (fun again a c' hbehind h ih => round (again a) c' hbehind h (ih a)) h

end ReflectionTables.Parsing
