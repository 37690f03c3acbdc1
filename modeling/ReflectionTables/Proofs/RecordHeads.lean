import ReflectionTables.Proofs.MemberTables
/-!
# The head of a record

The head of a record, which stands between its name and its body: the word `final` and a list of
bases, or one of them, or none. At file scope and in a body it is read by different parsers; both go
through it up to the opening brace.
-/

namespace ReflectionTables.Parsing

open Text Scanning Reflected Parsing.Parser

/-- A part of a list of bases: a name or a mark between names, or arguments in angle brackets. -/
inductive BasePart
  | word (t : Token) (isWord : t.kind = .ident ∨ t.kind = .comma ∨ t.kind = .colonColon)
  | list (g : AngleGroup)

def BasePart.tokens : BasePart → List Token
  | .word t _ => [t]
  | .list g => g.tokens

structure BaseClause where
  colon : TokenOf .colon
  parts : List BasePart

def BaseClause.tokens (bases : BaseClause) : List Token :=
  bases.colon.val :: bases.parts.flatMap BasePart.tokens

structure RecordHead where
  final? : Option { t : Token // t.isWord "final" = true }
  bases? : Option BaseClause

namespace RecordHead

def nothing : RecordHead := ⟨none, none⟩

def tokens (head : RecordHead) : List Token :=
  (head.final?.map Subtype.val).toList ++ (head.bases?.map BaseClause.tokens).getD []

end RecordHead

structure NamedRecord where
  key : ClassKey
  word : ClassWord key
  name : TokenOf .ident
  head : RecordHead
  opening : TokenOf .lBrace
  /-- The tokens behind the opening brace, the closing one included. -/
  body : List Token

def NamedRecord.tokens (r : NamedRecord) : List Token :=
  r.word.val :: r.name.val :: (r.head.tokens ++ r.opening.val :: r.body)

variable {text : String} {c : Reading text} {us : List Token} {P : Standing} {σ β : Type} {t : Token}

theorem Token.kind_of_isWord {word : String} (h : t.isWord word = true) : t.kind = .ident := by
  rw [Token.isWord, Bool.and_eq_true, beq_iff_eq] at h
  exact h.1

/-- A repetition that passes over `final`, over a colon to the bases, and over the parts of these,
goes through a head. -/
theorem leads_head {body : (σ → Parser β) → σ → Parser β} {f : (σ → Parser β) → σ → Token → Parser β}
    {a b : σ} (hbody : ∀ again s, body again s = next >>= f again s)
    (hfinal : ∀ again t, t.isWord "final" = true → f again a t = again a)
    (hcolon : ∀ again t, t.kind = .colon → f again a t = again b)
    (hword : ∀ again t, t.kind = .ident ∨ t.kind = .comma ∨ t.kind = .colonColon →
      f again b t = again b)
    (hlist : ∀ again t, t.kind = .lt →
      f again b t = Functor.discard (throughAngles t) >>= fun _ => again b) (head : RecordHead) :
    (recur body a).Leads text head.tokens
      (recur body (if head.bases?.isSome then b else a)) := by
  have hfirst : (recur body a).Leads text (head.final?.map Subtype.val).toList
      (recur body a) := by
    cases head.final? with
    | none => exact leads_nil
    | some final =>
      exact leads_token (hbody · a) (hfinal · _ final.property)
        (by rw [Token.kind_of_isWord final.property]; rfl)
  have hparts : ∀ parts : List BasePart,
      (recur body b).Leads text (parts.flatMap BasePart.tokens) (recur body b) := by
    intro parts
    induction parts with
    | nil => exact leads_nil
    | cons part parts ih =>
      refine Leads.append ?_ ih
      cases part with
      | word t ht =>
        refine leads_token (hbody · b) (hword · t ht) ?_
        rcases ht with ht | ht | ht <;> rw [ht] <;> rfl
      | list g =>
        exact leads_recur (passes_throughAngles g).discard (hbody · b)
          (hlist · _ g.opener.property) (by rw [g.opener.property]; rfl)
  refine hfirst.append ?_
  cases head.bases? with
  | none => exact leads_nil
  | some clause =>
    exact (leads_token (hbody · a) (hcolon · _ clause.colon.property)
      (by rw [clause.colon.property]; rfl)).append (hparts clause.parts)

/-- A token is held when it was just delivered. -/
theorem yields_next_holds (hc : c.Stands (t :: us) P) :
    next.Yields (fun u c' => u = t ∧ c'.Holds t ∧ c'.StandsBehind t us P) c := by
  rw [next, Parser.request, Yields, Parser.run]
  simp only [Reading.machine, Reading.read_of_pending hc.pending_eq, if_neg hc.kind_ne_end]
  exact ⟨rfl, (Reading.delivers_advance hc.pending_eq).holds, hc.behind (hc.advance hc.pending_eq)⟩

theorem yields_throughBases (head : RecordHead) (opening : TokenOf .lBrace)
    (hc : c.Stands (head.tokens ++ opening.val :: us) P) :
    throughBases.Yields (fun u c' => u = opening.val ∧ c'.Holds opening.val ∧
      c'.StandsBehind opening.val us P) c := by
  rw [throughBases, loop]
  refine (leads_head (b := ()) (fun _ _ => rfl) ?_ ?_ ?_ ?_ head c _ P hc).yields fun c₁ h₁ => ?_
  · exact fun _ t ht => by simp only [Token.kind_of_isWord ht]
  · exact fun _ t ht => by simp only [ht]
  · exact fun _ t ht => by rcases ht with ht | ht | ht <;> simp only [ht]
  · exact fun _ t ht => by simp only [ht]
  refine yields_recur fun again _ => (yields_next_holds h₁).bind ?_
  rintro _ c₂ ⟨rfl, h₂⟩
  simp only [opening.property]
  exact ⟨rfl, h₂⟩

def BeginsHead (t : Token) : Prop := t.kind = .lBrace ∨ t.kind = .colon ∨ t.isWord "final" = true

theorem RecordHead.exists_first (head : RecordHead) (opening : TokenOf .lBrace) (us : List Token) :
    ∃ t rest, head.tokens ++ opening.val :: us = t :: rest ∧ BeginsHead t := by
  obtain ⟨final?, bases?⟩ := head
  cases final? with
  | some final => exact ⟨final.val, _, rfl, .inr (.inr final.property)⟩
  | none =>
    cases bases? with
    | some bases => exact ⟨bases.colon.val, _, rfl, .inr (.inl bases.colon.property)⟩
    | none => exact ⟨opening.val, us, rfl, .inl opening.property⟩

namespace BeginsHead

theorem kind_ne (h : BeginsHead t) : t.kind ≠ .lParen ∧ t.kind ≠ .semicolon ∧ t.kind ≠ .lt := by
  rcases h with h | h | h
  · simp [h]
  · simp [h]
  · simp [Token.kind_of_isWord h]

theorem ne_marked (h : BeginsHead t) : t.kind ≠ .ident ∨ t.isWord "final" = true := by
  rcases h with h | h | h
  · exact .inl (by simp [h])
  · exact .inl (by simp [h])
  · exact .inr h

end BeginsHead

/-- A name before a head or a body is neither an attribute nor a marker. -/
theorem yields_throughHeadAttributes_named {name : Token} (hname : name.kind = .ident) (ht : BeginsHead t)
    (hc : c.Stands (name :: t :: us) P) :
    throughHeadAttributes.Yields (fun _ c' => c'.Stands (name :: t :: us) P) c :=
  yields_throughHeadAttributes_of hname ht.kind_ne.1
    (fun _ h' => yields_markerAhead_last ht.ne_marked h') hc

end ReflectionTables.Parsing
