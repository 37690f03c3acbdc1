import ReflectionTables.Proofs.PairedFiles
/-!
# Which tokens a parser goes through

A parser that skips a group or a declaration ends behind the first row of tokens that belongs to a
language, and fails where no such row comes next. So where it ends does not depend on what follows,
on what was looked at before or on what the skipped tokens say.
-/

namespace ReflectionTables.Scanning

variable {t : Token} {ts : List Token} {depth n : Nat}

/-- The rows of tokens that are made up of one from each of two languages. -/
def Followed (first second : List Token → Prop) (ts : List Token) : Prop :=
  ∃ us vs, ts = us ++ vs ∧ first us ∧ second vs

inductive ClosesBrace (depth : Nat) : List Token → Prop
  | closing {t : Token} (hclose : t.kind = .rBrace ∧ t.depth = depth) : ClosesBrace depth [t]
  | inside {t : Token} {ts : List Token} (hinside : ¬(t.kind = .rBrace ∧ t.depth = depth))
      (hrest : ClosesBrace depth ts) : ClosesBrace depth (t :: ts)

/-- Tokens up to the parenthesis that closes a group in which so many more are open. Parentheses in
braces do not count. -/
inductive ClosesParens : Nat → List Token → Prop
  | closing {t : Token} (hkind : t.kind = .rParen) : ClosesParens 0 [t]
  | closed {n : Nat} {t : Token} {ts : List Token} (hkind : t.kind = .rParen)
      (hrest : ClosesParens n ts) : ClosesParens (n + 1) (t :: ts)
  | opened {n : Nat} {t : Token} {ts : List Token} (hkind : t.kind = .lParen)
      (hrest : ClosesParens (n + 1) ts) : ClosesParens n (t :: ts)
  | block {n : Nat} {t : Token} {inner ts : List Token} (hkind : t.kind = .lBrace)
      (hinner : ClosesBrace t.depth inner) (hrest : ClosesParens n ts) :
      ClosesParens n (t :: (inner ++ ts))
  | token {n : Nat} {t : Token} {ts : List Token}
      (hkind : t.kind ≠ .lParen ∧ t.kind ≠ .rParen ∧ t.kind ≠ .lBrace)
      (hrest : ClosesParens n ts) : ClosesParens n (t :: ts)

/-- Tokens up to the angle bracket that closes the last of so many lists. `>>` closes two lists, and
what stands in parentheses does not count. -/
inductive ClosesAngles : Int → List Token → Prop
  | closing {t : Token} {k : Int} (hkind : t.kind = .gt ∧ k = 1 ∨ t.kind = .gtGt ∧ k = 2) :
      ClosesAngles k [t]
  | closed {n k : Int} {t : Token} {ts : List Token}
      (hkind : t.kind = .gt ∧ k = 1 ∨ t.kind = .gtGt ∧ k = 2) (hmore : k < n)
      (hrest : ClosesAngles (n - k) ts) : ClosesAngles n (t :: ts)
  | opened {n : Int} {t : Token} {ts : List Token} (hkind : t.kind = .lt)
      (hrest : ClosesAngles (n + 1) ts) : ClosesAngles n (t :: ts)
  | parens {n : Int} {t : Token} {inner ts : List Token} (hkind : t.kind = .lParen)
      (hinner : ClosesParens 0 inner) (hrest : ClosesAngles n ts) :
      ClosesAngles n (t :: (inner ++ ts))
  | token {n : Int} {t : Token} {ts : List Token}
      (hkind : t.kind ≠ .lt ∧ t.kind ≠ .gt ∧ t.kind ≠ .gtGt ∧ t.kind ≠ .ltLt ∧
        t.kind ≠ .semicolon ∧ t.kind ≠ .lParen)
      (hrest : ClosesAngles n ts) : ClosesAngles n (t :: ts)

/-- Tokens that end in a semicolon or in a block, the first one that stands outside parentheses. -/
inductive EndsAtFirst : List Token → Prop
  | semicolon {t : Token} (hkind : t.kind = .semicolon) : EndsAtFirst [t]
  | block {t : Token} {inner : List Token} (hkind : t.kind = .lBrace)
      (hinner : ClosesBrace t.depth inner) : EndsAtFirst (t :: inner)
  | parens {t : Token} {inner ts : List Token} (hkind : t.kind = .lParen)
      (hinner : ClosesParens 0 inner) (hrest : EndsAtFirst ts) :
      EndsAtFirst (t :: (inner ++ ts))
  | token {t : Token} {ts : List Token}
      (hkind : t.kind ≠ .semicolon ∧ t.kind ≠ .lBrace ∧ t.kind ≠ .lParen ∧ t.kind ≠ .rBrace)
      (hrest : EndsAtFirst ts) : EndsAtFirst (t :: ts)

@[simp] theorem closesBrace_cons : ClosesBrace depth (t :: ts) ↔
    if t.kind = .rBrace ∧ t.depth = depth then ts = [] else ClosesBrace depth ts := by
  split
  · rename_i hclose
    refine ⟨?_, ?_⟩
    · rintro (_ | ⟨hinside, -⟩)
      · rfl
      · exact absurd hclose hinside
    · rintro rfl
      exact .closing hclose
  · rename_i hinside
    refine ⟨?_, .inside hinside⟩
    rintro (⟨hclose⟩ | ⟨-, hrest⟩)
    · exact absurd hclose hinside
    · exact hrest

instance ClosesBrace.decidable (depth : Nat) : (ts : List Token) → Decidable (ClosesBrace depth ts)
  | [] => isFalse nofun
  | _ :: ts =>
    have := ClosesBrace.decidable depth ts
    decidable_of_iff' _ closesBrace_cons

@[simp] theorem closesParens_cons : ClosesParens n (t :: ts) ↔
    match t.kind, n with
    | .lParen, n => ClosesParens (n + 1) ts
    | .rParen, 0 => ts = []
    | .rParen, n + 1 => ClosesParens n ts
    | .lBrace, n => Followed (ClosesBrace t.depth) (ClosesParens n) ts
    | _, n => ClosesParens n ts := by
  constructor
  · intro h
    cases h with
    | closing hkind => simp [hkind]
    | closed hkind hrest => simpa [hkind] using hrest
    | opened hkind hrest => simpa [hkind] using hrest
    | block hkind hinner hrest =>
      simp only [hkind]
      exact ⟨_, _, rfl, hinner, hrest⟩
    | token hkind hrest =>
      split <;> simp_all
  · split
    · exact .opened ‹_›
    · rintro rfl
      exact .closing ‹_›
    · exact .closed ‹_›
    · rintro ⟨inner, rest, rfl, hinner, hrest⟩
      exact .block ‹_› hinner hrest
    · rename_i m _ _ hlParen hlBrace hlast hclosed
      refine .token ⟨hlParen, fun hkind => ?_, hlBrace⟩
      cases m with
      | zero => exact hlast hkind rfl
      | succ m => exact hclosed m hkind rfl

@[simp] theorem closesAngles_cons {n : Int} : ClosesAngles n (t :: ts) ↔
    match t.kind with
    | .lt => ClosesAngles (n + 1) ts
    | .gt => n = 1 ∧ ts = [] ∨ 1 < n ∧ ClosesAngles (n - 1) ts
    | .gtGt => n = 2 ∧ ts = [] ∨ 2 < n ∧ ClosesAngles (n - 2) ts
    | .ltLt | .semicolon => False
    | .lParen => Followed (ClosesParens 0) (ClosesAngles n) ts
    | _ => ClosesAngles n ts := by
  constructor
  · intro h
    cases h with
    | closing hkind => rcases hkind with ⟨hkind, rfl⟩ | ⟨hkind, rfl⟩ <;> simp [hkind]
    | closed hkind hmore hrest =>
      rcases hkind with ⟨hkind, rfl⟩ | ⟨hkind, rfl⟩ <;> simp only [hkind] <;>
        exact .inr ⟨hmore, hrest⟩
    | opened hkind hrest => simpa [hkind] using hrest
    | parens hkind hinner hrest =>
      simp only [hkind]
      exact ⟨_, _, rfl, hinner, hrest⟩
    | token hkind hrest => split <;> simp_all
  · have hclose : ∀ k : Int, (t.kind = .gt ∧ k = 1 ∨ t.kind = .gtGt ∧ k = 2) →
        (n = k ∧ ts = [] ∨ k < n ∧ ClosesAngles (n - k) ts) → ClosesAngles n (t :: ts) := by
      rintro k hkind (⟨rfl, rfl⟩ | ⟨hmore, hrest⟩)
      · exact .closing hkind
      · exact .closed hkind hmore hrest
    split
    · exact .opened ‹_›
    · exact hclose 1 (.inl ⟨‹_›, rfl⟩)
    · exact hclose 2 (.inr ⟨‹_›, rfl⟩)
    · exact False.elim
    · exact False.elim
    · rintro ⟨inner, rest, rfl, hinner, hrest⟩
      exact .parens ‹_› hinner hrest
    · exact .token ⟨‹_›, ‹_›, ‹_›, ‹_›, ‹_›, ‹_›⟩

@[simp] theorem endsAtFirst_cons : EndsAtFirst (t :: ts) ↔
    match t.kind with
    | .semicolon => ts = []
    | .lBrace => ClosesBrace t.depth ts
    | .lParen => Followed (ClosesParens 0) EndsAtFirst ts
    | .rBrace => False
    | _ => EndsAtFirst ts := by
  constructor
  · intro h
    cases h with
    | semicolon hkind => simp [hkind]
    | block hkind hinner => simpa [hkind] using hinner
    | parens hkind hinner hrest =>
      simp only [hkind]
      exact ⟨_, _, rfl, hinner, hrest⟩
    | token hkind hrest => split <;> simp_all
  · split
    · rintro rfl
      exact .semicolon ‹_›
    · exact .block ‹_›
    · rintro ⟨inner, rest, rfl, hinner, hrest⟩
      exact .parens ‹_› hinner hrest
    · exact False.elim
    · exact .token ⟨‹_›, ‹_›, ‹_›, ‹_›⟩

end ReflectionTables.Scanning

namespace ReflectionTables.Parsing

open Text Scanning Reflected Parsing.Parser Reading

variable {text : String} {α β : Type} {c c' : Reading text} {t : Token} {ts us : List Token}

namespace Parser

/-- Whether a parser goes through the rows of tokens in a language: it ends behind one that comes
next, and nowhere else. A failure that no contract expects says nothing. -/
def Consumes (language : List Token → Prop) (p : Parser α) (c : Reading text) : Prop :=
  match p.run Reading.machine c with
  | .ok (_, c') => c'.findings = c.findings ∧ c'.pending <:+ c.pending ∧
      ∀ ts us, c.pending = ts ++ us → (language ts ↔ c'.pending = us)
  | .error failure => failure.Expected → ∀ ts us, c.pending = ts ++ us → ¬language ts

variable {L L' : List Token → Prop} {p : Parser α} {f : α → Parser β}

theorem Consumes.congr (h : p.Consumes L c) (hL : ∀ ts, L' ts ↔ L ts) : p.Consumes L' c := by
  have heq : L' = L := funext fun ts => propext (hL ts)
  rwa [heq]

theorem consumes_pure {a : α} : (pure a : Parser α).Consumes (· = []) c := by
  refine ⟨rfl, List.suffix_rfl, fun ts us hpending => ⟨?_, fun heq => ?_⟩⟩
  · rintro rfl
    exact hpending
  · rw [hpending] at heq
    exact List.append_left_eq_self.1 heq

theorem consumes_fail {fault : ParseFault} :
    (fail t fault : Parser α).Consumes (fun _ => False) c :=
  fun _ _ _ _ => id

theorem consumes_lookAt {n : Nat} (h : n < c.pending.length) : (lookAt n).Consumes (· = []) c := by
  rw [Consumes, lookAt, Parser.request, Parser.run]
  simp only [Reading.machine]
  by_cases hclear : ∀ t ∈ c.pending.take n, t.kind.isBrace = false
  · simp only [dif_pos hclear, List.getElem?_eq_getElem h]
    exact consumes_pure (a := c.pending[n]) (c := c)
  · rw [dif_neg hclear]
    exact fun h => h.elim

theorem Consumes.bind (h : p.Consumes L c)
    (hf : ∀ a (c' : Reading text), c'.pending <:+ c.pending → (f a).Consumes L' c') :
    (p >>= f).Consumes (Followed L L') c := by
  rw [Consumes] at h ⊢
  rw [run_bind]
  cases hrun : p.run Reading.machine c with
  | error failure =>
    rw [hrun] at h
    rintro hexpected ts us hpending ⟨first, second, rfl, hfirst, -⟩
    rw [List.append_assoc] at hpending
    exact h hexpected first (second ++ us) hpending hfirst
  | ok result =>
    obtain ⟨a, c₁⟩ := result
    rw [hrun] at h
    obtain ⟨hfindings, hsuffix, hiff⟩ := h
    have hf := hf a c₁ hsuffix
    rw [Consumes] at hf
    dsimp only
    cases hrun₁ : (f a).run Reading.machine c₁ with
    | error failure =>
      rw [hrun₁] at hf
      rintro hexpected ts us hpending ⟨first, second, rfl, hfirst, hsecond⟩
      rw [List.append_assoc] at hpending
      exact hf hexpected second us ((hiff first _ hpending).1 hfirst) hsecond
    | ok result =>
      rw [hrun₁] at hf
      obtain ⟨hfindings₁, hsuffix₁, hiff₁⟩ := hf
      refine ⟨hfindings₁.trans hfindings, hsuffix₁.trans hsuffix, fun ts us hpending => ⟨?_, ?_⟩⟩
      · rintro ⟨first, second, rfl, hfirst, hsecond⟩
        rw [List.append_assoc] at hpending
        exact (hiff₁ second us ((hiff first _ hpending).1 hfirst)).1 hsecond
      · rintro rfl
        obtain ⟨first, hfirst⟩ := hsuffix
        obtain ⟨second, hsecond⟩ := hsuffix₁
        rw [← hfirst, ← hsecond, ← List.append_assoc] at hpending
        exact ⟨first, second, (List.append_cancel_right hpending).symm,
          (hiff first _ hfirst.symm).2 rfl, (hiff₁ second _ hsecond.symm).2 rfl⟩

/-- What is done with the answer of a parser goes through nothing. -/
theorem Consumes.bind_pure (h : p.Consumes L c) (g : α → β) :
    (p >>= fun a => pure (g a)).Consumes L c :=
  (h.bind fun _ _ _ => consumes_pure).congr fun us => by simp [Followed]

theorem Consumes.discard (h : p.Consumes L c) : (Functor.discard p).Consumes L c :=
  h.bind_pure fun _ => ()

theorem Consumes.discard_bind {f : Unit → Parser β} (h : p.Consumes L c)
    (hf : ∀ c' : Reading text, c'.pending <:+ c.pending → (f ()).Consumes L' c') :
    (Functor.discard p >>= f).Consumes (Followed L L') c :=
  h.discard.bind fun _ => hf

/-- Behind a row that a parser goes through, the rest of the rows belongs to what follows. -/
theorem Consumes.behind_bind (h : p.Consumes L c) (hpending : c.pending = ts ++ us) (hts : L ts)
    (hf : ∀ a (c' : Reading text), c'.pending = us → (f a).Consumes L' c') :
    (p >>= f).Consumes (fun vs => ∃ ws, vs = ts ++ ws ∧ L' ws) c := by
  rw [Consumes] at h ⊢
  rw [run_bind]
  cases hrun : p.run Reading.machine c with
  | error failure =>
    rw [hrun] at h
    exact fun hexpected => absurd hts (h hexpected ts us hpending)
  | ok result =>
    obtain ⟨a, c₁⟩ := result
    rw [hrun] at h
    obtain ⟨hfindings, -, hiff⟩ := h
    have hpending₁ : c₁.pending = us := (hiff ts us hpending).1 hts
    have hf := hf a c₁ hpending₁
    rw [Consumes, hpending₁] at hf
    dsimp only
    cases hrun₁ : (f a).run Reading.machine c₁ with
    | error failure =>
      rw [hrun₁] at hf
      rintro hexpected _ us' heq ⟨ws, rfl, hws⟩
      rw [hpending, List.append_assoc] at heq
      exact hf hexpected ws us' (List.append_cancel_left heq) hws
    | ok result =>
      rw [hrun₁] at hf
      obtain ⟨hfindings₁, ⟨ws, hsuffix⟩, hiff₁⟩ := hf
      refine ⟨hfindings₁.trans hfindings, ⟨ts ++ ws, ?_⟩, fun vs us' heq => ⟨?_, ?_⟩⟩
      · rw [List.append_assoc, hsuffix, hpending]
      · rintro ⟨ws', rfl, hws⟩
        rw [hpending, List.append_assoc] at heq
        exact (hiff₁ ws' us' (List.append_cancel_left heq)).1 hws
      · rintro rfl
        rw [hpending, ← hsuffix, ← List.append_assoc] at heq
        exact ⟨ws, (List.append_cancel_right heq).symm, (hiff₁ ws _ hsuffix.symm).2 rfl⟩

/-- Reading on, the rows of a language have a first token. -/
theorem consumes_next_bind {f : Token → Parser β} (hnil : ¬L [])
    (hf : ∀ t ts (hpending : c.pending = t :: ts),
      (f t).Consumes (fun us => L (t :: us)) (c.advance t ts hpending)) :
    (next >>= f).Consumes L c := by
  rw [Consumes, run_bind, next, Parser.request, Parser.run]
  simp only [Reading.machine]
  cases hpending : c.pending with
  | nil =>
    have hfails : ∀ ts us, [] = ts ++ us → ¬L ts := by
      intro ts us heq
      rw [(List.append_eq_nil_iff.1 heq.symm).1]
      exact hnil
    rw [read_of_pending_nil hpending]
    cases hend : (tokensOf text).2 with
    | error e => exact fun _ => hfails
    | ok u =>
      rw [ending_tokensOf hend]
      exact fun _ => hfails
  | cons t ts =>
    rw [read_of_pending hpending]
    simp only [if_neg (delivers_advance hpending).holds.kind_ne, Parser.run]
    have hf := hf t ts hpending
    rw [Consumes] at hf
    cases hrun : (f t).run Reading.machine (c.advance t ts hpending) with
    | error failure =>
      rw [hrun] at hf
      intro hexpected vs us heq
      cases vs with
      | nil => exact hnil
      | cons v vs =>
        obtain ⟨rfl, rfl⟩ := List.cons.inj heq
        exact hf hexpected vs us rfl
    | ok result =>
      rw [hrun] at hf
      obtain ⟨hfindings, hsuffix, hiff⟩ := hf
      refine ⟨hfindings, hsuffix.trans (List.suffix_cons t ts), fun vs us heq => ?_⟩
      cases vs with
      | nil =>
        refine ⟨fun hL => absurd hL hnil, fun hpast => ?_⟩
        -- Nothing can be pending behind a token that was pending before it.
        have hlength := hsuffix.length_le
        rw [hpast, ← List.nil_append us, ← heq] at hlength
        exact absurd hlength (Nat.not_succ_le_self _)
      | cons v vs =>
        obtain ⟨rfl, rfl⟩ := List.cons.inj heq
        exact hiff vs us rfl

theorem tokensLeft_le_of_pending (h : c'.pending <:+ c.pending) : c'.tokensLeft ≤ c.tokensLeft := by
  have hlength := congrArg List.length (c.delivered_pending.trans c'.delivered_pending.symm)
  rw [List.length_append, List.length_append, List.length_reverse, List.length_reverse] at hlength
  have := h.length_le
  simp only [Reading.tokensLeft]
  omega

theorem tokensLeft_advance_lt {ts : List Token} (h : c.pending = t :: ts) :
    (c.advance t ts h).tokensLeft < c.tokensLeft :=
  tokensLeft_lt (Nat.lt_succ_self _)

/-- The rule for repetition: each round goes through the rows of its language where the rounds after
it do, behind fewer tokens. -/
theorem consumes_recur (language : α → List Token → Prop) {body : (α → Parser β) → α → Parser β}
    (round : ∀ again a (c : Reading text),
      (∀ b (d : Reading text), d.tokensLeft < c.tokensLeft → (again b).Consumes (language b) d) →
        (body again a).Consumes (language a) c) (a : α) (c : Reading text) :
    (recur body a).Consumes (language a) c := by
  induction hn : c.tokensLeft using Nat.strongRecOn generalizing a c with
  | ind n ih =>
    subst hn
    obtain ⟨again, hrun, hagain⟩ := run_recurBy (fun _ left => left) body a c
    rw [Consumes, recur, hrun]
    refine round again a c fun b d hlt => ?_
    rw [Consumes, hagain b d hlt]
    exact ih _ hlt b d rfl

end Parser

section Groups

variable {opening : Token}

theorem consumes_throughBrace : (throughBrace opening).Consumes (ClosesBrace opening.depth) c := by
  refine consumes_recur (fun _ => ClosesBrace opening.depth) ?_ () c
  intro again _ c ih
  refine consumes_next_bind (by rintro ⟨⟩) fun t ts hpending => ?_
  refine Consumes.congr ?_ fun us => closesBrace_cons
  split
  · exact consumes_pure
  · exact ih () _ (tokensLeft_advance_lt hpending)

theorem consumes_parensEnd (n : Nat) : (parensEnd n).Consumes (ClosesParens n) c := by
  refine consumes_recur ClosesParens ?_ n c
  intro again n c ih
  refine consumes_next_bind (by rintro ⟨⟩) fun t ts hpending => ?_
  have hlt := tokensLeft_advance_lt hpending
  split
  · exact (ih _ _ hlt).congr fun us => by simp [*]
  · exact consumes_pure.congr fun us => by simp [*]
  · exact (ih _ _ hlt).congr fun us => by simp [*]
  · refine Consumes.congr (consumes_throughBrace.discard_bind fun d hd => ih _ d ?_)
      fun us => by simp [*]
    exact Nat.lt_of_le_of_lt (tokensLeft_le_of_pending hd) hlt
  · exact (ih _ _ hlt).congr fun us => by simp [*]

theorem consumes_throughParens (hkind : opening.kind = .lParen) :
    (throughParens opening).Consumes (ClosesParens 0) c := by
  rw [throughParens, if_neg (by simp [hkind])]
  exact consumes_parensEnd 0

theorem consumes_cut_bind {what : Cut} {start stop : Nat} {f : String → Parser β}
    {L : List Token → Prop} (hwhat : what ≠ .token ∧ what ≠ .parameterName)
    (hf : ∀ piece, (f piece).Consumes L c) : (cut what start stop >>= f).Consumes L c := by
  rw [Consumes, run_bind, cut, Parser.request, Parser.run]
  simp only [Reading.machine]
  cases slice? text start stop with
  | some piece => exact hf piece
  | none =>
    rintro (hfault | hfault)
    · exact absurd hfault hwhat.1
    · exact absurd hfault hwhat.2

theorem consumes_anglesEnd (n : Int) : (anglesEnd opening n).Consumes (ClosesAngles n) c := by
  refine consumes_recur ClosesAngles ?_ n c
  intro again n c ih
  refine consumes_next_bind (by rintro ⟨⟩) fun t ts hpending => ?_
  have hlt := tokensLeft_advance_lt hpending
  have hclose : ∀ (k : Int) (offset : Nat), (if n - k < 0 then fail t .overclosedList
      else if n - k = 0 then do return ⟨← cut .list opening.stop offset, offset + 1⟩
      else again (n - k) : Parser AngleList).Consumes
        (fun us => n = k ∧ us = [] ∨ k < n ∧ ClosesAngles (n - k) us)
        (c.advance t ts hpending) := by
    intro k offset
    split
    · exact consumes_fail.congr fun us => by
        rw [iff_false, not_or]
        exact ⟨fun h => by omega, fun h => by omega⟩
    split
    · refine consumes_cut_bind (by simp) fun piece => consumes_pure.congr fun us => ?_
      obtain rfl : n = k := by omega
      simp
    · refine (ih _ _ hlt).congr fun us => ?_
      rw [or_iff_right (fun h => by omega), and_iff_right (by omega)]
  split
  · exact (ih _ _ hlt).congr fun us => by simp [*]
  · exact (hclose _ _).congr fun us => by simp [*]
  · exact (hclose _ _).congr fun us => by simp [*]
  · exact consumes_fail.congr fun us => by simp [*]
  · exact consumes_fail.congr fun us => by simp [*]
  · refine Consumes.congr ((consumes_throughParens ‹_›).discard_bind fun d hd => ih _ d ?_)
      fun us => by simp [*]
    exact Nat.lt_of_le_of_lt (tokensLeft_le_of_pending hd) hlt
  · exact (ih _ _ hlt).congr fun us => by simp [*]

/-- A list in angle brackets ends where its brackets close. -/
theorem consumes_throughAngles : (throughAngles opening).Consumes (ClosesAngles 1) c :=
  consumes_anglesEnd 1

/-- A declaration that is skipped ends at its first semicolon or block outside parentheses. -/
theorem consumes_throughDeclaration : throughDeclaration.Consumes EndsAtFirst c := by
  refine consumes_recur (fun _ => EndsAtFirst) ?_ () c
  intro again _ c ih
  refine consumes_next_bind (by rintro ⟨⟩) fun t ts hpending => ?_
  have hlt := tokensLeft_advance_lt hpending
  split
  · exact consumes_pure.congr fun us => by simp [*]
  · exact consumes_throughBrace.congr fun us => by simp [*]
  · refine Consumes.congr ((consumes_throughParens ‹_›).discard_bind fun d hd => ih () d ?_)
      fun us => by simp [*]
    exact Nat.lt_of_le_of_lt (tokensLeft_le_of_pending hd) hlt
  · exact consumes_fail.congr fun us => by simp [*]
  · exact (ih () _ hlt).congr fun us => by simp [*]

end Groups

end ReflectionTables.Parsing
