import ReflectionTables.Proofs.StreamReadings
/-!
# What parsers end with

A parser yields a result from a reading if its run ends there, unless it fails in a way that no
contract expects. So a repetition may be unrolled where it stands, and the contracts, which exclude
such failures, turn what a file yields into what it ends with.
-/

namespace ReflectionTables.Parsing

open Text Scanning Reflected

variable {text : String} {α β : Type}

namespace Parser

/-- Whether a parser ends with what is said, if it fails in no way that is not expected. -/
def Yields (Q : α → Reading text → Prop) (p : Parser α) (c : Reading text) : Prop :=
  match p.run Reading.machine c with
  | .ok (a, c') => Q a c'
  | .error failure => ¬failure.Expected

variable {P Q : α → Reading text → Prop} {R : β → Reading text → Prop} {c : Reading text}

theorem Yields.bind {p : Parser α} {f : α → Parser β} (h : p.Yields P c)
    (hf : ∀ a c', P a c' → (f a).Yields R c') : (p >>= f).Yields R c := by
  rw [Yields] at h ⊢
  rw [run_bind]
  cases hrun : p.run Reading.machine c with
  | ok result =>
    rw [hrun] at h
    exact hf _ _ h
  | error failure =>
    rw [hrun] at h
    exact h

theorem Yields.mono {p : Parser α} (h : p.Yields P c) (hQ : ∀ a c', P a c' → Q a c') :
    p.Yields Q c := by
  have h' : (p >>= pure).Yields Q c := h.bind hQ
  rwa [bind_pure] at h'

theorem Yields.discard_bind {p : Parser α} {f : Unit → Parser β} (h : p.Yields P c)
    (hf : ∀ a c', P a c' → (f ()).Yields R c') : (Functor.discard p >>= f).Yields R c := by
  have hdiscard : (Functor.discard p).Yields (fun _ c' => (f ()).Yields R c') c := h.bind hf
  exact hdiscard.bind fun _ _ h' => h'

theorem Yields.cases {p : Parser α} (h : p.Yields P c) :
    (∃ a c', p.run Reading.machine c = .ok (a, c') ∧ P a c') ∨
      ∃ failure, p.run Reading.machine c = .error failure ∧ ¬failure.Expected := by
  rw [Yields] at h
  cases hrun : p.run Reading.machine c with
  | ok result =>
    rw [hrun] at h
    exact .inl ⟨_, _, rfl, h⟩
  | error failure =>
    rw [hrun] at h
    exact .inr ⟨failure, rfl, h⟩

/-- A parser that keeps to a contract ends with what it yields. -/
theorem Yields.exists_run {allowed : Request → Reading text → Prop} {p : Parser α}
    (h : p.Yields P c) (hobeys : p.Obeys allowed Q c) :
    ∃ a c', p.run Reading.machine c = .ok (a, c') ∧ P a c' := by
  have hrun := hobeys.run
  rcases h.cases with hresult | ⟨failure, hfails, hfailure⟩
  · exact hresult
  · rw [hfails] at hrun
    exact absurd hrun hfailure

/-- A repetition runs as its first round, where going on is the repetition itself or has stalled. -/
theorem run_recurBy_or (measure : α → Nat → Nat) (body : (α → Parser β) → α → Parser β) (a : α)
    (c : Reading text) :
    ∃ again, (Parser.recurBy measure body a).run Reading.machine c = (body again a).run Reading.machine c ∧
      ∀ b (d : Reading text),
        (again b).run Reading.machine d = (Parser.recurBy measure body b).run Reading.machine d ∨
          (again b).run Reading.machine d = .error .stalled := by
  refine ⟨fun b => ask .tokensLeft fun left =>
    if measure b left < measure a c.tokensLeft then recurFrom measure body (measure b left) b
    else ask .stall Empty.elim, ?_, fun b d => ?_⟩
  · rw [Parser.recurBy, run]
    simp only [Reading.machine]
    rw [recurFrom]
  · rw [Parser.recurBy, run, run]
    simp only [Reading.machine]
    by_cases hlt : measure b d.tokensLeft < measure a c.tokensLeft
    · rw [if_pos hlt]
      exact .inl rfl
    · rw [if_neg hlt]
      exact .inr rfl

/-- A repetition yields what its first round yields, where going on is the repetition itself. -/
theorem yields_recurBy {measure : α → Nat → Nat} {body : (α → Parser β) → α → Parser β} {a : α}
    (h : ∀ again : α → Parser β, (∀ b (d : Reading text) S,
      (Parser.recurBy measure body b).Yields S d → (again b).Yields S d) →
        (body again a).Yields R c) :
    (Parser.recurBy measure body a).Yields R c := by
  obtain ⟨again, hrun, hagain⟩ := run_recurBy_or measure body a c
  rw [Yields, hrun]
  refine h again fun b d S hb => ?_
  rw [Yields]
  rcases hagain b d with heq | hstalled
  · rw [heq]
    exact hb
  · rw [hstalled]
    exact id

end Parser

open Parsing.Parser

theorem yields_recur {body : (α → Parser β) → α → Parser β} {a : α} {R : β → Reading text → Prop}
    {c : Reading text} (h : ∀ again : α → Parser β, (∀ b (d : Reading text) S,
      (recur body b).Yields S d → (again b).Yields S d) → (body again a).Yields R c) :
    (recur body a).Yields R c :=
  yields_recurBy h

theorem yields_loop {body : Parser β → Parser β} {R : β → Reading text → Prop} {c : Reading text}
    (h : ∀ again : Parser β, (∀ (d : Reading text) S, (loop body).Yields S d → again.Yields S d) →
      (body again).Yields R c) : (loop body).Yields R c :=
  yields_recur fun again hagain => h (again ()) fun d S => hagain () d S

/-- Where a reading stands, apart from the tokens to come. -/
structure Standing where
  role : FileRole
  /-- The number of open braces. -/
  depth : Nat
  scopes : List Scope
  found : Findings

namespace Standing

variable {P : Standing} {t : Token}

def behind (P : Standing) (t : Token) : Standing :=
  { P with depth := t.kind.depthAfter P.depth, scopes := scopesBehind t P.scopes }

def opened (P : Standing) : Standing := { P with depth := P.depth + 1 }

def entered (P : Standing) (segment : String) : Standing :=
  { P.opened with scopes := ⟨segment, P.depth⟩ :: P.scopes }

def noted (P : Standing) (finding : Finding) : Standing := { P with found := P.found.add finding }

def enclosingName (P : Standing) : String := "::".intercalate (P.scopes.reverse.map (·.segment))

end Standing

/-- Whether a reading stands at a place, with the given tokens to come. -/
structure Reading.Stands (c : Reading text) (us : List Token) (P : Standing) : Prop where
  role_eq : c.role = P.role
  pending_eq : c.pending = us
  depth_eq : c.depth = P.depth
  scopes_eq : c.scopes = P.scopes
  findings_eq : c.findings = P.found

variable {c : Reading text} {t : Token} {us : List Token} {P : Standing}

theorem Standing.behind_of_isBrace (h : t.kind.isBrace = false) : P.behind t = P := by
  have hscopes : scopesBehind t P.scopes = P.scopes := by
    rw [scopesBehind, if_neg]
    intro hkind
    rw [hkind] at h
    cases h
  rw [behind, hscopes, TokenKind.depthAfter_of_isBrace h]

theorem Standing.behind_of_lBrace (h : t.kind = .lBrace) : P.behind t = P.opened := by
  rw [behind, opened, h, scopesBehind, h]
  rfl

namespace Reading.Stands

theorem standsIn (h : c.Stands (t :: us) P) : t.StandsIn text := by
  have hmem : t ∈ c.pending := by
    rw [h.pending_eq]
    exact List.mem_cons_self
  exact standsIn_of_mem_tokensOf (c.mem_tokensOf (.inr hmem))

theorem kind_ne_end (h : c.Stands (t :: us) P) : t.kind ≠ .endOfText := h.standsIn.kind_ne_end

theorem scopes_lt (h : c.Stands us P) : ∀ s ∈ P.scopes, s.depth < P.depth := by
  rw [← h.scopes_eq, ← h.depth_eq]
  exact c.scopes_lt

theorem nested (h : c.Stands us P) : Nested P.depth us := by
  rw [← h.depth_eq, ← h.pending_eq]
  exact c.nested_pending

/-- The tokens to come stand in order. -/
theorem pairwise (h : c.Stands us P) : us.Pairwise fun t u => t.stop ≤ u.offset := by
  have hpair := pairwise_tokensOf text
  rw [← c.delivered_pending, h.pending_eq, List.pairwise_append] at hpair
  exact hpair.2.1

theorem advance (h : c.Stands (t :: us) P) (hpending : c.pending = t :: us) :
    (c.advance t us hpending).Stands us (P.behind t) := by
  constructor
  · exact h.role_eq
  · rfl
  · rw [Reading.depth, Reading.advance, Reading.depthBehind_snoc, Standing.behind, ← h.depth_eq]
    rfl
  · rw [Standing.behind, ← h.scopes_eq]
    rfl
  · exact h.findings_eq

/-- A closing brace closes the scopes that were entered behind the one that it closes. -/
theorem behind_of_rBrace {outer : Standing} (entered : List Scope) (h : c.Stands (t :: us) P)
    (hkind : t.kind = .rBrace) (hdepth : P.depth = outer.depth + 1)
    (hscopes : P.scopes = entered ++ outer.scopes) (hentered : ∀ s ∈ entered, s.depth = outer.depth)
    (houter : ∀ s ∈ outer.scopes, s.depth < outer.depth) :
    t.depth = outer.depth ∧ P.behind t = { P with depth := outer.depth, scopes := outer.scopes } := by
  have hown := h.nested.2.1
  rw [hkind, TokenKind.ownDepth, if_pos rfl, hdepth, Nat.add_sub_cancel] at hown
  refine ⟨hown, ?_⟩
  have hbehind : scopesBehind t P.scopes = outer.scopes := by
    rw [scopesBehind, if_pos hkind, hown, hscopes,
      List.dropWhile_append_of_pos (by simpa using hentered)]
    cases houts : outer.scopes with
    | nil => rfl
    | cons s scopes =>
      have hs := houter s (by rw [houts]; exact List.mem_cons_self)
      rw [List.dropWhile_cons_of_neg (by simp; omega)]
  rw [Standing.behind, hbehind, hkind, TokenKind.depthAfter, hdepth, Nat.add_sub_cancel]

end Reading.Stands

theorem yields_next (h : c.Stands (t :: us) P) :
    next.Yields (fun u c' => u = t ∧ c'.Stands us (P.behind t)) c := by
  rw [next, Parser.request, Yields, Parser.run]
  simp only [Reading.machine, Reading.read_of_pending h.pending_eq, if_neg h.kind_ne_end]
  exact ⟨rfl, h.advance h.pending_eq⟩

theorem yields_nextOrEnd (h : c.Stands (t :: us) P) :
    nextOrEnd.Yields (fun u c' => u = t ∧ c'.Stands us (P.behind t)) c := by
  rw [nextOrEnd, Parser.request, Yields, Parser.run]
  simp only [Reading.machine, Reading.read_of_pending h.pending_eq]
  exact ⟨rfl, h.advance h.pending_eq⟩

theorem yields_nextOrEnd_nil (h : c.Stands [] P) (hend : (tokensOf text).2 = .ok t) :
    nextOrEnd.Yields (fun u c' => u = t ∧ c' = c) c := by
  rw [nextOrEnd, Parser.request, Yields, Parser.run]
  simp only [Reading.machine, Reading.read_of_pending_nil h.pending_eq, hend]
  exact ⟨rfl, rfl⟩

theorem yields_lookAt {n : Nat} (h : c.Stands us P) (ht : us[n]? = some t) :
    (lookAt n).Yields (fun u c' => u = t ∧ c'.Stands us P) c := by
  rw [lookAt, Parser.request, Yields, Parser.run]
  simp only [Reading.machine]
  by_cases hclear : ∀ t ∈ c.pending.take n, t.kind.isBrace = false
  · rw [← h.pending_eq] at ht
    simp only [dif_pos hclear, ht]
    exact ⟨rfl, h.role_eq, h.pending_eq, h.depth_eq, h.scopes_eq, h.findings_eq⟩
  · simp only [dif_neg hclear]
    exact id

theorem yields_putBack (h : c.Stands us P) (hkind : t.kind.isBrace = false)
    (hend : t.kind ≠ .endOfText) :
    (putBack t).Yields (fun _ c' => c'.Stands (t :: us) P) c := by
  rw [putBack, Parser.request, Yields, Parser.run]
  simp only [Reading.machine]
  by_cases hholds : c.Holds t
  · simp only [dif_pos hholds]
    constructor
    · exact h.role_eq
    · exact congrArg (t :: ·) h.pending_eq
    · rw [← h.depth_eq, Reading.depth, Reading.depth, hholds.delivered_eq, Reading.depthBehind_snoc,
        TokenKind.depthAfter_of_isBrace hkind]
      rfl
    · exact h.scopes_eq
    · exact h.findings_eq
  · have hmark : ¬(c.pending = [] ∧ (tokensOf text).2.toOption = some t) := by
      rintro ⟨-, hoption⟩
      cases hending : (tokensOf text).2 with
      | error e => simp [hending, Except.toOption] at hoption
      | ok u =>
        have hu : u = t := by simpa [hending, Except.toOption] using hoption
        rw [← hu, ending_tokensOf hending] at hend
        exact hend rfl
    simp only [dif_neg hholds, if_neg hmark]
    exact id

theorem yields_enter {segment : String} (h : c.Stands us P.opened) (ht : t.depth = P.depth) :
    (enter segment t).Yields (fun _ c' => c'.Stands us (P.entered segment)) c := by
  rw [enter, Parser.request, Yields, Parser.run]
  simp only [Reading.machine]
  by_cases henter : c.Holds t ∧ t.kind = .lBrace
  · simp only [dif_pos henter]
    refine ⟨h.role_eq, h.pending_eq, h.depth_eq, ?_, h.findings_eq⟩
    rw [Standing.entered, ← ht]
    exact congrArg (_ :: ·) h.scopes_eq
  · simp only [dif_neg henter]
    exact id

theorem yields_enclosingName (h : c.Stands us P) :
    enclosingName.Yields (fun name c' => name = P.enclosingName ∧ c'.Stands us P) c := by
  rw [enclosingName, Parser.request, Yields, Parser.run]
  simp only [Reading.machine]
  by_cases hahead : c.ahead = 0
  · simp only [if_pos hahead]
    exact ⟨by rw [Standing.enclosingName, ← h.scopes_eq]; rfl, h⟩
  · simp only [if_neg hahead]
    exact id

theorem yields_openBraces (h : c.Stands us P) :
    openBraces.Yields (fun depth c' => depth = P.depth ∧ c' = c) c := by
  rw [openBraces, Parser.request, Yields, Parser.run]
  simp only [Reading.machine]
  by_cases hahead : c.ahead = 0
  · simp only [if_pos hahead]
    exact ⟨h.depth_eq, rfl⟩
  · simp only [if_neg hahead]
    exact id

theorem yields_roleOfFile (h : c.Stands us P) :
    roleOfFile.Yields (fun role c' => role = P.role ∧ c' = c) c := by
  rw [roleOfFile, Parser.request, Yields, Parser.run]
  exact ⟨h.role_eq, rfl⟩

theorem yields_note {finding : Finding} (h : c.Stands us P) :
    (note finding).Yields (fun _ c' => c'.Stands us (P.noted finding)) c := by
  rw [note, Parser.request, Yields, Parser.run]
  exact ⟨h.role_eq, h.pending_eq, h.depth_eq, h.scopes_eq, by rw [Standing.noted, ← h.findings_eq]⟩

theorem yields_cut {what : Cut} {start stop : Nat} (hwhat : what ≠ .token ∧ what ≠ .parameterName) :
    (cut what start stop).Yields
      (fun piece c' => slice? text start stop = some piece ∧ c' = c) c := by
  rw [cut, Parser.request, Yields, Parser.run]
  simp only [Reading.machine]
  cases hslice : slice? text start stop with
  | some piece => exact ⟨rfl, rfl⟩
  | none =>
    simp only [Failure.Expected, not_or]
    exact hwhat

namespace Parser

/-- Whether a parser goes through the given tokens, whatever follows, and ends where it began. -/
def Passes (text : String) (ts : List Token) (Q : α → Prop) (p : Parser α) : Prop :=
  ∀ (c : Reading text) (us : List Token) (P : Standing), c.Stands (ts ++ us) P →
    p.Yields (fun a c' => Q a ∧ c'.Stands us P) c

/-- Whether a parser goes through the given tokens from behind an opening brace, up to the brace
that closes it and further. -/
def PassesInside (text : String) (opening : Token) (ts : List Token) (Q : α → Prop)
    (p : Parser α) : Prop :=
  ∀ (c : Reading text) (us : List Token) (P : Standing), opening.depth = P.depth →
    (∀ s ∈ P.scopes, s.depth < P.depth) → c.Stands (ts ++ us) P.opened →
    p.Yields (fun a c' => Q a ∧ c'.Stands us P) c

variable {ts : List Token} {opening : Token} {Q S : α → Prop} {R : β → Prop} {p : Parser α}
  {f : α → Parser β}

theorem passes_pure {a : α} (h : Q a) : (pure a : Parser α).Passes text [] Q :=
  fun _ _ _ hc => ⟨h, hc⟩

theorem Passes.bind (h : p.Passes text ts Q) (hf : ∀ a, Q a → (f a).Passes text us R) :
    (p >>= f).Passes text (ts ++ us) R := by
  intro c vs P hc
  rw [List.append_assoc] at hc
  exact (h c _ P hc).bind fun a c' h' => hf a h'.1 c' vs P h'.2

theorem Passes.discard (h : p.Passes text ts Q) :
    (Functor.discard p).Passes text ts fun _ => True :=
  fun c us P hc => (h c us P hc).bind fun _ _ h' => ⟨trivial, h'.2⟩

theorem PassesInside.bind (h : p.PassesInside text opening ts Q)
    (hf : ∀ a, Q a → (f a).Passes text us R) :
    (p >>= f).PassesInside text opening (ts ++ us) R := by
  intro c vs P hdepth hscopes hc
  rw [List.append_assoc] at hc
  exact (h c _ P hdepth hscopes hc).bind fun a c' h' => hf a h'.1 c' vs P h'.2

theorem PassesInside.discard (h : p.PassesInside text opening ts Q) :
    (Functor.discard p).PassesInside text opening ts fun _ => True :=
  fun c us P hdepth hscopes hc => (h c us P hdepth hscopes hc).bind fun _ _ h' => ⟨trivial, h'.2⟩

end Parser

variable {ts : List Token} {opening : Token} {Q : α → Prop}

theorem passes_next (h : t.kind.isBrace = false) : next.Passes text [t] (· = t) := by
  intro c us P hc
  have hyields := yields_next hc
  rwa [Standing.behind_of_isBrace h] at hyields

theorem passes_nextOrEnd (h : t.kind.isBrace = false) : nextOrEnd.Passes text [t] (· = t) := by
  intro c us P hc
  have hyields := yields_nextOrEnd hc
  rwa [Standing.behind_of_isBrace h] at hyields

theorem passes_next_bind {f : Token → Parser α} (h : t.kind.isBrace = false)
    (hf : (f t).Passes text ts Q) : (next >>= f).Passes text (t :: ts) Q :=
  (passes_next h).bind fun _ hu => hu ▸ hf

theorem Reading.Stands.depth_of_lBrace (h : c.Stands (opening :: us) P)
    (hkind : opening.kind = .lBrace) : opening.depth = P.depth := by
  have hown := h.nested.2.1
  rwa [hkind] at hown

theorem passes_recurBy {measure : α → Nat → Nat} {body : (α → Parser β) → α → Parser β} {a : α}
    {R : β → Prop} (h : ∀ again : α → Parser β, (∀ b us S,
      (Parser.recurBy measure body b).Passes text us S → (again b).Passes text us S) →
        (body again a).Passes text ts R) :
    (Parser.recurBy measure body a).Passes text ts R :=
  fun c us P hc => yields_recurBy fun again hagain => h again
    (fun b _ _ hb d vs P' hd => hagain b d _ (hb d vs P' hd)) c us P hc

theorem passes_recur {body : (α → Parser β) → α → Parser β} {a : α} {R : β → Prop}
    (h : ∀ again : α → Parser β, (∀ b us S,
      (recur body b).Passes text us S → (again b).Passes text us S) →
        (body again a).Passes text ts R) : (recur body a).Passes text ts R :=
  passes_recurBy h

/-- The place before a text. -/
def Standing.new (role : FileRole) : Standing := ⟨role, 0, [], {}⟩

theorem Reading.stands_new (role : FileRole) (text : String) :
    (Reading.new role text).Stands (tokensOf text).1 (.new role) := ⟨rfl, rfl, rfl, rfl, rfl⟩

/-- A file is read to its end if no brace is open there. -/
theorem yields_fileItems_nil (h : c.Stands [] P) (hdepth : P.depth = 0)
    (hend : (tokensOf text).2.isOk = true) :
    fileItems.Yields (fun _ c' => c'.findings = P.found) c := by
  cases hending : (tokensOf text).2 with
  | error e => simp [hending, Except.isOk, Except.toBool] at hend
  | ok u =>
    have hkind : u.kind = .endOfText := by rw [ending_tokensOf hending]
    rw [fileItems]
    refine yields_loop fun again _ => (yields_nextOrEnd_nil h hending).bind ?_
    rintro _ _ ⟨rfl, rfl⟩
    rw [if_pos hkind]
    refine (yields_openBraces h).bind ?_
    rintro _ _ ⟨rfl, rfl⟩
    rw [if_neg (by simp [hdepth])]
    exact h.findings_eq

/-- A file says what its items yield, since its parser keeps to its rules. -/
theorem findingsOf_of_yields {role : FileRole} {f : Findings}
    (h : fileItems.Yields (fun _ c => c.findings = f) (Reading.new role text)) :
    findingsOf role text = .ok f := by
  obtain ⟨_, c, hrun, hfindings⟩ := h.exists_run obeys_fileItems
  rw [findingsOf_eq, hrun]
  exact congrArg Except.ok hfindings

end ReflectionTables.Parsing
