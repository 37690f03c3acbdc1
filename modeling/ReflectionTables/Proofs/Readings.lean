import ReflectionTables.FileItems
import ReflectionTables.Proofs.ScannedTokens
/-!
# Readings

A reading says where a parser stands in the list of all tokens of a text. It is a machine without a
scanner or a queue: scopes close when their brace is delivered, and looking ahead changes nothing
but a count. A request that a parser should never make stops it: looking past a brace, putting back
what was not delivered last, or entering a scope anywhere but right behind its brace.
-/

namespace ReflectionTables.Reflected

def Findings.append (f g : Findings) : Findings where
  types := f.types ++ g.types
  declarations := f.declarations ++ g.declarations
  externs := f.externs ++ g.externs
  remarks := f.remarks ++ g.remarks

@[simp] theorem Findings.append_nil (f : Findings) : f.append {} = f := by simp [append]

@[simp] theorem Findings.append_assoc (f g h : Findings) :
    (f.append g).append h = f.append (g.append h) := by simp [append]

@[simp] theorem Findings.append_add (f g : Findings) (x : Finding) :
    f.append (g.add x) = (f.append g).add x := by
  cases x <;> simp [Findings.add, Findings.append]

end ReflectionTables.Reflected

namespace ReflectionTables.Parsing

open Text Scanning Reflected

variable {text : String}

structure Reading (text : String) where
  role : FileRole
  /-- The tokens that were delivered, the last one first. -/
  delivered : List Token
  pending : List Token
  /-- The number of pending tokens that were looked at. -/
  ahead : Nat
  /-- The scopes that no delivered brace has closed, the innermost first. -/
  scopes : List Scope
  findings : Findings
  delivered_pending : delivered.reverse ++ pending = (tokensOf text).1
  ahead_le : ahead ≤ pending.length
  /-- Only the last token that was looked at can be a brace. -/
  ahead_clear : ∀ t ∈ (pending.take ahead).dropLast, t.kind.isBrace = false
  /-- Scopes lie one in another, below the open braces. -/
  scopes_nest : (depthBehind 0 delivered.reverse :: scopes.map (·.depth)).Pairwise (· > ·)

namespace Reading

def new (role : FileRole) (text : String) : Reading text where
  role := role
  delivered := []
  pending := (tokensOf text).1
  ahead := 0
  scopes := []
  findings := {}
  delivered_pending := rfl
  ahead_le := Nat.zero_le _
  ahead_clear := by simp
  scopes_nest := by simp

/-- The number of open braces behind the delivered tokens. -/
def depth (c : Reading text) : Nat := depthBehind 0 c.delivered.reverse

def enclosingName (c : Reading text) : String :=
  "::".intercalate (c.scopes.reverse.map (·.segment))

def tokensLeft (c : Reading text) : Nat := text.utf8ByteSize - c.delivered.length

theorem mem_tokensOf (c : Reading text) {t : Token} (h : t ∈ c.delivered ∨ t ∈ c.pending) :
    t ∈ (tokensOf text).1 := by
  rw [← c.delivered_pending, List.mem_append, List.mem_reverse]
  exact h

theorem nested_pending (c : Reading text) : Nested c.depth c.pending := by
  have h := nested_tokensOf text
  rw [← c.delivered_pending, nested_append] at h
  exact h.2

theorem scopes_lt (c : Reading text) : ∀ s ∈ c.scopes, s.depth < c.depth := by
  intro s hs
  exact (List.pairwise_cons.1 c.scopes_nest).1 _ (List.mem_map_of_mem hs)

theorem depthBehind_snoc (ts : List Token) (t : Token) :
    depthBehind 0 (t :: ts).reverse = t.kind.depthAfter (depthBehind 0 ts.reverse) := by
  rw [List.reverse_cons, depthBehind_append]
  rfl

def advance (c : Reading text) (t : Token) (ts : List Token) (h : c.pending = t :: ts) :
    Reading text :=
  { c with
    delivered := t :: c.delivered
    pending := ts
    ahead := c.ahead - 1
    scopes := scopesBehind t c.scopes
    delivered_pending := by
      rw [← c.delivered_pending, h]
      simp
    ahead_le := by
      have := c.ahead_le
      rw [h, List.length_cons] at this
      omega
    ahead_clear := by
      intro u hu
      refine c.ahead_clear u ?_
      rw [h]
      cases hahead : c.ahead with
      | zero => simp [hahead] at hu
      | succ n =>
        rw [hahead, Nat.add_sub_cancel] at hu
        rw [List.take_succ_cons, List.dropLast_cons_of_ne_nil (by rintro heq; simp [heq] at hu)]
        exact List.mem_cons_of_mem _ hu
    scopes_nest := by
      have hnested := c.nested_pending
      rw [h] at hnested
      rw [depthBehind_snoc]
      exact nest_scopesBehind hnested.1 hnested.2.1 c.scopes_nest }

/-- Delivers the next token, or the mark of the end. -/
def read (c : Reading text) : Except Failure (Token × Reading text) :=
  match h : c.pending with
  | t :: ts => .ok (t, c.advance t ts h)
  | [] =>
    match (tokensOf text).2 with
    | .ok t => .ok (t, c)
    | .error e => .error (.ofScan e)

/-- Looks at the token `n` places ahead, with no brace before it. -/
def look (c : Reading text) (n : Nat)
    (hclear : ∀ t ∈ c.pending.take n, t.kind.isBrace = false) : Reading text :=
  { c with
    ahead := max c.ahead (min (n + 1) c.pending.length)
    ahead_le := by
      have := c.ahead_le
      omega
    ahead_clear := by
      intro t ht
      by_cases hle : min (n + 1) c.pending.length ≤ c.ahead
      · rw [Nat.max_eq_left hle] at ht
        exact c.ahead_clear t ht
      · rw [Nat.max_eq_right (by omega)] at ht
        refine hclear t ?_
        rw [List.dropLast_eq_take, List.length_take, List.take_take] at ht
        exact List.take_subset_take_left _ (by omega) ht }

/-- Whether a token was delivered last and can be put back, so that nothing has happened since. -/
def Holds (c : Reading text) (t : Token) : Prop :=
  c.delivered.head? = some t ∧
    (t.kind.isBrace = true → c.ahead = 0 ∧ ∀ s ∈ c.scopes, s.depth < t.depth)

instance (c : Reading text) (t : Token) : Decidable (c.Holds t) :=
  inferInstanceAs (Decidable (_ ∧ _))

def retreat (c : Reading text) (t : Token) (h : c.Holds t) : Reading text :=
  have hdelivered : c.delivered = t :: c.delivered.tail := by
    have := h.1
    cases hd : c.delivered <;> simp_all
  { c with
    delivered := c.delivered.tail
    pending := t :: c.pending
    ahead := c.ahead + 1
    delivered_pending := by
      rw [← c.delivered_pending, hdelivered]
      simp
    ahead_le := by
      have := c.ahead_le
      simp only [List.length_cons]
      omega
    ahead_clear := by
      intro u hu
      rw [List.take_succ_cons] at hu
      by_cases hnil : c.pending.take c.ahead = []
      · simp [hnil] at hu
      · rw [List.dropLast_cons_of_ne_nil hnil] at hu
        rcases List.mem_cons.1 hu with rfl | hu
        · cases hbrace : u.kind.isBrace with
          | false => rfl
          | true =>
            rw [(h.2 hbrace).1] at hnil
            exact absurd rfl hnil
        · exact c.ahead_clear u hu
    scopes_nest := by
      have hnest := c.scopes_nest
      have hnested := nested_tokensOf text
      rw [← c.delivered_pending, nested_append, hdelivered, List.reverse_cons, nested_append]
        at hnested
      obtain ⟨hopen, hdepth, -⟩ := hnested.1.2
      rw [hdelivered, depthBehind_snoc] at hnest
      rw [List.pairwise_cons] at hnest ⊢
      refine ⟨fun d hd => ?_, hnest.2⟩
      have hlt := hnest.1 d hd
      obtain ⟨s, hs, rfl⟩ := List.mem_map.1 hd
      cases hk : t.kind <;> simp only [hk, TokenKind.depthAfter] at hlt <;>
        first
        | exact hlt
        | exact Nat.lt_of_lt_of_le hlt (Nat.sub_le _ _)
        | have := (h.2 (by rw [hk]; rfl)).2 s hs
          rw [hdepth, hk] at this
          exact this }

/-- The reading in a new scope behind its brace. -/
def entered (c : Reading text) (segment : String) (opening : Token)
    (h : c.Holds opening ∧ opening.kind = .lBrace) : Reading text :=
  { c with
    scopes := ⟨segment, opening.depth⟩ :: c.scopes
    scopes_nest := by
      have hbrace := h.1.2 (by rw [h.2]; rfl)
      have hdelivered : c.delivered = opening :: c.delivered.tail := by
        have := h.1.1
        cases hd : c.delivered <;> simp_all
      have hnested := nested_tokensOf text
      rw [← c.delivered_pending, nested_append, hdelivered, List.reverse_cons, nested_append]
        at hnested
      obtain ⟨-, hdepth, -⟩ := hnested.1.2
      have hscopes := (List.pairwise_cons.1 c.scopes_nest)
      rw [List.map_cons, List.pairwise_cons, List.pairwise_cons]
      have hown : c.depth = opening.depth + 1 := by
        rw [depth, hdelivered, depthBehind_snoc, h.2, hdepth, h.2]
        rfl
      refine ⟨?_, ?_, hscopes.2⟩
      · intro d hd
        rcases List.mem_cons.1 hd with rfl | hd
        · change opening.depth < c.depth
          omega
        · exact hscopes.1 d hd
      · intro d hd
        obtain ⟨s, hs, rfl⟩ := List.mem_map.1 hd
        exact hbrace.2 s hs }

/-- Answers requests from the list of tokens. -/
def machine : Machine (Reading text)
  | .role, c => .ok (c.role, c)
  | .next, c =>
    match c.read with
    | .ok (t, c') =>
      if t.kind = .endOfText then .error (rejection text t (.scan .endOfText)) else .ok (t, c')
    | .error failure => .error failure
  | .nextOrEnd, c => c.read
  | .lookAt n, c =>
    if hclear : ∀ t ∈ c.pending.take n, t.kind.isBrace = false then
      match c.pending[n]?, (tokensOf text).2 with
      | some t, _ => .ok (t, c.look n hclear)
      | none, .ok t => .ok (t, c.look n hclear)
      | none, .error e => .error (.ofScan e)
    else .error .stalled
  | .putBack t, c =>
    if h : c.Holds t then .ok ((), c.retreat t h)
    else if c.pending = [] ∧ (tokensOf text).2.toOption = some t then .ok ((), c)
    else .error .stalled
  | .enter segment opening, c =>
    if h : c.Holds opening ∧ opening.kind = .lBrace then .ok ((), c.entered segment opening h)
    else .error .stalled
  | .enclosingName, c => if c.ahead = 0 then .ok (c.enclosingName, c) else .error .stalled
  | .depth, c => if c.ahead = 0 then .ok (c.depth, c) else .error .stalled
  | .tokensLeft, c => .ok (c.tokensLeft, c)
  | .cut what start stop, c =>
    match slice? text start stop with
    | some piece => .ok (piece, c)
    | none => .error (.aborted what)
  | .note finding, c => .ok ((), { c with findings := c.findings.add finding })
  | .reject token fault, _ => .error (rejection text token fault)
  | .abort what, _ => .error (.aborted what)
  | .stall, _ => .error .stalled

theorem role_read {c d : Reading text} {t : Token} (h : c.read = .ok (t, d)) :
    d.role = c.role := by
  rw [read] at h
  repeat' split at h
  all_goals cases h
  all_goals rfl

theorem findings_read {c d : Reading text} {t : Token} (h : c.read = .ok (t, d)) :
    d.findings = c.findings := by
  rw [read] at h
  repeat' split at h
  all_goals cases h
  all_goals rfl

theorem findings_machine {request : Request} {c d : Reading text} {answer : request.Answer}
    (h : machine request c = .ok (answer, d)) (hnote : ∀ finding, request ≠ .note finding) :
    d.findings = c.findings := by
  cases request with
  | note finding => exact absurd rfl (hnote finding)
  | nextOrEnd => exact findings_read h
  | next =>
    simp only [machine] at h
    split at h
    · rename_i hread
      split at h <;> cases h
      exact findings_read hread
    · cases h
  | _ =>
    simp only [machine] at h
    repeat' split at h
    all_goals cases h
    all_goals rfl

/-- Nothing that a parser asks for changes what kind of file it reads. -/
theorem role_machine {request : Request} {c d : Reading text} {answer : request.Answer}
    (h : machine request c = .ok (answer, d)) : d.role = c.role := by
  cases request with
  | nextOrEnd => exact role_read h
  | next =>
    simp only [machine] at h
    split at h
    · rename_i hread
      split at h <;> cases h
      exact role_read hread
    · cases h
  | _ =>
    simp only [machine] at h
    repeat' split at h
    all_goals cases h
    all_goals rfl

theorem role_run {α : Type} {p : Parser α} {c d : Reading text} {x : α}
    (h : p.run machine c = .ok (x, d)) : d.role = c.role := by
  induction p generalizing c with
  | done =>
    cases h
    rfl
  | ask request next ih =>
    rw [Parser.run] at h
    split at h
    · rename_i hrequest
      rw [ih _ h, role_machine hrequest]
    · cases h

end Reading

end ReflectionTables.Parsing
