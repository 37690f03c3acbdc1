import ReflectionTables.Proofs.CarefulItems
import ReflectionTables.Proofs.StreamReadings
/-!
# Scopes follow the braces of the text

The scopes of the scanner follow the braces of the text. A scope leaves when the brace that closes
it is scanned, which looking ahead may do long before the parser gets there, and a scope enters when
the parser is at its brace. The log of the scopes that were entered tells which are open: those
whose brace is not closed among the scanned tokens.
-/

namespace ReflectionTables.Scanning

variable {text : String}

/-- A scope that was entered, and its opening brace. -/
structure Entry where
  segment : String
  opening : Token
deriving DecidableEq, Repr

def Entry.scope (e : Entry) : Scope := ⟨e.segment, e.opening.depth⟩

/-- Whether one of the tokens closes an opening brace that stands before it. -/
def Token.isClosedIn (opening : Token) (ts : List Token) : Bool :=
  ts.any fun t => t.kind == .rBrace && t.depth == opening.depth && opening.offset < t.offset

def Token.isClosedBefore (opening : Token) (text : String) (later : Token) : Bool :=
  opening.isClosedIn ((tokensOf text).1.filter (·.offset < later.offset))

/-- The scopes of those entries that are still open at a later token, the innermost first. -/
def openScopes (text : String) (entries : List Entry) (later : Token) : List Scope :=
  (entries.filter fun e => !e.opening.isClosedBefore text later).map Entry.scope

theorem openScopes_cons_self (text : String) (entry : Entry) (entries : List Entry) :
    openScopes text (entry :: entries) entry.opening =
      entry.scope :: openScopes text entries entry.opening := by
  have hopen : entry.opening.isClosedBefore text entry.opening = false := by
    rw [Token.isClosedBefore, Token.isClosedIn, List.any_eq_false]
    intro t ht
    have := (List.mem_filter.1 ht).2
    simp only [decide_eq_true_eq] at this
    simp only [Bool.and_eq_true, decide_eq_true_eq]
    omega
  rw [openScopes, List.filter_cons_of_pos (by simp [hopen])]
  rfl

theorem Token.isClosedIn_snoc (opening t : Token) (ts : List Token) :
    opening.isClosedIn (ts ++ [t]) = (opening.isClosedIn ts || (t.kind == .rBrace &&
      t.depth == opening.depth && opening.offset < t.offset)) := by
  simp [isClosedIn]

/-- Where the number of open braces falls to a depth, a brace of that depth closes. -/
theorem exists_rBrace_of_depthBehind_le {ts : List Token} {depth k : Nat} (h : Nested depth ts)
    (hlt : k < depth) (hle : depthBehind depth ts ≤ k) :
    ∃ t ∈ ts, t.kind = .rBrace ∧ t.depth = k := by
  induction ts generalizing depth with
  | nil =>
    have : depth ≤ k := hle
    omega
  | cons t ts ih =>
    obtain ⟨-, hdepth, hnested⟩ := h
    by_cases hfalls : t.kind.depthAfter depth ≤ k
    · have hkind : t.kind = .rBrace := by
        cases hk : t.kind <;> simp only [hk, TokenKind.depthAfter] at hfalls <;> first
          | rfl
          | omega
      rw [hkind] at hfalls
      simp only [TokenKind.depthAfter] at hfalls
      refine ⟨t, List.mem_cons_self, hkind, ?_⟩
      rw [hdepth, TokenKind.ownDepth, if_pos hkind]
      omega
    · obtain ⟨u, hu, hclose⟩ := ih hnested (by omega) hle
      exact ⟨u, List.mem_cons_of_mem t hu, hclose⟩

theorem ordered_tokensOf (text : String) :
    (tokensOf text).1.Pairwise (·.offset < ·.offset) := by
  refine (pairwise_tokensOf text).imp_of_mem fun ht _ hle => ?_
  exact Nat.lt_of_lt_of_le (standsIn_of_mem_tokensOf ht).offset_lt_stop hle

theorem isClosedIn_of_depth_eq {ts : List Token} {opening later : Token}
    (hnested : Nested 0 (ts ++ [later])) (hordered : (ts ++ [later]).Pairwise (·.offset < ·.offset))
    (hmem : opening ∈ ts) (hopening : opening.kind = .lBrace) (hlater : later.kind = .lBrace)
    (hdepth : opening.depth = later.depth) : opening.isClosedIn (ts ++ [later]) = true := by
  obtain ⟨before, after, rfl⟩ := List.append_of_mem hmem
  rw [List.append_assoc, nested_append] at hnested
  obtain ⟨-, -, hown, hrest⟩ := hnested
  obtain ⟨hafter, -, hown', -⟩ := (nested_append _ after [later]).1 hrest
  simp only [hopening, hlater, TokenKind.ownDepth, TokenKind.depthAfter, reduceCtorEq, if_false]
    at hown hown' hafter
  obtain ⟨t, ht, hkind, htdepth⟩ :=
    exists_rBrace_of_depthBehind_le (k := later.depth) hafter (by omega) (by omega)
  rw [List.append_assoc, List.cons_append, List.pairwise_append, List.pairwise_cons] at hordered
  have hlt := hordered.2.1.1 t (List.mem_append_left _ ht)
  rw [Token.isClosedIn, List.any_eq_true]
  exact ⟨t, by simp [ht], by simp [hkind, htdepth, hdepth, hlt]⟩

/-- Of nested scopes no deeper than `d`, the ones at depth `d` come first. -/
theorem dropWhile_eq_filter {scopes : List Scope} {d : Nat}
    (h : (scopes.map (·.depth)).Pairwise (· > ·)) (hle : ∀ s ∈ scopes, s.depth ≤ d) :
    scopes.dropWhile (·.depth == d) = scopes.filter (·.depth != d) := by
  induction scopes with
  | nil => rfl
  | cons s scopes ih =>
    rw [List.map_cons, List.pairwise_cons] at h
    by_cases hs : s.depth = d
    · rw [List.dropWhile_cons_of_pos (by simpa using hs), List.filter_cons_of_neg (by simpa using hs)]
      exact ih h.2 fun u hu => hle u (List.mem_cons_of_mem s hu)
    · rw [List.dropWhile_cons_of_neg (by simpa using hs), List.filter_cons_of_pos (by simpa using hs)]
      refine congrArg _ (List.filter_eq_self.2 fun u hu => ?_).symm
      have hlt := h.1 _ (List.mem_map_of_mem hu)
      have := hle s List.mem_cons_self
      simp only [bne_iff_ne, ne_eq]
      omega

structure Logged (entries : List Entry) (scanned : List Token) (scopes : List Scope) : Prop where
  opened : ∀ e ∈ entries, e.opening ∈ scanned ∧ e.opening.kind = .lBrace
  /-- The last entry comes first. -/
  ordered : entries.Pairwise fun e e' => e'.opening.offset < e.opening.offset
  scopes_eq : scopes = (entries.filter fun e => !e.opening.isClosedIn scanned).map Entry.scope
  nested : (depthBehind 0 scanned :: scopes.map (·.depth)).Pairwise (· > ·)

namespace Logged

variable {entries : List Entry} {scanned : List Token} {scopes : List Scope} {t : Token}

theorem nil : Logged [] [] [] := ⟨by simp, .nil, rfl, by simp⟩

/-- The log stays as it is when one more token is scanned. -/
theorem scan (h : Logged entries scanned scopes) (hnested : Nested 0 (scanned ++ [t]))
    (hlast : ∀ u ∈ scanned, u.offset < t.offset) :
    Logged entries (scanned ++ [t]) (scopesBehind t scopes) := by
  obtain ⟨-, hopen, hdepth, -⟩ := (nested_append 0 scanned [t]).1 hnested
  refine ⟨fun e he => ?_, h.ordered, ?_, ?_⟩
  · exact ⟨List.mem_append_left _ (h.opened e he).1, (h.opened e he).2⟩
  · simp only [Token.isClosedIn_snoc]
    by_cases hkind : t.kind = .rBrace
    · have hpos := hopen hkind
      rw [TokenKind.ownDepth, if_pos hkind] at hdepth
      have hnest := List.pairwise_cons.1 h.nested
      have hle : ∀ s ∈ scopes, s.depth ≤ t.depth := by
        intro s hs
        have := hnest.1 _ (List.mem_map_of_mem hs)
        omega
      rw [scopesBehind, if_pos hkind, dropWhile_eq_filter hnest.2 hle, h.scopes_eq, List.filter_map,
        List.filter_filter]
      refine congrArg _ (List.filter_congr fun e he => ?_)
      have hlt := hlast _ (h.opened e he).1
      simp only [Function.comp_apply, Entry.scope, hkind, hlt, decide_true, beq_self_eq_true,
        Bool.true_and, Bool.and_true, Bool.not_or, bne]
      rw [Bool.and_comm, Bool.beq_comm]
    · have hne : (t.kind == .rBrace) = false := by simpa using hkind
      rw [scopesBehind, if_neg hkind, h.scopes_eq]
      simp only [hne, Bool.false_and, Bool.or_false]
  · rw [depthBehind_append]
    exact nest_scopesBehind hopen hdepth h.nested

theorem enter (h : Logged entries scanned scopes) {before : List Token} {opening : Token}
    (hscanned : scanned = before ++ [opening]) (hkind : opening.kind = .lBrace)
    (hlast : ∀ u ∈ before, u.offset < opening.offset)
    (hbelow : ∀ s ∈ scopes, s.depth < opening.depth) (hdepth : depthBehind 0 scanned = opening.depth + 1)
    (segment : String) :
    Logged (⟨segment, opening⟩ :: entries) scanned (⟨segment, opening.depth⟩ :: scopes) := by
  have hopen : opening.isClosedIn scanned = false := by
    rw [Token.isClosedIn, List.any_eq_false, hscanned]
    intro u hu
    rcases List.mem_append.1 hu with hu | hu
    · have := hlast u hu
      simp only [Bool.and_eq_true, decide_eq_true_eq]
      omega
    · rw [List.mem_singleton.1 hu]
      simp
  refine ⟨fun e he => ?_, List.pairwise_cons.2 ⟨fun e he => ?_, h.ordered⟩, ?_, ?_⟩
  · rcases List.mem_cons.1 he with rfl | he
    · exact ⟨by simp [hscanned], hkind⟩
    · exact h.opened e he
  · have hmem := (h.opened e he).1
    rw [hscanned] at hmem
    rcases List.mem_append.1 hmem with hmem | hmem
    · exact hlast _ hmem
    · -- An entry at this brace would have its scope open.
      have heq := List.mem_singleton.1 hmem
      have hscope : e.scope ∈ scopes := by
        rw [h.scopes_eq]
        refine List.mem_map_of_mem (List.mem_filter.2 ⟨he, ?_⟩)
        rw [heq, hopen]
        rfl
      have := hbelow _ hscope
      rw [Entry.scope, heq] at this
      exact absurd this (Nat.lt_irrefl _)
  · rw [List.filter_cons_of_pos (by simp [hopen]), List.map_cons, ← h.scopes_eq]
    rfl
  · have hnest := List.pairwise_cons.1 h.nested
    rw [List.map_cons, List.pairwise_cons, List.pairwise_cons]
    refine ⟨?_, ?_, hnest.2⟩
    · intro d hd
      rcases List.mem_cons.1 hd with rfl | hd
      · change opening.depth < _
        omega
      · exact hnest.1 d hd
    · intro d hd
      obtain ⟨s, hs, rfl⟩ := List.mem_map.1 hd
      exact hbelow s hs

end Logged

end ReflectionTables.Scanning

namespace ReflectionTables.Parsing

open Text Scanning Reflected Parsing.Parser Reading

variable {text : String} {α σ : Type}

/-- The states that a run comes to, with what is left to do there and the requests that were
answered before, the last one first. -/
inductive Parser.Reaches (m : Machine σ) (p : Parser α) (s : σ) :
    List Request → Parser α → σ → Prop
  | start : Reaches m p s [] p s
  | step {history : List Request} {request : Request} {next : request.Answer → Parser α}
      {s' s'' : σ} {answer : request.Answer} (h : Reaches m p s history (ask request next) s')
      (hanswer : m request s' = .ok (answer, s'')) :
    Reaches m p s (request :: history) (next answer) s''

/-- A run that ends has come to its end. -/
theorem Parser.Reaches.run {m : Machine σ} {p p' : Parser α} {s s' s'' : σ}
    {history : List Request} {a : α} (h : Reaches m p s history p' s')
    (hrun : p'.run m s' = .ok (a, s'')) : ∃ history, Reaches m p s history (done a) s'' := by
  induction p' generalizing history s' with
  | done b =>
    cases hrun
    exact ⟨history, h⟩
  | ask request next ih =>
    rw [Parser.run] at hrun
    split at hrun
    · rename_i answer s₁ hanswer
      exact ih answer (h.step hanswer) hrun
    · cases hrun

/-- What is left of a run ends as the whole run does. -/
theorem Parser.Reaches.run_eq {σ : Type} {m : Machine σ} {p p' : Parser α} {s s' : σ}
    {history : List Request} (h : Reaches m p s history p' s') : p.run m s = p'.run m s' := by
  induction h with
  | start => rfl
  | step _ hanswer ih => rw [ih, Parser.run, hanswer]

def Request.entry? : Request → Option Entry
  | .enter segment opening => some ⟨segment, opening⟩
  | _ => none

/-- The scopes that were entered, the last one first. -/
def entriesOf (history : List Request) : List Entry := history.filterMap Request.entry?

namespace Reading

variable {c c' : Reading text}

def scanned (c : Reading text) : List Token := c.delivered.reverse ++ c.pending.take c.ahead

def scannedScopes (c : Reading text) : List Scope :=
  (c.pending.take c.ahead).foldl (fun scopes t => scopesBehind t scopes) c.scopes

theorem scanned_append (c : Reading text) :
    c.scanned ++ c.pending.drop c.ahead = (tokensOf text).1 := by
  rw [scanned, List.append_assoc, List.take_append_drop, c.delivered_pending]

theorem nested_scanned (c : Reading text) : Nested 0 c.scanned := by
  have h := nested_tokensOf text
  rw [← c.scanned_append, nested_append] at h
  exact h.1

def Logs (c : Reading text) (entries : List Entry) : Prop :=
  Logged entries c.scanned c.scannedScopes

theorem logs_new (role : FileRole) (text : String) : (Reading.new role text).Logs [] := .nil

theorem offset_lt_of_append {ts us : List Token} (h : ts ++ us = (tokensOf text).1) :
    ∀ t ∈ ts, ∀ u ∈ us, t.offset < u.offset := by
  have hordered := ordered_tokensOf text
  rw [← h, List.pairwise_append] at hordered
  exact hordered.2.2

theorem ordered_scanned (c : Reading text) : c.scanned.Pairwise (·.offset < ·.offset) := by
  have hordered := ordered_tokensOf text
  rw [← c.scanned_append, List.pairwise_append] at hordered
  exact hordered.1

variable {entries : List Entry}

/-- The log fits when more tokens are looked at. -/
theorem Logs.take (h : c.Logs entries) {n : Nat} (hle : c.ahead ≤ n) (hn : n ≤ c.pending.length) :
    Logged entries (c.delivered.reverse ++ c.pending.take n)
      ((c.pending.take n).foldl (fun scopes t => scopesBehind t scopes) c.scopes) := by
  induction hle with
  | refl => exact h
  | @step n _ ih =>
    have hlt : n < c.pending.length := hn
    have htake : c.pending.take (n + 1) = c.pending.take n ++ [c.pending[n]] := by
      rw [List.take_add_one, List.getElem?_eq_getElem hlt]
      rfl
    have hall : c.delivered.reverse ++ c.pending.take n ++ [c.pending[n]] ++
        c.pending.drop (n + 1) = (tokensOf text).1 := by
      rw [List.append_assoc c.delivered.reverse, ← htake, List.append_assoc,
        List.take_append_drop, c.delivered_pending]
    have hnested := nested_tokensOf text
    rw [← hall, nested_append] at hnested
    rw [List.append_assoc] at hall
    rw [htake, List.foldl_append, ← List.append_assoc]
    refine (ih (by omega)).scan hnested.1 fun u hu => ?_
    exact offset_lt_of_append hall u hu _ (List.mem_append_left _ List.mem_cons_self)

theorem Logs.advance (h : c.Logs entries) {t : Token} {ts : List Token}
    (hpending : c.pending = t :: ts) : (c.advance t ts hpending).Logs entries := by
  have hmax : c.ahead ≤ max c.ahead 1 := Nat.le_max_left _ _
  have hlogged := h.take hmax (by
    have := c.ahead_le
    simp only [hpending, List.length_cons] at this ⊢
    omega)
  obtain ⟨n, hn⟩ : ∃ n, max c.ahead 1 = n + 1 := ⟨max c.ahead 1 - 1, by omega⟩
  have hahead : (c.advance t ts hpending).ahead = n := by
    change c.ahead - 1 = n
    omega
  rw [hn, hpending, List.take_succ_cons, List.foldl_cons] at hlogged
  rw [Logs, scanned, scannedScopes, hahead]
  simpa [Reading.advance] using hlogged

theorem Logs.look (h : c.Logs entries) {n : Nat}
    (hclear : ∀ t ∈ c.pending.take n, t.kind.isBrace = false) : (c.look n hclear).Logs entries :=
  h.take (Nat.le_max_left _ _) (c.look n hclear).ahead_le

theorem Logs.retreat (h : c.Logs entries) {t : Token} (hholds : c.Holds t) :
    (c.retreat t hholds).Logs entries := by
  have hscanned : (c.retreat t hholds).scanned = c.scanned := by
    rw [scanned, scanned, hholds.delivered_eq]
    simp [Reading.retreat]
  have hscopes : (c.retreat t hholds).scannedScopes = c.scannedScopes := by
    change ((t :: c.pending).take (c.ahead + 1)).foldl _ c.scopes = _
    rw [List.take_succ_cons, List.foldl_cons, hholds.scopesBehind_eq]
    rfl
  rw [Logs, hscanned, hscopes]
  exact h

/-- Where nothing was looked at, the last token that was delivered is the last one scanned. -/
theorem scanned_eq_of_holds {t : Token} (h : c.delivered.head? = some t) (hahead : c.ahead = 0) :
    c.scanned = c.delivered.tail.reverse ++ [t] := by
  have hdelivered : c.delivered = t :: c.delivered.tail := by
    cases hd : c.delivered <;> simp_all
  rw [scanned, hahead, List.take_zero, List.append_nil]
  conv => lhs; rw [hdelivered]
  rw [List.reverse_cons]

/-- What the token that was delivered last says of the braces that are open. -/
theorem exists_depth_before {t : Token} (h : c.delivered.head? = some t) :
    ∃ depth, t.depth = t.kind.ownDepth depth ∧ c.depth = t.kind.depthAfter depth := by
  have hdelivered : c.delivered = t :: c.delivered.tail := by
    cases hd : c.delivered <;> simp_all
  have hnested := nested_tokensOf text
  rw [← c.delivered_pending, nested_append, hdelivered, List.reverse_cons, nested_append] at hnested
  obtain ⟨-, hdepth, -⟩ := hnested.1.2
  refine ⟨_, hdepth, ?_⟩
  rw [← depthBehind_snoc, ← hdelivered, depth]

theorem depth_eq_of_lBrace {opening : Token} (h : c.delivered.head? = some opening)
    (hkind : opening.kind = .lBrace) : c.depth = opening.depth + 1 := by
  obtain ⟨depth, hown, hafter⟩ := exists_depth_before h
  rw [hafter, hown, hkind]
  rfl

theorem depth_eq_of_rBrace {closing : Token} (h : c.delivered.head? = some closing)
    (hkind : closing.kind = .rBrace) : c.depth = closing.depth := by
  obtain ⟨depth, hown, hafter⟩ := exists_depth_before h
  rw [hafter, hown, hkind]
  rfl

theorem Logs.entered (h : c.Logs entries) {segment : String} {opening : Token}
    (hopening : c.Holds opening ∧ opening.kind = .lBrace) :
    (c.entered segment opening hopening).Logs (⟨segment, opening⟩ :: entries) := by
  have hbrace := hopening.1.2 (by rw [hopening.2]; rfl)
  have hscanned := scanned_eq_of_holds hopening.1.1 hbrace.1
  have hscopes : c.scannedScopes = c.scopes := by
    rw [scannedScopes, hbrace.1]
    rfl
  have hdepth : depthBehind 0 c.scanned = opening.depth + 1 := by
    rw [← depth_eq_of_lBrace hopening.1.1 hopening.2, scanned, hbrace.1, List.take_zero,
      List.append_nil]
    rfl
  have hall := c.scanned_append
  rw [hscanned, List.append_assoc] at hall
  have hlogged := Logged.enter h hscanned hopening.2
    (fun u hu => offset_lt_of_append hall u hu _ (by simp)) (by rw [hscopes]; exact hbrace.2)
    hdepth segment
  rw [hscopes] at hlogged
  rw [Logs, scannedScopes]
  change Logged _ c.scanned ((c.pending.take c.ahead).foldl _ (⟨segment, opening.depth⟩ :: c.scopes))
  rw [hbrace.1]
  exact hlogged

theorem Logs.read (h : c.Logs entries) {t : Token} (hread : c.read = .ok (t, c')) :
    c'.Logs entries := by
  cases hpending : c.pending with
  | cons u us =>
    rw [read_of_pending hpending] at hread
    cases hread
    exact h.advance hpending
  | nil =>
    rw [read_of_pending_nil hpending] at hread
    split at hread
    · cases hread
      exact h
    · cases hread

theorem Logs.machine (h : c.Logs entries) {request : Request} {answer : request.Answer}
    (hanswer : Reading.machine request c = .ok (answer, c')) :
    c'.Logs (request.entry?.toList ++ entries) := by
  cases request with
  | next =>
    simp only [Reading.machine] at hanswer
    split at hanswer
    · rename_i t c₁ hread
      split at hanswer
      · cases hanswer
      · cases hanswer
        exact h.read hread
    · cases hanswer
  | nextOrEnd => exact h.read hanswer
  | lookAt n =>
    simp only [Reading.machine] at hanswer
    split at hanswer
    · split at hanswer
      · cases hanswer
        exact h.look _
      · cases hanswer
        exact h.look _
      · cases hanswer
    · cases hanswer
  | putBack t =>
    simp only [Reading.machine] at hanswer
    split at hanswer
    · cases hanswer
      exact h.retreat _
    split at hanswer
    · cases hanswer
      exact h
    · cases hanswer
  | enter segment opening =>
    simp only [Reading.machine] at hanswer
    split at hanswer
    · cases hanswer
      exact h.entered _
    · cases hanswer
  | enclosingName | depth =>
    simp only [Reading.machine] at hanswer
    split at hanswer
    · cases hanswer
      exact h
    · cases hanswer
  | cut what start stop =>
    simp only [Reading.machine] at hanswer
    split at hanswer
    · cases hanswer
      exact h
    · cases hanswer
  | role | tokensLeft | note finding =>
    cases hanswer
    exact h
  | reject t fault | abort what | stall => cases hanswer

theorem Matches.scanner_eq {s : ParserState text} (h : c.Matches s) :
    s.stream.scanner.depth = depthBehind 0 c.scanned ∧
      s.stream.scanner.scopes = c.scannedScopes ∧
      c.scanned ++ s.stream.scanner.tokens.1 = (tokensOf text).1 := by
  obtain ⟨hdepth, hscopes, htokens⟩ := h.queued.scanner_behind
  refine ⟨?_, hscopes, ?_⟩
  · rw [hdepth, scanned, depthBehind_append]
    rfl
  · rw [htokens, c.scanned_append]

/-- Where the last token that was scanned is an opening brace, the scopes are those that are open
at it. -/
theorem Logs.scannedScopes_eq (h : c.Logs entries) {before : List Token} {opening : Token}
    (hscanned : c.scanned = before ++ [opening]) (hkind : opening.kind = .lBrace) :
    c.scannedScopes = openScopes text entries opening := by
  have hall := c.scanned_append
  rw [hscanned, List.append_assoc] at hall
  have hbefore := offset_lt_of_append hall
  have hbehind := offset_lt_of_append ((List.append_assoc before [opening] _).trans hall)
  have hfilter : (tokensOf text).1.filter (·.offset < opening.offset) = before := by
    rw [← hall, List.filter_append, List.filter_append]
    have hself : before.filter (·.offset < opening.offset) = before :=
      List.filter_eq_self.2 fun u hu => by simpa using hbefore u hu opening (by simp)
    have hrest : (c.pending.drop c.ahead).filter (·.offset < opening.offset) = [] := by
      refine List.filter_eq_nil_iff.2 fun u hu => ?_
      have := hbehind opening (by simp) u hu
      simp only [decide_eq_true_eq]
      omega
    rw [hself, hrest]
    simp
  rw [h.scopes_eq, openScopes]
  refine congrArg _ (List.filter_congr fun e _ => ?_)
  rw [hscanned, Token.isClosedBefore, hfilter, Token.isClosedIn_snoc, hkind]
  simp

/-- A declaration is made of the scope that was entered last. -/
theorem Logs.declares (h : c.Logs entries) {declaration : Declaration}
    (hdeclares : c.Declares declaration) :
    ∃ entry earlier, entries = entry :: earlier ∧
      declaration.name = "::".intercalate
        ((entry.scope :: openScopes text earlier entry.opening).reverse.map (·.segment)) := by
  obtain ⟨hahead, hname, opening, scope, hhead, hkind, hscope, hdepth⟩ := hdeclares
  have hscanned := scanned_eq_of_holds hhead hahead
  have hscopes : c.scannedScopes = c.scopes := by
    rw [scannedScopes, hahead]
    rfl
  have hopen := h.scopes_eq
  have hall := c.scanned_append
  rw [hscanned, List.append_assoc] at hall
  -- The innermost scope belongs to this brace: an earlier one of its depth would be closed.
  have hown : ∀ e ∈ entries, e.opening.isClosedIn c.scanned = false →
      e.opening.depth = opening.depth → e.opening = opening := by
    intro e he hunclosed heq
    obtain ⟨hmem, hbrace⟩ := h.opened e he
    rw [hscanned] at hmem
    rcases List.mem_append.1 hmem with hmem | hmem
    · have hnested := c.nested_scanned
      have hordered := c.ordered_scanned
      rw [hscanned] at hnested hordered hunclosed
      rw [isClosedIn_of_depth_eq hnested hordered hmem hbrace hkind heq] at hunclosed
      cases hunclosed
    · exact List.mem_singleton.1 hmem
  obtain ⟨entry, hentry, hopened, hown'⟩ : ∃ e ∈ entries, e.opening.isClosedIn c.scanned = false ∧
      e.opening = opening := by
    rw [← hscopes, h.scopes_eq] at hscope
    have hmem := List.mem_of_mem_head? hscope
    obtain ⟨e, he, rfl⟩ := List.mem_map.1 hmem
    obtain ⟨he, hunclosed⟩ := List.mem_filter.1 he
    rw [Bool.not_eq_true'] at hunclosed
    exact ⟨e, he, hunclosed, hown e he hunclosed hdepth⟩
  cases entries with
  | nil => cases hentry
  | cons last earlier =>
    have hlast : last.opening = opening := by
      rcases List.mem_cons.1 hentry with rfl | hentry
      · exact hown'
      · have hlt := (List.pairwise_cons.1 h.ordered).1 entry hentry
        have hmem := (h.opened last List.mem_cons_self).1
        rw [hscanned] at hmem
        rcases List.mem_append.1 hmem with hmem | hmem
        · have := offset_lt_of_append hall _ hmem opening (by simp)
          rw [hown'] at hlt
          omega
        · exact List.mem_singleton.1 hmem
    refine ⟨last, earlier, rfl, ?_⟩
    rw [hname, Reading.enclosingName, ← hscopes, h.scannedScopes_eq hscanned hkind, hlast,
      ← hlast, openScopes_cons_self]

end Reading

/-- Wherever a run on a stream of tokens comes to, there is a reading of the same place, and what
every request keeps holds there. -/
theorem exists_reading_with {role : FileRole} (Inv : List Request → Parser Unit → Reading text → Prop)
    (start : Inv [] fileItems (.new role text))
    (step : ∀ {history request next s answer} {c c' : Reading text},
      fileItems.Reaches ParserState.machine (.new role text) history (ask request next) s →
      (ask request next).Obeys Request.Legal (fun _ c' => c'.Finished) c →
      Inv history (ask request next) c → Reading.machine request c = .ok (answer, c') →
      Inv (request :: history) (next answer) c')
    {history : List Request} {p : Parser Unit} {s : ParserState text}
    (h : fileItems.Reaches ParserState.machine (.new role text) history p s) :
    ∃ c : Reading text, c.Matches s ∧ p.Obeys Request.Legal (fun _ c' => c'.Finished) c ∧
      Inv history p c := by
  induction h with
  | start => exact ⟨.new role text, matches_new role text, obeys_fileItems, start⟩
  | @step history request next s' s'' answer hreaches hanswer ih =>
    obtain ⟨c, hmatches, hobeys, hinv⟩ := ih
    have hnext := (obeys_ask.1 hobeys).2
    have hsame := hmatches.machine request
    cases hc : Reading.machine request c with
    | ok result =>
      obtain ⟨answer', c'⟩ := result
      rw [hc] at hnext hsame
      obtain ⟨s₁, hreal, hmatches'⟩ := hsame
      rw [hanswer] at hreal
      cases hreal
      exact ⟨c', hmatches', hnext, step hreaches hobeys hinv hc⟩
    | error failure =>
      rw [hc] at hnext hsame
      rcases hsame with rfl | hreal
      · exact hnext.elim
      · rw [hanswer] at hreal
        cases hreal

/-- One answer keeps the log of what was entered. -/
theorem Reading.Logs.entriesOf {c c' : Reading text} {history : List Request} {request : Request}
    {answer : request.Answer} (h : c.Logs (Parsing.entriesOf history))
    (hanswer : Reading.machine request c = .ok (answer, c')) :
    c'.Logs (Parsing.entriesOf (request :: history)) := by
  have hlogs := h.machine hanswer
  cases request <;> exact hlogs

/-- What each note of a run keeps of the findings holds at its end. -/
theorem kept_of_findingsOf {role : FileRole} {f : Findings} (Inv : Findings → Prop) (start : Inv {})
    (note : ∀ {history : List Request} {finding next} {s : ParserState text} {c : Reading text},
      fileItems.Reaches ParserState.machine (.new role text) history (ask (.note finding) next) s →
      (Request.note finding).Legal c → c.Logs (entriesOf history) → Inv c.findings →
      Inv (c.findings.add finding))
    (h : findingsOf role text = .ok f) : Inv f := by
  rw [findingsOf] at h
  split at h
  · rename_i s hrun
    cases h
    obtain ⟨history, hreaches⟩ := Reaches.start.run hrun
    obtain ⟨c, hmatches, -, -, hinv⟩ := exists_reading_with
      (fun history _ c => c.Logs (entriesOf history) ∧ Inv c.findings) ⟨logs_new role text, start⟩
      (fun {history request next s answer c c'} hreaches hobeys hinv hanswer => by
        refine ⟨hinv.1.entriesOf hanswer, ?_⟩
        by_cases hnote : ∃ finding, request = .note finding
        · obtain ⟨finding, rfl⟩ := hnote
          cases hanswer
          exact note hreaches (obeys_ask.mp hobeys).1 hinv.1 hinv.2
        · rw [findings_machine hanswer fun finding heq => hnote ⟨finding, heq⟩]
          exact hinv.2) hreaches
    rw [hmatches.findings_eq]
    exact hinv
  · cases h

/-- There the log tells which scopes are open. -/
theorem exists_reading {role : FileRole} {history : List Request} {p : Parser Unit}
    {s : ParserState text}
    (h : fileItems.Reaches ParserState.machine (.new role text) history p s) :
    ∃ c : Reading text, c.Matches s ∧ p.Obeys Request.Legal (fun _ c' => c'.Finished) c ∧
      c.Logs (entriesOf history) := by
  apply exists_reading_with (fun history _ c => c.Logs (entriesOf history)) (logs_new role text) ?_ h
  exact fun _ _ hlogs hanswer => hlogs.entriesOf hanswer

end ReflectionTables.Parsing
