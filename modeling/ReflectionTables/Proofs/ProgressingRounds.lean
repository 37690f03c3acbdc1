import ReflectionTables.Proofs.CarefulItems
import ReflectionTables.Proofs.StreamReadings
import ReflectionTables.Proofs.SettledParsers
/-!
# Every round of a loop makes progress

The loops over the items of a file, of a body and of an enumeration go round by round. A round that
neither ends its loop nor fails leaves fewer tokens to come than there were before it. So reading a
file takes at most one round more than it has tokens, and ends with what is learnt or with a failure
of the text.
-/

namespace ReflectionTables.Parsing

open Scanning Reflected Parsing.Parser

variable {text : String} {σ α β : Type}

/-- Repeats a round until it ends the loop. What a round gives, the next one begins with. -/
def iterate (round : α → Parser (β ⊕ α)) (a : α) : Parser β :=
  recur (fun again a => do
    match ← round a with
    | .inl b => return b
    | .inr a => again a) a

/-- The runs of some rounds one after the other, of which none ends the loop. -/
inductive Rounds (m : Machine σ) (round : α → Parser (β ⊕ α)) : Nat → α → σ → α → σ → Prop
  | none (a : α) (s : σ) : Rounds m round 0 a s a s
  | more {n : Nat} {a a₁ a₂ : α} {s s₁ s₂ : σ} (first : (round a).run m s = .ok (.inr a₁, s₁))
      (rest : Rounds m round n a₁ s₁ a₂ s₂) : Rounds m round (n + 1) a s a₂ s₂

def EndsWith (m : Machine σ) (round : α → Parser (β ⊕ α)) (a : α) (s : σ)
    (outcome : Except Failure (β × σ)) : Prop :=
  match (round a).run m s with
  | .ok (.inl b, s') => outcome = .ok (b, s')
  | .ok (.inr _, _) => False
  | .error failure => outcome = .error failure

/-- A loop goes some rounds, unless it does not see that the input gets shorter. -/
theorem exists_rounds (round : α → Parser (β ⊕ α)) (a : α) (s : ParserState text) :
    (iterate round a).run ParserState.machine s = .error .stalled ∨
      ∃ n a' s', Rounds ParserState.machine round n a s a' s' ∧
        EndsWith ParserState.machine round a' s' ((iterate round a).run ParserState.machine s) := by
  have hfrom : ∀ bound a (s : ParserState text),
      let outcome := (recurFrom (fun _ left => left) (fun again a => do
        match ← round a with
        | .inl b => return b
        | .inr a => again a) bound a).run ParserState.machine s
      outcome = .error .stalled ∨ ∃ n a' s', Rounds ParserState.machine round n a s a' s' ∧
        EndsWith ParserState.machine round a' s' outcome := by
    intro bound
    induction bound using Nat.strongRecOn with
    | ind bound ih =>
      intro a s
      dsimp only
      rw [recurFrom, run_bind]
      cases hround : (round a).run ParserState.machine s with
      | error failure =>
        refine .inr ⟨0, a, s, .none a s, ?_⟩
        rw [EndsWith, hround]
      | ok r =>
        obtain ⟨_ | a₁, s₁⟩ := r
        · refine .inr ⟨0, a, s, .none a s, ?_⟩
          rw [EndsWith, hround]
          rfl
        · -- The next round begins where the measure has fallen.
          dsimp only
          rw [Parser.run]
          simp only [ParserState.machine]
          split
          · rename_i hlt
            obtain hstalled | ⟨n, a', s', hrounds, hends⟩ := ih s₁.stream.tokensLeft hlt a₁ s₁
            · exact .inl hstalled
            · exact .inr ⟨n + 1, a', s', .more hround hrounds, hends⟩
          · exact .inl rfl
  exact hfrom s.stream.tokensLeft a s

theorem Rounds.le_of_falls {m : Machine σ} {round : α → Parser (β ⊕ α)} {measure : σ → Nat}
    (hfalls : ∀ a s a' s', (round a).run m s = .ok (.inr a', s') → measure s' < measure s)
    {n : Nat} {a a' : α} {s s' : σ} (h : Rounds m round n a s a' s') :
    n + measure s' ≤ measure s := by
  induction h with
  | none => omega
  | more first rest ih =>
    have := hfalls _ _ _ _ first
    omega

/-- Reads one item of a file, or its end. -/
def fileRound (_ : Unit) : Parser (Unit ⊕ Unit) := do
  let token ← nextOrEnd
  if token.kind = .endOfText then
    if (← openBraces) ≠ 0 then fail token .unclosedBlock
    else return .inl ()
  else
    fileItem token
    return .inr ()

/-- Reads one item of a body, or the brace that closes it. -/
def bodyRound (body : BodyParser) (task : BodyTask) (state : Bool × List Member) :
    Parser ((Token × List Member) ⊕ (Bool × List Member)) := do
  let (visible, members) := state
  let token ← next
  if token.kind = .rBrace ∧ token.depth = task.opening.depth then return .inl (token, members)
  match token.kind with
  | .semicolon => return .inr (visible, members)
  | .ident | .colonColon | .tilde =>
    let (visible, more) ← bodyItem body token task.context visible
    return .inr (visible, members ++ more)
  | .lBracket =>
    discard (throughBrackets token)
    return .inr (visible, members)
  | _ => fail token (.unexpected token (.bodyOf task.context.qualifiedName))

/-- Reads one enumerator with its value, or the brace that closes the list. -/
def enumerationRound (opening : Token) (names : List String) : Parser (List String ⊕ List String) := do
  let token ← next
  if token.kind = .rBrace ∧ token.depth = opening.depth then return .inl names
  if token.kind ≠ .ident then fail token (.expected .enumeratorName token)
  let names := names ++ [token.text]
  let after ← next
  match after.kind with
  | .comma => return .inr names
  | .rBrace =>
    if after.depth = opening.depth then return .inl names
    else fail after (.expected .enumeratorSeparator after)
  | .eq => if ← throughEnumeratorValue opening then return .inl names else return .inr names
  | _ => fail after (.expected .enumeratorSeparator after)

theorem fail_bind {token : Token} {fault : ParseFault} (f : α → Parser β) :
    fail token fault >>= f = fail token fault :=
  congrArg (ask (.reject token fault)) (funext fun answer => answer.elim)

theorem fileItems_eq_iterate : fileItems = iterate fileRound () := by
  rw [fileItems, loop, iterate]
  congr 1
  funext again u
  rw [fileRound, Parser.bind_assoc]
  congr 1
  funext token
  split
  · rw [Parser.bind_assoc]
    congr 1
    funext depth
    split
    · exact (fail_bind _).symm
    · rfl
  · rw [Parser.bind_assoc]
    rfl

theorem itemsEnd_eq_iterate (body : BodyParser) (task : BodyTask) (visible : Bool) (members : List Member) :
    itemsEnd body task visible members = iterate (bodyRound body task) (visible, members) := by
  rw [itemsEnd, iterate]
  congr 1
  funext again state
  obtain ⟨visible, members⟩ := state
  rw [bodyRound, Parser.bind_assoc]
  dsimp only
  congr 1
  funext token
  split
  · rfl
  generalize token.kind = kind
  cases kind with
  | semicolon => rfl
  | ident | colonColon | tilde | lBracket =>
    dsimp only
    rw [Parser.bind_assoc]
    rfl
  | _ => exact (fail_bind _).symm

theorem enumeratorNames_eq_iterate (opening : Token) :
    enumeratorNames opening = iterate (enumerationRound opening) [] := by
  rw [enumeratorNames, iterate]
  congr 1
  funext again names
  rw [enumerationRound, Parser.bind_assoc]
  congr 1
  funext token
  split
  · rfl
  split
  · rw [fail_bind, fail_bind, fail_bind]
  dsimp only
  rw [Parser.bind_assoc]
  congr 1
  funext after
  generalize after.kind = kind
  cases kind with
  | comma => rfl
  | rBrace =>
    dsimp only
    split
    · rfl
    · exact (fail_bind _).symm
  | eq =>
    dsimp only
    rw [Parser.bind_assoc]
    congr 1
    funext ended
    split
    · rfl
    · rfl
  | _ => exact (fail_bind _).symm

/-- What a round must have in hand where it goes on: a token that it does not put back. -/
def inHand : α ⊕ β → Nat
  | .inl _ => 0
  | .inr _ => 1

theorem falls_of_conserves {p : Parser (β ⊕ α)} (h : p.Conserves text 0 inHand) {s s' : ParserState text}
    {a : α} (hrun : p.run ParserState.machine s = .ok (.inr a, s')) : s'.undelivered < s.undelivered := by
  have hspent := h s _ s' hrun
  dsimp only [inHand] at hspent
  omega

theorem conserves_fileRound (u : Unit) : (fileRound u).Conserves text 0 inHand := by
  apply conserves_nextOrEnd_bind
  intro token
  split
  · apply conserves_bind_of_always fun _ => always_openBraces
    intro depth
    split
    · exact conserves_fail
    · exact conserves_pure (Nat.zero_le _)
  · rename_i hkind
    have htoken : token.count = 1 := if_neg hkind
    have hitem : (fileItem token).Conserves text (0 + 1) fun _ => 0 + 1 := settles_fileItem.add 1
    rw [htoken]
    exact hitem.bind fun _ => conserves_pure (Nat.le_refl 1)

theorem conserves_bodyRound {body : BodyParser} {task : BodyTask} {state : Bool × List Member}
    (hbody : body.SettlesAll text) : (bodyRound body task state).Conserves text 0 inHand := by
  obtain ⟨visible, members⟩ := state
  have hagain : ∀ state : Bool × List Member,
      (pure (.inr state) : Parser ((Token × List Member) ⊕ (Bool × List Member))).Conserves text (0 + 1)
        inHand := fun _ => conserves_pure (Nat.le_refl 1)
  apply conserves_next_bind
  intro token
  have hitem : (bodyItem body token task.context visible).Conserves text (0 + 1) fun _ => 0 + 1 :=
    (settles_bodyItem hbody).add 1
  split
  · exact conserves_pure (Nat.zero_le _)
  split
  · exact hagain _
  · exact hitem.bind fun _ => hagain _
  · exact hitem.bind fun _ => hagain _
  · exact hitem.bind fun _ => hagain _
  · exact conserves_bind_of_always (fun _ => always_throughBrackets.discard) fun _ => hagain _
  · exact conserves_fail

theorem conserves_enumerationRound {opening : Token} {names : List String} :
    (enumerationRound opening names).Conserves text 0 inHand := by
  have hagain : ∀ names : List String,
      (pure (.inr names) : Parser (List String ⊕ List String)).Conserves text (0 + 1) inHand :=
    fun _ => conserves_pure (Nat.le_refl 1)
  have hends : ∀ names : List String,
      (pure (.inl names) : Parser (List String ⊕ List String)).Conserves text (0 + 1) inHand :=
    fun _ => conserves_pure (Nat.zero_le _)
  apply conserves_next_bind
  intro token
  split
  · exact hends _
  split
  · exact conserves_fail_bind
  apply conserves_bind_of_always fun _ => always_next
  intro after
  split
  · exact hagain _
  · split
    · exact hends _
    · exact conserves_fail
  · apply conserves_bind_of_always fun _ => always_throughEnumeratorValue
    intro ended
    split
    · exact hends _
    · exact hagain _
  · exact conserves_fail

/-- A body that is read as a body is does not leave more tokens to come. -/
theorem settlesAll_of_runsAs {body : BodyParser}
    (h : ∀ task, (body task).RunsAs (ParserState.machine : Machine (ParserState text)) (recordMembers task)) :
    body.SettlesAll text := by
  intro task s r s' hrun
  exact settlesAll_recordMembers text task s r s' (h task s r s' hrun)

theorem findingsOf_ne_stalled (role : FileRole) (text : String) : findingsOf role text ≠ .error .stalled := by
  intro h
  have hobeys := (obeys_fileItems (c := Reading.new role text)).run
  rw [findingsOf_eq] at h
  split at h
  · cases h
  · rename_i hrun
    rw [hrun] at hobeys
    cases h
    exact hobeys

/-- The loops over a file, a body and a list of enumerators go round by round, and each round that goes on
leaves fewer tokens to come than there were, whatever is in the queue. So a text is read in at most one round
more than it has tokens, and the last of them ends with what is learnt or with a failure of the text. -/
theorem rounds_progress (role : FileRole) (text : String) :
    (fileItems = iterate fileRound () ∧
      (∀ (body : BodyParser) (task : BodyTask),
        bodyItems body task = iterate (bodyRound body task) (task.visible, [])) ∧
      ∀ opening, enumeratorNames opening = iterate (enumerationRound opening) []) ∧
    (∀ s s' : ParserState text, (fileRound ()).run ParserState.machine s = .ok (.inr (), s') →
      s'.undelivered < s.undelivered) ∧
    (∀ (body : BodyParser) (task : BodyTask) (state state' : Bool × List Member) (s s' : ParserState text),
      (∀ task, (body task).RunsAs (ParserState.machine : Machine (ParserState text)) (recordMembers task)) →
      (bodyRound body task state).run ParserState.machine s = .ok (.inr state', s') →
      s'.undelivered < s.undelivered) ∧
    (∀ (opening : Token) (names names' : List String) (s s' : ParserState text),
      (enumerationRound opening names).run ParserState.machine s = .ok (.inr names', s') →
      s'.undelivered < s.undelivered) ∧
    (∀ (n : Nat) (s : ParserState text), Rounds ParserState.machine fileRound n () (.new role text) () s →
      n ≤ (tokensOf text).1.length) ∧
    ∃ (n : Nat) (s : ParserState text), n ≤ (tokensOf text).1.length ∧
      Rounds ParserState.machine fileRound n () (.new role text) () s ∧
      ((∃ s', (fileRound ()).run ParserState.machine s = .ok (.inl (), s') ∧
          findingsOf role text = .ok s'.findings) ∨
        ∃ failure, failure ≠ .stalled ∧ (fileRound ()).run ParserState.machine s = .error failure ∧
          findingsOf role text = .error failure) := by
  have hbound : ∀ (n : Nat) (s : ParserState text),
      Rounds ParserState.machine fileRound n () (.new role text) () s → n ≤ (tokensOf text).1.length := by
    intro n s hrounds
    have hle := hrounds.le_of_falls fun u s u' s' => falls_of_conserves (conserves_fileRound u)
    have hnew := undelivered_new role text
    omega
  have hloops := fun body task => itemsEnd_eq_iterate body task task.visible []
  refine ⟨⟨fileItems_eq_iterate, hloops, enumeratorNames_eq_iterate⟩,
    fun s s' => falls_of_conserves (conserves_fileRound ()), ?_, ?_, hbound, ?_⟩
  · intro body task state state' s s' hbody hrun
    exact falls_of_conserves (conserves_bodyRound (settlesAll_of_runsAs hbody)) hrun
  · intro opening names names' s s' hrun
    exact falls_of_conserves conserves_enumerationRound hrun
  · have hnever := findingsOf_ne_stalled role text
    rw [findingsOf, fileItems_eq_iterate] at hnever ⊢
    obtain hstalled | ⟨n, u, s, hrounds, hends⟩ := exists_rounds fileRound () (.new role text)
    · rw [hstalled] at hnever
      exact absurd rfl hnever
    refine ⟨n, s, hbound n s hrounds, hrounds, ?_⟩
    rw [EndsWith] at hends
    split at hends
    · rename_i s' hrun
      exact .inl ⟨s', hrun, by rw [hends]⟩
    · exact hends.elim
    · rename_i failure hrun
      rw [hends] at hnever ⊢
      exact .inr ⟨failure, fun heq => hnever (by rw [heq]), hrun, rfl⟩

/-- One round of each loop in a text that is a list of enumerators, and has an item of a body in it. -/
theorem rounds_progress_braces :
    let text := "\x7b B, ; \x7d"
    (∃ s : ParserState text, (fileRound ()).run ParserState.machine (.new .header text) = .ok (.inr (), s) ∧
      s.undelivered < (ParserState.new .header text).undelivered ∧ 1 ≤ (tokensOf text).1.length) ∧
    (∃ (opening : Token) (s s' : ParserState text) (state : Bool × List Member),
      (bodyRound recordMembers ⟨opening, ⟨"A", "A", "", false⟩, true⟩ (true, [])).run ParserState.machine s =
        .ok (.inr state, s') ∧ s'.undelivered < s.undelivered) ∧
    ∃ (opening : Token) (names : List String) (s s' : ParserState text),
      (enumerationRound opening []).run ParserState.machine s = .ok (.inr names, s') ∧
        s'.undelivered < s.undelivered := by
  intro text
  obtain ⟨-, hfile, hbody, henumerators, hbound, -⟩ := rounds_progress .header text
  refine ⟨?_, ?_, ?_⟩
  · obtain ⟨⟨r, s⟩, hrun, hright⟩ := exists_of_any_toOption
      (p := fun r : (Unit ⊕ Unit) × ParserState text => r.1.isRight) (show
      ((fileRound ()).run ParserState.machine (.new .header text)).toOption.any _ = true by decide +kernel)
    cases r with
    | inl => cases hright
    | inr u => exact ⟨s, hrun, hfile _ s hrun, hbound 1 s (.more hrun (.none () s))⟩
  · let third : Parser ((Token × List Member) ⊕ (Bool × List Member)) := do
      let opening ← next
      discard next
      discard next
      bodyRound recordMembers ⟨opening, ⟨"A", "A", "", false⟩, true⟩ (true, [])
    obtain ⟨⟨r, s'⟩, hrun, hright⟩ := exists_of_any_toOption
      (p := fun r : ((Token × List Member) ⊕ (Bool × List Member)) × ParserState text => r.1.isRight) (show
      (third.run ParserState.machine (.new .header text)).toOption.any _ = true by decide +kernel)
    obtain ⟨opening, s₁, -, hrun⟩ := exists_of_run_bind hrun
    obtain ⟨_, s₂, -, hrun⟩ := exists_of_run_bind hrun
    obtain ⟨_, s₃, -, hround⟩ := exists_of_run_bind hrun
    cases r with
    | inl => cases hright
    | inr state =>
      exact ⟨opening, s₃, s', state, hround,
        hbody recordMembers _ _ state s₃ s' (fun _ _ _ _ hrun => hrun) hround⟩
  · obtain ⟨⟨r, s'⟩, hrun, hright⟩ := exists_of_any_toOption
      (p := fun r : (List String ⊕ List String) × ParserState text => r.1.isRight) (show
      ((next >>= fun opening => enumerationRound opening []).run ParserState.machine
        (.new .header text)).toOption.any _ = true by decide +kernel)
    obtain ⟨opening, s, -, hround⟩ := exists_of_run_bind hrun
    cases r with
    | inl => cases hright
    | inr names => exact ⟨opening, names, s, s', hround, henumerators opening [] names s s' hround⟩

end ReflectionTables.Parsing
