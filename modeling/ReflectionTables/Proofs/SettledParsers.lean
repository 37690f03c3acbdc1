import ReflectionTables.Proofs.TokenCredits
/-!
# No parser leaves more tokens to come

No parser leaves more tokens to come than there were, if the tokens that it was given count as well.
Nearly all put nothing back. A declaration of a variable after a type, what follows a record or an
enumeration, and the body of a template put back the token that they read last; a construct that is
left unread puts back a closing brace, which is owed to it if that was its first token.
-/

namespace ReflectionTables.Parsing

open Scanning Reflected Parsing.Parser

variable {text : String} {α β : Type}

/-- Whether a parser, begun with some tokens in hand, does not leave more tokens to come. -/
abbrev Parser.Settles (text : String) (held : Nat) (p : Parser α) : Prop :=
  p.Conserves text held fun _ => 0

/-- What a parser that leaves a construct unread may put back: a closing brace. -/
def owed (t : Token) : Nat := if t.kind = .rBrace then 1 else 0

theorem count_le_one (t : Token) : t.count ≤ 1 := by
  rw [Token.count]
  split <;> omega

theorem owed_le_count (t : Token) : owed t ≤ t.count := by
  rw [owed, Token.count]
  split
  · rename_i hkind
    simp [hkind]
  · exact Nat.zero_le _

theorem owed_eq_zero {t : Token} (h : t.kind ≠ .rBrace) : owed t = 0 := if_neg h

section Skipping

variable {held : Nat} {token first start : Token} {stop : Nat}

theorem settles_of_always {p : Parser α} {Q : FileRole → α → Prop}
    (h : ∀ role, p.Always role Request.Takes (Q role)) : p.Settles text held :=
  (conserves_of_always h).mono (Nat.le_refl held) fun _ => Nat.zero_le held

theorem settles_pure {a : α} : (pure a : Parser α).Settles text held := conserves_pure (Nat.zero_le held)

/-- Behind the first token, each token that is put back was read before. -/
theorem settles_throughUnknown (first : Token) : (throughUnknown first).Settles text (owed first) := by
  apply conserves_recurBy owed
  intro again ih token
  have hagain : ∀ held, (nextOrEnd >>= again).Settles text held := by
    intro held
    apply conserves_nextOrEnd_bind
    intro t
    apply (ih t).from_le
    have := owed_le_count t
    omega
  have hparens : (behindParens again token).Settles text (owed token) := by
    apply conserves_bind_of_always fun _ => always_throughParens
    intro close
    apply conserves_bind_of_always fun _ => always_lookAt
    intro after
    split
    · exact hagain _
    · exact hagain _
    · exact settles_pure
  have hput : token.count ≤ owed token → (putBack token >>= fun _ => pure token.offset).Settles text
      (owed token) := by
    intro hle
    have hdone : (pure token.offset : Parser Nat).Settles text 0 := settles_pure
    exact (conserves_putBack_bind hdone).from_le hle
  split
  · exact settles_pure
  · apply conserves_bind_of_always fun _ => always_throughBrace
    intro close
    apply conserves_bind_of_always fun _ => always_lookAt
    intro after
    split
    · exact conserves_bind_of_always (fun _ => always_next) fun _ => settles_pure
    · exact settles_pure
  · rename_i hkind
    apply hput
    rw [owed, if_pos hkind]
    exact count_le_one token
  · rename_i hkind
    apply hput
    rw [Token.count, if_pos hkind]
    exact Nat.zero_le _
  · exact hparens
  · exact hparens
  · exact hagain _

theorem settles_leaveUnparsed : (leaveUnparsed start token).Settles text (owed token) :=
  (settles_throughUnknown token).bind fun _ => settles_of_always fun _ => always_remarkUnparsed

/-- An initializer has at least the token that ends it. -/
theorem conserves_throughInitializer : throughInitializer.Conserves text 0 fun _ => 1 := by
  apply conserves_recurBy fun _ => 0
  intro again ih s
  apply conserves_next_bind
  intro token
  have hgoOn : ∀ lists : Nat, (again ⟨lists, token.kind == .ident⟩).Conserves text (1 + 0) fun _ => 1 :=
    fun lists => (ih _).from_le (Nat.zero_le _)
  split
  · exact conserves_pure (Nat.le_refl 1)
  · split
    · exact conserves_pure (Nat.le_refl 1)
    · exact hgoOn _
  · exact conserves_bind_of_always (fun _ => always_throughParens.discard) fun _ => hgoOn _
  · exact conserves_bind_of_always (fun _ => always_throughBrace.discard) fun _ => hgoOn _
  · exact conserves_bind_of_always (fun _ => always_throughBrackets.discard) fun _ => hgoOn _
  · split
    · apply conserves_bind_of_always fun _ => always_anglesCloseAhead
      intro closes
      split
      · exact hgoOn _
      · exact hgoOn _
    · exact hgoOn _
  · exact hgoOn _
  · exact hgoOn _
  · exact conserves_fail
  · exact hgoOn _

end Skipping

section Free

variable {held : Nat} {token first start params : Token} {stop : Nat} {base declaration : String}
  {head : FreeHead}

theorem conserves_noteExtern : (noteExtern declaration).Conserves text held fun _ => held := by
  apply conserves_bind_of_always fun _ => always_roleOfFile
  intro role
  split
  · exact conserves_note
  · exact conserves_pure (Nat.le_refl held)

theorem conserves_announce {from_ : Nat} : (announce from_ stop).Conserves text held fun _ => held := by
  apply conserves_bind_of_always fun _ => always_roleOfFile
  intro role
  split
  · exact conserves_bind_of_always (fun _ => always_span) fun _ => conserves_noteExtern
  · exact conserves_pure (Nat.le_refl held)

theorem conserves_afterInitializer : (afterInitializer token).Conserves text (owed token) owed := by
  rw [afterInitializer]
  split
  · apply conserves_throughInitializer.mono (Nat.zero_le _)
    exact fun t => Nat.le_trans (owed_le_count t) (count_le_one t)
  · apply conserves_bind_of_always fun _ => always_throughBrace.discard
    intro _
    exact conserves_nextOrEnd.mono (Nat.zero_le _) owed_le_count
  · exact conserves_pure (Nat.le_refl _)

theorem conserves_throughSuffixes :
    (throughSuffixes stop first).Conserves text (owed first) fun r => owed r.2 := by
  apply conserves_recurBy fun s : Nat × Token => owed s.2
  rintro again ih ⟨stop, token⟩
  dsimp only
  split
  · apply conserves_bind_of_always fun _ => always_throughBrackets
    intro close
    apply conserves_nextOrEnd_bind
    intro t
    apply (ih (close.stop, t)).from_le
    have := owed_le_count t
    dsimp only
    omega
  · exact conserves_pure (Nat.le_refl _)

theorem conserves_throughMarks : (throughMarks first).Conserves text (owed first) owed := by
  apply conserves_recurBy owed
  intro again ih token
  split
  · apply conserves_nextOrEnd_bind
    intro t
    apply (ih t).from_le
    have := owed_le_count t
    omega
  · exact conserves_pure (Nat.le_refl _)

theorem settles_laterVariables : (laterVariables start base).Settles text 0 := by
  apply conserves_loop
  intro again ih
  apply conserves_nextOrEnd_bind
  intro first
  apply (conserves_throughMarks.from_le (owed_le_count first)).bind
  intro name
  split
  · exact settles_leaveUnparsed
  apply conserves_nextOrEnd_bind
  intro token
  have hsuffixes : (throughSuffixes name.stop token).Conserves text (token.count + owed name)
      fun r => owed r.2 := conserves_throughSuffixes.from_le (by
    have := owed_le_count token
    omega)
  apply hsuffixes.bind
  rintro ⟨stop, token⟩
  apply conserves_bind_of_always fun _ => always_span
  intro declarator
  apply conserves_noteExtern.bind
  intro _
  apply conserves_afterInitializer.bind
  intro token
  split
  · exact settles_pure
  · exact ih.from_le (Nat.zero_le _)
  · exact settles_leaveUnparsed

theorem settles_functionEnd : (functionEnd start stop).Settles text 0 := by
  apply conserves_recurBy fun _ => 0
  intro again ih stop
  apply conserves_nextOrEnd_bind
  intro token
  have hagain : ∀ (held stop : Nat), (again stop).Settles text held :=
    fun held stop => (ih stop).from_le (Nat.zero_le held)
  have hleave : (leaveUnparsed start token).Settles text (token.count + 0) :=
    settles_leaveUnparsed.from_le (owed_le_count token)
  have hannounce : (announce start.offset stop).Settles text (token.count + 0) :=
    conserves_announce.mono (Nat.le_refl _) fun _ => Nat.zero_le _
  split
  · exact hannounce
  · exact hannounce.bind fun _ => settles_of_always fun _ => always_throughBrace.discard
  · exact settles_of_always fun _ => always_throughStatement.discard
  · split
    · apply conserves_bind_of_always fun _ => always_lookAt
      intro after
      split
      · apply conserves_bind_of_always fun _ => always_next
        intro opening
        exact conserves_bind_of_always (fun _ => always_throughParens) fun _ => hagain _ _
      · exact hagain _ _
    · exact hagain _ _
  · apply conserves_bind_of_always fun _ => always_lookAt
    intro after
    split
    · exact conserves_bind_of_always (fun _ => always_next) fun _ => hagain _ _
    · exact hleave
  · exact hagain _ _
  · exact hagain _ _
  · exact hagain _ _
  · exact hagain _ _
  · exact conserves_bind_of_always (fun _ => always_throughAngles) fun _ => hagain _ _
  · exact hleave

theorem settles_freeFunction : (freeFunction start params).Settles text held := by
  apply conserves_bind_of_always fun _ => always_throughParens
  intro close
  exact settles_functionEnd.from_le (Nat.zero_le held)

theorem settles_freeOperator : (freeOperator start).Settles text held := by
  apply conserves_bind_of_always fun _ => always_operatorSymbol
  intro _
  apply conserves_nextOrEnd_bind
  intro first
  have hle := owed_le_count first
  apply (conserves_recurBy owed _ first).from_le (by omega)
  intro again ih token
  split
  · exact settles_freeFunction
  · exact settles_freeFunction
  · exact settles_leaveUnparsed
  · exact settles_leaveUnparsed
  · exact settles_leaveUnparsed
  · exact settles_leaveUnparsed
  · apply conserves_nextOrEnd_bind
    intro t
    apply (ih t).from_le
    have := owed_le_count t
    omega

theorem settles_freeVariables : (freeVariables start head).Settles text (owed head.token) := by
  apply conserves_announce.bind
  intro _
  apply conserves_afterInitializer.bind
  intro last
  split
  · exact settles_pure
  · apply conserves_bind_of_always fun _ => always_span
    intro base
    exact settles_laterVariables.from_le (Nat.zero_le _)
  · exact settles_leaveUnparsed

/-- A closing brace in front of a free declaration is put back; any other token is not. -/
theorem settles_freeDeclaration : (freeDeclaration start first).Settles text (owed first) := by
  apply conserves_recurBy (fun head : FreeHead => owed head.token) (a := ⟨0, start.offset, none, first⟩)
  intro again ih head
  have hgoOn : ∀ names nameAt markAt held, (nextOrEnd >>= fun token =>
      again ⟨names, nameAt, markAt, token⟩).Settles text held := by
    intro names nameAt markAt held
    apply conserves_nextOrEnd_bind
    intro t
    apply (ih ⟨names, nameAt, markAt, t⟩).from_le
    have := owed_le_count t
    dsimp only
    omega
  have hif : ∀ {c : Prop} [Decidable c] {p : Parser Unit}, p.Settles text (owed head.token) →
      (if c then p else leaveUnparsed start head.token).Settles text (owed head.token) := by
    intro c _ p hp
    split
    · exact hp
    · exact settles_leaveUnparsed
  dsimp only
  split
  · split
    · exact settles_freeOperator
    split
    · exact settles_of_always fun _ => always_throughDefinition
    · exact hgoOn _ _ _ _
  · split
    · exact settles_of_always fun _ => always_throughDefinition
    · exact hgoOn _ _ _ _
  · exact hif (conserves_bind_of_always (fun _ => always_throughAngles.discard) fun _ => hgoOn _ _ _ _)
  · exact hgoOn _ _ _ _
  · exact hgoOn _ _ _ _
  · exact hgoOn _ _ _ _
  · exact hif (conserves_bind_of_always (fun _ => always_throughBrackets.discard) fun _ => hgoOn _ _ _ _)
  · exact hif (conserves_bind_of_always (fun _ => always_throughBrackets.discard) fun _ => hgoOn _ _ _ _)
  · exact hif settles_freeVariables
  · exact hif settles_freeVariables
  · exact hif settles_freeVariables
  · exact hif settles_freeVariables
  · exact hif settles_freeFunction
  · exact hif settles_freeFunction
  · exact settles_leaveUnparsed

end Free

/-- Whether a parser of bodies does not leave more tokens to come. -/
def BodyParser.SettlesAll (body : BodyParser) (text : String) : Prop := ∀ task, (body task).Settles text 0

section Bodies

variable {held : Nat} {token first name opening word : Token} {dependent visible accept : Bool}
  {body : BodyParser} {key : ClassKey} {arguments? : Option String} {generic : String} {ctx : BodyContext}

/-- A token that was read is in hand, and may be put back. -/
theorem settles_putBack_bind {f : Unit → Parser β} (h : 1 ≤ held) (hf : (f ()).Settles text 0) :
    (putBack token >>= f).Settles text held :=
  (conserves_putBack_bind hf).from_le (Nat.le_trans (count_le_one token) h)

theorem settles_enumBody : (enumBody name opening dependent).Settles text held := by
  apply conserves_bind_of_always fun _ => always_roleOfFile
  intro role
  split
  · exact settles_of_always fun _ => always_throughBrace.discard
  apply conserves_enter.bind
  intro _
  apply conserves_bind_of_always fun _ => always_enclosingName
  intro qualified
  apply Conserves.bind conserves_note
  intro _
  apply conserves_bind_of_always fun _ => always_enumeratorNames
  intro enumerators
  split
  · exact conserves_note.mono (Nat.le_refl held) fun _ => Nat.zero_le held
  · exact conserves_note.mono (Nat.le_refl held) fun _ => Nat.zero_le held

theorem settles_enumAfterWord : (enumAfterWord dependent).Settles text 0 := by
  apply conserves_next_bind
  intro word
  apply conserves_bind_of_always fun _ => always_nextIf
  intro first
  apply conserves_bind_of_always fun _ => always_nextIf
  intro token
  apply conserves_bind_of_always fun _ => always_afterUnderlyingType
  intro token
  split
  · split
    · exact settles_pure
    · exact settles_enumBody.bind fun _ => settles_pure
    · exact settles_putBack_bind (Nat.le_refl 1) settles_pure
  split
  · exact conserves_bind_of_always (fun _ => always_throughBrace.discard) fun _ => settles_pure
  · exact conserves_fail

theorem conserves_recordSegment {segment : String} :
    (recordSegment segment arguments? generic dependent).Conserves text held fun _ => held := by
  unfold recordSegment
  split
  · exact conserves_pure (Nat.le_refl held)
  split
  · split
    · exact conserves_pure (Nat.le_refl held)
    · intro s a s' hrun
      exact (run_stop_ne_ok Empty.elim hrun).elim
  · exact conserves_pure (Nat.le_refl held)

theorem settles_recordBody (hbody : body.SettlesAll text) :
    (recordBody body key name arguments? opening generic dependent).Settles text held := by
  apply conserves_recordSegment.bind
  intro segment
  apply conserves_enter.bind
  intro _
  apply conserves_bind_of_always fun _ => always_enclosingName
  intro qualified
  apply Conserves.bind conserves_note
  intro _
  apply ((hbody _).from_le (Nat.zero_le held)).bind
  intro r
  obtain ⟨closing, members⟩ := r
  dsimp only
  split
  · exact settles_pure
  split
  · exact conserves_note
  · exact conserves_note

theorem settles_innerRecord (hbody : body.SettlesAll text) :
    (innerRecord body key word ctx visible accept).Settles text held := by
  apply conserves_bind_of_always fun _ => always_throughHeadAttributes
  intro _
  apply conserves_bind_of_always fun _ => always_lookAt
  intro first
  split
  · apply conserves_bind_of_always fun _ => always_next
    intro opening
    apply ((hbody _).from_le (Nat.zero_le held)).bind
    rintro ⟨closing, members⟩
    apply conserves_bind_of_always fun _ => always_next
    intro token
    split
    · exact settles_pure
    · apply conserves_bind_of_always fun _ => always_throughStatement
      intro last
      exact conserves_bind_of_always (fun _ => always_remarkUnparsed) fun _ => settles_pure
  split
  · exact conserves_fail
  apply conserves_bind_of_always fun _ => always_lookAt
  intro after
  split
  · apply conserves_bind_of_always fun _ => always_next.discard
    intro _
    exact conserves_bind_of_always (fun _ => always_next.discard) fun _ => settles_pure
  apply conserves_bind_of_always fun _ => always_next
  intro name
  split
  · apply conserves_bind_of_always fun _ => always_throughBases
    intro opening
    apply (settles_recordBody hbody).bind
    intro _
    apply conserves_next_bind
    intro token
    split
    · exact settles_pure
    · exact settles_putBack_bind (Nat.le_refl 1) (settles_of_always fun _ => always_declarators)
  · exact settles_of_always fun _ => always_memberDeclaration

theorem settles_innerEnum : (innerEnum word ctx accept).Settles text held := by
  apply (settles_enumAfterWord.from_le (Nat.zero_le held)).bind
  intro form
  split
  · exact settles_pure
  · exact settles_of_always fun _ => always_memberDeclaration
  · apply conserves_next_bind
    intro token
    split
    · exact settles_pure
    apply settles_putBack_bind (Nat.le_refl 1)
    apply conserves_bind_of_always fun _ => always_throughStatement
    intro last
    exact conserves_bind_of_always (fun _ => always_remarkUnparsed) fun _ => settles_pure
  · apply conserves_next_bind
    intro token
    split
    · exact settles_pure
    · exact settles_putBack_bind (Nat.le_refl 1) (settles_of_always fun _ => always_declarators)

theorem settles_memberItem (hbody : body.SettlesAll text) :
    (memberItem body token ctx visible accept).Settles text held := by
  rw [memberItem]
  split
  · apply conserves_bind_of_always fun _ => always_expect.discard
    intro _
    apply conserves_bind_of_always fun _ => always_next
    intro params
    exact conserves_bind_of_always (fun _ => always_throughMethodTail) fun _ => settles_pure
  apply conserves_bind_of_always fun _ => always_constructorAhead
  intro constructs
  split
  · exact settles_innerRecord hbody
  · exact settles_innerRecord hbody
  · exact settles_innerRecord hbody
  · exact settles_innerEnum
  · exact conserves_bind_of_always (fun _ => always_throughStatement.discard) fun _ => settles_pure
  · exact conserves_bind_of_always (fun _ => always_throughStatement.discard) fun _ => settles_pure
  · exact conserves_bind_of_always (fun _ => always_throughStatement.discard) fun _ => settles_pure
  · exact conserves_bind_of_always (fun _ => always_throughDeclaration.discard) fun _ => settles_pure
  · apply conserves_bind_of_always fun _ => always_expect
    intro opening
    apply conserves_bind_of_always fun _ => always_throughAngles.discard
    intro _
    exact conserves_bind_of_always (fun _ => always_throughDeclaration.discard) fun _ => settles_pure
  · split
    · apply conserves_bind_of_always fun _ => always_next
      intro params
      exact conserves_bind_of_always (fun _ => always_throughMethodTail) fun _ => settles_pure
    · exact settles_of_always fun _ => always_memberDeclaration

theorem settles_bodyItem (hbody : body.SettlesAll text) :
    (bodyItem body first ctx visible).Settles text held := by
  rw [bodyItem]
  split
  · exact conserves_bind_of_always (fun _ => always_expect.discard) fun _ => settles_pure
  · apply conserves_bind_of_always fun _ => always_memberSpecifiers
    intro r
    exact (settles_memberItem hbody).bind fun _ => settles_pure

theorem settlesAll_bodyItems (hbody : body.SettlesAll text) :
    BodyParser.SettlesAll (bodyItems body) text := by
  intro task
  apply conserves_recurBy fun _ => 0
  rintro again ih ⟨visible, members⟩
  apply conserves_next_bind
  intro token
  have hagain : ∀ s, (again s).Settles text (1 + 0) := fun s => (ih s).from_le (Nat.zero_le _)
  have hitem : (bodyItem body token task.context visible >>= fun r => again (r.1, members ++ r.2)).Settles
      text (1 + 0) := (settles_bodyItem hbody).bind fun r => ih _
  dsimp only
  split
  · exact settles_pure
  split
  · exact hagain _
  · exact hitem
  · exact hitem
  · exact hitem
  · exact conserves_bind_of_always (fun _ => always_throughBrackets.discard) fun _ => hagain _
  · exact conserves_fail

theorem settlesAll_recordMembers (text : String) : BodyParser.SettlesAll recordMembers text :=
  conserves_recurBy (fun _ => 0) fun _ ih task => settlesAll_bodyItems ih task

end Bodies

section Items

variable {held : Nat} {key : ClassKey} {word name token : Token} {arguments? : Option String}
  {generic : String}

/-- What may be a declaration is put back, with the name of its type in front. -/
theorem settles_recordFromName (hname : name.kind = .ident) :
    (recordFromName key word name arguments? generic).Settles text 0 := by
  apply conserves_recurBy fun _ => 0
  intro again ih inBases
  apply conserves_next_bind
  intro token
  have hagain : ∀ inBases, (again inBases).Settles text (1 + 0) :=
    fun inBases => (ih inBases).from_le (Nat.zero_le _)
  have hnone : owed name = 0 := owed_eq_zero (by rw [hname]; decide)
  have hfree : (freeDeclaration word name).Settles text 0 := settles_freeDeclaration.from_le (by omega)
  have hdeclare : (do
      putBack token
      freeDeclaration word name).Settles text (1 + 0) := settles_putBack_bind (Nat.le_refl 1) hfree
  have hchoice : ∀ {c : Prop} [Decidable c], (if c then again inBases else do
      putBack token
      freeDeclaration word name).Settles text (1 + 0) := by
    intro c _
    split
    · exact hagain _
    · exact hdeclare
  split
  · apply conserves_bind_of_always fun _ => always_roleOfFile
    intro role
    split
    · apply (settles_recordBody (settlesAll_recordMembers text)).bind
      intro _
      exact settles_of_always fun _ => always_expect.discard
    · apply conserves_bind_of_always fun _ => always_throughBrace.discard
      intro _
      exact settles_of_always fun _ => always_throughStatement.discard
  · exact settles_pure
  · exact hagain _
  · split
    · exact conserves_bind_of_always (fun _ => always_throughAngles.discard) fun _ => hagain _
    · exact hdeclare
  · exact hchoice
  · exact hchoice
  · exact hchoice
  · exact hdeclare

theorem settles_recordItem : (recordItem key word generic).Settles text held := by
  apply conserves_bind_of_always fun _ => always_throughHeadAttributes
  intro _
  apply conserves_bind_of_always fun _ => always_next
  intro name
  split
  · apply conserves_bind_of_always fun _ => always_throughBrace.discard
    intro _
    apply conserves_bind_of_always fun _ => always_throughStatement
    intro last
    exact settles_of_always fun _ => always_remarkUnparsed
  split
  · exact conserves_fail
  · rename_i hname
    apply conserves_bind_of_always fun _ => always_writtenList?
    intro arguments?
    exact (settles_recordFromName (Classical.not_not.mp hname)).from_le (Nat.zero_le held)

theorem settles_namespaceItem : namespaceItem.Settles text held := by
  apply conserves_bind_of_always fun _ => always_next
  intro name
  split
  · exact settles_of_always fun _ => always_throughBrace.discard
  split
  · exact conserves_fail
  apply conserves_bind_of_always fun _ => always_next
  intro token
  split
  · exact conserves_enter.mono (Nat.le_refl held) fun _ => Nat.zero_le held
  · exact settles_of_always fun _ => always_throughStatement.discard
  · exact conserves_fail

theorem settles_enumItem : enumItem.Settles text held := by
  apply (settles_enumAfterWord.from_le (Nat.zero_le held)).bind
  intro form
  split
  · exact settles_pure
  · exact settles_of_always fun _ => always_throughStatement.discard
  · exact settles_of_always fun _ => always_expect.discard
  · exact settles_of_always fun _ => always_expect.discard

theorem settles_templateItem : templateItem.Settles text held := by
  apply conserves_bind_of_always fun _ => always_writtenList?
  intro list?
  split
  · exact settles_of_always fun _ => always_throughDeclaration.discard
  apply conserves_next_bind
  intro token
  split
  · exact settles_recordItem
  · apply settles_putBack_bind (Nat.le_add_right 1 held)
    exact settles_of_always fun _ => always_throughDeclaration.discard

theorem settles_namedItem (htoken : token.kind = .ident) : (namedItem token).Settles text held := by
  rw [namedItem]
  split
  · exact settles_namespaceItem
  · exact settles_of_always fun _ => always_throughStatement.discard
  · exact settles_of_always fun _ => always_throughStatement.discard
  · exact settles_of_always fun _ => always_throughStatement.discard
  · exact settles_recordItem
  · exact settles_recordItem
  · exact settles_recordItem
  · exact settles_enumItem
  · exact settles_templateItem
  · apply conserves_bind_of_always fun _ => always_lookAt
    intro after
    split
    · exact conserves_bind_of_always (fun _ => always_next.discard) fun _ => settles_namespaceItem
    · exact settles_of_always fun _ => always_throughDefinition
  · exact settles_of_always fun _ => always_throughDefinition
  · exact settles_of_always fun _ => always_throughDefinition
  · exact settles_of_always fun _ => always_throughDefinition
  · split
    · exact settles_of_always fun _ => always_throughDefinition
    · have hnone : owed token = 0 := owed_eq_zero (by rw [htoken]; decide)
      have hfree : (freeDeclaration token token).Settles text (owed token) := settles_freeDeclaration
      exact hfree.from_le (by omega)

/-- An item puts back less than it takes: its first token is never put back. -/
theorem settles_fileItem : (fileItem token).Settles text 0 := by
  rw [fileItem]
  split
  · exact settles_pure
  · exact settles_pure
  · exact settles_of_always fun _ => always_throughBrackets.discard
  · exact settles_namedItem ‹_›
  · rename_i hbrace _ _
    have hnone : owed token = 0 := owed_eq_zero hbrace
    exact settles_leaveUnparsed.from_le (by omega)

end Items

end ReflectionTables.Parsing
