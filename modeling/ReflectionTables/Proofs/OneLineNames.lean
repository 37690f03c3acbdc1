import ReflectionTables.Proofs.OneLineTexts
import ReflectionTables.Proofs.SafeCuts
/-!
# Qualified names on one line

A scope is entered with a name of the file, and a record has arguments behind it. The arguments that
are made for its own parameters have no line break. What is left is one place: arguments that are
written behind the name of a record are kept as they are. So the declarations of a file have names
on one line just if the arguments are that are written behind the names of records with a body.
-/

namespace ReflectionTables.Parsing

open Text Scanning Reflected Parsing.Parser Reading

variable {text : String} {α β : Type}

def Request.EntersLine : Request → Prop
  | .enter segment _ => OneLine segment
  | _ => True

instance (role : FileRole) : Request.Admits role Request.EntersLine where
  of_quiet request hquiet := by
    cases request with
    | enter => exact hquiet.elim
    | _ => trivial

/-- Whether arguments that are written behind the name of a record are on one line, if the body of such a
record is what comes next. -/
def Parser.WritesLine (p : Parser α) : Prop :=
  ∀ key name list opening generic (next : Unit → Parser α),
    p = recordBody recordMembers key name (some list) opening generic false >>= next → OneLine list

theorem Parser.WritesLine.of_bind {p : Parser α} {f : α → Parser β} (h : (p >>= f).WritesLine) :
    p.WritesLine := by
  rintro key name list opening generic next rfl
  exact h key name list opening generic (fun u => next u >>= f) (bind_assoc _ _ _)

theorem writesLine_done (a : α) : (done a).WritesLine := by
  intro key name list opening generic next heq
  cases heq

/-- Segments on one line are entered, as long as arguments that are written behind the names of records are on
one line. -/
def entersLines : Rule where
  Assumes := WritesLine
  Allows := Request.EntersLine
  of_bind := WritesLine.of_bind
  of_readsOn {request} hreads := by
    cases request with
    | enter => exact hreads.elim
    | _ => trivial

instance (role : FileRole) : Request.Admits role entersLines.Allows :=
  inferInstanceAs (Request.Admits role Request.EntersLine)

def NamesLine (t : Token) : Prop := t.kind = .ident → OneLine t.text

section Steps

variable {c : Reading text} {token name opening word first : Token} {segment generic : String}
  {arguments? : Option String} {dependent : Bool} {key : ClassKey} {ctx : BodyContext}
  {visible accept : Bool} {body : BodyParser}

theorem namesLine_of_mem (h : token ∈ (tokensOf text).1) : NamesLine token :=
  (standsIn_of_mem_tokensOf h).oneLine

theorem namesLine_of_delivers {c' : Reading text} (h : c.Delivers token c') : NamesLine token :=
  namesLine_of_mem (c.mem_tokensOf (.inr (by rw [h.pending_eq]; exact List.mem_cons_self)))

theorem entersLines_next :
    next.KeepsTo entersLines (fun t c' => c.pending = t :: c'.pending ∧ NamesLine t) c := by
  refine fun _ => ⟨trivial, fun t c' hanswer => ?_⟩
  have hmeets := (obeys_ask.mp (meets_next (c := c))).2
  rw [hanswer] at hmeets
  exact ⟨hmeets.pending_eq, namesLine_of_delivers hmeets⟩

/-- To look ahead moves nothing. -/
theorem entersLines_lookAt {n : Nat} : (lookAt n).KeepsTo entersLines
    (fun t c' => c'.pending = c.pending ∧ (c.pending[n]? = some t ∨ t.kind = .endOfText)) c := by
  refine fun _ => ⟨trivial, fun t c' hanswer => ?_⟩
  simp only [Reading.machine] at hanswer
  split at hanswer
  · split at hanswer
    · rename_i hseen
      cases hanswer
      exact ⟨rfl, .inl hseen⟩
    · rename_i hend
      cases hanswer
      exact ⟨rfl, .inr (by rw [ending_tokensOf hend])⟩
    · cases hanswer
  · cases hanswer

theorem entersLines_nextIf {skips : Bool} (h : NamesLine token) :
    (nextIf skips token).KeepsTo entersLines (fun t _ => NamesLine t) c := by
  rw [nextIf]
  split
  · exact entersLines_next.mono fun t c' ht => ht.2
  · exact h

theorem entersLines_enter (h : OneLine segment) : (enter segment opening).KeepsTo entersLines (fun _ _ => True) c :=
  fun _ => ⟨h, fun _ _ _ => trivial⟩

theorem entersLines_note {finding : Finding} : (note finding).KeepsTo entersLines (fun _ _ => True) c :=
  fun _ => ⟨trivial, fun _ _ _ => trivial⟩

theorem entersLines_enumBody (hname : OneLine name.text) :
    (enumBody name opening dependent).KeepsTo entersLines (fun _ _ => True) c := by
  apply always_roleOfFile.keepsTo_bind
  intro role c₁
  split
  · exact always_throughBrace.discard.keepsTo
  apply (entersLines_enter hname).bind
  intro _ c₂ _
  apply always_enclosingName.keepsTo_bind
  intro qualified c₃
  apply entersLines_note.bind
  intro _ c₄ _
  apply always_enumeratorNames.keepsTo_bind
  intro enumerators c₅
  split
  · exact entersLines_note
  · exact entersLines_note

theorem entersLines_enumAfterWord : (enumAfterWord dependent).KeepsTo entersLines (fun _ _ => True) c := by
  apply entersLines_next.bind
  intro word c₁ hword
  apply (entersLines_nextIf hword.2).bind
  intro first c₂ hfirst
  apply (entersLines_nextIf hfirst).bind
  intro token c₃ _
  apply always_afterUnderlyingType.keepsTo_bind
  intro last c₄
  split
  · rename_i hkind
    split
    · trivial
    · exact (entersLines_enumBody (hfirst hkind)).bind fun _ _ _ => trivial
    · exact always_putBack.keepsTo_bind fun _ _ => trivial
  · split
    · exact always_throughBrace.discard.keepsTo_bind fun _ _ => trivial
    · exact keepsTo_fail

/-- The segment of a record is on one line if its name and the written arguments are. -/
theorem entersLines_recordSegment {shown : String} (hname : OneLine shown)
    (harguments : ∀ list, arguments? = some list → OneLine list) :
    (recordSegment shown arguments? generic dependent).KeepsTo entersLines
      (fun segment _ => OneLine segment) c := by
  have hangles : ∀ list, OneLine list → OneLine s!"{shown}<{list}>" := by
    intro list hlist
    exact ((hname.append (by decide)).append hlist).append (by decide)
  unfold recordSegment
  split
  · exact hangles _ (harguments _ rfl)
  split
  · split
    · exact hangles _ (oneLine_of_arguments? ‹_›)
    · exact fun _ => ⟨trivial, fun answer => answer.elim⟩
  · exact hname

theorem entersLines_recordBody
    (hbody : ∀ task c, (body task).KeepsTo entersLines (fun _ (_ : Reading text) => True) c)
    (hname : OneLine name.text) (harguments : ∀ list, arguments? = some list → OneLine list) :
    (recordBody body key name arguments? opening generic dependent).KeepsTo entersLines (fun _ _ => True) c := by
  apply (entersLines_recordSegment hname harguments).bind
  intro segment c₁ hsegment
  apply (entersLines_enter hsegment).bind
  intro _ c₂ _
  apply always_enclosingName.keepsTo_bind
  intro qualified c₃
  apply entersLines_note.bind
  intro _ c₄ _
  apply (hbody _ c₄).bind
  intro r c₅ _
  obtain ⟨close, members⟩ := r
  dsimp only
  split
  · trivial
  split
  · exact entersLines_note
  · exact entersLines_note

theorem entersLines_innerRecord
    (hbody : ∀ task c, (body task).KeepsTo entersLines (fun _ (_ : Reading text) => True) c) :
    (innerRecord body key word ctx visible accept).KeepsTo entersLines (fun _ _ => True) c := by
  apply always_throughHeadAttributes.keepsTo_bind
  intro _ c₁
  apply entersLines_lookAt.bind
  intro first c₂ hfirst
  split
  · apply always_next.keepsTo_bind
    intro opening c₃
    apply (hbody _ c₃).bind
    intro r c₄ _
    obtain ⟨close, members⟩ := r
    apply always_next.keepsTo_bind
    intro after c₅
    split
    · trivial
    · apply always_throughStatement.keepsTo_bind
      intro last c₆
      exact always_remarkUnparsed.keepsTo_bind fun _ _ => trivial
  split
  · exact keepsTo_fail
  rename_i hkind
  replace hkind := not_not.mp hkind
  apply entersLines_lookAt.bind
  intro after c₃ hafter
  split
  · apply always_next.discard.keepsTo_bind
    intro _ c₄
    exact always_next.discard.keepsTo_bind fun _ _ => trivial
  apply entersLines_next.bind
  intro name c₄ hname
  -- the name is the token that was looked at first
  have hsame : name = first := by
    obtain hseen | hend := hfirst.2
    · rw [← hfirst.1, ← hafter.1, hname.1] at hseen
      exact Option.some.inj hseen
    · cases hend.symm.trans hkind
  have hline : OneLine name.text := hname.2 (by rw [hsame, hkind])
  split
  · apply always_throughBases.keepsTo_bind
    intro opening c₅
    have hnone : ∀ list, (none : Option String) = some list → OneLine list := by
      intro list h
      cases h
    apply (entersLines_recordBody hbody hline hnone).bind
    intro _ c₆ _
    apply always_next.keepsTo_bind
    intro after c₇
    split
    · trivial
    · apply always_putBack.keepsTo_bind
      intro _ c₈
      exact always_declarators.keepsTo.mono fun _ _ _ => trivial
  · exact always_memberDeclaration.keepsTo.mono fun _ _ _ => trivial

theorem entersLines_innerEnum : (innerEnum word ctx accept).KeepsTo entersLines (fun _ _ => True) c := by
  apply entersLines_enumAfterWord.bind
  intro form c₁ _
  split
  · trivial
  · exact always_memberDeclaration.keepsTo.mono fun _ _ _ => trivial
  · apply always_next.keepsTo_bind
    intro after c₂
    split
    · trivial
    apply always_putBack.keepsTo_bind
    intro _ c₃
    apply always_throughStatement.keepsTo_bind
    intro last c₄
    exact always_remarkUnparsed.keepsTo_bind fun _ _ => trivial
  · apply always_next.keepsTo_bind
    intro after c₂
    split
    · trivial
    · apply always_putBack.keepsTo_bind
      intro _ c₃
      exact always_declarators.keepsTo.mono fun _ _ _ => trivial

theorem entersLines_memberItem
    (hbody : ∀ task c, (body task).KeepsTo entersLines (fun _ (_ : Reading text) => True) c) :
    (memberItem body token ctx visible accept).KeepsTo entersLines (fun _ _ => True) c := by
  rw [memberItem]
  split
  · apply always_expect.discard.keepsTo_bind
    intro _ c₁
    apply always_next.keepsTo_bind
    intro params c₂
    exact always_throughMethodTail.keepsTo_bind fun _ _ => trivial
  apply always_constructorAhead.keepsTo_bind
  intro constructs c₁
  split
  · exact entersLines_innerRecord hbody
  · exact entersLines_innerRecord hbody
  · exact entersLines_innerRecord hbody
  · exact entersLines_innerEnum
  · exact always_throughStatement.discard.keepsTo_bind fun _ _ => trivial
  · exact always_throughStatement.discard.keepsTo_bind fun _ _ => trivial
  · exact always_throughStatement.discard.keepsTo_bind fun _ _ => trivial
  · exact always_throughDeclaration.discard.keepsTo_bind fun _ _ => trivial
  · apply always_expect.keepsTo_bind
    intro opening c₂
    apply always_throughAngles.discard.keepsTo_bind
    intro _ c₃
    exact always_throughDeclaration.discard.keepsTo_bind fun _ _ => trivial
  · split
    · apply always_next.keepsTo_bind
      intro params c₂
      exact always_throughMethodTail.keepsTo_bind fun _ _ => trivial
    · exact always_memberDeclaration.keepsTo.mono fun _ _ _ => trivial

theorem entersLines_bodyItem
    (hbody : ∀ task c, (body task).KeepsTo entersLines (fun _ (_ : Reading text) => True) c) :
    (bodyItem body first ctx visible).KeepsTo entersLines (fun _ _ => True) c := by
  rw [bodyItem]
  split
  · exact always_expect.discard.keepsTo_bind fun _ _ => trivial
  · apply always_memberSpecifiers.keepsTo_bind
    intro r c₁
    exact (entersLines_memberItem hbody).bind fun _ _ _ => trivial

theorem entersLines_bodyItems
    (hbody : ∀ task c, (body task).KeepsTo entersLines (fun _ (_ : Reading text) => True) c) (task : BodyTask) :
    (bodyItems body task).KeepsTo entersLines (fun _ _ => True) c := by
  rw [bodyItems, itemsEnd]
  refine keepsTo_recurBy (fun _ _ => True) ?_ trivial
  rintro again ⟨visible, members⟩ c - ih
  apply always_next.keepsTo_bind
  intro token c₁
  dsimp only
  split
  · trivial
  have hitem : (bodyItem body token task.context visible >>= fun r =>
      again (r.1, members ++ r.2)).KeepsTo entersLines (fun _ _ => True) c₁ :=
    (entersLines_bodyItem hbody).bind fun r c₂ _ => ih _ c₂ trivial
  split
  · exact ih _ c₁ trivial
  · exact hitem
  · exact hitem
  · exact hitem
  · exact always_throughBrackets.discard.keepsTo_bind fun _ c₂ => ih _ c₂ trivial
  · exact keepsTo_fail

theorem entersLines_recordMembers (task : BodyTask) (c : Reading text) :
    (recordMembers task).KeepsTo entersLines (fun _ _ => True) c :=
  keepsTo_recurBy (fun _ _ => True) (fun _ task _ _ ih => entersLines_bodyItems (fun task' c' =>
    ih task' c' trivial) task) trivial

theorem entersLines_recordFromName (hname : OneLine name.text) :
    (recordFromName key word name arguments? generic).KeepsTo entersLines (fun _ _ => True) c := by
  refine keepsTo_recurBy (fun _ _ => True) (fun again inBases c _ ih => ?_) trivial
  apply always_next.keepsTo_bind
  intro token c₁
  have hdeclare : (do
      putBack token
      freeDeclaration word name).KeepsTo entersLines (fun _ _ => True) c₁ :=
    (always_putBack.bind fun _ _ => always_freeDeclaration).keepsTo
  have hchoice : ∀ {p : Prop} [Decidable p], (if p then again inBases else do
      putBack token
      freeDeclaration word name).KeepsTo entersLines (fun _ _ => True) c₁ := by
    intro p _
    split
    · exact ih _ c₁ trivial
    · exact hdeclare
  split
  · apply always_roleOfFile.keepsTo_bind
    intro role c₂
    split
    · -- here the assumption on written arguments is used
      have hrecord : (recordBody recordMembers key name arguments? token generic false).KeepsTo entersLines
          (fun _ _ => True) c₂ := by
        refine .of_assumes writesLine_done fun hwrites => entersLines_recordBody entersLines_recordMembers hname ?_
        rintro list rfl
        exact hwrites key name list token generic pure (bind_pure _).symm
      exact hrecord.bind fun _ c₃ _ => always_expect.discard.keepsTo
    · apply always_throughBrace.discard.keepsTo_bind
      intro _ c₃
      exact always_throughStatement.discard.keepsTo
  · trivial
  · exact ih _ c₁ trivial
  · split
    · exact always_throughAngles.discard.keepsTo_bind fun _ c₂ => ih _ c₂ trivial
    · exact hdeclare
  · exact hchoice
  · exact hchoice
  · exact hchoice
  · exact hdeclare

theorem entersLines_recordItem : (recordItem key word generic).KeepsTo entersLines (fun _ _ => True) c := by
  apply always_throughHeadAttributes.keepsTo_bind
  intro _ c₁
  apply entersLines_next.bind
  intro name c₂ hname
  split
  · apply always_throughBrace.discard.keepsTo_bind
    intro _ c₃
    apply always_throughStatement.keepsTo_bind
    intro last c₄
    exact always_remarkUnparsed.keepsTo
  split
  · exact keepsTo_fail
  · rename_i hkind
    apply always_writtenList?.keepsTo_bind
    intro arguments? c₃
    exact entersLines_recordFromName (hname.2 (not_not.mp hkind))

theorem entersLines_namespaceItem : namespaceItem.KeepsTo entersLines (fun _ _ => True) c := by
  apply entersLines_next.bind
  intro name c₁ hname
  split
  · exact always_throughBrace.discard.keepsTo
  split
  · exact keepsTo_fail
  rename_i hkind
  apply always_next.keepsTo_bind
  intro token c₂
  split
  · exact entersLines_enter (hname.2 (not_not.mp hkind))
  · exact always_throughStatement.discard.keepsTo
  · exact keepsTo_fail

theorem entersLines_enumItem : enumItem.KeepsTo entersLines (fun _ _ => True) c := by
  apply entersLines_enumAfterWord.bind
  intro form c₁ _
  split
  · trivial
  · exact always_throughStatement.discard.keepsTo
  · exact always_expect.discard.keepsTo
  · exact always_expect.discard.keepsTo

theorem entersLines_templateItem : templateItem.KeepsTo entersLines (fun _ _ => True) c := by
  apply always_writtenList?.keepsTo_bind
  intro list? c₁
  split
  · exact always_throughDeclaration.discard.keepsTo
  apply always_next.keepsTo_bind
  intro token c₂
  split
  · exact entersLines_recordItem
  · exact (always_putBack.bind fun _ _ => always_throughDeclaration.discard).keepsTo

theorem entersLines_namedItem : (namedItem token).KeepsTo entersLines (fun _ _ => True) c := by
  rw [namedItem]
  split
  · exact entersLines_namespaceItem
  · exact always_throughStatement.discard.keepsTo
  · exact always_throughStatement.discard.keepsTo
  · exact always_throughStatement.discard.keepsTo
  · exact entersLines_recordItem
  · exact entersLines_recordItem
  · exact entersLines_recordItem
  · exact entersLines_enumItem
  · exact entersLines_templateItem
  · apply always_lookAt.keepsTo_bind
    intro after c₁
    split
    · exact always_next.discard.keepsTo_bind fun _ c₂ => entersLines_namespaceItem
    · exact always_throughDefinition.keepsTo
  · exact always_throughDefinition.keepsTo
  · exact always_throughDefinition.keepsTo
  · exact always_throughDefinition.keepsTo
  · split
    · exact always_throughDefinition.keepsTo
    · exact always_freeDeclaration.keepsTo

theorem entersLines_fileItem : (fileItem token).KeepsTo entersLines (fun _ _ => True) c := by
  rw [fileItem]
  split
  · trivial
  · trivial
  · exact always_throughBrackets.discard.keepsTo
  · exact entersLines_namedItem
  · exact always_leaveUnparsed.keepsTo

theorem entersLines_fileItems : fileItems.KeepsTo entersLines (fun _ _ => True) c := by
  rw [fileItems, loop, recur]
  refine keepsTo_recurBy (fun _ _ => True) (fun again _ c _ ih => ?_) trivial
  apply always_nextOrEnd.keepsTo_bind
  intro token c₁
  split
  · apply always_openBraces.keepsTo_bind
    intro depth c₂
    split
    · exact keepsTo_fail
    · trivial
  · exact entersLines_fileItem.bind fun _ c₂ _ => ih () c₂ trivial

end Steps

/-- Whether a text is written behind the name of a record as its arguments, and the body of the record is
read. -/
def WritesArguments (role : FileRole) (text list : String) : Prop :=
  ∃ history key name opening generic next s, fileItems.Reaches ParserState.machine (.new role text) history
    (recordBody recordMembers key name (some list) opening generic false >>= next) s

/-- A declaration is on one line if the scopes that were entered are. -/
theorem Reading.Logs.oneLine {c : Reading text} {entries : List Entry} {declaration : Declaration}
    (h : c.Logs entries) (hentered : ∀ entry ∈ entries, OneLine entry.segment)
    (hdeclares : c.Declares declaration) : OneLine declaration.name := by
  obtain ⟨entry, earlier, rfl, hname⟩ := h.declares hdeclares
  rw [hname, oneLine_intercalate (by decide)]
  intro segment hsegment
  obtain ⟨scope, hscope, rfl⟩ := List.mem_map.mp hsegment
  obtain rfl | hscope := List.mem_cons.mp (List.mem_reverse.mp hscope)
  · exact hentered entry List.mem_cons_self
  · obtain ⟨other, hother, rfl⟩ := List.mem_map.mp hscope
    exact hentered other (List.mem_cons_of_mem _ (List.mem_of_mem_filter hother))

theorem oneLine_of_mem_entriesOf {history : List Request} (h : ∀ request ∈ history, request.EntersLine) :
    ∀ entry ∈ entriesOf history, OneLine entry.segment := by
  intro entry hentry
  obtain ⟨request, hrequest, heq⟩ := List.mem_filterMap.mp hentry
  have hline := h request hrequest
  cases request with
  | enter segment opening =>
    cases heq
    exact hline
  | _ => cases heq

/-- If the arguments that are written behind the names of records are on one line, so is the name of each
declaration. -/
theorem oneLine_of_findingsOf {role : FileRole} {f : Findings} (h : findingsOf role text = .ok f)
    (hwritten : ∀ list, WritesArguments role text list → OneLine list) :
    ∀ declaration ∈ f.declarations, OneLine declaration.name := by
  have hassumes : ∀ {history p s}, fileItems.Reaches ParserState.machine (.new role text) history p s →
      entersLines.Assumes p := by
    rintro history _ s hreaches key name list opening generic next rfl
    exact hwritten list ⟨history, key, name, opening, generic, next, s, hreaches⟩
  apply kept_of_findingsOf (fun f => ∀ declaration ∈ f.declarations, OneLine declaration.name) ?_ ?_ h
  · exact List.forall_mem_nil _
  intro history finding next s c hreaches hlegal hlogs hlines
  cases finding with
  | declaration declaration =>
    have hentered := entersLines_fileItems.allows_of_mem hassumes hreaches
    rw [Findings.add, List.forall_mem_append, List.forall_mem_singleton]
    exact ⟨hlines, hlogs.oneLine (oneLine_of_mem_entriesOf hentered) hlegal⟩
  | _ => exact hlines

section Written

variable {s s' : ParserState text}

theorem declarations_subset_of_machine {request : Request} {answer : request.Answer}
    (h : ParserState.machine request s = .ok (answer, s')) :
    s.findings.declarations ⊆ s'.findings.declarations := by
  by_cases hnote : ∃ finding, request = .note finding
  · obtain ⟨finding, rfl⟩ := hnote
    cases h
    cases finding with
    | declaration => exact List.subset_append_left _ _
    | _ => exact List.Subset.refl _
  · rw [ParserState.findings_machine h fun finding heq => hnote ⟨finding, heq⟩]
    exact List.Subset.refl _

theorem declarations_subset_of_run {p : Parser α} {a : α} (h : p.run ParserState.machine s = .ok (a, s')) :
    s.findings.declarations ⊆ s'.findings.declarations := by
  induction p generalizing s with
  | done =>
    cases h
    exact List.Subset.refl _
  | ask request next ih =>
    rw [Parser.run] at h
    split at h
    · rename_i hanswer
      exact List.Subset.trans (declarations_subset_of_machine hanswer) (ih _ h)
    · cases h

/-- A record whose body is read is declared, with its segment at the end of its name. -/
theorem declared_of_run_recordBody {key : ClassKey} {name opening : Token} {list generic : String}
    {next : Unit → Parser α} {a : α}
    (h : (recordBody recordMembers key name (some list) opening generic false >>= next).run
      ParserState.machine s = .ok (a, s')) :
    ∃ declaration ∈ s'.findings.declarations, declaration.name = "::".intercalate
      ((⟨s!"{name.text}<{list}>", opening.depth⟩ :: s.stream.scanner.scopes).reverse.map Scope.segment) := by
  obtain ⟨rest, hrest⟩ : ∃ rest : String → Parser α,
      (recordBody recordMembers key name (some list) opening generic false >>= next) =
        enter s!"{name.text}<{list}>" opening >>= fun _ => enclosingName >>= fun qualified =>
          noteDeclaration ⟨.record key, qualified⟩ >>= fun _ => rest qualified := ⟨_, rfl⟩
  rw [hrest] at h
  replace h := declarations_subset_of_run (p := rest _) h
  exact ⟨_, h (List.mem_append_right _ List.mem_cons_self), rfl⟩

end Written

/-- The declarations of a file have names on one line just if the arguments are that are written behind the
names of records. -/
theorem oneLine_declarations_iff {role : FileRole} {f : Findings} (h : findingsOf role text = .ok f) :
    (∀ declaration ∈ f.declarations, OneLine declaration.name) ↔
      ∀ list, WritesArguments role text list → OneLine list := by
  constructor
  · intro hnames list hlist
    obtain ⟨history, key, name, opening, generic, next, s, hreaches⟩ := hlist
    rw [findingsOf, hreaches.run_eq] at h
    split at h
    · rename_i s' hrun
      cases h
      obtain ⟨declaration, hdeclaration, hname⟩ := declared_of_run_recordBody hrun
      have hline := hnames declaration hdeclaration
      rw [hname, oneLine_intercalate (by decide)] at hline
      have hsegment : OneLine s!"{name.text}<{list}>" :=
        hline _ (List.mem_map.mpr ⟨_, List.mem_reverse.mpr List.mem_cons_self, rfl⟩)
      exact (oneLine_append.mp (oneLine_append.mp hsegment).1).2
    · cases h
  · exact oneLine_of_findingsOf h

end ReflectionTables.Parsing
