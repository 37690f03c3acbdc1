import ReflectionTables.Proofs.QuietParsers
/-!
# Parsers that enter bodies

The parsers that enter bodies, whatever they are answered. They abort in one place only: where the
arguments of a record are made from its parameter list, which must have been read in a header. The
members that a body gives have the parameter list of its record.
-/

namespace ReflectionTables.Reflected

/-- What may be learnt from a file of a role: types from a header only, and what is announced from an
implementation file only. -/
def Finding.Suits (role : FileRole) : Finding → Prop
  | .type _ | .declaration _ | .remark (.notReflected _) => role = .header
  | .announced _ => role = .source
  | .remark (.unparsed _) => True

end ReflectionTables.Reflected

namespace ReflectionTables.Parsing

open Scanning Reflected Parsing.Parser

/-- The requests of a parser that notes what suits the role of the file, and aborts only where it may,
for want of arguments. -/
def Request.Sparing (role : FileRole) (mayAbort : Prop) : Request → Prop
  | .abort what => mayAbort ∧ what = .parameterName
  | .cut what _ _ => what = .list ∨ what = .arity ∨ what = .span
  | .note finding => finding.Suits role
  | _ => True

instance (role : FileRole) (mayAbort : Prop) : Request.Admits role (Request.Sparing role mayAbort) where
  of_quiet request h := by
    cases request with
    | abort => exact h.elim
    | cut => exact h
    | note finding =>
      cases finding with
      | type => exact h.elim
      | declaration => exact h.elim
      | announced => exact h
      | remark r =>
        cases r with
        | unparsed => trivial
        | notReflected => exact h.elim
    | _ => trivial

/-- Whether a parser of bodies keeps to the rule, and gives members of the record it reads. -/
def BodyParser.Spares (body : BodyParser) (role : FileRole) (mayAbort : Prop) : Prop :=
  ∀ task, (body task).Always role (Request.Sparing role mayAbort) (task.context.Owns ·.2)

variable {role : FileRole} {mayAbort : Prop}

theorem always_enter {segment : String} {opening : Token} :
    (enter segment opening).Always role (Request.Sparing role mayAbort) fun _ => True :=
  ⟨trivial, fun _ _ => trivial⟩

theorem always_note {finding : Finding} (h : finding.Suits role) :
    (note finding).Always role (Request.Sparing role mayAbort) fun _ => True :=
  ⟨h, fun _ _ => trivial⟩

theorem always_noteDeclaration {declaration : Declaration} (hheader : role = .header) :
    (noteDeclaration declaration).Always role (Request.Sparing role mayAbort) fun _ => True :=
  always_note hheader

section Bodies

variable {name opening word token first : Token} {dependent : Bool} {arguments? : Option String}
  {generic : String} {key : ClassKey} {ctx : BodyContext} {visible accept : Bool}
  {body : BodyParser}

theorem always_enumBody :
    (enumBody name opening dependent).Always role (Request.Sparing role mayAbort) fun _ => True := by
  refine always_roleOfFile.bind fun current hcurrent => ?_
  split
  · exact always_throughBrace.discard
  rename_i hsource
  have hheader : role = .header := by
    cases role with
    | header => rfl
    | source => exact absurd hcurrent hsource
  refine always_enter.bind fun _ _ => always_enclosingName.bind fun qualified _ => ?_
  refine (always_noteDeclaration hheader).bind fun _ _ => always_enumeratorNames.bind fun enumerators _ => ?_
  split
  · exact always_note hheader
  · exact always_note hheader

theorem always_enumAfterWord :
    (enumAfterWord dependent).Always role (Request.Sparing role mayAbort) fun _ => True := by
  refine always_next.bind fun word _ => always_nextIf.bind fun first _ => ?_
  refine always_nextIf.bind fun token _ => always_afterUnderlyingType.bind fun last _ => ?_
  split
  · split
    · trivial
    · exact always_enumBody.bind fun _ _ => trivial
    · exact always_putBack.bind fun _ _ => trivial
  · split
    · exact always_throughBrace.discard.bind fun _ _ => trivial
    · exact always_fail

/-- Arguments are wanting only where a list has a parameter whose name cannot be cut off. -/
theorem always_recordSegment {name : String}
    (hok : ¬mayAbort → generic ≠ "" → dependent = false → (Parsing.arguments? generic).isSome) :
    (recordSegment name arguments? generic dependent).Always role (Request.Sparing role mayAbort)
      fun _ => True := by
  unfold recordSegment
  split
  · trivial
  split
  · rename_i hfresh
    split
    · trivial
    · rename_i hnone
      refine ⟨⟨?_, rfl⟩, fun answer => answer.elim⟩
      refine Classical.byContradiction fun hnot => ?_
      have hsome := hok hnot hfresh.1 (by simpa using hfresh.2)
      rw [hnone] at hsome
      cases hsome
  · trivial

theorem always_recordBody (hbody : body.Spares role mayAbort) (hheader : role = .header)
    (hok : ¬mayAbort → generic ≠ "" → dependent = false → (Parsing.arguments? generic).isSome) :
    (recordBody body key name arguments? opening generic dependent).Always role
      (Request.Sparing role mayAbort) fun _ => True := by
  refine (always_recordSegment hok).bind fun segment _ => always_enter.bind fun _ _ => ?_
  refine always_enclosingName.bind fun qualified _ => ?_
  refine (always_noteDeclaration hheader).bind fun _ _ => ?_
  refine (hbody _).bind fun r _ => ?_
  obtain ⟨close, members⟩ := r
  dsimp only
  split
  · trivial
  split
  · exact always_note hheader
  · exact always_note hheader

theorem always_innerRecord (hbody : body.Spares role mayAbort) (hheader : role = .header) :
    (innerRecord body key word ctx visible accept).Always role (Request.Sparing role mayAbort) ctx.Owns := by
  refine always_throughHeadAttributes.bind fun _ _ => always_lookAt.bind fun first _ => ?_
  split
  · refine always_next.bind fun opening _ => (hbody _).bind fun r hr => ?_
    obtain ⟨close, members⟩ := r
    refine always_next.bind fun after _ => ?_
    split
    · exact hr
    · refine always_throughStatement.bind fun last _ => ?_
      exact always_remarkUnparsed.bind fun _ _ => ctx.owns_nil
  split
  · exact always_fail
  refine always_lookAt.bind fun after _ => ?_
  split
  · exact always_next.discard.bind fun _ _ => always_next.discard.bind fun _ _ => ctx.owns_nil
  refine always_next.bind fun name _ => ?_
  split
  · refine always_throughBases.bind fun opening _ => ?_
    have hok : ¬mayAbort → ctx.generic ≠ "" → ctx.nestsDependent = false →
        (Parsing.arguments? ctx.generic).isSome := by
      intro _ hgeneric hindependent
      simp [BodyContext.nestsDependent, hgeneric] at hindependent
    refine (always_recordBody hbody hheader hok).bind fun _ _ => always_next.bind fun after _ => ?_
    split
    · exact ctx.owns_nil
    · exact always_putBack.bind fun _ _ => always_declarators
  · exact always_memberDeclaration

theorem always_innerEnum :
    (innerEnum word ctx accept).Always role (Request.Sparing role mayAbort) ctx.Owns := by
  refine always_enumAfterWord.bind fun form _ => ?_
  split
  · exact ctx.owns_nil
  · exact always_memberDeclaration
  · refine always_next.bind fun after _ => ?_
    split
    · exact ctx.owns_nil
    refine always_putBack.bind fun _ _ => always_throughStatement.bind fun last _ => ?_
    exact always_remarkUnparsed.bind fun _ _ => ctx.owns_nil
  · refine always_next.bind fun after _ => ?_
    split
    · exact ctx.owns_nil
    · exact always_putBack.bind fun _ _ => always_declarators

theorem always_memberSpecifiers {allowed : Request → Prop} [Request.AdmitsForward role allowed] :
    (memberSpecifiers first).Always role allowed fun _ => True := by
  refine always_recur (fun _ => True) ?_ trivial
  rintro again ⟨isStatic, token⟩ - ih
  dsimp only
  split
  all_goals first
    | exact always_next.bind fun _ _ => ih _ trivial
    | trivial

theorem always_constructorAhead {allowed : Request → Prop} [Request.AdmitsForward role allowed] :
    (constructorAhead token ctx).Always role allowed fun _ => True := by
  rw [constructorAhead]
  split
  · exact always_lookAt.bind fun _ _ => trivial
  · trivial

/-- Only a nested type can make a member ask for more than quiet requests. -/
theorem always_memberItem {allowed : Request → Prop} [Request.Admits role allowed]
    (hrecord : ∀ word key, token.reserved? = some word → classKey? word = some key →
      (innerRecord body key token ctx visible accept).Always role allowed ctx.Owns)
    (henum : token.reserved? = some .enumWord →
      (innerEnum token ctx accept).Always role allowed ctx.Owns) :
    (memberItem body token ctx visible accept).Always role allowed ctx.Owns := by
  rw [memberItem]
  split
  · refine always_expect.discard.bind fun _ _ => always_next.bind fun params _ => ?_
    exact always_throughMethodTail.bind fun _ _ => ctx.owns_nil
  refine always_constructorAhead.bind fun constructs _ => ?_
  split
  · exact hrecord _ _ ‹_› rfl
  · exact hrecord _ _ ‹_› rfl
  · exact hrecord _ _ ‹_› rfl
  · exact henum ‹_›
  · exact always_throughStatement.discard.bind fun _ _ => ctx.owns_nil
  · exact always_throughStatement.discard.bind fun _ _ => ctx.owns_nil
  · exact always_throughStatement.discard.bind fun _ _ => ctx.owns_nil
  · exact always_throughDeclaration.discard.bind fun _ _ => ctx.owns_nil
  · refine always_expect.bind fun opening _ => always_throughAngles.discard.bind fun _ _ => ?_
    exact always_throughDeclaration.discard.bind fun _ _ => ctx.owns_nil
  · split
    · refine always_next.bind fun params _ => ?_
      exact always_throughMethodTail.bind fun _ _ => ctx.owns_nil
    · exact always_memberDeclaration

theorem always_bodyItem (hbody : body.Spares role mayAbort) (hheader : role = .header) :
    (bodyItem body first ctx visible).Always role (Request.Sparing role mayAbort) (ctx.Owns ·.2) := by
  rw [bodyItem]
  split
  · exact always_expect.discard.bind fun _ _ => ctx.owns_nil
  · refine always_memberSpecifiers.bind fun r _ => ?_
    exact (always_memberItem (fun _ _ _ _ => always_innerRecord hbody hheader)
      fun _ => always_innerEnum).bind fun members hmembers => hmembers

theorem spares_bodyItems (hbody : body.Spares role mayAbort) (hheader : role = .header) :
    BodyParser.Spares (bodyItems body) role mayAbort := by
  intro task
  rw [bodyItems, itemsEnd]
  refine always_recur (fun s => task.context.Owns s.2) ?_ task.context.owns_nil
  rintro again ⟨visible, members⟩ h ih
  refine always_next.bind fun token _ => ?_
  dsimp only
  split
  · exact h
  have hitem : (bodyItem body token task.context visible >>= fun r =>
      again (r.1, members ++ r.2)).Always role (Request.Sparing role mayAbort) (task.context.Owns ·.2) :=
    (always_bodyItem hbody hheader).bind fun r hr => ih _ (BodyContext.Owns.append h hr)
  split
  · exact ih _ h
  · exact hitem
  · exact hitem
  · exact hitem
  · exact always_throughBrackets.discard.bind fun _ _ => ih _ h
  · exact always_fail

/-- Inside a body no parameter list is turned into arguments: what lies in a record with parameters
depends on them. -/
theorem spares_recordMembers (hheader : role = .header) :
    BodyParser.Spares recordMembers role mayAbort := by
  intro task
  refine always_recurBy (fun _ => True)
    (fun (task : BodyTask) (r : Token × List Member) => task.context.Owns r.2) ?_ trivial
  exact fun again task _ ih => spares_bodyItems (fun task' => ih task' trivial) hheader task

end Bodies

section Items

variable {word name token : Token} {arguments? : Option String} {generic : String} {key : ClassKey}

theorem always_recordFromName
    (hok : role = .header → ¬mayAbort → generic ≠ "" → (Parsing.arguments? generic).isSome) :
    (recordFromName key word name arguments? generic).Always role (Request.Sparing role mayAbort)
      fun _ => True := by
  refine always_recur (fun _ => True) (fun again inBases _ ih => ?_) trivial
  refine always_next.bind fun token _ => ?_
  have hdeclare : (do
      putBack token
      freeDeclaration word name).Always role (Request.Sparing role mayAbort) fun _ => True :=
    always_putBack.bind fun _ _ => always_freeDeclaration
  have hchoice : ∀ {c : Prop} [Decidable c], (if c then again inBases else do
      putBack token
      freeDeclaration word name).Always role (Request.Sparing role mayAbort) fun _ => True := by
    intro c _
    split
    · exact ih _ trivial
    · exact hdeclare
  split
  · refine always_roleOfFile.bind fun current hcurrent => ?_
    split
    · rename_i hheader
      have hrole : role = .header := hcurrent.symm.trans hheader
      refine (always_recordBody (spares_recordMembers hrole) hrole fun hnot hgeneric _ =>
        hok hrole hnot hgeneric).bind fun _ _ => ?_
      exact always_expect.discard
    · exact always_throughBrace.discard.bind fun _ _ => always_throughStatement.discard
  · trivial
  · exact ih _ trivial
  · split
    · exact always_throughAngles.discard.bind fun _ _ => ih _ trivial
    · exact hdeclare
  · exact hchoice
  · exact hchoice
  · exact hchoice
  · exact hdeclare

theorem always_recordItem
    (hok : role = .header → ¬mayAbort → generic ≠ "" → (Parsing.arguments? generic).isSome) :
    (recordItem key word generic).Always role (Request.Sparing role mayAbort) fun _ => True := by
  refine always_throughHeadAttributes.bind fun _ _ => always_next.bind fun name _ => ?_
  split
  · refine always_throughBrace.discard.bind fun _ _ => ?_
    exact always_throughStatement.bind fun last _ => always_remarkUnparsed
  split
  · exact always_fail
  · exact always_writtenList?.bind fun arguments? _ => always_recordFromName hok

theorem always_namespaceItem {allowed : Request → Prop} [Request.Admits role allowed]
    (henter : ∀ segment opening, allowed (.enter segment opening)) :
    namespaceItem.Always role allowed fun _ => True := by
  refine always_next.bind fun name _ => ?_
  split
  · exact always_throughBrace.discard
  split
  · exact always_fail
  refine always_next.bind fun token _ => ?_
  split
  · exact ⟨henter _ _, fun _ _ => trivial⟩
  · exact always_throughStatement.discard
  · exact always_fail

theorem always_enumItem : enumItem.Always role (Request.Sparing role mayAbort) fun _ => True := by
  refine always_enumAfterWord.bind fun form _ => ?_
  split
  · trivial
  · exact always_throughStatement.discard
  · exact always_expect.discard
  · exact always_expect.discard

/-- Only the lists of templates are turned into arguments. -/
theorem always_templateItem (hok : role = .header → mayAbort) :
    templateItem.Always role (Request.Sparing role mayAbort) fun _ => True := by
  refine always_writtenList?.bind fun list? _ => ?_
  split
  · exact always_throughDeclaration.discard
  refine always_next.bind fun token _ => ?_
  split
  · exact always_recordItem fun hrole hnot => absurd (hok hrole) hnot
  · exact always_putBack.bind fun _ _ => always_throughDeclaration.discard

/-- Only a type or a scope can make an item ask for more than quiet requests. -/
theorem always_namedItem {allowed : Request → Prop} [Request.Admits role allowed]
    (henter : ∀ segment opening, allowed (.enter segment opening))
    (hrecord : ∀ word key, token.reserved? = some word → classKey? word = some key →
      (recordItem key token "").Always role allowed fun _ => True)
    (henum : token.reserved? = some .enumWord → enumItem.Always role allowed fun _ => True)
    (htemplate : token.reserved? = some .templateWord →
      templateItem.Always role allowed fun _ => True) :
    (namedItem token).Always role allowed fun _ => True := by
  rw [namedItem]
  split
  · exact always_namespaceItem henter
  · exact always_throughStatement.discard
  · exact always_throughStatement.discard
  · exact always_throughStatement.discard
  · exact hrecord _ _ ‹_› rfl
  · exact hrecord _ _ ‹_› rfl
  · exact hrecord _ _ ‹_› rfl
  · exact henum ‹_›
  · exact htemplate ‹_›
  · refine always_lookAt.bind fun after _ => ?_
    split
    · exact always_next.discard.bind fun _ _ => always_namespaceItem henter
    · exact always_throughDefinition
  · exact always_throughDefinition
  · exact always_throughDefinition
  · exact always_throughDefinition
  · split
    · exact always_throughDefinition
    · exact always_freeDeclaration

theorem always_fileItem {allowed : Request → Prop} [Request.Admits role allowed]
    (hnamed : token.kind = .ident → (namedItem token).Always role allowed fun _ => True) :
    (fileItem token).Always role allowed fun _ => True := by
  rw [fileItem]
  split
  · trivial
  · trivial
  · exact always_throughBrackets.discard
  · exact hnamed ‹_›
  · exact always_leaveUnparsed

/-- An item aborts only where the list of a template is turned into arguments. -/
theorem always_fileItem_sparing (htemplate : token.reserved? = some .templateWord →
      templateItem.Always role (Request.Sparing role mayAbort) fun _ => True) :
    (fileItem token).Always role (Request.Sparing role mayAbort) fun _ => True :=
  always_fileItem fun _ => always_namedItem (fun _ _ => trivial)
    (fun _ _ _ _ => always_recordItem fun _ _ hgeneric => absurd rfl hgeneric)
    (fun _ => always_enumItem) htemplate

/-- Nothing aborts in an implementation file, and in a header only what turns a list of parameters
into arguments. -/
theorem always_fileItems (hok : role = .header → mayAbort) :
    fileItems.Always role (Request.Sparing role mayAbort) fun _ => True := by
  refine always_loop fun again ih => always_nextOrEnd.bind fun token _ => ?_
  split
  · refine always_openBraces.bind fun open' _ => ?_
    split
    · exact always_fail
    · trivial
  · exact (always_fileItem_sparing fun _ => always_templateItem hok).bind fun _ _ => ih

end Items

end ReflectionTables.Parsing
