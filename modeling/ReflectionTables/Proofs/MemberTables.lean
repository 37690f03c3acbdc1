import ReflectionTables.Proofs.MemberForms
/-!
# The table of the members of a record

A body is a tree of items, since records and unnamed groups of members have bodies of their own. The
table has a row for each declarator that is visible, in their order, and nothing else in the body
leaves a row or hides one.
-/

namespace ReflectionTables.Parsing

open Text Scanning Reflected Parsing.Parser

/-- The word that begins a record. -/
abbrev ClassWord (key : ClassKey) := { t : Token // t.reserved?.bind classKey? = some key }

/-- What follows the body of a named record in another record. -/
inductive NestedEnding
  | closed (semicolon : TokenOf .semicolon)
  | declaring (ds : MemberDeclarators)

namespace NestedEnding

def tokens : NestedEnding → List Token
  | .closed semicolon => [semicolon.val]
  | .declaring ds => ds.tokens

/-- The members of the record's type. -/
def members (text name : String) : NestedEnding → List Member
  | .closed _ => []
  | .declaring ds => MemberDeclarators.sharing text name (ds.first :: ds.more.map (·.2))

end NestedEnding

inductive RecordItems
  | nil
  | access (word : Token) (visible : Bool)
      (selects : word.reserved?.bind ReservedWord.visibility? = some visible) (colon : TokenOf .colon)
      (rest : RecordItems)
  | stray (semicolon : TokenOf .semicolon) (rest : RecordItems)
  | data (d : DataDeclaration) (rest : RecordItems)
  | method (d : MethodDeclaration) (rest : RecordItems)
  /-- An unnamed record, whose members belong to the record around it. -/
  | unnamed (key : ClassKey) (word : ClassWord key) (opening : TokenOf .lBrace) (inner : RecordItems)
      (closing : TokenOf .rBrace) (semicolon : TokenOf .semicolon) (rest : RecordItems)
  | nested (key : ClassKey) (word : ClassWord key) (name : TokenOf .ident) (opening : TokenOf .lBrace)
      (inner : RecordItems) (closing : TokenOf .rBrace) (ending : NestedEnding) (rest : RecordItems)

def startsPublic (key : ClassKey) : Bool := (TypeTag.record key).startsPublic

def qualified (path : List String) : String := "::".intercalate path

namespace RecordItems

def tokens : RecordItems → List Token
  | .nil => []
  | .access word _ _ colon rest => word :: colon.val :: rest.tokens
  | .stray semicolon rest => semicolon.val :: rest.tokens
  | .data d rest => d.tokens ++ rest.tokens
  | .method d rest => d.tokens ++ rest.tokens
  | .unnamed _ word opening inner closing semicolon rest =>
    word.val :: opening.val :: (inner.tokens ++ closing.val :: semicolon.val :: rest.tokens)
  | .nested _ word name opening inner closing ending rest =>
    word.val :: name.val :: opening.val ::
      (inner.tokens ++ closing.val :: (ending.tokens ++ rest.tokens))

/-- The rows of the table, if the items begin where members are visible or not. -/
def members (text : String) : RecordItems → Bool → List Member
  | .nil, _ => []
  | .access _ visible _ _ rest, _ => rest.members text visible
  | .stray _ rest, visible => rest.members text visible
  | .data d rest, visible =>
    (if visible && !d.isStatic then d.members text else []) ++ rest.members text visible
  | .method _ rest, visible => rest.members text visible
  | .unnamed _ _ _ inner _ _ rest, visible => inner.members text visible ++ rest.members text visible
  | .nested _ _ name _ _ _ ending rest, visible =>
    (if visible then ending.members text name.val.text else []) ++ rest.members text visible

def visibleBehind : RecordItems → Bool → Bool
  | .nil, visible => visible
  | .access _ visible _ _ rest, _ => rest.visibleBehind visible
  | .stray _ rest, visible | .data _ rest, visible | .method _ rest, visible
  | .unnamed _ _ _ _ _ _ rest, visible | .nested _ _ _ _ _ _ _ rest, visible =>
    rest.visibleBehind visible

/-- The records whose bodies are entered, in that order, if the path leads to the items. -/
def declarations : RecordItems → List String → List Declaration
  | .nil, _ => []
  | .access _ _ _ _ rest, path => rest.declarations path
  | .stray _ rest, path => rest.declarations path
  | .data _ rest, path => rest.declarations path
  | .method _ rest, path => rest.declarations path
  | .unnamed _ _ _ inner _ _ rest, path => inner.declarations path ++ rest.declarations path
  | .nested key _ name _ inner _ _ rest, path =>
    ⟨.record key, qualified (path ++ [name.val.text])⟩ ::
      (inner.declarations (path ++ [name.val.text]) ++ rest.declarations path)

def asType (text : String) (key : ClassKey) (path : List String) (items : RecordItems) :
    List ReflectedType :=
  if items.members text (startsPublic key) = [] then []
  else [.record ⟨key, qualified path, "", items.members text (startsPublic key)⟩]

/-- The types of the records among the items; a record comes behind those in it. -/
def types (text : String) : RecordItems → List String → List ReflectedType
  | .nil, _ => []
  | .access _ _ _ _ rest, path => rest.types text path
  | .stray _ rest, path => rest.types text path
  | .data _ rest, path => rest.types text path
  | .method _ rest, path => rest.types text path
  | .unnamed _ _ _ inner _ _ rest, path => inner.types text path ++ rest.types text path
  | .nested key _ name _ inner _ _ rest, path =>
    inner.types text (path ++ [name.val.text]) ++
      (inner.asType text key (path ++ [name.val.text]) ++ rest.types text path)

def found (text : String) (items : RecordItems) (path : List String) : Findings :=
  { types := items.types text path, declarations := items.declarations path }

end RecordItems

/-- What a stretch of a body says: how members are visible behind it, its rows, and what is found in
it, if a path leads to it. -/
structure BodyPart where
  tokens : List Token
  visibleBehind : Bool → Bool
  members : Bool → List Member
  found : List String → Findings

def RecordItems.part (text : String) (items : RecordItems) : BodyPart :=
  ⟨items.tokens, items.visibleBehind, items.members text, items.found text⟩

namespace BodyPart

def asType (part : BodyPart) (key : ClassKey) (path : List String) : List ReflectedType :=
  if part.members (startsPublic key) = [] then []
  else [.record ⟨key, qualified path, "", part.members (startsPublic key)⟩]

/-- What is found in the record with this body. It is declared before those in it, and is a type
behind them. -/
def record (part : BodyPart) (key : ClassKey) (path : List String) : Findings :=
  ({ declarations := [⟨.record key, qualified path⟩] } : Findings).append
    ((part.found path).append { types := part.asType key path })

theorem record_part (text : String) (items : RecordItems) (key : ClassKey) (path : List String) :
    (items.part text).record key path =
      { types := items.types text path ++ items.asType text key path
        declarations := ⟨.record key, qualified path⟩ :: items.declarations path } := by
  change ({ declarations := [_] } : Findings).append
    ((items.found text path).append { types := items.asType text key path }) = _
  simp [Findings.append, RecordItems.found]

end BodyPart

def Standing.gaining (P : Standing) (found : Findings) : Standing :=
  { P with found := P.found.append found }

/-- The names of the scopes around a place. -/
def Standing.path (P : Standing) : List String := P.scopes.reverse.map (·.segment)

variable {text : String} {c : Reading text} {us ts rest : List Token} {P : Standing} {t first : Token}

@[simp] theorem Standing.gaining_gaining (found found' : Findings) :
    (P.gaining found).gaining found' = P.gaining (found.append found') := by
  simp only [gaining, Findings.append, List.append_assoc]

theorem Standing.noted_eq (finding : Finding) :
    P.noted finding = P.gaining (({} : Findings).add finding) := by
  rw [gaining, Findings.append_add, Findings.append_nil, noted]

@[simp] theorem Standing.gaining_nil : P.gaining {} = P := by
  rw [gaining, Findings.append_nil]

/-- What is noted behind a token leaves the token where it is. -/
theorem Reading.StandsBehind.of_stands (h : c.StandsBehind t us P) {c' : Reading text}
    (h' : c'.Stands us (P.behind t)) : c'.StandsBehind t us P :=
  ⟨h', h.standsIn, h.depth_eq, h.scopes_lt⟩

section Items

variable {body : BodyParser} {task : BodyTask} {visible : Bool} {members : List Member}
  {ctx : BodyContext} {Q : Token × List Member → Reading text → Prop}

/-- An item that begins with a name adds its members. -/
theorem yields_item (ht : t.kind = .ident) (hc : c.Stands (t :: us) P)
    (hitem : ∀ c', c'.StandsBehind t us P → (bodyItem body t task.context visible).Yields
      (fun r c'' => (itemsEnd body task r.1 (members ++ r.2)).Yields Q c'') c') :
    (itemsEnd body task visible members).Yields Q c := by
  refine yields_recur fun again hagain => ?_
  refine (readsOne_next c t us P hc).bind ?_
  rintro _ c₁ ⟨rfl, h₁⟩
  simp only [ht, reduceCtorEq, false_and, if_false]
  exact (hitem c₁ h₁).bind fun r c₂ h₂ => hagain _ c₂ Q h₂

theorem yields_stray (semicolon : TokenOf .semicolon) (hc : c.Stands (semicolon.val :: us) P)
    (hrest : ∀ c', c'.Stands us P → (itemsEnd body task visible members).Yields Q c') :
    (itemsEnd body task visible members).Yields Q c := by
  refine yields_recur fun again hagain => ?_
  refine (passes_next (by rw [semicolon.property]; rfl) c us P hc).bind ?_
  rintro _ c₁ ⟨rfl, h₁⟩
  simp only [semicolon.property, reduceCtorEq, false_and, if_false]
  exact hagain _ c₁ Q (hrest c₁ h₁)

theorem passes_expect {kind : TokenKind} {what : Expectation} (ht : t.kind = kind)
    (hplain : t.kind.isBrace = false) : (expect kind what).Passes text [t] (· = t) := by
  refine passes_next_bind hplain ?_
  simp only [if_pos ht]
  exact passes_pure rfl

theorem yields_access {word : Token} {selected : Bool}
    (hword : word.reserved?.bind ReservedWord.visibility? = some selected) (colon : TokenOf .colon)
    (hc : c.Stands (colon.val :: us) P) :
    (bodyItem body word ctx visible).Yields (fun r c' => r = (selected, []) ∧ c'.Stands us P) c := by
  have hcolon := (@passes_expect text _ _ .specifierColon colon.property (by rw [colon.property]; rfl)).discard
  simp only [bodyItem, hword]
  exact (hcolon c us P hc).bind fun _ _ h => ⟨rfl, h.2⟩

theorem crosses_specifiersEnd (specifiers : List Specifier) (isStatic : Bool) :
    CrossesFrom text specifiersEnd (specifiers.map Subtype.val) isStatic
      (isStatic || specifiers.any Specifier.isStatic) := by
  induction specifiers generalizing isStatic with
  | nil =>
    rw [List.any_nil, Bool.or_false]
    exact crossesFrom_nil
  | cons specifier specifiers ih =>
    obtain ⟨word, hword, hspecifier⟩ := (Option.any_eq_true _ _).1 specifier.property
    rw [List.any_cons, ← Bool.or_assoc]
    refine CrossesFrom.cons (crossesFrom_token (g := fun u => (isStatic || specifier.isStatic, u))
      readsOne_next rfl (fun _ => rfl) (fun again => ?_) ?_) (ih _)
    · cases word <;>
        first | exact absurd hspecifier Bool.false_ne_true | simp [hword, Specifier.isStatic]
    · rw [Token.kind_of_reserved? hword]
      rfl

/-- The specifiers before a member are read up to the first token after them. -/
theorem yields_memberSpecifiers (specifiers : List Specifier)
    (ht : t.reserved?.any ReservedWord.isSpecifier = false)
    (heq : specifiers.map Subtype.val ++ t :: us = first :: rest) (hc : c.StandsBehind first rest P) :
    (memberSpecifiers first).Yields (fun r c' =>
      r = (specifiers.any Specifier.isStatic, t) ∧ c'.StandsBehind t us P) c := by
  refine crosses_specifiersEnd specifiers false _ c first t rest us P heq hc fun c₁ h₁ => ?_
  refine yields_recur fun again _ => ?_
  rw [Bool.false_or]
  cases hreserved : t.reserved? with
  | none =>
    simp only [hreserved]
    exact ⟨rfl, h₁⟩
  | some word =>
    rw [hreserved] at ht
    cases word <;>
      first | exact absurd ht (by decide) | (simp only [hreserved]; exact ⟨rfl, h₁⟩)

theorem yields_constructorAhead {token : Token} (ht : t.kind.opensParens = false)
    (hc : c.Stands (t :: us) P) :
    (constructorAhead token ctx).Yields (fun constructs c' => constructs = false ∧ c'.Stands (t :: us) P)
      c := by
  rw [constructorAhead]
  split
  · refine (yields_lookAt (n := 0) hc rfl).bind ?_
    rintro _ c₁ ⟨rfl, h₁⟩
    exact ⟨ht, h₁⟩
  · exact ⟨rfl, hc⟩

/-- A member is read from its first token after the specifiers on, and leaves the visibility. -/
theorem yields_bodyItem {R : List Member → Reading text → Prop} (specifiers : List Specifier)
    (ht : t.reserved?.any ReservedWord.isSpecifier = false)
    (hvisibility : t.reserved?.bind ReservedWord.visibility? = none)
    (heq : specifiers.map Subtype.val ++ t :: us = first :: rest) (hc : c.StandsBehind first rest P)
    (hmember : ∀ c', c'.StandsBehind t us P →
      (memberItem body t ctx visible (visible && !specifiers.any Specifier.isStatic)).Yields R c') :
    (bodyItem body first ctx visible).Yields (fun r c' => r.1 = visible ∧ R r.2 c') c := by
  have hfirst : first.reserved?.bind ReservedWord.visibility? = none := by
    cases specifiers with
    | nil =>
      obtain ⟨rfl, -⟩ := List.cons.inj heq
      exact hvisibility
    | cons specifier specifiers =>
      obtain ⟨rfl, -⟩ := List.cons.inj heq
      obtain ⟨word, hword, hspecifier⟩ := (Option.any_eq_true _ _).1 specifier.property
      rw [hword]
      cases word <;> first | exact absurd hspecifier Bool.false_ne_true | rfl
  simp only [bodyItem, hfirst]
  refine (yields_memberSpecifiers specifiers ht heq hc).bind ?_
  rintro _ c₁ ⟨rfl, h₁⟩
  exact (hmember c₁ h₁).bind fun _ _ h => ⟨rfl, h⟩

/-- A declaration begins with a plain name that no parenthesis follows. -/
theorem yields_memberItem {R : List Member → Reading text → Prop} {accept : Bool} (name : PlainName)
    (ht : t.kind.opensParens = false) (hc : c.StandsBehind name.token (t :: us) P)
    (hdeclaration : ∀ c', c'.StandsBehind name.token (t :: us) P →
      (memberDeclaration name.token name.token accept ctx).Yields R c') :
    (memberItem body name.token ctx visible accept).Yields R c := by
  rw [memberItem]
  simp only [name.isIdent, reduceCtorEq, if_false]
  refine (yields_constructorAhead ht hc.stands).bind ?_
  rintro _ c₁ ⟨rfl, h₁⟩
  simp only [name.unreserved, Bool.false_eq_true, if_false]
  exact hdeclaration c₁ (hc.of_stands h₁)

theorem exists_second (type : TypeWords) (marks : List Mark) (name : PlainName) (after : List Token) :
    ∃ t ts, type.tokens ++ (marks.map Subtype.val ++ name.token :: after) =
      type.first.name.token :: t :: ts ∧ t.kind.opensParens = false := by
  obtain ⟨⟨word, list?⟩, more⟩ := type
  cases list? with
  | some g => exact ⟨g.opener, _, rfl, by rw [g.opener.property]; rfl⟩
  | none =>
    cases more with
    | cons w more => exact ⟨w.name.token, _, rfl, by rw [w.name.isIdent]; rfl⟩
    | nil =>
      cases marks with
      | nil => exact ⟨name.token, _, rfl, by rw [name.isIdent]; rfl⟩
      | cons mark marks =>
        refine ⟨mark.val, _, rfl, ?_⟩
        have hmark := mark.property
        cases hkind : mark.val.kind <;> rw [hkind] at hmark <;>
          first | exact absurd hmark Bool.false_ne_true | rfl

theorem yields_declaration (specifiers : List Specifier) (type : TypeWords) (marks : List Mark)
    (name : PlainName) (after : List Token)
    (hc : c.Stands (specifiers.map Subtype.val ++
      (type.tokens ++ (marks.map Subtype.val ++ name.token :: after))) P)
    (hdeclaration : ∀ c' first rest,
      type.tokens ++ (marks.map Subtype.val ++ name.token :: after) = first :: rest →
        c'.StandsBehind first rest P →
          (memberDeclaration first first (visible && !specifiers.any Specifier.isStatic)
            task.context).Yields
              (fun more c'' => (itemsEnd body task visible (members ++ more)).Yields Q c'') c') :
    (itemsEnd body task visible members).Yields Q c := by
  obtain ⟨t, ts, htype, ht⟩ := exists_second type marks name after
  obtain ⟨first, rest, hfirst⟩ := List.exists_cons_of_ne_nil
    (l := specifiers.map Subtype.val ++ type.first.name.token :: t :: ts) (by simp)
  have hident : first.kind = .ident := by
    cases specifiers with
    | nil =>
      obtain ⟨rfl, -⟩ := List.cons.inj hfirst
      exact type.first.name.isIdent
    | cons specifier specifiers =>
      obtain ⟨rfl, -⟩ := List.cons.inj hfirst
      obtain ⟨word, hword, -⟩ := (Option.any_eq_true _ _).1 specifier.property
      exact Token.kind_of_reserved? hword
  rw [htype, hfirst] at hc
  refine yields_item hident hc fun c₁ h₁ => ?_
  have hunreserved := type.first.name.unreserved
  have hitem := @yields_bodyItem text c₁ (t :: ts) rest P type.first.name.token first body visible
    task.context (fun more c' => (itemsEnd body task visible (members ++ more)).Yields Q c') specifiers
    (by rw [hunreserved]; rfl) (by rw [hunreserved]; rfl) hfirst h₁ fun c₂ h₂ =>
      yields_memberItem type.first.name ht h₂ fun c₃ h₃ => hdeclaration c₃ _ _ htype h₃
  refine hitem.mono fun r c' h => ?_
  rw [h.1]
  exact h.2

theorem yields_data (d : DataDeclaration) (hgeneric : task.context.generic = "")
    (hc : c.Stands (d.tokens ++ us) P)
    (hrest : ∀ c', c'.Stands us P → (itemsEnd body task visible
      (members ++ if visible && !d.isStatic then d.members text else [])).Yields Q c') :
    (itemsEnd body task visible members).Yields Q c := by
  have htokens : d.tokens ++ us = d.specifiers.map Subtype.val ++
      (d.type.tokens ++ (d.declarators.first.marks.map Subtype.val ++ d.declarators.first.name.token ::
        (d.declarators.first.suffix.tokens ++ d.declarators.first.initializer.tokens ++
          d.declarators.tail ++ us))) := by
    simp [DataDeclaration.tokens, MemberDeclarators.tokens, MemberDeclarator.tokens]
  rw [htokens] at hc
  refine yields_declaration d.specifiers d.type d.declarators.first.marks d.declarators.first.name _ hc
    fun c₁ first rest heq h₁ => ?_
  have hfirst : d.type.tokens ++ (d.declarators.tokens ++ us) = first :: rest := by
    rw [← heq]
    simp [MemberDeclarators.tokens, MemberDeclarator.tokens]
  refine (yields_dataDeclaration d hgeneric hfirst h₁).mono fun more c₂ h₂ => ?_
  rw [h₂.1]
  exact hrest c₂ h₂.2

theorem yields_method (d : MethodDeclaration) (hc : c.Stands (d.tokens ++ us) P)
    (hrest : ∀ c', c'.Stands us P → (itemsEnd body task visible members).Yields Q c') :
    (itemsEnd body task visible members).Yields Q c := by
  have htokens : d.tokens ++ us = d.specifiers.map Subtype.val ++
      (d.type.tokens ++ (d.marks.map Subtype.val ++ d.name.token :: (d.params.tokens ++
        (d.qualifiers.map Subtype.val ++ (d.ending.tokens ++ us))))) := by
    simp [MethodDeclaration.tokens]
  rw [htokens] at hc
  refine yields_declaration d.specifiers d.type d.marks d.name _ hc fun c₁ first rest heq h₁ => ?_
  refine (yields_methodDeclaration d heq h₁).mono fun more c₂ h₂ => ?_
  rw [h₂.1, List.append_nil]
  exact hrest c₂ h₂.2

end Items

/-- A body is read as all bodies are, with no parameters around it. -/
structure BodyTask.Plain (task : BodyTask) : Prop where
  generic_eq : task.context.generic = ""
  dependent_eq : task.context.dependent = false

/-- Whether a parser of bodies yields what the parser of all bodies yields. -/
def BodyParser.Unrolls (text : String) (body : BodyParser) : Prop :=
  ∀ (task : BodyTask) (c : Reading text) (S : Token × List Member → Reading text → Prop),
    (recordMembers task).Yields S c → (body task).Yields S c

namespace Parser

/-- Whether a parser, in a header, goes through tokens and learns from them what is said of the names around,
and goes on as another one. -/
def Finds (text : String) (ts : List Token) (found : List String → Findings) (p p' : Parser β) : Prop :=
  ∀ (Q : β → Reading text → Prop) (c : Reading text) (us : List Token) (P : Standing),
    P.role = .header → c.Stands (ts ++ us) P →
      (∀ c' : Reading text, c'.Stands us (P.gaining (found P.path)) → p'.Yields Q c') → p.Yields Q c

theorem Finds.append {p p' p'' : Parser β} {ts us : List Token} {found later : List String → Findings}
    (h : p.Finds text ts found p') (h' : p'.Finds text us later p'') :
    p.Finds text (ts ++ us) (fun path => (found path).append (later path)) p'' := by
  intro Q c vs P hrole hc hrest
  rw [List.append_assoc] at hc
  refine h Q c _ P hrole hc fun c₁ h₁ => ?_
  refine h' Q c₁ vs (P.gaining _) hrole h₁ fun c₂ h₂ => hrest c₂ ?_
  rwa [Standing.gaining_gaining] at h₂

end Parser

/-- Whether the body of a record in a header is read as is said: its members are added, and what is
in it is found. -/
def BodyPart.Read (text : String) (part : BodyPart) : Prop :=
  ∀ (body : BodyParser) (task : BodyTask) (visible : Bool) (members : List Member),
    body.Unrolls text → task.Plain → (itemsEnd body task visible members).Finds text part.tokens part.found
      (itemsEnd body task (part.visibleBehind visible) (members ++ part.members visible))

def BodyPart.append (part later : BodyPart) : BodyPart where
  tokens := part.tokens ++ later.tokens
  visibleBehind visible := later.visibleBehind (part.visibleBehind visible)
  members visible := part.members visible ++ later.members (part.visibleBehind visible)
  found path := (part.found path).append (later.found path)

theorem BodyPart.Read.append {part later : BodyPart} (h : part.Read text) (h' : later.Read text) :
    (part.append later).Read text := by
  intro body task visible members hbody hplain
  have happend := (h body task visible members hbody hplain).append (h' body task _ _ hbody hplain)
  rwa [List.append_assoc] at happend

variable {inner : BodyPart} {body : BodyParser} {task : BodyTask} {ctx : BodyContext}

/-- A body is read up to its closing brace, which leads back to the place before the opening one. -/
theorem yields_recordMembers (hinner : inner.Read text) (hplain : task.Plain) (hrole : P.role = .header)
    (closing : TokenOf .rBrace) (entered : List Scope) (hentered : ∀ s ∈ entered, s.depth = P.depth)
    (hscopes : ∀ s ∈ P.scopes, s.depth < P.depth) (hdepth : task.opening.depth = P.depth)
    {inside : Standing} (hinside : inside = { P.opened with scopes := entered ++ P.scopes })
    (hc : c.Stands (inner.tokens ++ closing.val :: us) inside) :
    (recordMembers task).Yields (fun r c' => r.2 = inner.members task.visible ∧
      c'.Stands us (P.gaining (inner.found inside.path))) c := by
  have hheader : inside.role = .header := by
    rw [hinside]
    exact hrole
  rw [recordMembers]
  refine yields_recur fun again hagain => ?_
  refine hinner again task task.visible [] hagain hplain _ c _ _ hheader hc fun c₁ h₁ => ?_
  have houter : ∀ s ∈ (P.gaining (inner.found inside.path)).scopes,
      s.depth < (P.gaining (inner.found inside.path)).depth := hscopes
  obtain ⟨hclosing, hbehind⟩ := h₁.behind_of_rBrace entered closing.property (by rw [hinside]; rfl)
    (by rw [hinside]; rfl) hentered houter
  refine yields_recur fun again' _ => ?_
  refine (yields_next h₁).bind ?_
  rintro _ c₂ ⟨rfl, h₂⟩
  rw [hbehind] at h₂
  rw [if_pos ⟨closing.property, hclosing.trans hdepth.symm⟩]
  refine ⟨List.nil_append _, ?_⟩
  rw [hinside] at h₂ ⊢
  exact h₂

@[simp] theorem recordSegment_plain (name : String) : recordSegment name none "" false = pure name := by
  simp [recordSegment]

theorem yields_recordBody (hinner : inner.Read text) (hbody : body.Unrolls text) (key : ClassKey)
    (name : TokenOf .ident) (opening : TokenOf .lBrace) (closing : TokenOf .rBrace)
    (hrole : P.role = .header) {path : List String} (hpath : path = P.path ++ [name.val.text])
    (hc : c.StandsBehind opening.val (inner.tokens ++ closing.val :: us) P) :
    (recordBody body key name.val none opening.val "" false).Yields (fun _ c' =>
      c'.Stands us (P.gaining (inner.record key path))) c := by
  have hdepth := hc.depth_of_lBrace opening.property
  rw [recordBody, recordSegment_plain, pure_bind]
  refine (yields_enter (hc.opened opening.property) hdepth).bind fun _ c₁ h₁ => ?_
  refine (yields_enclosingName h₁).bind ?_
  rintro _ c₂ ⟨rfl, h₂⟩
  have hname : (P.entered name.val.text).enclosingName = qualified path := by
    rw [hpath, qualified, Standing.path, Standing.enclosingName, Standing.entered]
    simp
  rw [hname]
  refine (yields_note h₂).bind fun _ c₃ h₃ => ?_
  let declared : Findings := { declarations := [⟨.record key, qualified path⟩] }
  have hplace : (P.entered name.val.text).noted (.declaration ⟨.record key, qualified path⟩) =
      (P.gaining declared).entered name.val.text := by
    rw [Standing.noted_eq]
    rfl
  have hinside : ((P.gaining declared).entered name.val.text).path = path := by
    rw [hpath, Standing.path, Standing.path, Standing.entered]
    simp [Standing.gaining]
  rw [hplace] at h₃
  have hmembers := @yields_recordMembers text c₃ us (P.gaining declared) inner
    ⟨opening, ⟨name.val.text, qualified path, "", false⟩, startsPublic key⟩ hinner ⟨rfl, rfl⟩ hrole closing
    [⟨name.val.text, P.depth⟩] (List.forall_mem_singleton.2 rfl) hc.scopes_lt hdepth
    ((P.gaining declared).entered name.val.text) rfl h₃
  dsimp only
  refine (hbody _ _ _ hmembers).bind ?_
  rintro ⟨_, members⟩ c₄ ⟨rfl, h₄⟩
  rw [Standing.gaining_gaining, hinside] at h₄
  dsimp only
  rw [BodyPart.record, ← Findings.append_assoc, BodyPart.asType, ← Standing.gaining_gaining]
  by_cases hnone : inner.members (startsPublic key) = []
  · rw [if_pos hnone, if_pos hnone, Standing.gaining_nil]
    exact h₄
  · rw [if_neg hnone, if_neg hnone, if_neg (by simp)]
    refine (yields_note h₄).mono fun _ c₅ h₅ => ?_
    rwa [Standing.noted_eq] at h₅

theorem yields_throughHeadAttributes_unnamed (opening : TokenOf .lBrace)
    (hc : c.Stands (opening.val :: us) P) :
    throughHeadAttributes.Yields (fun _ c' => c'.Stands (opening.val :: us) P) c := by
  refine yields_loop fun again _ => ?_
  refine (yields_lookAt (n := 0) hc rfl).bind ?_
  rintro _ c₁ ⟨rfl, h₁⟩
  simp only [opening.property]
  exact h₁

/-- A name begins no attribute if no parenthesis follows. -/
theorem yields_attributeAhead {u : Token} (hu : u.kind ≠ .lParen) (hc : c.Stands (t :: u :: us) P) :
    (attributeAhead t).Yields (fun b c' => b = false ∧ c'.Stands (t :: u :: us) P) c := by
  rw [attributeAhead]
  split
  · refine (yields_lookAt (n := 1) hc rfl).bind ?_
    rintro _ c₁ ⟨rfl, h₁⟩
    exact ⟨beq_false_of_ne hu, h₁⟩
  · exact ⟨rfl, hc⟩

/-- A name is no marker if no other name follows. -/
theorem yields_markerAhead_last {u : Token} (hu : u.kind ≠ .ident ∨ u.isWord "final" = true)
    (hc : c.Stands (t :: u :: us) P) :
    markerAhead.Yields (fun b c' => b = false ∧ c'.Stands (t :: u :: us) P) c := by
  refine (yields_lookAt (n := 0) hc rfl).bind ?_
  rintro _ c₁ ⟨rfl, h₁⟩
  split
  · exact ⟨rfl, h₁⟩
  · refine (yields_lookAt (n := 1) h₁ rfl).bind ?_
    rintro _ c₂ ⟨rfl, h₂⟩
    rw [if_pos hu]
    exact ⟨rfl, h₂⟩

/-- Nothing is gone through before a name that is neither an attribute nor a marker. -/
theorem yields_throughHeadAttributes_of {u : Token} (ht : t.kind = .ident) (hu : u.kind ≠ .lParen)
    (hmarker : ∀ c' : Reading text, c'.Stands (t :: u :: us) P →
      markerAhead.Yields (fun b c'' => b = false ∧ c''.Stands (t :: u :: us) P) c')
    (hc : c.Stands (t :: u :: us) P) :
    throughHeadAttributes.Yields (fun _ c' => c'.Stands (t :: u :: us) P) c := by
  refine yields_loop fun again _ => ?_
  refine (yields_lookAt (n := 0) hc rfl).bind ?_
  rintro _ c₁ ⟨rfl, h₁⟩
  simp only [ht]
  refine (yields_attributeAhead hu h₁).bind ?_
  rintro _ c₂ ⟨rfl, h₂⟩
  rw [if_neg Bool.false_ne_true]
  refine (hmarker c₂ h₂).bind ?_
  rintro _ c₃ ⟨rfl, h₃⟩
  exact h₃

/-- The members of an unnamed record belong to the record around it. -/
theorem yields_unnamedRecord (hinner : inner.Read text) (hbody : body.Unrolls text) (key : ClassKey)
    (word : Token) (opening : TokenOf .lBrace) (closing : TokenOf .rBrace) (semicolon : TokenOf .semicolon)
    {visible accept : Bool} (hgeneric : ctx.generic = "") (hdependent : ctx.dependent = false)
    (hrole : P.role = .header)
    (hc : c.Stands (opening.val :: (inner.tokens ++ closing.val :: semicolon.val :: us)) P) :
    (innerRecord body key word ctx visible accept).Yields (fun r c' =>
      r = inner.members visible ∧ c'.Stands us (P.gaining (inner.found P.path))) c := by
  rw [innerRecord]
  refine (yields_throughHeadAttributes_unnamed opening hc).bind fun _ c₁ h₁ => ?_
  refine (yields_lookAt (n := 0) h₁ rfl).bind ?_
  rintro _ c₂ ⟨rfl, h₂⟩
  simp only [opening.property, if_true]
  refine (readsOne_next c₂ _ _ P h₂).bind ?_
  rintro _ c₃ ⟨rfl, h₃⟩
  have hmembers := @yields_recordMembers text c₃ (semicolon.val :: us) P inner ⟨opening, ctx, visible⟩
    hinner ⟨hgeneric, hdependent⟩ hrole closing [] (by simp) h₃.scopes_lt (h₃.depth_of_lBrace opening.property)
    P.opened rfl (h₃.opened opening.property)
  refine (hbody _ _ _ hmembers).bind ?_
  rintro ⟨_, members⟩ c₄ ⟨rfl, h₄⟩
  refine (passes_next (by rw [semicolon.property]; rfl) c₄ us _ h₄).bind ?_
  rintro _ c₅ ⟨rfl, h₅⟩
  rw [if_pos semicolon.property]
  exact ⟨rfl, h₅⟩

end ReflectionTables.Parsing
