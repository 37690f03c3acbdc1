import ReflectionTables.Proofs.BodyFindings
/-!
# Bodies whose names depend on parameters

Nothing in a record with parameters is reflected, however deep it lies: the bodies that are opened there are
declared and dropped. So a reflected record with parameters lies in no other record.
-/

namespace ReflectionTables.Reflected

open Scanning

namespace Bodies

def outermost : Bodies → List RecordType
  | .none => []
  | .enumeration _ _ _ rest => rest.outermost
  | .record type _ _ _ rest => type :: rest.outermost

def AllGeneric (generic : String) : Bodies → Prop
  | .none => True
  | .enumeration _ _ _ rest => rest.AllGeneric generic
  | .record type _ _ inner rest =>
    type.generic = generic ∧ inner.AllGeneric generic ∧ rest.AllGeneric generic

variable {generic : String}

@[simp] theorem length_declarations (bodies : Bodies) :
    bodies.declarations.length = bodies.openings.length := by
  induction bodies with
  | none => rfl
  | enumeration type opening closing rest ih => simp [declarations, openings, ih]
  | record type opening closing inner rest ihinner ih => simp [declarations, openings, ihinner, ih]

theorem dropped_of_dependent (bodies : Bodies) :
    ∀ r ∈ bodies.returns true, r = .dropped r.declaration := by
  induction bodies with
  | none => simp [returns]
  | enumeration type opening closing rest ih =>
    rw [returns, List.forall_mem_cons]
    exact ⟨rfl, ih⟩
  | record type opening closing inner rest ihinner ih =>
    rw [returns, Bool.true_or, List.forall_mem_append, List.forall_mem_append]
    refine ⟨ihinner, ?_, ih⟩
    rw [RecordType.returns]
    split
    · simp
    · simp [ReflectedType.return, Return.declaration]

@[simp] theorem types_of_dependent (bodies : Bodies) :
    (bodies.returns true).filterMap Return.type? = [] := by
  rw [List.filterMap_eq_nil_iff]
  intro r hr
  rw [bodies.dropped_of_dependent r hr]
  rfl

theorem names_of_dependent (bodies : Bodies) :
    ((bodies.returns true).filterMap Return.dropped?).map (·.name) =
      (bodies.returns true).map (·.declaration.name) := by
  have hall := bodies.dropped_of_dependent
  generalize bodies.returns true = returns at hall ⊢
  induction returns with
  | nil => rfl
  | cons r returns ih =>
    rw [List.forall_mem_cons] at hall
    rw [List.filterMap_cons, hall.1, Return.dropped?, List.map_cons, List.map_cons, ih hall.2]
    rfl

/-- Of bodies in records without parameters, none has any. -/
theorem AllGeneric.mem_returns {bodies : Bodies} {type : RecordType} {dependent : Bool}
    (h : bodies.AllGeneric generic) (htype : .reflected (.record type) ∈ bodies.returns dependent) :
    type.generic = generic := by
  induction bodies generalizing dependent with
  | none => cases htype
  | enumeration enum opening closing rest ih =>
    obtain hself | hrest := List.mem_cons.mp htype
    · cases dependent <;> cases hself
    · exact ih h hrest
  | record record opening closing inner rest ihinner ih =>
    obtain ⟨hgeneric, hinside, hrest⟩ := h
    obtain hin | hout := List.mem_append.mp htype
    · exact ihinner hinside hin
    obtain hself | hout := List.mem_append.mp hout
    · rw [RecordType.returns] at hself
      split at hself
      · cases hself
      · cases dependent <;> cases List.mem_singleton.mp hself
        exact hgeneric
    · exact ih hrest hout

end Bodies

end ReflectionTables.Reflected

namespace ReflectionTables.Parsing

open Scanning Reflected Parsing.Parser

namespace Opened

variable {σ : Type} {m : Machine σ} {around : Option BodyContext} {s s' : σ} {bodies : Bodies}

/-- In a body every record has the parameters of the record around it. -/
theorem allGeneric (h : Opened m around s bodies s') :
    ∀ ctx, around = some ctx → bodies.AllGeneric ctx.generic := by
  induction h with
  | refl => exact fun _ _ => trivial
  | step plain answered rest ih => exact ih
  | namespaceBody entered rest ih => exact ih
  | enumeration opened read closed left followed further ih => exact ih
  | record opened read closed inside inherited left followed further ihinside ih =>
    intro ctx haround
    have hgeneric := inherited ctx haround
    have hinner := ihinside _ rfl
    dsimp only at hinner
    rw [hgeneric] at hinner
    exact ⟨hgeneric, hinner, ih ctx haround⟩

theorem mem_outermost (h : Opened m around s bodies s') (haround : around = none) {type : RecordType}
    (htype : .reflected (.record type) ∈ bodies.returns false) (hgeneric : type.generic ≠ "") :
    type ∈ bodies.outermost := by
  induction h with
  | refl => cases htype
  | step plain answered rest ih => exact ih haround htype
  | namespaceBody entered rest ih => exact ih haround htype
  | enumeration opened read closed left followed further ih =>
    obtain hself | hrest := List.mem_cons.mp htype
    · cases hself
    · exact ih haround hrest
  | @record around s s₁ s₂ s₃ s₄ s' inner rest record typeName segment opening closing after opened read closed
      inside inherited left followed further ihinside ih =>
    obtain hin | hout := List.mem_append.mp htype
    · by_cases hnone : record.generic = ""
      · have hinner := inside.allGeneric _ rfl
        rw [hnone] at hinner
        exact absurd (hinner.mem_returns hin) hgeneric
      · have hdependent : (false || record.generic != "") = true := by simpa using hnone
        rw [hdependent] at hin
        cases inner.dropped_of_dependent _ hin
    obtain hself | hout := List.mem_append.mp hout
    · rw [RecordType.returns] at hself
      split at hself
      · cases hself
      · cases List.mem_singleton.mp hself
        exact List.mem_cons_self
    · exact List.mem_cons_of_mem _ (ih haround hout)

end Opened

/-- Nothing is reflected in a body whose types depend on parameters. From any state, a body of a record that
has parameters, or lies in one that has, leaves types and announcements as they are. Each named body in it, at
any depth, is declared once, where its scope is entered; each enumeration, and each record with members, is
dropped once, where it is left. So a reflected record with parameters lies in no other record. -/
theorem dependent_bodies_dropped {text : String} :
    (∀ (task : BodyTask) (s s' : ParserState text) (closing : Token) (members : List Member),
      task.context.nestsDependent = true →
      (recordMembers task).run ParserState.machine s = .ok ((closing, members), s') →
      ∃ (bodies : Bodies) (history : List Request),
        (recordMembers task).Reaches ParserState.machine s history (done (closing, members)) s' ∧
        Opened recorder (some task.context) (s, []) bodies (s', history) ∧
        (entriesOf history).map Entry.opening = bodies.openings.reverse ∧
        bodies.declarations.length = bodies.openings.length ∧
        s'.findings.types = s.findings.types ∧ s'.findings.externs = s.findings.externs ∧
        s'.findings.declarations = s.findings.declarations ++ bodies.declarations ∧
        s'.findings.dropped =
          s.findings.dropped ++ (bodies.returns true).map (·.declaration.name)) ∧
    ∀ (role : FileRole) (f : Findings), findingsOf role text = .ok f →
      ∃ (bodies : Bodies) (history : List Request) (s' : ParserState text),
        fileItems.Reaches ParserState.machine (.new role text) history (done ()) s' ∧
        s'.findings = f ∧ Opened recorder none (.new role text, []) bodies (s', history) ∧
        ∀ type, .record type ∈ f.types → type.generic ≠ "" → type ∈ bodies.outermost := by
  constructor
  · intro task s s' closing members hdependent hrun
    obtain ⟨history, hrecorded, hreaches⟩ := Reaches.start.recorded hrun
    obtain ⟨bodies, hopened⟩ := opens_recordMembers task _ _ _ hrecorded
    have hadds := hopened.adds
    have hdepends : dependsIn (some task.context) = true := hdependent
    rw [hdepends] at hadds
    have htypes := hadds.types_eq
    have hdropped := hadds.dropped_eq
    have hopenings : (entriesOf history).map Entry.opening = bodies.openings.reverse ++ [] :=
      hadds.openings_eq (by simp)
    rw [bodies.types_of_dependent, List.append_nil] at htypes
    rw [bodies.names_of_dependent] at hdropped
    rw [List.append_nil] at hopenings
    exact ⟨bodies, history, hreaches, hopened, hopenings, bodies.length_declarations, htypes,
      hadds.externs_eq (by simp), hadds.declarations_eq, hdropped⟩
  · intro role f hf
    rw [findingsOf] at hf
    split at hf
    · rename_i s' hrun
      cases hf
      obtain ⟨history, hrecorded, hreaches⟩ := Reaches.start.recorded hrun
      obtain ⟨bodies, hopened⟩ := opens_fileItems _ _ _ hrecorded
      refine ⟨bodies, history, s', hreaches, rfl, hopened, ?_⟩
      intro type htype hgeneric
      have htypes : s'.findings.types = (bodies.returns false).filterMap Return.type? :=
        hopened.adds.types_eq
      rw [htypes, List.mem_filterMap] at htype
      obtain ⟨r, hr, hsome⟩ := htype
      cases r with
      | reflected reflected =>
        cases hsome
        exact hopened.mem_outermost rfl hr hgeneric
      | dropped => cases hsome
    · cases hf

/-- An enumeration and a record in the body of a record with parameters, and a file with such a record. -/
theorem dependent_bodies_dropped_nested :
    let text := "\x7b enum B \x7b C \x7d; struct D \x7b int x; struct \x7b enum E \x7b F \x7d; \x7d; \x7d; \x7d"
    let ctx : BodyContext := ⟨"A", "A<K>", "class K", false⟩
    let type : RecordType := ⟨.structKey, "A<K>", "class K", [⟨"x", "K", "class K", .value⟩]⟩
    (∃ (opening closing : Token) (members : List Member) (s s' : ParserState text) (bodies : Bodies),
      (recordMembers ⟨opening, ctx, true⟩).run ParserState.machine s = .ok ((closing, members), s') ∧
      s'.findings.types = s.findings.types ∧ s'.findings.externs = s.findings.externs ∧
      s'.findings.declarations = s.findings.declarations ++ bodies.declarations ∧
      (s'.findings.dropped == ["B", "D::E", "D"]) = true) ∧
    ∃ f bodies, findingsOf .header "template<class K> struct A \x7b K x; enum B \x7b C \x7d; \x7d;" = .ok f ∧
      .record type ∈ f.types ∧ type ∈ Bodies.outermost bodies := by
  intro text ctx type
  constructor
  · obtain ⟨⟨⟨closing, members⟩, s'⟩, hrun, hdropped⟩ := exists_of_any_toOption
      (p := fun r : (Token × List Member) × ParserState text => r.2.findings.dropped == ["B", "D::E", "D"]) (show
      ((next >>= fun opening => recordMembers ⟨opening, ctx, true⟩).run ParserState.machine
        (.new .header text)).toOption.any _ = true by decide +kernel)
    obtain ⟨opening, s, -, hread⟩ := exists_of_run_bind hrun
    obtain ⟨bodies, -, -, -, -, -, htypes, hexterns, hdeclarations, -⟩ :=
      dependent_bodies_dropped.1 ⟨opening, ctx, true⟩ s s' closing members rfl hread
    exact ⟨opening, closing, members, s, s', bodies, hread, htypes, hexterns, hdeclarations, hdropped⟩
  · have hfound : findingsOf .header "template<class K> struct A \x7b K x; enum B \x7b C \x7d; \x7d;" =
        .ok ⟨[.record type], [⟨.record .structKey, "A<K>"⟩, ⟨.enumeration, "A<K>::B"⟩], [],
          [.notReflected "A<K>::B"]⟩ := by
      decide +kernel
    obtain ⟨bodies, -, -, -, -, -, houtermost⟩ := dependent_bodies_dropped.2 .header _ hfound
    exact ⟨_, bodies, hfound, List.mem_singleton.mpr rfl,
      houtermost type (List.mem_singleton.mpr rfl) (by decide)⟩

end ReflectionTables.Parsing
