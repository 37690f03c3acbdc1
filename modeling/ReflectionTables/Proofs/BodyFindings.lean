import ReflectionTables.Proofs.OpenedBodies
import ReflectionTables.Proofs.OpenScopes
/-!
# What opened bodies add to what is known

A run with the requests that it has answered. The bodies that it opens are declared in the order in which they
are entered, and leave what they leave in the order in which they are left. In a body nothing else is learnt
of types, and nothing else enters a scope.
-/

namespace ReflectionTables.Reflected

open Scanning

def Bodies.openings : Bodies → List Token
  | .none => []
  | .enumeration _ opening _ rest => opening :: rest.openings
  | .record _ opening _ inner rest => opening :: (inner.openings ++ rest.openings)

end ReflectionTables.Reflected

namespace ReflectionTables.Parsing

open Scanning Reflected Parsing.Parser

variable {text : String} {α σ : Type}

def Machine.recording (m : Machine σ) : Machine (σ × List Request) := fun request s =>
  match m request s.1 with
  | .ok (answer, s') => .ok (answer, (s', request :: s.2))
  | .error failure => .error failure

/-- A state of a parser with the requests that were answered before. -/
abbrev RecordedState (text : String) := ParserState text × List Request

/-- The machine of a parser, with what it has answered. -/
def recorder : Machine (RecordedState text) := Machine.recording ParserState.machine

theorem recorder_ok {request : Request} {s s' : RecordedState text} {answer : request.Answer}
    (h : recorder request s = .ok (answer, s')) :
    ParserState.machine request s.1 = .ok (answer, s'.1) ∧ s'.2 = request :: s.2 := by
  rw [recorder, Machine.recording] at h
  split at h
  · rename_i hanswer
    cases h
    exact ⟨hanswer, rfl⟩
  · cases h

instance : Machine.HasRole (recorder : Machine (RecordedState text)) where
  roleOf s := s.1.role
  fits h := ParserState.fits_machine (recorder_ok h).1

theorem Parser.Reaches.recorded {p p' : Parser α} {s s' s'' : ParserState text}
    {history : List Request} {a : α} (h : p.Reaches ParserState.machine s history p' s')
    (hrun : p'.run ParserState.machine s' = .ok (a, s'')) :
    ∃ history', p'.run recorder (s', history) = .ok (a, (s'', history')) ∧
      p.Reaches ParserState.machine s history' (done a) s'' := by
  induction p' generalizing s' history with
  | done b =>
    cases hrun
    exact ⟨history, rfl, h⟩
  | ask request next ih =>
    rw [Parser.run] at hrun
    split at hrun
    · rename_i answer s₁ hanswer
      obtain ⟨history', hrecorded, hreaches⟩ := ih answer (h.step hanswer) hrun
      refine ⟨history', ?_, hreaches⟩
      rw [Parser.run, recorder, Machine.recording]
      simp only [hanswer]
      exact hrecorded
    · cases hrun

/-- What happens on the way from one state to another: the declarations in order, what bodies leave, and
the braces at which scopes are entered. In a body nothing is announced, and a body or a namespace is all
that enters a scope. -/
structure Adds (around : Option BodyContext) (declarations : List Declaration) (returns : List Return)
    (openings : List Token) (s s' : RecordedState text) : Prop where
  declarations_eq : s'.1.findings.declarations = s.1.findings.declarations ++ declarations
  types_eq : s'.1.findings.types = s.1.findings.types ++ returns.filterMap Return.type?
  dropped_eq : s'.1.findings.dropped =
    s.1.findings.dropped ++ (returns.filterMap Return.dropped?).map (·.name)
  externs_eq : around ≠ none → s'.1.findings.externs = s.1.findings.externs
  openings_eq : around ≠ none →
    (entriesOf s'.2).map Entry.opening = openings.reverse ++ (entriesOf s.2).map Entry.opening

namespace Adds

variable {around : Option BodyContext} {declarations declarations' : List Declaration}
  {returns returns' : List Return} {openings openings' : List Token} {s s₁ s' : RecordedState text}

theorem refl (around : Option BodyContext) (s : RecordedState text) : Adds around [] [] [] s s :=
  ⟨by simp, by simp, by simp, fun _ => rfl, fun _ => by simp⟩

theorem trans (h : Adds around declarations returns openings s s₁)
    (h' : Adds around declarations' returns' openings' s₁ s') :
    Adds around (declarations ++ declarations') (returns ++ returns') (openings ++ openings') s s' where
  declarations_eq := by simp [h.declarations_eq, h'.declarations_eq]
  types_eq := by simp [h.types_eq, h'.types_eq]
  dropped_eq := by simp [h.dropped_eq, h'.dropped_eq]
  externs_eq hin := (h'.externs_eq hin).trans (h.externs_eq hin)
  openings_eq hin := by simp [h.openings_eq hin, h'.openings_eq hin]

/-- Where the same is known of types, and in a body nothing was announced or entered, nothing is added. -/
theorem of_eq (hdeclarations : s'.1.findings.declarations = s.1.findings.declarations)
    (htypes : s'.1.findings.types = s.1.findings.types)
    (hdropped : s'.1.findings.dropped = s.1.findings.dropped)
    (hexterns : around ≠ none → s'.1.findings.externs = s.1.findings.externs)
    (hopenings : around ≠ none → entriesOf s'.2 = entriesOf s.2) : Adds around [] [] [] s s' where
  declarations_eq := by simp [hdeclarations]
  types_eq := by simp [htypes]
  dropped_eq := by simp [hdropped]
  externs_eq := hexterns
  openings_eq hin := by simp [hopenings hin]

theorem of_plain {request : Request} {answer : request.Answer} (hplain : request.Plain around)
    (h : recorder request s = .ok (answer, s')) : Adds around [] [] [] s s' := by
  obtain ⟨hanswer, hpast⟩ := recorder_ok h
  have hopenings : entriesOf s'.2 = entriesOf s.2 := by
    rw [hpast]
    cases request with
    | enter => exact hplain.elim
    | _ => rfl
  by_cases hnote : ∃ finding, request = .note finding
  · obtain ⟨finding, rfl⟩ := hnote
    have hfindings := ParserState.findings_note hanswer
    cases finding with
    | type => exact hplain.elim
    | declaration => exact hplain.elim
    | announced declaration =>
      apply of_eq _ _ _ (fun hin => absurd hplain hin) fun _ => hopenings
      all_goals rw [hfindings]; rfl
    | remark r =>
      cases r with
      | notReflected => exact hplain.elim
      | unparsed shown =>
        apply of_eq _ _ _ (fun _ => by rw [hfindings]; rfl) fun _ => hopenings
        · rw [hfindings]
          rfl
        · rw [hfindings]
          rfl
        · simp [hfindings, Findings.dropped, Findings.add, Remark.dropped?]
  · have hsame := ParserState.findings_machine hanswer fun finding heq => hnote ⟨finding, heq⟩
    apply of_eq _ _ _ (fun _ => by rw [hsame]) fun _ => hopenings
    all_goals rw [hsame]

theorem of_always {p : Parser α} {Q : α → Prop} {a : α}
    (h : p.Always s.1.role (Request.Plain around) Q) (hrun : p.run recorder s = .ok (a, s')) :
    Adds around [] [] [] s s' := by
  apply Always.run_induction _ _ h hrun
  · exact fun s => .refl around s
  · exact fun request s answer s₁ s' hplain hanswer rest => (of_plain hplain hanswer).trans rest

/-- What holds in a body holds outside. -/
theorem outward {ctx : BodyContext} (h : Adds (some ctx) declarations returns openings s s') :
    Adds around declarations returns openings s s' :=
  ⟨h.declarations_eq, h.types_eq, h.dropped_eq, fun _ => h.externs_eq (by simp),
    fun _ => h.openings_eq (by simp)⟩

theorem openScope {tag : TypeTag} {segment name : String} {opening : Token}
    (hrun : (openScope tag segment opening).run recorder s = .ok (name, s')) :
    Adds around [⟨tag, name⟩] [] [opening] s s' := by
  cases hrun
  exact ⟨rfl, by simp [Findings.add], by simp [Findings.add, Findings.dropped], fun _ => rfl, fun _ => rfl⟩

/-- What bodies leave is noted in order. -/
theorem noteReturns {returns : List Return} (hrun : (noteReturns returns).run recorder s = .ok ((), s')) :
    Adds around [] returns [] s s' := by
  induction returns generalizing s with
  | nil =>
    cases hrun
    exact .refl around _
  | cons r returns ih =>
    obtain ⟨u, s₁, hfirst, hrest⟩ := exists_of_run_bind hrun
    have hnoted : Adds around [] [r] [] s s₁ := by
      cases hfirst
      cases r with
      | reflected type =>
        exact ⟨by simp [Findings.add, Return.finding], by simp [Findings.add, Return.finding, Return.type?],
          by simp [Findings.add, Findings.dropped, Return.finding, Return.dropped?], fun _ => rfl, fun _ => rfl⟩
      | dropped declaration =>
        exact ⟨by simp [Findings.add, Return.finding], by simp [Findings.add, Return.finding, Return.type?],
          by simp [Findings.add, Findings.dropped, Return.finding, Return.dropped?, Remark.dropped?],
          fun _ => rfl, fun _ => rfl⟩
    exact hnoted.trans (ih hrest)

end Adds

/-- Opened bodies are declared where they are entered, and leave what they leave. -/
theorem Opened.adds {around : Option BodyContext} {s s' : RecordedState text} {bodies : Bodies}
    (h : Opened recorder around s bodies s') :
    Adds around bodies.declarations (bodies.returns (dependsIn around)) bodies.openings s s' := by
  induction h with
  | refl => exact .refl _ _
  | step plain answered rest ih => exact (Adds.of_plain plain answered).trans ih
  | namespaceBody entered rest ih =>
    cases entered
    exact ⟨ih.declarations_eq, ih.types_eq, ih.dropped_eq, fun hin => absurd rfl hin, fun hin => absurd rfl hin⟩
  | enumeration opened read closed left followed further ih =>
    apply (Adds.openScope opened).trans
    apply (Adds.of_always always_enumeratorNames read).trans
    apply (Adds.noteReturns left).trans
    exact (Adds.of_always always_next followed).trans ih
  | record opened read closed inside inherited left followed further ihinside ih =>
    apply (Adds.openScope opened).trans
    apply ihinside.outward.trans
    apply (Adds.noteReturns left).trans
    exact (Adds.of_always always_next followed).trans ih

end ReflectionTables.Parsing
