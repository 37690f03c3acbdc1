import ReflectionTables.Proofs.BodyFindings
import ReflectionTables.Proofs.PlacedBodies
/-!
# What a header says about types is what its bodies say

Every name that is announced is the name of a body that was entered, every type that is reflected is that of a
body with the same name, and every body of which no type is reflected is known to be dropped or to have no
members.
-/

namespace ReflectionTables.Parsing

open Scanning Reflected Parsing.Parser Reading

variable {text : String} {α : Type}

def observer : Machine (RecordedState text × Reading text) := recorder.beside Reading.machine

instance : Machine.HasRole (observer : Machine (RecordedState text × Reading text)) :=
  inferInstanceAs (Machine.HasRole (recorder.beside Reading.machine))

/-- A run of a parser that keeps to its rules can be observed on readings. -/
theorem Parser.Obeys.exists_run_observer {allowed : Request → Reading text → Prop}
    {Q : α → Reading text → Prop} {p : Parser α} {c : Reading text} {s s' : RecordedState text} {a : α}
    (h : p.Obeys allowed Q c) (hs : c.Matches s.1) (hrun : p.run recorder s = .ok (a, s')) :
    ∃ c', p.run observer (s, c) = .ok (a, (s', c')) := by
  induction p generalizing c s with
  | done b =>
    cases hrun
    exact ⟨c, rfl⟩
  | ask request next ih =>
    rw [obeys_ask] at h
    rw [Parser.run] at hrun
    split at hrun
    · rename_i answer s₁ hanswer
      have hsame := hs.machine request
      rw [(recorder_ok hanswer).1] at hsame
      have h := h.2
      cases hreading : Reading.machine request c with
      | error failure =>
        rw [hreading] at h hsame
        rcases hsame with rfl | hreal
        · exact h.elim
        · cases hreal
      | ok result =>
        obtain ⟨answer', c₁⟩ := result
        rw [hreading] at h hsame
        obtain ⟨s₂, hreal, hmatches⟩ := hsame
        cases hreal
        obtain ⟨c', hrest⟩ := ih answer h hmatches hrun
        have hboth : observer request (s, c) = .ok (answer, (s₁, c₁)) :=
          Machine.beside_eq_ok.2 ⟨hanswer, hreading⟩
        refine ⟨c', ?_⟩
        rw [Parser.run, hboth]
        exact hrest
    · cases hrun

/-- The bodies of a header that are entered on the way through it. They stand in its text, one after the
other or one in another. Their names are announced in the order in which they are entered. In the order in
which they are left each of them leaves nothing, if it is a record without members, or else a type, or else a
remark, if it lies in a record with parameters. So types and dropped names are those of different bodies. -/
theorem lists_account_for_bodies {text : String} {f : Findings} (h : findingsOf .header text = .ok f) :
    ∃ (bodies : Bodies) (history : List Request) (s : ParserState text),
      fileItems.Reaches ParserState.machine (.new .header text) history (done ()) s ∧ s.findings = f ∧
      Opened recorder none (.new .header text, []) bodies (s, history) ∧
      bodies.StandIn text 0 text.utf8ByteSize ∧ bodies.OwnMembers ∧
      f.declarations = bodies.declarations ∧
      f.types = (bodies.returns false).filterMap Return.type? ∧
      f.dropped = ((bodies.returns false).filterMap Return.dropped?).map (·.name) ∧
      (f.types.map ReflectedType.declaration ++
        (bodies.returns false).filterMap Return.dropped?).Subperm f.declarations ∧
      ∀ type, .record type ∈ f.types →
        type.members ≠ [] ∧ ∀ m ∈ type.members, m.generic = type.generic := by
  rw [findingsOf] at h
  split at h
  · rename_i s hrun
    cases h
    obtain ⟨history, hrecorded, hreaches⟩ := Reaches.start.recorded hrun
    obtain ⟨c, hobserved⟩ := obeys_fileItems.exists_run_observer (matches_new .header text) hrecorded
    obtain ⟨bodies, hopened⟩ := opens_fileItems _ _ _ hobserved
    have hstream := hopened.of_follows (Machine.beside_follows_left recorder Reading.machine)
    have hreading := hopened.of_follows (Machine.beside_follows_right recorder Reading.machine)
    have hadds := hstream.adds
    have howns := hreading.ownMembers rfl
    have hdeclarations : s.findings.declarations = bodies.declarations := hadds.declarations_eq
    have htypes : s.findings.types = (bodies.returns false).filterMap Return.type? := hadds.types_eq
    refine ⟨bodies, history, s, hreaches, rfl, hstream, hreading.standIn (.inl rfl) fun _ h => h.le_size, howns,
      hdeclarations, htypes, hadds.dropped_eq, ?_, fun type htype => ?_⟩
    · rw [hdeclarations, htypes]
      exact (perm_returns _).subperm.trans (bodies.returns_subperm false)
    · rw [htypes, List.mem_filterMap] at htype
      obtain ⟨r, hr, hsome⟩ := htype
      cases r with
      | reflected reflected =>
        cases hsome
        exact howns.of_reflected hr
      | dropped => cases hsome
  · cases h

/-- An enumeration in a record with parameters is entered, announced and dropped. -/
theorem lists_account_for_bodies_dropped :
    let text := "template<class K> struct A \x7b K x; enum B \x7b C \x7d; \x7d;"
    ∃ (bodies : Bodies) (history : List Request) (s : ParserState text),
      Opened recorder none (.new .header text, []) bodies (s, history) ∧ bodies.StandIn text 0 50 ∧
      bodies.declarations = [⟨.record .structKey, "A<K>"⟩, ⟨.enumeration, "A<K>::B"⟩] ∧
      ((bodies.returns false).filterMap Return.dropped?).map (·.name) = ["A<K>::B"] := by
  intro text
  obtain ⟨bodies, history, s, -, -, hopened, hin, -, hdeclarations, -, hdropped, -⟩ :=
    @lists_account_for_bodies text
      ⟨[.record ⟨.structKey, "A<K>", "class K", [⟨"x", "K", "class K", .value⟩]⟩],
        [⟨.record .structKey, "A<K>"⟩, ⟨.enumeration, "A<K>::B"⟩], [], [.notReflected "A<K>::B"]⟩
      (by decide +kernel)
  exact ⟨bodies, history, s, hopened, hin, hdeclarations.symm, hdropped.symm⟩

end ReflectionTables.Parsing
