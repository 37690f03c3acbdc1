import ReflectionTables.Proofs.JoinedScans
import ReflectionTables.Proofs.PairedFiles
import ReflectionTables.Proofs.StreamReadings
/-!
# What two joined files say

A file that ends in a semicolon says the same in front of another one, and takes nothing from it:
what two joined files say is what the first one says and then what the second one says. Where the
second one cannot be read, neither can the joined file, for the same reason.
-/

namespace ReflectionTables.Parsing

open Text Scanning Reflected Reading

variable {a b : String} {text : String}

/-- Behind a whole file no brace is open, no scope is left and nothing was looked at. -/
theorem Reading.Finished.closed {c : Reading text} (h : c.Finished) :
    c.pending = [] ∧ c.ahead = 0 ∧ c.scopes = [] ∧ depthBehind 0 (tokensOf text).1 = 0 := by
  obtain ⟨hpending, -, hdepth⟩ := h
  refine ⟨hpending, ?_, ?_, ?_⟩
  · have := c.ahead_le
    rw [hpending] at this
    exact Nat.le_zero.1 this
  · refine List.eq_nil_iff_forall_not_mem.2 fun s hs => ?_
    have := c.scopes_lt s hs
    omega
  · rw [← c.delivered_pending, hpending, List.append_nil]
    exact hdepth

/-- The first file alone and in front of the second one. -/
def firstPairing (b : String) (hend : EndsInSemicolon a)
    (hoperator : ∀ t ∈ (tokensOf a).1, t.isWord "operator" = false) : Pairing a (a ++ b) where
  toLikeness := .atTop True 0
  earlier := []
  later := (tokensOf b).1.map (·.behind a)
  found := {}
  whole := False
  depth_earlier := Pairing.depthBehind_nothing
  around_lt := fun _ => nofun
  cut_eq := by
    intro _ start stop piece hpiece
    change slice? (a ++ b) start stop = some piece
    rw [slice?_append_left (slice?_eq_some_iff.1 hpiece).2.2.1.le_size]
    exact hpiece
  ends_of_whole := False.elim
  ends_of_part := by
    intro _
    obtain ⟨t, hlast, hkind, -⟩ := hend.getLast?
    refine ⟨⟨t, hlast, hkind⟩, fun _ u hu hreserved => ?_⟩
    have hword : u.isWord "operator" = true := Token.isWord_of_reserved? hreserved (by decide)
    rw [hoperator u hu] at hword
    cases hword

def behindLikeness (before : String) : Likeness := .atTop True before.utf8ByteSize

theorem cut_behind (a : String) {start stop : Nat} {piece : String}
    (h : slice? b start stop = some piece) :
    slice? (a ++ b) (start + a.utf8ByteSize) (stop + a.utf8ByteSize) = some piece := by
  rw [Nat.add_comm start, Nat.add_comm stop, slice?_append_right, h]

theorem endings_behind (htokens : (tokensOf (a ++ b)).2 =
      ((tokensOf b).2.map (·.behind a)).mapError (·.behind a)) :
    (behindLikeness a).Endings b (a ++ b) (tokensOf b).2 (tokensOf (a ++ b)).2 := by
  rw [htokens]
  cases hb : (tokensOf b).2 with
  | ok t => exact ⟨rfl, rfl, rfl, fun _ => rfl⟩
  | error e =>
    obtain ⟨offset, hlocation⟩ := (Scanner.new b).exists_offset_of_error hb
    refine Likeness.failures_ofScan rfl ⟨offset, hlocation, ?_⟩
    change _ = Location.ofOffset (a ++ b) (offset + a.utf8ByteSize)
    rw [Location.ofOffset_append, ← hlocation]
    rfl

def secondPairing (earlier : List Token) (found : Findings)
    (hdepth : depthBehind 0 earlier.reverse = 0)
    (htokens : (tokensOf (a ++ b)).2 =
      ((tokensOf b).2.map (·.behind a)).mapError (·.behind a)) : Pairing b (a ++ b) :=
  .ofWhole (behindLikeness a) earlier found hdepth (fun _ => nofun) (fun _ _ _ _ => cut_behind a)
    (endings_behind htokens)

/-- Behind the tokens of the first file, the second one begins alike alone and in the joined file. -/
theorem together_second {role : FileRole} {d : Reading (a ++ b)} (hrole : d.role = role)
    (hpending : d.pending = (tokensOf b).1.map (·.behind a)) (hahead : d.ahead = 0)
    (hscopes : d.scopes = []) (hdepth : d.depth = 0)
    (htokens : (tokensOf (a ++ b)).2 = ((tokensOf b).2.map (·.behind a)).mapError (·.behind a)) :
    (secondPairing d.delivered d.findings hdepth htokens).Together (.new role b) d := by
  have hfindings : d.findings = d.findings.append {} := by simp [Findings.append]
  refine ⟨hrole, ⟨[], rfl, .nil⟩, ⟨_, hpending.trans (List.append_nil _).symm, ?_⟩, hahead,
    ⟨[], hscopes, .nil⟩, congrArg Findings.shape hfindings, fun _ => hfindings⟩
  rw [List.forall₂_map_right_iff]
  exact List.forall₂_same.2 fun t _ => ⟨rfl, rfl, rfl, fun _ => rfl⟩

/-- The failure of a file behind another one: the reason is the same, the place lies further on. -/
def Failure.RepeatedBehind (before : String) : Failure → Failure → Prop
  | .rejected e, .rejected e' =>
    e'.fault.message = e.fault.message ∧ e'.location = e.location.behind before
  | .aborted what, .aborted what' => what' = what
  | _, _ => False

theorem repeatedBehind_of_failures {L : Likeness} [Fact L.top] (hexact : L.exact)
    (hshift : L.shift = a.utf8ByteSize) {failure failure' : Failure}
    (h : L.Failures b (a ++ b) failure failure') : failure.RepeatedBehind a failure' := by
  cases failure <;> cases failure' <;> try exact h
  obtain ⟨hmessage, offset, hlocation, hlocation'⟩ := h hexact Fact.out
  exact ⟨hmessage, by rw [hlocation', hlocation, hshift, Location.ofOffset_append]⟩

/-- If a joined file is read to a place behind the first one, it says what was found there and then
what the second one says. -/
theorem findings_of_second (role : FileRole) {d : Reading (a ++ b)}
    (hrun : fileItems.run Reading.machine (.new role (a ++ b)) = fileItems.run Reading.machine d)
    (hrole : d.role = role) (hpending : d.pending = (tokensOf b).1.map (·.behind a))
    (hahead : d.ahead = 0) (hscopes : d.scopes = []) (hdepth : d.depth = 0)
    (htokens : (tokensOf (a ++ b)).2 = ((tokensOf b).2.map (·.behind a)).mapError (·.behind a)) :
    match findingsOf role b, findingsOf role (a ++ b) with
    | .ok g, .ok joined => joined = d.findings.append g
    | .error failure, .error failure' => failure.RepeatedBehind a failure'
    | _, _ => False := by
  have hsecond := together_second hrole hpending hahead hscopes hdepth htokens
  have : Fact (secondPairing d.delivered d.findings hdepth htokens).top := ⟨trivial⟩
  have houtcomes := Pairing.outcomes_fileItems trivial (.inl trivial) hsecond
  rw [findingsOf_eq, findingsOf_eq, hrun]
  cases hb : fileItems.run Reading.machine (.new role b) <;>
    cases hab : fileItems.run Reading.machine d <;> rw [hb, hab] at houtcomes
  · exact repeatedBehind_of_failures trivial rfl (houtcomes trivial)
  · exact absurd trivial houtcomes
  · exact houtcomes.elim
  · exact houtcomes.2.findings_eq_of_top trivial

/-- Joined files say what their parts say, one after the other. -/
theorem findings_of_joined (role : FileRole) (b : String) (hend : EndsInSemicolon a)
    (hoperator : ∀ t ∈ (tokensOf a).1, t.isWord "operator" = false) {f : Findings}
    (ha : findingsOf role a = .ok f) :
    match findingsOf role b, findingsOf role (a ++ b) with
    | .ok g, .ok joined => joined = f.append g
    | .error failure, .error failure' => failure.RepeatedBehind a failure'
    | _, _ => False := by
  rw [findingsOf_eq] at ha
  rcases hrun : fileItems.run Reading.machine (.new role a) with _ | ⟨⟨⟩, d⟩ <;> rw [hrun] at ha
  · cases ha
  cases ha
  have hfinished : d.Finished := by
    have h := (obeys_fileItems (c := Reading.new role a)).run
    rw [hrun] at h
    exact h
  have htokens := tokensOf_append b hend.endsInToken hfinished.closed.2.2.2
  have hfirst : (firstPairing b hend hoperator).Together (.new role a) (.new role (a ++ b)) := by
    refine ⟨rfl, ⟨[], rfl, .nil⟩, ⟨_, congrArg Prod.fst htokens, ?_⟩, rfl, ⟨[], rfl, .nil⟩, rfl,
      fun _ => rfl⟩
    exact List.forall₂_same.2 fun t _ => ⟨rfl, rfl, rfl, fun _ => rfl⟩
  have : Fact (firstPairing b hend hoperator).top := ⟨trivial⟩
  obtain ⟨d', htogether, hrun'⟩ := Pairing.run_fileItems_of_ok (.inl trivial) hfirst hrun
  have hfindings : d'.findings = d.findings := htogether.findings_eq_of_top trivial
  have hrole : d'.role = role := htogether.role_eq.trans (role_run hrun)
  obtain ⟨hpending, hahead, hscopes, -⟩ := hfinished.closed
  have hpending' : d'.pending = (tokensOf b).1.map (·.behind a) := by
    obtain ⟨ts, hts, hall⟩ := htogether.pending
    rw [hpending, List.forall₂_nil_left_iff] at hall
    rw [hts, hall]
    rfl
  have hscopes' : d'.scopes = [] := by
    have hall := htogether.scopes_of_top
    rwa [hscopes, List.forall₂_nil_left_iff] at hall
  rw [← hfindings]
  exact findings_of_second role hrun' hrole hpending' (htogether.ahead_eq.trans hahead) hscopes'
    (htogether.depth_eq_of_top.trans hfinished.2.2) (congrArg Prod.snd htokens)

/-- A type in front of another one that cannot be read. -/
theorem findings_of_joined_structs :
    match findingsOf .header "struct B \x7b int;",
      findingsOf .header ("struct A \x7b int n; \x7d;" ++ "struct B \x7b int;") with
    | .ok g, .ok joined => joined = Findings.append
        { types := [.record ⟨.structKey, "A", "", [⟨"n", "int", "", .value⟩]⟩]
          declarations := [⟨.record .structKey, "A"⟩] } g
    | .error failure, .error failure' =>
      failure.RepeatedBehind "struct A \x7b int n; \x7d;" failure'
    | _, _ => False :=
  findings_of_joined .header _ ⟨⟨.semicolon, ";", 19, 0⟩, by decide +kernel⟩ (by decide +kernel)
    (by decide +kernel)

end ReflectionTables.Parsing
