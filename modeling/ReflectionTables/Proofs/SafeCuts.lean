import ReflectionTables.Proofs.GuardedParsers
import ReflectionTables.Proofs.LayoutIndependence
import ReflectionTables.Proofs.SparingParsers
import ReflectionTables.Proofs.WholeCharacters
/-!
# Nothing is cut through a character

Tokens are cut where the scanner stands, and the parser cuts between offsets of tokens in their
order. What is left is one place where a header can abort: the arguments of a record are made from
the list of its template, whose names may not be cut off. With an assumption on those lists a parser
is shown to abort nowhere, as long as the assumption holds of every request before.
-/

namespace ReflectionTables.Scanning

open Text

variable {text : String}

/-- The tokens from a scanner between characters on end without a split character. -/
theorem Scanner.AtBoundary.ne_splitCharacter {s : Scanner text} (h : s.AtBoundary) {e : ScanError}
    (he : s.tokens.2 = .error e) : e.fault ≠ .splitCharacter := by
  induction s using Scanner.tokens_induction with
  | stop s ending htokens =>
    rw [htokens] at he
    exact h.read.2 e ((Scanner.read_of_tokens_nil htokens).1.trans he)
  | step s t s' hread hend htokens ih =>
    rw [htokens] at he
    have hnext := h.read.1
    rw [hread] at hnext
    exact ih hnext he

theorem ne_splitCharacter_of_tokensOf {e : ScanError} (h : (tokensOf text).2 = .error e) :
    e.fault ≠ .splitCharacter :=
  (Scanner.atBoundary_new text).ne_splitCharacter h

end ReflectionTables.Scanning

namespace ReflectionTables.Parsing

open Text Scanning Reflected Parsing.Parser Reading

variable {text : String} {α β : Type}

/-- Whether the list of a template begins at an offset: behind a `<` that comes directly after the
word `template`. -/
def BeginsTemplateList (text : String) (offset : Nat) : Prop :=
  ∃ before word opening after, (tokensOf text).1 = before ++ word :: opening :: after ∧
    word.reserved? = some .templateWord ∧ opening.kind = .lt ∧ opening.stop = offset

/-- Whether a list of a template is cut out when a file is read. -/
def CapturesTemplateList (role : FileRole) (text list : String) : Prop :=
  ∃ history start stop next s, fileItems.Reaches ParserState.machine (.new role text) history
      (ask (.cut .list start stop) next) s ∧
    BeginsTemplateList text start ∧ slice? text start stop = some list

def Request.NamesCut (text : String) : Request → Prop
  | .cut .list start stop => BeginsTemplateList text start →
      ∀ list, slice? text start stop = some list → (arguments? list).isSome
  | _ => True

/-- Nothing is aborted, as long as the parameters of a template can be made into arguments. -/
def abortsNowhere (text : String) : Rule where
  Assumes
    | done _ => True
    | ask request _ => request.NamesCut text
  Allows request := ∀ what, request ≠ .abort what
  of_bind {_ _ p _} hassumes := by
    cases p with
    | done => trivial
    | ask => exact hassumes
  of_readsOn hreads := by
    rintro what rfl
    exact hreads

instance (role : FileRole) (text : String) : Request.Admits role (abortsNowhere text).Allows where
  of_quiet request hquiet := by
    rintro what rfl
    exact hquiet

theorem Request.Sparing.allows {role : FileRole} {request : Request} (h : request.Sparing role False) :
    (abortsNowhere text).Allows request := by
  rintro what rfl
  exact h.1

section Templates

variable {c : Reading text} {opening word token : Token}

theorem abortsNowhere_throughAngles (h : BeginsTemplateList text opening.stop) :
    (throughAngles opening).KeepsTo (abortsNowhere text)
      (fun list c' => (arguments? list.text).isSome ∧ c'.role = c.role) c := by
  rw [throughAngles, anglesEnd, recur]
  refine keepsTo_recurBy (fun _ c' => c'.role = c.role) (fun again depth c' hrole ih => ?_) rfl
  refine (meets_next.keepsTo always_next).bind fun t c₁ h₁ => ?_
  have hrole₁ := h₁.2.trans hrole
  have hclose : ∀ (depth : Int) (offset : Nat), (if depth < 0 then fail t .overclosedList
      else if depth = 0 then do return ⟨← cut .list opening.stop offset, offset + 1⟩
      else again depth : Parser AngleList).KeepsTo (abortsNowhere text)
        (fun list c' => (arguments? list.text).isSome ∧ c'.role = c.role) c₁ := by
    intro depth offset
    split
    · exact keepsTo_fail
    split
    · refine fun hassumed => ⟨by rintro what ⟨⟩, fun list c₂ hlist => ?_⟩
      simp only [Reading.machine] at hlist
      split at hlist
      · rename_i hpiece
        cases hlist
        exact ⟨hassumed h _ hpiece, hrole₁⟩
      · cases hlist
    · exact ih _ c₁ hrole₁
  split
  · exact ih _ c₁ hrole₁
  · exact hclose _ _
  · exact hclose _ _
  · exact keepsTo_fail
  · exact keepsTo_fail
  · refine (((meets_throughParens h₁.1.holds).discard (S := fun _ _ => True)
      fun _ _ _ => trivial).keepsTo always_throughParens.discard).bind fun _ c₂ h₂ => ?_
    exact ih _ c₂ (h₂.2.trans hrole₁)
  · exact ih _ c₁ hrole₁

theorem abortsNowhere_writtenList? (hword : c.delivered.head? = some word)
    (htemplate : word.reserved? = some .templateWord) (hitem : c.InItem) :
    writtenList?.KeepsTo (abortsNowhere text)
      (fun list? c' => (∀ list, list? = some list → (arguments? list).isSome) ∧ c'.role = c.role)
      c := by
  rw [writtenList?]
  refine ((meets_lookAt_zero hitem).keepsTo always_lookAt).bind fun t c₁ h₁ => ?_
  split
  · rename_i hkind
    refine (meets_next.keepsTo always_next).bind fun opening c₂ h₂ => ?_
    have hopening : opening = t := h₁.1.delivers (by simp [hkind]) h₁.1.delivered_eq h₂.1
    have hbegins : BeginsTemplateList text opening.stop := by
      obtain ⟨tail, htail⟩ := List.head?_eq_some_iff.1 hword
      refine ⟨tail.reverse, word, opening, c₂.pending, ?_, htemplate, by rw [hopening, hkind], rfl⟩
      rw [← c₂.delivered_pending, h₂.1.delivered_eq, h₁.1.delivered_eq, htail]
      simp
    refine (abortsNowhere_throughAngles hbegins).bind fun list c₃ h₃ => ?_
    refine ⟨?_, h₃.2.trans (h₂.2.trans h₁.2)⟩
    rintro _ ⟨⟩
    exact h₃.1
  · exact ⟨by rintro _ ⟨⟩, h₁.2⟩

theorem abortsNowhere_templateItem (hword : c.delivered.head? = some word)
    (htemplate : word.reserved? = some .templateWord) (hitem : c.InItem) :
    templateItem.KeepsTo (abortsNowhere text) (fun _ c' => c'.role = c.role) c := by
  rw [templateItem]
  refine (abortsNowhere_writtenList? hword htemplate hitem).bind fun list? c₁ h₁ => ?_
  have hdeclaration : ∀ c' : Reading text, c'.role = c.role →
      (discard throughDeclaration).KeepsTo (abortsNowhere text) (fun _ c' => c'.role = c.role) c' := by
    intro c' hrole
    refine ((meets_throughDeclaration.discard (S := fun _ _ => True)
      fun _ _ _ => trivial).keepsTo always_throughDeclaration.discard).mono fun _ c'' h => ?_
    exact h.2.trans hrole
  split
  · exact hdeclaration c₁ h₁.2
  rename_i parameters
  refine (meets_next.keepsTo always_next).bind fun word c₂ h₂ => ?_
  have hrole₂ := h₂.2.trans h₁.2
  split
  · rename_i key hkey
    obtain ⟨w, hw, -⟩ := Option.bind_eq_some_iff.1 hkey
    have hok : c₂.role = .header → ¬False → parameters ≠ "" → (arguments? parameters).isSome :=
      fun _ _ _ => h₁.1 parameters rfl
    refine ((meets_recordItem h₂.1.holds (Token.kind_of_reserved? hw)).keepsTo
      ((always_recordItem hok).weaken fun _ h => h.allows)).mono fun _ c₃ h₃ => ?_
    exact h₃.2.trans hrole₂
  · refine ((meets_putBack h₂.1.holds).keepsTo always_putBack).bind fun _ c₃ h₃ => ?_
    exact hdeclaration c₃ (h₃.2.trans hrole₂)

theorem abortsNowhere_fileItem (h : c.Holds token) :
    (fileItem token).KeepsTo (abortsNowhere text) (fun _ c' => c'.role = c.role) c := by
  by_cases htemplate : token.reserved? = some .templateWord
  · have hkind := Token.kind_of_reserved? htemplate
    have hitem : fileItem token = templateItem := by
      simp only [fileItem, hkind, namedItem, htemplate]
    rw [hitem]
    exact abortsNowhere_templateItem h.1 htemplate (h.inItem (by simp [hkind]))
  · exact ((meets_fileItem h).keepsTo ((always_fileItem_sparing fun h => absurd h htemplate).weaken
      fun _ h => h.allows)).mono fun _ _ h => h.2

end Templates

theorem abortsNowhere_fileItems {c : Reading text} :
    fileItems.KeepsTo (abortsNowhere text) (fun _ _ => True) c := by
  rw [fileItems, loop, recur]
  refine keepsTo_recurBy (fun _ _ => True) (fun again _ c _ ih => ?_) trivial
  have hnext : nextOrEnd.Obeys Request.Legal (fun t c' => c.Delivers t c' ∨ c' = c ∧ c.Ended t) c :=
    obeys_nextOrEnd trivial
  refine (hnext.keepsTo always_nextOrEnd).bind fun t c₁ h₁ => ?_
  split
  · rename_i hkind
    rcases h₁.1 with h₁ | ⟨rfl, hend⟩
    · exact absurd hkind h₁.holds.kind_ne
    refine ((obeys_openBraces hend.ahead_eq).keepsTo always_openBraces).bind fun depth c₂ h₂ => ?_
    split
    · exact keepsTo_fail
    · trivial
  · rename_i hend
    exact (abortsNowhere_fileItem (Comes.delivers h₁.1 hend).holds).bind fun _ c₂ _ => ih () c₂ trivial

/-- A run that fails has come to the request that was answered by the failure. -/
theorem Parser.exists_of_run_error {σ : Type} {m : Machine σ} {p p' : Parser α} {s s' : σ}
    {history : List Request} {failure : Failure} (h : Reaches m p s history p' s')
    (hrun : p'.run m s' = .error failure) :
    ∃ history request next s'', Reaches m p s history (ask request next) s'' ∧
      m request s'' = .error failure := by
  induction p' generalizing history s' with
  | done => cases hrun
  | ask request next ih =>
    rw [Parser.run] at hrun
    split at hrun
    · rename_i answer s₁ hanswer
      exact ih answer (h.step hanswer) hrun
    · rename_i hfailure
      cases hrun
      exact ⟨history, request, next, s', h, hfailure⟩

/-- What a file is asked for is what can be asked for whatever is answered. -/
theorem sparing_of_reaches {role : FileRole} (mayAbort : Prop) (hok : role = .header → mayAbort)
    {history : List Request} {request : Request} {next : request.Answer → Parser Unit}
    {s : ParserState text}
    (h : fileItems.Reaches ParserState.machine (.new role text) history (ask request next) s) :
    request.Sparing role mayAbort := by
  obtain ⟨c, -, -, -, halways⟩ := exists_reading_with
    (fun _ p c => c.role = role ∧ p.Always role (Request.Sparing role mayAbort) fun _ => True)
    ⟨rfl, always_fileItems hok⟩ (fun _ _ hinv hanswer =>
      ⟨(role_machine hanswer).trans hinv.1, hinv.2.2 _ (hinv.1 ▸ fits_machine hanswer)⟩) h
  exact halways.1

theorem slice?_ne_none_of_reaches {role : FileRole} {history : List Request} {what : Cut}
    {start stop : Nat} {next : String → Parser Unit} {s : ParserState text}
    (h : fileItems.Reaches ParserState.machine (.new role text) history
      (ask (.cut what start stop) next) s) : slice? text start stop ≠ none := by
  intro hnone
  have hkind := sparing_of_reaches True (fun _ => trivial) h
  obtain ⟨c, -, hobeys, -⟩ := exists_reading h
  have hexpected := (obeys_ask.1 hobeys).2
  simp only [Reading.machine, hnone, Failure.Expected] at hexpected
  rcases hkind with rfl | rfl | rfl <;> simp at hexpected

theorem ofScan_ne_aborted {e : ScanError} {what : Cut} (h : (tokensOf text).2 = .error e) :
    Failure.ofScan e ≠ .aborted what := by
  rw [Failure.ofScan, if_neg (ne_splitCharacter_of_tokensOf h)]
  simp

/-- What is answered by aborting is a request to abort, or for a cut that does not exist. -/
theorem Reading.request_of_aborted {c : Reading text} {request : Request} {what : Cut}
    (h : Reading.machine request c = .error (.aborted what)) :
    request = .abort what ∨ ∃ start stop, request = .cut what start stop ∧
      slice? text start stop = none := by
  have hread : c.read ≠ .error (.aborted what) := by
    intro hread
    cases hpending : c.pending with
    | cons t ts =>
      rw [read_of_pending hpending] at hread
      cases hread
    | nil =>
      rw [read_of_pending_nil hpending] at hread
      split at hread
      · cases hread
      · rename_i e he
        exact ofScan_ne_aborted he (Except.error.inj hread)
  cases request with
  | next =>
    simp only [Reading.machine] at h
    split at h
    · split at h <;> cases h
    · rename_i failure hfailure
      cases h
      exact absurd hfailure hread
  | nextOrEnd => exact absurd h hread
  | lookAt n =>
    simp only [Reading.machine] at h
    split at h
    · split at h
      · cases h
      · cases h
      · rename_i he
        exact absurd (Except.error.inj h) (ofScan_ne_aborted he)
    · cases h
  | cut what' start stop =>
    simp only [Reading.machine] at h
    split at h
    · cases h
    · rename_i hslice
      cases h
      exact .inr ⟨start, stop, rfl, hslice⟩
  | abort what' =>
    cases h
    exact .inl rfl
  | putBack | enter | enclosingName | depth =>
    simp only [Reading.machine] at h
    repeat' split at h
    all_goals cases h
  | role | tokensLeft | note | reject | stall => cases h

theorem eq_abort_of_aborted {role : FileRole} {history : List Request} {request : Request}
    {next : request.Answer → Parser Unit} {s : ParserState text} {what : Cut}
    (h : fileItems.Reaches ParserState.machine (.new role text) history (ask request next) s)
    (hfailure : ParserState.machine request s = .error (.aborted what)) :
    request = .abort what := by
  obtain ⟨c, hmatches, hobeys, -⟩ := exists_reading h
  have hexpected := (obeys_ask.1 hobeys).2
  have hsame := hmatches.machine request
  cases hideal : Reading.machine request c with
  | ok result =>
    rw [hideal] at hsame
    obtain ⟨s', hreal, -⟩ := hsame
    rw [hfailure] at hreal
    cases hreal
  | error failure =>
    rw [hideal] at hexpected hsame
    rcases hsame with rfl | hreal
    · exact hexpected.elim
    · rw [hfailure] at hreal
      cases hreal
      rcases request_of_aborted hideal with habort | ⟨start, stop, rfl, hnone⟩
      · exact habort
      · exact absurd hnone (slice?_ne_none_of_reaches h)

/-- A file whose reading aborts has come to a request to abort. -/
theorem exists_abort_of_aborted {role : FileRole} {what : Cut}
    (h : findingsOf role text = .error (.aborted what)) :
    ∃ history next s, fileItems.Reaches ParserState.machine (.new role text) history
      (ask (.abort what) next) s := by
  rw [findingsOf] at h
  split at h
  · cases h
  · rename_i failure hrun
    cases h
    obtain ⟨history, request, next, s, hreaches, hfailure⟩ := exists_of_run_error Reaches.start hrun
    obtain rfl := eq_abort_of_aborted hreaches hfailure
    exact ⟨history, next, s, hreaches⟩

/-- A header aborts only where a list that it has captured for a template cannot be made into
arguments. -/
theorem exists_list_of_aborted {role : FileRole} {what : Cut}
    (h : findingsOf role text = .error (.aborted what)) :
    ∃ list, CapturesTemplateList role text list ∧ arguments? list = none := by
  refine Classical.byContradiction fun hnone => ?_
  obtain ⟨history, next, s, hreaches⟩ := exists_abort_of_aborted h
  have hassumes : ∀ {history p s}, fileItems.Reaches ParserState.machine (.new role text) history p s →
      (abortsNowhere text).Assumes p := by
    intro history p s hreaches
    cases p with
    | done => trivial
    | ask request next =>
      cases request with
      | cut what start stop =>
        cases what with
        | list =>
          intro hbegins list hlist
          rw [Option.isSome_iff_ne_none]
          exact fun harguments => hnone ⟨list, ⟨history, start, stop, next, s, hreaches, hbegins,
            hlist⟩, harguments⟩
        | _ => trivial
      | _ => trivial
  exact abortsNowhere_fileItems.allows_of_reaches hassumes hreaches what rfl

/-- Whatever a text says, the scanner cuts it between characters, wherever the parser has brought
it, and so does the parser. An implementation file never aborts. A header does only where a list
that it has captured for a template cannot be made into arguments, and such a list is not ASCII. -/
theorem cuts_keep_characters (text : String) :
    (∀ (role : FileRole) (history : List Request) (p : Parser Unit) (s : ParserState text),
      fileItems.Reaches ParserState.machine (.new role text) history p s →
      (∀ t ∈ s.stream.scanner.tokens.1, t.offset ≤ t.stop ∧ t.stop ≤ text.utf8ByteSize ∧
        IsBoundary text t.offset ∧ IsBoundary text t.stop) ∧
      (∀ e, s.stream.scanner.tokens.2 = .error e → e.fault ≠ .splitCharacter) ∧
      (∀ what start stop next, p = ask (.cut what start stop) next → start ≤ stop ∧
        stop ≤ text.utf8ByteSize ∧ IsBoundary text start ∧ IsBoundary text stop)) ∧
    (∀ what, findingsOf .source text ≠ .error (.aborted what)) ∧
    (∀ what, findingsOf .header text = .error (.aborted what) → what = .parameterName ∧
      ∃ list, CapturesTemplateList .header text list ∧ arguments? list = none) ∧
    ((∀ list, CapturesTemplateList .header text list → IsAscii list) →
      ∀ what, findingsOf .header text ≠ .error (.aborted what)) := by
  refine ⟨fun role history p s hreaches => ⟨?_, ?_, ?_⟩, ?_, ?_, ?_⟩
  · intro t ht
    obtain ⟨hle, hstart, hstop, -⟩ := slice?_eq_some_iff.1 (s.stream.scanner.standsIn_of_mem t ht).1.isCut
    exact ⟨hle, hstop.le_size, hstart, hstop⟩
  · intro e he
    obtain ⟨c, hmatches, -⟩ := exists_reading hreaches
    exact ne_splitCharacter_of_tokensOf (hmatches.queued.ending_scanner.symm.trans he)
  · rintro what start stop next rfl
    obtain ⟨hle, hstart, hstop⟩ := slice?_ne_none_iff.1 (slice?_ne_none_of_reaches hreaches)
    exact ⟨hle, hstop.le_size, hstart, hstop⟩
  · intro what h
    obtain ⟨history, next, s, hreaches⟩ := exists_abort_of_aborted h
    exact (sparing_of_reaches False (by simp) hreaches).1
  · intro what h
    obtain ⟨history, next, s, hreaches⟩ := exists_abort_of_aborted h
    exact ⟨(sparing_of_reaches True (fun _ => trivial) hreaches).2,
      exists_list_of_aborted h⟩
  · intro hascii what h
    obtain ⟨list, hcaptured, hnone⟩ := exists_list_of_aborted h
    have hsome := isSome_arguments? (hascii list hcaptured)
    rw [hnone] at hsome
    cases hsome

/-- A header in ASCII does not abort. -/
theorem cuts_keep_characters_ascii :
    findingsOf .header "template<typename K, int n> struct A \x7b K x; \x7d;" ≠
      .error (.aborted .parameterName) := by
  refine (cuts_keep_characters _).2.2.2 ?_ .parameterName
  rintro list ⟨history, start, stop, next, s, -, -, hlist⟩
  exact IsAscii.slice? (by decide) hlist

end ReflectionTables.Parsing
