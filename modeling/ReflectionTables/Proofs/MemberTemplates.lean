import ReflectionTables.Proofs.ConsumedTokens
import ReflectionTables.Proofs.QuietParsers
import ReflectionTables.Proofs.VisitedItems
/-!
# Member templates

Behind its parameter list a member template is gone through like a declaration that no rule reads,
and not like the method that it is. So it ends at its first semicolon or block outside parentheses:
a method ends there too, but a constructor that initializes a member with braces does not.
-/

namespace ReflectionTables.Parsing

open Text Scanning Reflected Parsing.Parser Reading

variable {text : String} {role : FileRole} {c : Reading text} {ctx : BodyContext} {word : Token}
  {visible accept : Bool} {body : BodyParser} {list us : List Token}

def throughMemberTemplate : Parser Unit := do
  let opening ← expect .lt .templateList
  discard (throughAngles opening)
  discard throughDeclaration

theorem memberItem_templateWord (hword : word.reserved? = some .templateWord) :
    memberItem body word ctx visible accept = (do
      let _ ← constructorAhead word ctx
      throughMemberTemplate
      return []) := by
  have hident := Token.kind_of_reserved? hword
  simp only [memberItem, hword, hident, reduceCtorEq, if_false, throughMemberTemplate, bind_assoc]

theorem run_memberSpecifiers_templateWord (hword : word.reserved? = some .templateWord) :
    (memberSpecifiers word).run Reading.machine c = .ok ((false, word), c) := by
  rw [memberSpecifiers, specifiersEnd, recur]
  refine (run_recurBy _ _ (false, word) c).elim fun again hagain => hagain.1.trans ?_
  simp only [hword]
  rfl

theorem run_bodyItem_templateWord (hword : word.reserved? = some .templateWord) :
    (bodyItem body word ctx visible).run Reading.machine c = (do
      let _ ← constructorAhead word ctx
      throughMemberTemplate
      return (visible, [])).run Reading.machine c := by
  have hitem : bodyItem body word ctx visible = (do
      let r ← memberSpecifiers word
      return (visible, ← memberItem body r.2 ctx visible (visible && !r.1))) := by
    simp only [bodyItem, hword, Option.bind_some, ReservedWord.visibility?]
  rw [hitem, run_bind, run_memberSpecifiers_templateWord hword]
  simp only [memberItem_templateWord hword, bind_assoc, pure_bind]

theorem consumes_constructorAhead (h : c.pending ≠ []) :
    (constructorAhead word ctx).Consumes (· = []) c := by
  rw [constructorAhead]
  split
  · refine Consumes.congr ((consumes_lookAt (List.length_pos_iff.2 h)).bind
      fun _ _ _ => consumes_pure) fun us => ?_
    simp [Followed]
  · exact consumes_pure

theorem consumes_expect {kind : TokenKind} {what : Expectation} :
    (expect kind what).Consumes (fun ts => ∃ t : TokenOf kind, ts = [t.val]) c := by
  refine consumes_next_bind (by simp) fun t ts hpending => ?_
  split
  · rename_i hkind
    refine consumes_pure.congr fun us => ⟨?_, ?_⟩
    · rintro ⟨t', heq⟩
      exact (List.cons.inj heq).2
    · rintro rfl
      exact ⟨⟨t, hkind⟩, rfl⟩
  · rename_i hkind
    refine consumes_fail.congr fun us => ⟨?_, False.elim⟩
    rintro ⟨t', heq⟩
    exact hkind ((List.cons.inj heq).1 ▸ t'.property)

/-- Behind a list in angle brackets a member template goes on to the first semicolon or block outside
parentheses. -/
theorem consumes_throughMemberTemplate (opening : TokenOf .lt) (hlist : ClosesAngles 1 list)
    (hpending : c.pending = opening.val :: (list ++ us)) :
    throughMemberTemplate.Consumes
      (fun ts => ∃ member, ts = opening.val :: (list ++ member) ∧ EndsAtFirst member) c := by
  refine Consumes.congr (L := fun ts => ∃ later, ts = [opening.val] ++ later ∧
    ∃ member, later = list ++ member ∧ EndsAtFirst member) ?_ fun ts => ?_
  · refine consumes_expect.behind_bind hpending ⟨opening, rfl⟩ fun _ c₁ h₁ => ?_
    exact consumes_throughAngles.discard.behind_bind h₁ hlist fun _ _ _ =>
      consumes_throughDeclaration.discard
  · constructor
    · rintro ⟨member, rfl, hmember⟩
      exact ⟨list ++ member, rfl, member, rfl, hmember⟩
    · rintro ⟨_, rfl, member, rfl, hmember⟩
      exact ⟨member, rfl, hmember⟩

theorem consumes_memberTemplate (hword : word.reserved? = some .templateWord) (opening : TokenOf .lt)
    (hlist : ClosesAngles 1 list) (hpending : c.pending = opening.val :: (list ++ us)) :
    (bodyItem body word ctx visible).Consumes
      (fun ts => ∃ member, ts = opening.val :: (list ++ member) ∧ EndsAtFirst member) c := by
  have hnil : c.pending ≠ [] := by simp [hpending]
  have hahead : (constructorAhead word ctx).Consumes (· = []) c := consumes_constructorAhead hnil
  have hparser := hahead.behind_bind (List.nil_append c.pending).symm rfl fun _ c₁ h₁ =>
      (consumes_throughMemberTemplate opening hlist (h₁.trans hpending)).bind_pure
        fun _ => (visible, ([] : List Member))
  rw [Consumes, run_bodyItem_templateWord hword]
  exact hparser.congr fun ts => by simp

/-- A member template gives no members and leaves the visibility. -/
theorem eq_of_run_memberTemplate (hword : word.reserved? = some .templateWord) {c' : Reading text}
    {r : Bool × List Member}
    (h : (bodyItem body word ctx visible).run Reading.machine c = .ok (r, c')) : r = (visible, []) := by
  rw [run_bodyItem_templateWord hword] at h
  obtain ⟨_, _, -, h⟩ := exists_of_run_bind h
  obtain ⟨_, _, -, h⟩ := exists_of_run_bind h
  cases h
  rfl

/-- Wherever the reading of a file comes to a member template, behind the list of its parameters it
is gone through to the end of a member, without a finding, just if the member ends at its first
semicolon or block outside parentheses. -/
theorem memberTemplate_ends_iff {history : List Request} {s : ParserState text}
    {k : Bool × List Member → Parser Unit} {member : List Token}
    (h : fileItems.Reaches ParserState.machine (.new role text) history
      (bodyItem body word ctx visible >>= k) s)
    (hword : word.reserved? = some .templateWord) (opening : TokenOf .lt)
    (hlist : ClosesAngles 1 list) (htokens : s.toCome = opening.val :: (list ++ (member ++ us))) :
    EndsAtFirst member ↔
      ∃ s', (bodyItem body word ctx visible).run ParserState.machine s = .ok ((visible, []), s') ∧
        s'.toCome = us ∧ s'.findings = s.findings := by
  obtain ⟨c, hmatches, hobeys, -⟩ := exists_reading h
  rw [hmatches.toCome_eq] at htokens
  have hitem := hobeys.of_bind
  have hexpected := hitem.run
  have hstream := hitem.run_stream hmatches
  have hconsumes := @consumes_memberTemplate text c ctx word visible body list (member ++ us) hword
    opening hlist htokens
  have hends : (∃ member', opening.val :: (list ++ member) = opening.val :: (list ++ member') ∧
      EndsAtFirst member') ↔ EndsAtFirst member := by simp
  have hsplit : c.pending = opening.val :: (list ++ member) ++ us := by simp [htokens]
  rw [Consumes] at hconsumes
  cases hrun : (bodyItem body word ctx visible).run Reading.machine c with
  | error failure =>
    rw [hrun] at hexpected hstream hconsumes
    refine iff_of_false (fun hmember => ?_) ?_
    · exact hconsumes hexpected _ us hsplit (hends.2 hmember)
    · rintro ⟨s', hs', -⟩
      rw [hstream] at hs'
      cases hs'
  | ok result =>
    obtain ⟨r, c'⟩ := result
    rw [hrun] at hstream hconsumes
    obtain ⟨s', hs', hmatches'⟩ := hstream
    obtain ⟨hfindings, -, hiff⟩ := hconsumes
    obtain rfl := eq_of_run_memberTemplate hword hrun
    rw [hs', ← hends, hiff _ us hsplit, ← hmatches'.toCome_eq]
    constructor
    · intro hpast
      exact ⟨s', rfl, hpast, by rw [hmatches'.findings_eq, hmatches.findings_eq, hfindings]⟩
    · rintro ⟨_, heq, hpast, -⟩
      cases heq
      exact hpast

/-- The text of a record whose constructor is a template. -/
def constructorTemplate : String := "struct S \x7b template <class T> S(T t) : a(t) \x7b \x7d \x7d;"

/-- A constructor that initializes a member in parentheses ends at its body, as a template too. -/
theorem memberTemplate_ends_iff_constructor :
    ∃ history body ctx visible k, ∃ s s' : ParserState constructorTemplate,
      fileItems.Reaches ParserState.machine (.new .header constructorTemplate) history
        (bodyItem body ⟨.ident, "template", 11, 1⟩ ctx visible >>= k) s ∧
      (bodyItem body ⟨.ident, "template", 11, 1⟩ ctx visible).run ParserState.machine s =
        .ok ((visible, []), s') ∧
      s'.toCome = [⟨.rBrace, "\x7d", 48, 0⟩, ⟨.semicolon, ";", 49, 0⟩] ∧ s'.findings = s.findings := by
  let list : List Token := [⟨.ident, "class", 21, 1⟩, ⟨.ident, "T", 27, 1⟩, ⟨.gt, ">", 28, 1⟩]
  let params : List Token := [⟨.ident, "T", 32, 1⟩, ⟨.ident, "t", 34, 1⟩, ⟨.rParen, ")", 35, 1⟩]
  let value : List Token := [⟨.ident, "t", 41, 1⟩, ⟨.rParen, ")", 42, 1⟩]
  let block : List Token := [⟨.lBrace, "\x7b", 44, 1⟩, ⟨.rBrace, "\x7d", 46, 1⟩]
  let member : List Token := ⟨.ident, "S", 30, 1⟩ :: ⟨.lParen, "(", 31, 1⟩ :: (params ++
    ⟨.colon, ":", 37, 1⟩ :: ⟨.ident, "a", 39, 1⟩ :: ⟨.lParen, "(", 40, 1⟩ :: (value ++ block))
  have hlist : ClosesAngles 1 list := .token (by decide) (.token (by decide) (.closing (by decide)))
  have hparams : ClosesParens 0 params := .token (by decide) (.token (by decide) (.closing rfl))
  have hvalue : ClosesParens 0 value := .token (by decide) (.closing rfl)
  have hblock : EndsAtFirst block := .block rfl (.closing (by decide))
  have hmember : EndsAtFirst member := .token (by decide) (.parens rfl hparams
    (.token (by decide) (.token (by decide) (.parens rfl hvalue hblock))))
  let word : ClassWord .structKey := ⟨⟨.ident, "struct", 0, 0⟩, by decide⟩
  obtain ⟨body, ctx, visible, k, c, hvisits, hpending, -⟩ :=
    @exists_visited_item constructorTemplate (⟨.lt, "<", 20, 1⟩ :: (list ++ (member ++
        [⟨.rBrace, "\x7d", 48, 0⟩, ⟨.semicolon, ";", 49, 0⟩]))) _ word ⟨⟨.ident, "S", 7, 0⟩, rfl⟩
      ⟨⟨.lBrace, "\x7b", 9, 0⟩, rfl⟩ ⟨⟨.ident, "template", 11, 1⟩, rfl⟩ (by decide +kernel)
  obtain ⟨⟨history, s, hreaches, hmatches⟩, -⟩ := hvisits
  obtain ⟨s', hrun, hpast, hfindings⟩ := (memberTemplate_ends_iff hreaches (by decide)
    ⟨⟨.lt, "<", 20, 1⟩, rfl⟩ hlist (by rw [hmatches.toCome_eq, hpending])).1 hmember
  exact ⟨history, body, ctx, visible, k, s, s', hreaches, hrun, hpast, hfindings⟩

end ReflectionTables.Parsing
