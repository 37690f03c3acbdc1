import ReflectionTables.Proofs.RecordHeads
/-!
# A header that holds one record

Whatever stands in the body of the record, its table has the rows that its items give, and so have
the tables of the records in it.
-/

namespace ReflectionTables.Parsing

open Text Scanning Reflected Parsing.Parser

variable {text : String} {c : Reading text} {us : List Token} {P : Standing} {t : Token}
  {inner : BodyPart} {body : BodyParser} {task : BodyTask} {ctx : BodyContext} {key : ClassKey}
  {r : NamedRecord} {found : List String → Findings}

@[simp] theorem ClassWord.isIdent (word : ClassWord key) : word.val.kind = .ident := by
  obtain ⟨reserved, hreserved, -⟩ := Option.bind_eq_some_iff.1 word.property
  exact Token.kind_of_reserved? hreserved

/-- Whether the body of a record in a header is read from behind its opening brace on, and what is
said is found in the record, if a path leads to it. -/
def NamedRecord.Read (text : String) (r : NamedRecord) (found : List String → Findings) : Prop :=
  ∀ (body : BodyParser) (c : Reading text) (us : List Token) (P : Standing),
    body.Unrolls text → P.role = .header → c.Holds r.opening.val →
      c.StandsBehind r.opening.val (r.body ++ us) P →
        (recordBody body r.key r.name.val none r.opening.val "" false).Yields
          (fun _ c' => c'.Stands us (P.gaining (found P.path))) c

theorem BodyPart.Read.record (h : inner.Read text) (closing : TokenOf .rBrace)
    (hbody : r.body = inner.tokens ++ [closing.val]) :
    r.Read text fun path => inner.record r.key (path ++ [r.name.val.text]) := by
  intro body c us P hunrolls hrole _ hc
  rw [hbody, List.append_assoc] at hc
  exact yields_recordBody h hunrolls r.key r.name r.opening closing hrole rfl hc

/-- A declarator begins with a mark or with its name. -/
theorem MemberDeclarator.exists_first (d : MemberDeclarator) (us : List Token) :
    ∃ t rest, d.tokens ++ us = t :: rest ∧ t.kind.isBrace = false ∧ t.kind ≠ .semicolon ∧
      t.kind ≠ .endOfText := by
  obtain ⟨marks, name, suffix, initializer⟩ := d
  cases marks with
  | nil =>
    refine ⟨name.token, _, rfl, name.isBrace, ?_, ?_⟩ <;> rw [name.isIdent] <;> simp
  | cons mark marks =>
    refine ⟨mark.val, _, rfl, isBrace_of_isIndirection mark.property, ?_, ?_⟩ <;>
      (intro hkind
       have hmark := mark.property
       rw [hkind] at hmark
       exact absurd hmark Bool.false_ne_true)

/-- Behind its body a named record is ended, or members of its type are declared. -/
theorem yields_nestedEnding (ending : NestedEnding) (name : String) {accept : Bool}
    (hgeneric : ctx.generic = "") (hc : c.Stands (ending.tokens ++ us) P) :
    (do let token ← next
        if token.kind = .semicolon then return []
        else
          putBack token
          declarators name accept ctx : Parser (List Member)).Yields (fun r c' =>
      r = (if accept then ending.members text name else []) ∧ c'.Stands us P) c := by
  cases ending with
  | closed semicolon =>
    refine (passes_next (by rw [semicolon.property]; rfl) c us P hc).bind ?_
    rintro _ c₁ ⟨rfl, h₁⟩
    rw [if_pos semicolon.property]
    exact ⟨by cases accept <;> rfl, h₁⟩
  | declaring ds =>
    have hall : c.Stands (ds.first.tokens ++ (ds.tail ++ us)) P := by
      rw [← List.append_assoc]
      exact hc
    obtain ⟨t, rest, hfirst, hbrace, hsemicolon, hend⟩ := ds.first.exists_first (ds.tail ++ us)
    rw [hfirst] at hall
    refine (passes_next hbrace c rest P hall).bind ?_
    rintro _ c₁ ⟨rfl, h₁⟩
    rw [if_neg hsemicolon]
    refine (yields_putBack h₁ hbrace hend).bind fun _ c₂ h₂ => ?_
    rw [← hfirst] at h₂
    exact (yields_declaratorsEnd ds.first ds.more ds.semicolon hgeneric h₂).mono fun _ _ h => h

/-- A named record in a record is a type of its own, and may declare members of that type. -/
theorem yields_nestedRecord (hr : r.Read text found) (hbody : body.Unrolls text) (word : Token)
    (ending : NestedEnding) {visible accept : Bool} (hgeneric : ctx.generic = "")
    (hdependent : ctx.dependent = false) (hrole : P.role = .header)
    (hc : c.Stands (r.name.val :: (r.head.tokens ++ r.opening.val ::
      (r.body ++ (ending.tokens ++ us)))) P) :
    (innerRecord body r.key word ctx visible accept).Yields (fun members c' =>
      members = (if accept then ending.members text r.name.val.text else []) ∧
        c'.Stands us (P.gaining (found P.path))) c := by
  have hnests : ctx.nestsDependent = false := by simp [BodyContext.nestsDependent, hgeneric, hdependent]
  obtain ⟨t, rest, hfirst, ht⟩ := r.head.exists_first r.opening (r.body ++ (ending.tokens ++ us))
  have hhead : (decide (t.kind = .lBrace) || decide (t.kind = .colon) || t.isWord "final") = true := by
    rw [Bool.or_eq_true, Bool.or_eq_true, decide_eq_true_iff, decide_eq_true_iff, or_assoc]
    exact ht
  rw [hfirst] at hc
  rw [innerRecord]
  refine (yields_throughHeadAttributes_named r.name.property ht hc).bind fun _ c₁ h₁ => ?_
  refine (yields_lookAt (n := 0) h₁ rfl).bind ?_
  rintro _ c₂ ⟨rfl, h₂⟩
  simp only [r.name.property, reduceCtorEq, ne_eq, not_true_eq_false, if_false]
  refine (yields_lookAt (n := 1) h₂ rfl).bind ?_
  rintro _ c₃ ⟨rfl, h₃⟩
  rw [if_neg ht.kind_ne.2.1]
  refine (passes_next (by rw [r.name.property]; rfl) c₃ _ P h₃).bind ?_
  rintro _ c₄ ⟨rfl, h₄⟩
  rw [if_pos hhead, hgeneric, hnests]
  rw [← hfirst] at h₄
  refine (yields_throughBases r.head r.opening h₄).bind ?_
  rintro _ c₅ ⟨rfl, hholds, h₅⟩
  refine (hr body c₅ _ P hbody hrole hholds h₅).bind fun _ c₆ h₆ => ?_
  exact yields_nestedEnding ending r.name.val.text hgeneric h₆

theorem yields_recordItem {visible : Bool} {members : List Member}
    {Q : Token × List Member → Reading text → Prop} (word : ClassWord key)
    (ht : t.kind.opensParens = false) (hc : c.Stands (word.val :: t :: us) P)
    (hrecord : ∀ c', c'.Stands (t :: us) P →
      (innerRecord body key word.val task.context visible visible).Yields
        (fun more c'' => (itemsEnd body task visible (members ++ more)).Yields Q c'') c') :
    (itemsEnd body task visible members).Yields Q c := by
  have hident := word.isIdent
  obtain ⟨reserved, hreserved, hkey⟩ := Option.bind_eq_some_iff.1 word.property
  refine yields_item hident hc fun c₁ h₁ => ?_
  have hspecifier : word.val.reserved?.any ReservedWord.isSpecifier = false := by
    rw [hreserved]
    cases reserved <;> first | rfl | cases hkey
  have hvisibility : word.val.reserved?.bind ReservedWord.visibility? = none := by
    rw [hreserved]
    cases reserved <;> first | rfl | cases hkey
  have hitem := @yields_bodyItem text c₁ (t :: us) (t :: us) P word.val word.val body visible
    task.context (fun more c' => (itemsEnd body task visible (members ++ more)).Yields Q c') []
    hspecifier hvisibility rfl h₁ fun c₂ h₂ => by
      rw [memberItem, if_neg (by simp)]
      refine (yields_constructorAhead ht (h₂.plain (by rw [hident]; rfl))).bind ?_
      rintro _ c₃ ⟨rfl, h₃⟩
      rw [List.any_nil, Bool.not_false, Bool.and_true]
      have hyields := hrecord c₃ h₃
      cases reserved <;> cases hkey <;> (simp only [hreserved]; exact hyields)
  refine hitem.mono fun r c' h => ?_
  rw [h.1]
  exact h.2

structure Definition where
  record : NamedRecord
  ending : NestedEnding
  found : List String → Findings

namespace Definition

def tokens (d : Definition) : List Token := d.record.tokens ++ d.ending.tokens

def part (text : String) (d : Definition) : BodyPart :=
  ⟨d.tokens, id, fun visible => if visible then d.ending.members text d.record.name.val.text else [],
    d.found⟩

theorem read_part (d : Definition) (hd : d.record.Read text d.found) : (d.part text).Read text := by
  intro body task visible members hbody hplain Q c us P hrole hc hrest
  obtain ⟨⟨key, word, name, head, opening, inside⟩, ending, found⟩ := d
  have hc : c.Stands (word.val :: name.val :: (head.tokens ++ opening.val ::
      (inside ++ (ending.tokens ++ us)))) P := by
    simpa [part, tokens, NamedRecord.tokens] using hc
  refine yields_recordItem word (by rw [name.property]; rfl) hc fun c₁ h₁ => ?_
  refine (yields_nestedRecord hd hbody word.val ending hplain.generic_eq hplain.dependent_eq hrole
    h₁).mono ?_
  rintro _ c₂ ⟨rfl, h₂⟩
  exact hrest c₂ h₂

end Definition

/-- The items of a body are read one after another: their members are added, and the records among
them are declared and reflected. -/
theorem RecordItems.read (text : String) (items : RecordItems) : (items.part text).Read text := by
  induction items with
  | nil =>
    intro body task visible members _ _ Q c us P _ hc hrest
    have hend := hrest c (by rwa [← @Standing.gaining_nil P] at hc)
    simp only [part, RecordItems.members, List.append_nil] at hend
    exact hend
  | access word visible selects colon rest ih =>
    intro body task visible' members hbody hplain Q c us P hrole hc hrest
    obtain ⟨reserved, hreserved, -⟩ := Option.bind_eq_some_iff.1 selects
    have hident := Token.kind_of_reserved? hreserved
    refine yields_item hident hc fun c₁ h₁ => ?_
    refine (yields_access selects colon (h₁.plain (by rw [hident]; rfl))).mono ?_
    rintro _ c₂ ⟨rfl, h₂⟩
    rw [List.append_nil]
    exact ih body task visible members hbody hplain Q c₂ us P hrole h₂ hrest
  | stray semicolon rest ih =>
    intro body task visible members hbody hplain Q c us P hrole hc hrest
    exact yields_stray semicolon hc fun c₁ h₁ =>
      ih body task visible members hbody hplain Q c₁ us P hrole h₁ hrest
  | data d rest ih =>
    intro body task visible members hbody hplain Q c us P hrole hc hrest
    rw [part, tokens, List.append_assoc] at hc
    refine yields_data d hplain.generic_eq hc fun c₁ h₁ => ?_
    refine ih body task visible _ hbody hplain Q c₁ us P hrole h₁ fun c₂ h₂ => ?_
    have hend := hrest c₂ h₂
    simp only [part, RecordItems.members, ← List.append_assoc] at hend
    exact hend
  | method d rest ih =>
    intro body task visible members hbody hplain Q c us P hrole hc hrest
    rw [part, tokens, List.append_assoc] at hc
    exact yields_method d hc fun c₁ h₁ =>
      ih body task visible members hbody hplain Q c₁ us P hrole h₁ hrest
  | unnamed key word opening inner closing semicolon rest ihinner ih =>
    intro body task visible members hbody hplain Q c us P hrole hc hrest
    rw [part, tokens, List.cons_append, List.cons_append, List.append_assoc, List.cons_append,
      List.cons_append] at hc
    refine yields_recordItem word (by rw [opening.property]; rfl) hc fun c₁ h₁ => ?_
    refine (yields_unnamedRecord ihinner hbody key word opening closing semicolon hplain.generic_eq
      hplain.dependent_eq hrole h₁).mono ?_
    rintro _ c₂ ⟨rfl, h₂⟩
    refine ih body task visible _ hbody hplain Q c₂ us (P.gaining _) hrole h₂ fun c₃ h₃ => ?_
    rw [Standing.gaining_gaining] at h₃
    have hend := hrest c₃ h₃
    simp only [part, RecordItems.members, ← List.append_assoc] at hend
    exact hend
  | nested key word name opening inner closing ending rest ihinner ih =>
    let d : Definition :=
      { record := ⟨key, word, name, .nothing, opening, inner.tokens ++ [closing.val]⟩
        ending := ending
        found := fun path => (inner.part text).record key (path ++ [name.val.text]) }
    have hd : (d.part text).Read text := d.read_part (ihinner.record closing rfl)
    have hpart : (RecordItems.nested key word name opening inner closing ending rest).part text =
        (d.part text).append (rest.part text) := by
      rw [part, BodyPart.append, BodyPart.mk.injEq]
      refine ⟨?_, rfl, rfl, funext fun path => ?_⟩
      · simp [tokens, d, Definition.part, Definition.tokens, NamedRecord.tokens, RecordHead.nothing,
          RecordHead.tokens, part]
      · change _ = ((inner.part text).record key (path ++ [name.val.text])).append (rest.found text path)
        rw [BodyPart.record_part]
        simp [RecordItems.found, types, declarations, Findings.append]
    rw [hpart]
    exact hd.append ih

def recordAtFileScope (key : ClassKey) (name opening : Token) : Parser Unit := do
  recordBody recordMembers key name none opening "" false
  discard (expect .semicolon .semicolonAfterRecord)

theorem recordFromName_leadsTo (key : ClassKey) (word name : Token) (head : RecordHead)
    (opening : TokenOf .lBrace) (hrole : P.role = .header)
    (hc : c.Stands (head.tokens ++ opening.val :: us) P) :
    (recordFromName key word name none "").LeadsTo c (recordAtFileScope key name opening.val)
      fun c' => c'.Holds opening.val ∧ c'.StandsBehind opening.val us P := by
  rw [recordFromName]
  refine (leads_head (b := true) (fun _ _ => rfl)
    (fun _ t ht => by simp only [Token.kind_of_isWord ht, ht, Bool.or_true, if_true])
    (fun _ t ht => by simp only [ht])
    (fun _ t ht => by rcases ht with ht | ht | ht <;> simp only [ht, Bool.true_or, if_true])
    (fun _ t ht => by simp only [ht, if_true]) head c _ P hc).trans fun c₁ h₁ => ?_
  refine leadsTo_recurBy fun again _ => (yields_next_holds h₁).leadsTo ?_
  rintro _ c₂ ⟨rfl, hholds, h₂⟩
  simp only [opening.property]
  refine (yields_roleOfFile h₂.stands).leadsTo ?_
  rintro _ _ ⟨rfl, rfl⟩
  have hheader : (P.behind opening.val).role = .header := hrole
  rw [if_pos hheader]
  exact leadsTo_self ⟨hholds, h₂⟩

@[simp] theorem fileItem_classWord (word : ClassWord key) :
    fileItem word.val = recordItem key word.val "" := by
  obtain ⟨reserved, hreserved, hkey⟩ := Option.bind_eq_some_iff.1 word.property
  cases reserved <;> cases hkey <;> simp only [fileItem, word.isIdent, namedItem, hreserved]

theorem yields_writtenList?_of_ne (ht : t.kind ≠ .lt) (hc : c.Stands (t :: us) P) :
    writtenList?.Yields (fun list? c' => list? = none ∧ c'.Stands (t :: us) P) c := by
  refine (yields_lookAt (n := 0) hc rfl).bind ?_
  rintro _ c' ⟨rfl, h'⟩
  rw [if_neg ht]
  exact ⟨rfl, h'⟩

theorem fileItem_leadsTo (r : NamedRecord) (hrole : P.role = .header)
    (hc : c.StandsBehind r.word.val (r.name.val :: (r.head.tokens ++ r.opening.val :: us)) P) :
    (fileItem r.word.val).LeadsTo c (recordAtFileScope r.key r.name.val r.opening.val)
      fun c' => c'.Holds r.opening.val ∧ c'.StandsBehind r.opening.val us P := by
  have hc := hc.plain (by rw [r.word.isIdent]; rfl)
  obtain ⟨t, rest, hfirst, ht⟩ := r.head.exists_first r.opening us
  rw [hfirst] at hc
  rw [fileItem_classWord, recordItem]
  refine (yields_throughHeadAttributes_named r.name.property ht hc).leadsTo fun _ c₁ h₁ => ?_
  refine (passes_next (by rw [r.name.property]; rfl) c₁ _ P h₁).leadsTo ?_
  rintro _ c₂ ⟨rfl, h₂⟩
  rw [if_neg (by simp [r.name.property]), if_neg (by simp [r.name.property])]
  refine (yields_writtenList?_of_ne ht.kind_ne.2.2 h₂).leadsTo ?_
  rintro _ c₃ ⟨rfl, h₃⟩
  rw [← hfirst] at h₃
  exact recordFromName_leadsTo r.key r.word.val r.name.val r.head r.opening hrole h₃

/-- A header that goes on with a record is read to its body, and behind that to its end. -/
theorem fileItems_leadsTo (r : NamedRecord) (hrole : P.role = .header)
    (hc : c.Stands (r.word.val :: r.name.val :: (r.head.tokens ++ r.opening.val :: us)) P) :
    fileItems.LeadsTo c (recordAtFileScope r.key r.name.val r.opening.val >>= fun _ => fileItems)
      fun c' => c'.Holds r.opening.val ∧ c'.StandsBehind r.opening.val us P := by
  rw [fileItems]
  refine leadsTo_recurBy fun again hagain => ?_
  refine (readsOne_nextOrEnd c _ _ P hc).leadsTo ?_
  rintro _ c₁ ⟨rfl, h₁⟩
  rw [if_neg (by simp)]
  refine ((fileItem_leadsTo r hrole h₁).bind _).trans fun c₂ h₂ => ?_
  refine (leadsTo_bind fun _ => hagain ()).trans ?_
  rintro _ rfl
  exact leadsTo_self h₂

theorem yields_fileItems_record (hr : r.Read text found) (semicolon : TokenOf .semicolon)
    (hrole : P.role = .header) {Q : Unit → Reading text → Prop}
    (hc : c.Stands (r.tokens ++ semicolon.val :: us) P)
    (hrest : ∀ c' : Reading text, c'.Stands us (P.gaining (found P.path)) → fileItems.Yields Q c') :
    fileItems.Yields Q c := by
  rw [NamedRecord.tokens, List.cons_append, List.cons_append, List.append_assoc, List.cons_append] at hc
  refine (fileItems_leadsTo r hrole hc).yields fun c₁ h₁ => ?_
  have hbody : BodyParser.Unrolls text recordMembers := fun _ _ _ h => h
  have hexpect := (@passes_expect text _ .semicolon .semicolonAfterRecord semicolon.property
    (by rw [semicolon.property]; rfl)).discard
  rw [recordAtFileScope, bind_assoc]
  refine (hr recordMembers c₁ _ P hbody hrole h₁.1 h₁.2).bind fun _ c₂ h₂ => ?_
  exact (hexpect c₂ us _ h₂).bind fun _ c₃ h₃ => hrest c₃ h₃.2

/-- The table of the record in a header has one row for each declarator that is visible, not static
and no bit-field, in their order, and so has the table of each record in it. Nothing is remarked. -/
theorem table_of_record (word : ClassWord key) (name : TokenOf .ident) (opening : TokenOf .lBrace)
    (items : RecordItems) (closing : TokenOf .rBrace) (semicolon : TokenOf .semicolon)
    (htokens : (tokensOf text).1 = word.val :: name.val :: opening.val ::
      (items.tokens ++ [closing.val, semicolon.val]))
    (hend : (tokensOf text).2.isOk = true) :
    findingsOf .header text = .ok
      { types := items.types text [name.val.text] ++ items.asType text key [name.val.text]
        declarations := ⟨.record key, name.val.text⟩ :: items.declarations [name.val.text] } := by
  let r : NamedRecord := ⟨key, word, name, .nothing, opening, items.tokens ++ [closing.val]⟩
  have hr := (RecordItems.read text items).record (r := r) closing rfl
  have hstands := Reading.stands_new .header text
  have hall : (tokensOf text).1 = r.tokens ++ [semicolon.val] := by
    simp [htokens, r, NamedRecord.tokens, RecordHead.nothing, RecordHead.tokens]
  rw [hall] at hstands
  refine findingsOf_of_yields (yields_fileItems_record hr semicolon rfl hstands fun c h => ?_)
  refine (yields_fileItems_nil h rfl hend).mono fun _ c' h' => ?_
  have hname : qualified [name.val.text] = name.val.text := String.intercalate_singleton
  rw [h', BodyPart.record_part]
  simp [r, Standing.new, Standing.path, Standing.gaining, Findings.append, hname]

/-- The text of a class with items of each form. -/
def mixedRecord : String :=
  "class C \x7bpublic: A<B> a[2], *b = 0; static int c; int d : 3; void f(int) const;\n" ++
    "union \x7b float g; \x7d; struct I \x7b int h; \x7d i; \x7d;"

/-- A static member, a bit-field and a method leave no row, the members of an unnamed union have rows
in the class, and a nested record has a table of its own. -/
theorem table_of_record_mixed :
    findingsOf .header mixedRecord = .ok
      { types := [
          .record ⟨.structKey, "C::I", "", [⟨"h", "int", "", .value⟩]⟩,
          .record ⟨.classKey, "C", "", [⟨"a", "A<B>", "", .array "2"⟩, ⟨"b", "A<B>*", "", .pointer⟩,
            ⟨"g", "float", "", .value⟩, ⟨"i", "I", "", .value⟩]⟩]
        declarations := [⟨.record .classKey, "C"⟩, ⟨.record .structKey, "C::I"⟩] } := by
  let ab : DataDeclaration :=
    { specifiers := []
      type := ⟨⟨⟨⟨.ident, "A", 17, 1⟩, rfl, by decide⟩, some ⟨⟨⟨.lt, "<", 18, 1⟩, rfl⟩,
        [⟨.ident, "B", 19, 1⟩], ⟨.gt, ">", 20, 1⟩, 1, .token rfl .nil, .inl ⟨rfl, rfl⟩⟩⟩, []⟩
      declarators :=
        { first := ⟨[], ⟨⟨.ident, "a", 22, 1⟩, rfl, by decide⟩, .array ⟨⟨⟨.lBracket, "[", 23, 1⟩, rfl⟩,
            [⟨.number, "2", 24, 1⟩], ⟨⟨.rBracket, "]", 25, 1⟩, rfl⟩, .token rfl rfl .nil⟩ [], .absent⟩
          more := [⟨⟨⟨.comma, ",", 26, 1⟩, rfl⟩, ⟨[⟨⟨.star, "*", 28, 1⟩, rfl⟩],
            ⟨⟨.ident, "b", 29, 1⟩, rfl, by decide⟩, .absent,
            .assigned ⟨⟨.eq, "=", 31, 1⟩, rfl⟩ [⟨.number, "0", 33, 1⟩] (.token rfl rfl .nil)⟩⟩]
          semicolon := ⟨⟨.semicolon, ";", 34, 1⟩, rfl⟩ } }
  let c : DataDeclaration :=
    ⟨[⟨⟨.ident, "static", 36, 1⟩, by decide⟩], ⟨⟨⟨⟨.ident, "int", 43, 1⟩, rfl, by decide⟩, none⟩, []⟩,
      ⟨⟨[], ⟨⟨.ident, "c", 47, 1⟩, rfl, by decide⟩, .absent, .absent⟩, [],
        ⟨⟨.semicolon, ";", 48, 1⟩, rfl⟩⟩⟩
  let d : DataDeclaration :=
    ⟨[], ⟨⟨⟨⟨.ident, "int", 50, 1⟩, rfl, by decide⟩, none⟩, []⟩,
      ⟨⟨[], ⟨⟨.ident, "d", 54, 1⟩, rfl, by decide⟩,
        .width ⟨⟨.colon, ":", 56, 1⟩, rfl⟩ [⟨.number, "3", 58, 1⟩] (by decide), .absent⟩, [],
        ⟨⟨.semicolon, ";", 59, 1⟩, rfl⟩⟩⟩
  let f : MethodDeclaration :=
    { specifiers := []
      type := ⟨⟨⟨⟨.ident, "void", 61, 1⟩, rfl, by decide⟩, none⟩, []⟩
      marks := []
      name := ⟨⟨.ident, "f", 66, 1⟩, rfl, by decide⟩
      params := .full ⟨⟨⟨.lParen, "(", 67, 1⟩, rfl⟩, [⟨.ident, "int", 68, 1⟩],
        ⟨⟨.rParen, ")", 71, 1⟩, rfl⟩, .token rfl rfl .nil⟩
      qualifiers := [⟨⟨.ident, "const", 73, 1⟩, rfl⟩]
      ending := .declared ⟨⟨.semicolon, ";", 78, 1⟩, rfl⟩ }
  let g : DataDeclaration :=
    ⟨[], ⟨⟨⟨⟨.ident, "float", 88, 2⟩, rfl, by decide⟩, none⟩, []⟩,
      ⟨⟨[], ⟨⟨.ident, "g", 94, 2⟩, rfl, by decide⟩, .absent, .absent⟩, [],
        ⟨⟨.semicolon, ";", 95, 2⟩, rfl⟩⟩⟩
  let h : DataDeclaration :=
    ⟨[], ⟨⟨⟨⟨.ident, "int", 111, 2⟩, rfl, by decide⟩, none⟩, []⟩,
      ⟨⟨[], ⟨⟨.ident, "h", 115, 2⟩, rfl, by decide⟩, .absent, .absent⟩, [],
        ⟨⟨.semicolon, ";", 116, 2⟩, rfl⟩⟩⟩
  let items : RecordItems :=
    .access ⟨.ident, "public", 9, 1⟩ true (by decide) ⟨⟨.colon, ":", 15, 1⟩, rfl⟩ <|
    .data ab <| .data c <| .data d <| .method f <|
    .unnamed .unionKey ⟨⟨.ident, "union", 80, 1⟩, by decide⟩ ⟨⟨.lBrace, "\x7b", 86, 1⟩, rfl⟩
      (.data g .nil) ⟨⟨.rBrace, "\x7d", 97, 1⟩, rfl⟩ ⟨⟨.semicolon, ";", 98, 1⟩, rfl⟩ <|
    .nested .structKey ⟨⟨.ident, "struct", 100, 1⟩, by decide⟩ ⟨⟨.ident, "I", 107, 1⟩, rfl⟩
      ⟨⟨.lBrace, "\x7b", 109, 1⟩, rfl⟩ (.data h .nil) ⟨⟨.rBrace, "\x7d", 118, 1⟩, rfl⟩
      (.declaring ⟨⟨[], ⟨⟨.ident, "i", 120, 1⟩, rfl, by decide⟩, .absent, .absent⟩, [],
        ⟨⟨.semicolon, ";", 121, 1⟩, rfl⟩⟩) .nil
  have htokens : (tokensOf mixedRecord).1 = ⟨.ident, "class", 0, 0⟩ :: ⟨.ident, "C", 6, 0⟩ ::
      ⟨.lBrace, "\x7b", 8, 0⟩ :: (items.tokens ++ [⟨.rBrace, "\x7d", 123, 0⟩, ⟨.semicolon, ";", 124, 0⟩]) := by
    decide +kernel
  let word : ClassWord .classKey := ⟨⟨.ident, "class", 0, 0⟩, by decide⟩
  rw [table_of_record word ⟨⟨.ident, "C", 6, 0⟩, rfl⟩ ⟨⟨.lBrace, "\x7b", 8, 0⟩, rfl⟩ items
    ⟨⟨.rBrace, "\x7d", 123, 0⟩, rfl⟩ ⟨⟨.semicolon, ";", 124, 0⟩, rfl⟩ htokens (by decide +kernel)]
  refine congrArg Except.ok ?_
  decide +kernel

end ReflectionTables.Parsing
