import ReflectionTables.Proofs.AnnouncedDeclarations
import ReflectionTables.Proofs.HeaderRecords
/-!
# Records in records and namespaces

A record in other records, and in namespaces. Its surroundings are frames, one in the other, and
each frame has items before and behind the place of the next one. What is read of the record is
found there, and what the surroundings say stands before and behind it.
-/

namespace ReflectionTables.Parsing

open Text Scanning Reflected Parsing.Parser

variable {text : String} {c : Reading text} {us : List Token} {P : Standing} {d : Definition}
  {semicolon : TokenOf .semicolon}

/-- A stretch of a header, and what is found in it if a path leads to it. -/
structure HeaderPart where
  tokens : List Token
  found : List String → Findings

structure NamespaceStart where
  inline? : Option { t : Token // t.reserved? = some .inlineWord }
  word : { t : Token // t.reserved? = some .namespaceWord }
  name : TokenOf .ident
  opening : TokenOf .lBrace

def NamespaceStart.tokens (start : NamespaceStart) : List Token :=
  (start.inline?.map Subtype.val).toList ++ [start.word.val, start.name.val, start.opening.val]

namespace HeaderPart

def append (part later : HeaderPart) : HeaderPart where
  tokens := part.tokens ++ later.tokens
  found path := (part.found path).append (later.found path)

def inNamespace (part : HeaderPart) (start : NamespaceStart) (closing : TokenOf .rBrace) : HeaderPart where
  tokens := start.tokens ++ (part.tokens ++ [closing.val])
  found path := part.found (path ++ [start.name.val.text])

def Read (text : String) (part : HeaderPart) : Prop := fileItems.Finds text part.tokens part.found fileItems

end HeaderPart

@[simp] theorem Standing.path_entered (segment : String) : (P.entered segment).path = P.path ++ [segment] := by
  simp [path, entered]

theorem NamespaceStart.yields (start : NamespaceStart) {Q : Unit → Reading text → Prop}
    (hc : c.Stands (start.tokens ++ us) P)
    (hrest : ∀ c', c'.Stands us (P.entered start.name.val.text) → fileItems.Yields Q c') :
    fileItems.Yields Q c := by
  obtain ⟨inline?, word, name, opening⟩ := start
  cases inline? with
  | none => exact yields_namespaceStart name opening word.property hc hrest
  | some inlineWord =>
    have hident := Token.kind_of_reserved? inlineWord.property
    have hnamespace : word.val.isWord "namespace" = true :=
      Token.isWord_of_reserved? word.property (by decide)
    rw [fileItems]
    refine yields_loop fun again hagain => ?_
    refine (passes_nextOrEnd (by rw [hident]; rfl) c _ P hc).bind ?_
    rintro _ c₁ ⟨rfl, h₁⟩
    rw [if_neg (by simp [hident])]
    simp only [fileItem, hident, namedItem, inlineWord.property, bind_assoc]
    refine (yields_lookAt (n := 0) h₁ rfl).bind ?_
    rintro _ c₂ ⟨rfl, h₂⟩
    rw [if_pos hnamespace, bind_assoc]
    refine (passes_next (by rw [Token.kind_of_reserved? word.property]; rfl) c₂ _ P h₂).discard_bind ?_
    rintro _ c₃ ⟨-, h₃⟩
    exact (yields_namespaceItem name opening h₃).bind fun _ c₄ h₄ => hagain c₄ Q (hrest c₄ h₄)

namespace HeaderPart

variable {part later : HeaderPart}

theorem read_nil : Read text ⟨[], fun _ => {}⟩ := by
  intro Q c us P _ hc hrest
  refine hrest c ?_
  rw [Standing.gaining_nil]
  exact hc

theorem Read.inNamespace (h : part.Read text) (start : NamespaceStart) (closing : TokenOf .rBrace) :
    (part.inNamespace start closing).Read text := by
  intro Q c us P hrole hc hrest
  have hscopes := hc.scopes_lt
  have hc : c.Stands (start.tokens ++ (part.tokens ++ closing.val :: us)) P := by
    simpa [HeaderPart.inNamespace] using hc
  refine start.yields hc fun c₁ h₁ => ?_
  refine h Q c₁ _ (P.entered _) hrole h₁ fun c₂ h₂ => ?_
  rw [Standing.path_entered] at h₂
  exact yields_namespaceEnd (P := P.gaining _) closing hscopes h₂ hrest

/-- A semicolon at file scope says nothing. -/
theorem Read.stray (h : part.Read text) (semicolon : TokenOf .semicolon) :
    Read text ⟨semicolon.val :: part.tokens, part.found⟩ := by
  intro Q c us P hrole hc hrest
  rw [fileItems]
  refine yields_loop fun again hagain => ?_
  refine (passes_nextOrEnd (by rw [semicolon.property]; rfl) c _ P hc).bind ?_
  rintro _ c₁ ⟨rfl, h₁⟩
  rw [if_neg (by simp [semicolon.property])]
  simp only [fileItem, semicolon.property]
  exact hagain c₁ Q (h Q c₁ us P hrole h₁ hrest)

end HeaderPart

def Definition.headerPart (d : Definition) : HeaderPart := ⟨d.tokens, d.found⟩

theorem Definition.read_headerPart (hd : d.record.Read text d.found) (hending : d.ending = .closed semicolon) :
    d.headerPart.Read text := by
  intro Q c us P hrole hc hrest
  refine yields_fileItems_record hd semicolon hrole ?_ hrest
  simpa [headerPart, tokens, hending, NestedEnding.tokens] using hc

inductive HeaderItems
  | nil
  | stray (semicolon : TokenOf .semicolon) (rest : HeaderItems)
  | record (key : ClassKey) (word : ClassWord key) (name : TokenOf .ident) (head : RecordHead)
      (opening : TokenOf .lBrace) (inner : RecordItems) (closing : TokenOf .rBrace)
      (semicolon : TokenOf .semicolon) (rest : HeaderItems)
  | inNamespace (start : NamespaceStart) (inner : HeaderItems) (closing : TokenOf .rBrace)
      (rest : HeaderItems)

namespace HeaderItems

def tokens : HeaderItems → List Token
  | .nil => []
  | .stray semicolon rest => semicolon.val :: rest.tokens
  | .record _ word name head opening inner closing semicolon rest =>
    word.val :: name.val :: (head.tokens ++ opening.val ::
      (inner.tokens ++ closing.val :: semicolon.val :: rest.tokens))
  | .inNamespace start inner closing rest => start.tokens ++ (inner.tokens ++ closing.val :: rest.tokens)

def found (text : String) : HeaderItems → List String → Findings
  | .nil, _ => {}
  | .stray _ rest, path => rest.found text path
  | .record key _ name _ _ inner _ _ rest, path =>
    ((inner.part text).record key (path ++ [name.val.text])).append (rest.found text path)
  | .inNamespace start inner _ rest, path =>
    (inner.found text (path ++ [start.name.val.text])).append (rest.found text path)

def part (text : String) (items : HeaderItems) : HeaderPart := ⟨items.tokens, items.found text⟩

/-- The items of a header are read one after another, and the records among them are reflected. -/
theorem read (text : String) (items : HeaderItems) : (items.part text).Read text := by
  induction items with
  | nil => exact HeaderPart.read_nil
  | stray semicolon rest ih => exact ih.stray semicolon
  | record key word name head opening inner closing semicolon rest ih =>
    let d : Definition :=
      { record := ⟨key, word, name, head, opening, inner.tokens ++ [closing.val]⟩
        ending := .closed semicolon
        found := fun path => (inner.part text).record key (path ++ [name.val.text]) }
    have hd : d.headerPart.Read text :=
      Definition.read_headerPart ((RecordItems.read text inner).record closing rfl) rfl
    have hpart : (HeaderItems.record key word name head opening inner closing semicolon rest).part text =
        d.headerPart.append (rest.part text) := by
      rw [part, HeaderPart.append, HeaderPart.mk.injEq]
      refine ⟨?_, rfl⟩
      simp [tokens, d, Definition.headerPart, Definition.tokens, NamedRecord.tokens, NestedEnding.tokens,
        part]
    rw [hpart]
    exact hd.append ih
  | inNamespace start inner closing rest ihinner ih =>
    have hpart : (HeaderItems.inNamespace start inner closing rest).part text =
        ((inner.part text).inNamespace start closing).append (rest.part text) := by
      rw [part, HeaderPart.append, HeaderPart.mk.injEq]
      refine ⟨?_, rfl⟩
      simp [tokens, HeaderPart.inNamespace, part]
    rw [hpart]
    exact (ihinner.inNamespace start closing).append ih

end HeaderItems

structure RecordFrame where
  key : ClassKey
  word : ClassWord key
  name : TokenOf .ident
  head : RecordHead
  opening : TokenOf .lBrace
  before : RecordItems
  after : RecordItems
  closing : TokenOf .rBrace
  ending : NestedEnding

namespace RecordFrame

def inside (text : String) (frame : RecordFrame) (d : Definition) : BodyPart :=
  (frame.before.part text).append ((d.part text).append (frame.after.part text))

def around (text : String) (frame : RecordFrame) (d : Definition) : Definition where
  record :=
    { key := frame.key
      word := frame.word
      name := frame.name
      head := frame.head
      opening := frame.opening
      body := (frame.inside text d).tokens ++ [frame.closing.val] }
  ending := frame.ending
  found path := (frame.inside text d).record frame.key (path ++ [frame.name.val.text])

def nest (text : String) (frames : List RecordFrame) (d : Definition) : Definition :=
  frames.foldr (around text) d

def tokensAround (frame : RecordFrame) (ts : List Token) : List Token :=
  frame.word.val :: frame.name.val :: (frame.head.tokens ++ frame.opening.val ::
    (frame.before.tokens ++ (ts ++ (frame.after.tokens ++ frame.closing.val :: frame.ending.tokens))))

/-- The members that records add to the body around them. -/
def added (text : String) : List RecordFrame → Bool → List Member
  | [], _ => []
  | frame :: _, visible => if visible then frame.ending.members text frame.name.val.text else []

def members (text : String) (frame : RecordFrame) (inner : List RecordFrame) : List Member :=
  let visible := frame.before.visibleBehind (startsPublic frame.key)
  frame.before.members text (startsPublic frame.key) ++
    (added text inner visible ++ frame.after.members text visible)

def leading (text : String) : List RecordFrame → List String → Findings
  | [], _ => {}
  | frame :: inner, path =>
    let path := path ++ [frame.name.val.text]
    ({ declarations := [⟨.record frame.key, qualified path⟩] } : Findings).append
      ((frame.before.found text path).append (leading text inner path))

def trailing (text : String) : List RecordFrame → List String → Findings
  | [], _ => {}
  | frame :: inner, path =>
    let path := path ++ [frame.name.val.text]
    let members := frame.members text inner
    (trailing text inner path).append ((frame.after.found text path).append
      { types := if members = [] then [] else [.record ⟨frame.key, qualified path, "", members⟩] })

theorem infix_tokensAround (frame : RecordFrame) (ts : List Token) : ts <:+: frame.tokensAround ts :=
  ⟨frame.word.val :: frame.name.val :: (frame.head.tokens ++ frame.opening.val :: frame.before.tokens),
    frame.after.tokens ++ frame.closing.val :: frame.ending.tokens, by simp [tokensAround]⟩

variable (frames : List RecordFrame)

/-- The definition in the place that a record has for it is read with the record. -/
theorem read_around (frame : RecordFrame) (hd : d.record.Read text d.found) :
    (frame.around text d).record.Read text (frame.around text d).found := by
  have hbefore := RecordItems.read text frame.before
  have hafter := RecordItems.read text frame.after
  exact (hbefore.append ((d.read_part hd).append hafter)).record frame.closing rfl

theorem read_nest (hd : d.record.Read text d.found) :
    (nest text frames d).record.Read text (nest text frames d).found := by
  induction frames with
  | nil => exact hd
  | cons frame frames ih => exact frame.read_around ih

variable (text d) in
theorem tokens_nest : (nest text frames d).tokens = frames.foldr tokensAround d.tokens := by
  induction frames with
  | nil => rfl
  | cons frame frames ih =>
    have houter : (frame.around text (nest text frames d)).tokens =
        frame.tokensAround (nest text frames d).tokens := by
      simp [around, inside, tokensAround, Definition.tokens, Definition.part, NamedRecord.tokens,
        BodyPart.append, RecordItems.part]
    rw [List.foldr_cons, ← ih, ← houter]
    rfl

theorem members_nest (hending : d.ending = .closed semicolon) (visible : Bool) :
    ((nest text frames d).part text).members visible = added text frames visible := by
  cases frames with
  | nil => cases visible <;> simp [nest, Definition.part, hending, NestedEnding.members, added]
  | cons frame frames => rfl

theorem found_nest (hending : d.ending = .closed semicolon) (path : List String) :
    (nest text frames d).found path =
      (leading text frames path).append ((d.found (path ++ frames.map (·.name.val.text))).append
        (trailing text frames path)) := by
  induction frames generalizing path with
  | nil =>
    rw [List.map_nil, List.append_nil, trailing, Findings.append_nil]
    rfl
  | cons frame frames ih =>
    let inner := nest text frames d
    let inside := path ++ [frame.name.val.text]
    have hmembers : (frame.inside text inner).members (startsPublic frame.key) =
        frame.members text frames := by
      rw [members, ← members_nest frames hending]
      rfl
    have hfound : (nest text (frame :: frames) d).found path =
        ({ declarations := [⟨.record frame.key, qualified inside⟩] } : Findings).append
          (((frame.before.found text inside).append ((inner.found inside).append
            (frame.after.found text inside))).append
              { types := (frame.inside text inner).asType frame.key inside }) := rfl
    rw [hfound, ih, BodyPart.asType, hmembers, List.map_cons, List.append_cons, leading, trailing]
    simp only [Findings.append_assoc, inside]

end RecordFrame

structure NamespaceFrame where
  start : NamespaceStart
  before : HeaderItems
  after : HeaderItems
  closing : TokenOf .rBrace

namespace NamespaceFrame

def around (text : String) (frame : NamespaceFrame) (part : HeaderPart) : HeaderPart :=
  ((frame.before.part text).append (part.append (frame.after.part text))).inNamespace frame.start
    frame.closing

def nest (text : String) (frames : List NamespaceFrame) (part : HeaderPart) : HeaderPart :=
  frames.foldr (around text) part

def tokensAround (frame : NamespaceFrame) (ts : List Token) : List Token :=
  frame.start.tokens ++ (frame.before.tokens ++ (ts ++ (frame.after.tokens ++ [frame.closing.val])))

/-- What namespaces say before the innermost place, if a path leads to them. -/
def leading (text : String) : List NamespaceFrame → List String → Findings
  | [], _ => {}
  | frame :: inner, path =>
    let path := path ++ [frame.start.name.val.text]
    (frame.before.found text path).append (leading text inner path)

def trailing (text : String) : List NamespaceFrame → List String → Findings
  | [], _ => {}
  | frame :: inner, path =>
    let path := path ++ [frame.start.name.val.text]
    (trailing text inner path).append (frame.after.found text path)

theorem infix_tokensAround (frame : NamespaceFrame) (ts : List Token) : ts <:+: frame.tokensAround ts :=
  ⟨frame.start.tokens ++ frame.before.tokens, frame.after.tokens ++ [frame.closing.val], by
    simp [tokensAround]⟩

variable (frames : List NamespaceFrame) {part : HeaderPart}

theorem read_nest (h : part.Read text) : (nest text frames part).Read text := by
  induction frames with
  | nil => exact h
  | cons frame frames ih =>
    have hinside : ((frame.before.part text).append
        ((nest text frames part).append (frame.after.part text))).Read text :=
      (HeaderItems.read text frame.before).append (ih.append (HeaderItems.read text frame.after))
    exact hinside.inNamespace frame.start frame.closing

theorem tokens_nest : (nest text frames part).tokens = frames.foldr tokensAround part.tokens := by
  induction frames with
  | nil => rfl
  | cons frame frames ih =>
    have houter : (frame.around text (nest text frames part)).tokens =
        frame.tokensAround (nest text frames part).tokens := by
      simp [around, tokensAround, HeaderPart.inNamespace, HeaderPart.append, HeaderItems.part]
    rw [List.foldr_cons, ← ih, ← houter]
    rfl

theorem found_nest (path : List String) : (nest text frames part).found path =
    (leading text frames path).append ((part.found (path ++ frames.map (·.start.name.val.text))).append
      (trailing text frames path)) := by
  induction frames generalizing path with
  | nil =>
    rw [List.map_nil, List.append_nil, trailing, Findings.append_nil]
    rfl
  | cons frame frames ih =>
    let inside := path ++ [frame.start.name.val.text]
    have hfound : (nest text (frame :: frames) part).found path =
        (frame.before.found text inside).append (((nest text frames part).found inside).append
          (frame.after.found text inside)) := rfl
    rw [hfound, ih, List.map_cons, List.append_cons, leading, trailing]
    simp only [Findings.append_assoc, inside]

end NamespaceFrame

/-- What stands in all of some frames is a stretch of the whole. -/
theorem infix_foldr {α : Type} {around : α → List Token → List Token}
    (h : ∀ frame ts, ts <:+: around frame ts) (frames : List α) (ts : List Token) :
    ts <:+: frames.foldr around ts := by
  induction frames with
  | nil => exact List.infix_rfl
  | cons frame frames ih => exact ih.trans (h frame _)

structure Surroundings where
  before : HeaderItems
  after : HeaderItems
  /-- The namespaces around the definition. The first one is the outermost. -/
  spaces : List NamespaceFrame
  /-- The records in the innermost namespace. -/
  records : List RecordFrame
  /-- A record that stands in no other declares no members. -/
  closed : ∀ frame ∈ records.head?, ∃ semicolon, frame.ending = .closed semicolon

namespace Surroundings

def spacePath (S : Surroundings) : List String := S.spaces.map (·.start.name.val.text)

/-- The names of the namespaces and of the records. -/
def path (S : Surroundings) : List String := S.spacePath ++ S.records.map (·.name.val.text)

/-- The number of braces around the place. -/
def depth (S : Surroundings) : Nat := S.spaces.length + S.records.length

/-- The tokens, with others in the place. -/
def tokens (S : Surroundings) (ts : List Token) : List Token :=
  S.before.tokens ++ (S.spaces.foldr NamespaceFrame.tokensAround
    (S.records.foldr RecordFrame.tokensAround ts) ++ S.after.tokens)

def leading (text : String) (S : Surroundings) : Findings :=
  (S.before.found text []).append ((NamespaceFrame.leading text S.spaces []).append
    (RecordFrame.leading text S.records S.spacePath))

def trailing (text : String) (S : Surroundings) : Findings :=
  (RecordFrame.trailing text S.records S.spacePath).append
    ((NamespaceFrame.trailing text S.spaces []).append (S.after.found text []))

def around (text : String) (S : Surroundings) (d : Definition) : HeaderPart :=
  (S.before.part text).append
    ((NamespaceFrame.nest text S.spaces (RecordFrame.nest text S.records d).headerPart).append
      (S.after.part text))

variable (S : Surroundings)

/-- A definition is read in its surroundings as it is read on its own. -/
theorem read_around (hd : d.record.Read text d.found) (hending : d.ending = .closed semicolon) :
    (S.around text d).Read text := by
  obtain ⟨before, after, spaces, records, hclosed⟩ := S
  have hends : ∃ last, (RecordFrame.nest text records d).ending = .closed last := by
    cases records with
    | nil => exact ⟨semicolon, hending⟩
    | cons frame records => exact hclosed frame rfl
  obtain ⟨last, hlast⟩ := hends
  have hrecords := Definition.read_headerPart (RecordFrame.read_nest records hd) hlast
  exact (HeaderItems.read text before).append
    ((NamespaceFrame.read_nest spaces hrecords).append (HeaderItems.read text after))

variable (text d) in
theorem tokens_around : (S.around text d).tokens = S.tokens d.tokens := by
  rw [tokens, ← RecordFrame.tokens_nest text d]
  change S.before.tokens ++ ((NamespaceFrame.nest text S.spaces _).tokens ++ S.after.tokens) = _
  rw [NamespaceFrame.tokens_nest]
  rfl

/-- What is found in the definition stands between what its surroundings say. -/
theorem found_around (hending : d.ending = .closed semicolon) :
    (S.around text d).found [] = (S.leading text).append ((d.found S.path).append (S.trailing text)) := by
  have hrecords : (RecordFrame.nest text S.records d).headerPart.found S.spacePath =
      (RecordFrame.leading text S.records S.spacePath).append
        ((d.found S.path).append (RecordFrame.trailing text S.records S.spacePath)) :=
    RecordFrame.found_nest S.records hending _
  change (S.before.found text []).append (((NamespaceFrame.nest text S.spaces _).found []).append
    (S.after.found text [])) = _
  rw [NamespaceFrame.found_nest, List.nil_append, ← spacePath, hrecords, leading, trailing]
  simp only [Findings.append_assoc]

theorem infix_tokens (ts : List Token) : ts <:+: S.tokens ts := by
  have hrecords := infix_foldr RecordFrame.infix_tokensAround S.records ts
  have hspaces := infix_foldr NamespaceFrame.infix_tokensAround S.spaces
    (S.records.foldr RecordFrame.tokensAround ts)
  refine (hrecords.trans hspaces).trans ⟨S.before.tokens, S.after.tokens, ?_⟩
  rw [List.append_assoc]
  rfl

/-- A header that holds a definition in its surroundings says what they say, with what is found in
the definition in its place. -/
theorem findingsOf_eq (hd : d.record.Read text d.found) (hending : d.ending = .closed semicolon)
    (htokens : (tokensOf text).1 = S.tokens d.tokens) (hend : (tokensOf text).2.isOk = true) :
    findingsOf .header text =
      .ok ((S.leading text).append ((d.found S.path).append (S.trailing text))) := by
  have hstands := Reading.stands_new .header text
  rw [htokens, ← S.tokens_around text d, ← List.append_nil (S.around text d).tokens] at hstands
  refine findingsOf_of_yields (S.read_around hd hending _ _ _ _ rfl hstands fun c hc => ?_)
  refine (yields_fileItems_nil hc rfl hend).mono fun _ c' h' => ?_
  rw [h', ← S.found_around hending]
  rfl

end Surroundings

end ReflectionTables.Parsing
