import Mathlib.Logic.Basic
import ReflectionTables.ParserSteps
import ReflectionTables.ReservedWords
/-!
# Parsers that are alike

Two parsers are alike if like answers make them ask for the same things. Like tokens have the same
kind and spelling, and the second one may stand deeper; their offsets, and the text that is cut
between offsets, may differ. In an exact likeness the offsets differ by a shift and the text is the
same, apart from the names of the scopes around the second text. How often a repetition may go on is
left open, since the texts may differ in length.
-/

namespace ReflectionTables.Reflected

def MemberKind.shape : MemberKind → MemberKind
  | .array _ => .array ""
  | kind => kind

def Member.shape (m : Member) : Member := ⟨m.name, "", "", m.kind.shape⟩

def ReflectedType.shape : ReflectedType → ReflectedType
  | .record type => .record ⟨type.key, "", "", type.members.map Member.shape⟩
  | .enumeration type => .enumeration ⟨"", type.enumerators⟩

def Declaration.shape (d : Declaration) : Declaration := ⟨d.tag, ""⟩

def Remark.shape : Remark → Remark
  | .unparsed _ => .unparsed ""
  | .notReflected _ => .notReflected ""

def Finding.shape : Finding → Finding
  | .type t => .type t.shape
  | .declaration d => .declaration d.shape
  | .announced _ => .announced ""
  | .remark r => .remark r.shape

def ReflectedType.renamed (rename : String → String) : ReflectedType → ReflectedType
  | .record type => .record { type with name := rename type.name }
  | .enumeration type => .enumeration { type with name := rename type.name }

def Declaration.renamed (rename : String → String) (d : Declaration) : Declaration :=
  { d with name := rename d.name }

def Remark.renamed (rename : String → String) : Remark → Remark
  | .unparsed text => .unparsed text
  | .notReflected name => .notReflected (rename name)

def Finding.renamed (rename : String → String) : Finding → Finding
  | .type t => .type (t.renamed rename)
  | .declaration d => .declaration (d.renamed rename)
  | .announced text => .announced text
  | .remark r => .remark (r.renamed rename)

end ReflectionTables.Reflected

namespace ReflectionTables.Parsing

open Text Scanning Reflected

structure Likeness where
  /-- Whether the second text repeats the first one, `shift` bytes further on. -/
  exact : Prop
  shift : Nat
  /-- Whether both texts stand at file scope. -/
  top : Prop
  /-- The number of braces around the second text. -/
  lift : Nat
  /-- The scopes around the second text, the innermost first. -/
  around : List Scope
  lift_of_top : top → lift = 0
  around_of_top : top → around = []

namespace Likeness

def atTop (exact : Prop) (shift : Nat) : Likeness := ⟨exact, shift, True, 0, [], fun _ => rfl, fun _ => rfl⟩

variable {α α' β β' γ : Type} (L : Likeness)

structure Tokens (t t' : Token) : Prop where
  kind_eq : t'.kind = t.kind
  text_eq : t'.text = t.text
  depth_eq : t'.depth = t.depth + L.lift
  offset_eq : L.exact → t'.offset = t.offset + L.shift

def Offsets (offset offset' : Nat) : Prop := L.exact → offset' = offset + L.shift

/-- Texts that are read from a file, such as a type that a member has. -/
def Texts (s s' : String) : Prop := L.exact → s' = s

/-- A name that is found in the first text, as it is found in the second one. -/
def qualify (name : String) : String :=
  "::".intercalate (L.around.reverse.map (·.segment) ++ [name])

def Names (name name' : String) : Prop := L.exact → name' = L.qualify name

/-- Values that differ at most in texts that were read from a file. -/
structure Shaped (shape : γ → γ) (x x' : γ) : Prop where
  shape_eq : shape x' = shape x
  eq : L.exact → x' = x

/-- Values that differ at most in names of scopes and in texts that were read from a file. -/
structure Found (shape : γ → γ) (renamed : (String → String) → γ → γ) (x x' : γ) : Prop where
  shape_eq : shape x' = shape x
  eq : L.exact → x' = renamed L.qualify x

/-- Faults; that of a text inside others may name the scopes around it. -/
def Faults (fault fault' : ParseFault) : Prop := L.exact → L.top → fault'.message = fault.message

variable {L}

namespace Tokens

variable {t t' : Token}

theorem offsets (h : L.Tokens t t') : L.Offsets t.offset t'.offset := h.offset_eq

theorem stops (h : L.Tokens t t') : L.Offsets t.stop t'.stop := by
  intro hexact
  rw [Token.stop, Token.stop, h.text_eq, h.offset_eq hexact]
  omega

theorem reserved?_eq (h : L.Tokens t t') : t'.reserved? = t.reserved? := by
  rw [Token.reserved?, Token.reserved?, h.kind_eq, h.text_eq]

theorem isWord_eq (h : L.Tokens t t') (word : String) : t'.isWord word = t.isWord word := by
  rw [Token.isWord, Token.isWord, h.kind_eq, h.text_eq]

theorem shown_eq (h : L.Tokens t t') : t'.shown = t.shown := by
  rw [Token.shown, Token.shown, h.kind_eq, h.text_eq]

/-- A brace closes another one in both texts or in none. -/
theorem depth_eq_iff {u u' : Token} (h : L.Tokens t t') (hu : L.Tokens u u') :
    t'.depth = u'.depth ↔ t.depth = u.depth := by
  rw [h.depth_eq, hu.depth_eq, Nat.add_right_cancel_iff]

end Tokens

theorem qualify_of_top (h : L.top) (name : String) : L.qualify name = name := by
  rw [qualify, L.around_of_top h]
  rfl

theorem Names.eq {name name' : String} (h : L.Names name name') (hexact : L.exact) (htop : L.top) :
    name' = name := by
  rw [h hexact, qualify_of_top htop]

theorem Offsets.add {offset offset' : Nat} (h : L.Offsets offset offset') (n : Nat) :
    L.Offsets (offset + n) (offset' + n) := by
  intro hexact
  have := h hexact
  omega

theorem Shaped.of_eq {shape : γ → γ} {x x' : γ} (h : x' = x) : L.Shaped shape x x' :=
  ⟨by rw [h], fun _ => h⟩

theorem faults_expected {t t' : Token} {what what' : Expectation} (ht : L.Tokens t t')
    (h : L.exact → L.top → what'.text = what.text) :
    L.Faults (.expected what t) (.expected what' t') := by
  intro hexact htop
  rw [ParseFault.message, ParseFault.message, ht.shown_eq, h hexact htop]

theorem faults_unexpected {t t' : Token} {place place' : Place} (ht : L.Tokens t t')
    (h : L.exact → L.top → place'.text = place.text) :
    L.Faults (.unexpected t place) (.unexpected t' place') := by
  intro hexact htop
  rw [ParseFault.message, ParseFault.message, ht.shown_eq, h hexact htop]

open Parsing.Parser

/-- Two parsers that ask for the same as long as the answers are alike. Only at file scope they may
look for the end of the text. One that has stalled compares to any other. -/
inductive Alike (L : Likeness) {α α' : Type} (R : α → α' → Prop) : Parser α → Parser α' → Prop
  | done {a : α} {a' : α'} (h : R a a') : Alike L R (done a) (done a')
  | role {k : FileRole → Parser α} {k' : FileRole → Parser α'}
      (h : ∀ role, Alike L R (k role) (k' role)) : Alike L R (ask .role k) (ask .role k')
  | next {k : Token → Parser α} {k' : Token → Parser α'}
      (h : ∀ t t', L.Tokens t t' → Alike L R (k t) (k' t')) :
    Alike L R (ask .next k) (ask .next k')
  | nextOrEnd {k : Token → Parser α} {k' : Token → Parser α'} (htop : L.top)
      (h : ∀ t t', L.Tokens t t' → Alike L R (k t) (k' t')) :
    Alike L R (ask .nextOrEnd k) (ask .nextOrEnd k')
  | lookAt {n : Nat} {k : Token → Parser α} {k' : Token → Parser α'}
      (h : ∀ t t', L.Tokens t t' → Alike L R (k t) (k' t')) :
    Alike L R (ask (.lookAt n) k) (ask (.lookAt n) k')
  | putBack {t t' : Token} {k : Unit → Parser α} {k' : Unit → Parser α'} (ht : L.Tokens t t')
      (h : Alike L R (k ()) (k' ())) : Alike L R (ask (.putBack t) k) (ask (.putBack t') k')
  | enter {segment segment' : String} {opening opening' : Token} {k : Unit → Parser α}
      {k' : Unit → Parser α'} (hsegment : L.Texts segment segment')
      (hopening : L.Tokens opening opening') (h : Alike L R (k ()) (k' ())) :
    Alike L R (ask (.enter segment opening) k) (ask (.enter segment' opening') k')
  | enclosingName {k : String → Parser α} {k' : String → Parser α'}
      (h : ∀ name name', L.Names name name' → Alike L R (k name) (k' name')) :
    Alike L R (ask .enclosingName k) (ask .enclosingName k')
  | depth {k : Nat → Parser α} {k' : Nat → Parser α'}
      (h : ∀ depth, Alike L R (k depth) (k' (depth + L.lift))) :
    Alike L R (ask .depth k) (ask .depth k')
  | tokensLeft {k : Nat → Parser α} {k' : Nat → Parser α'}
      (h : ∀ left left', Alike L R (k left) (k' left')) :
    Alike L R (ask .tokensLeft k) (ask .tokensLeft k')
  | cut {what : Cut} {start start' stop stop' : Nat} {k : String → Parser α}
      {k' : String → Parser α'} (hwhat : what ≠ .token ∧ what ≠ .parameterName)
      (hstart : L.Offsets start start') (hstop : L.Offsets stop stop')
      (h : ∀ piece piece', L.Texts piece piece' → Alike L R (k piece) (k' piece')) :
    Alike L R (ask (.cut what start stop) k) (ask (.cut what start' stop') k')
  | note {finding finding' : Finding} {k : Unit → Parser α} {k' : Unit → Parser α'}
      (hfinding : L.Found Finding.shape Finding.renamed finding finding') (h : Alike L R (k ()) (k' ())) :
    Alike L R (ask (.note finding) k) (ask (.note finding') k')
  | reject {t t' : Token} {fault fault' : ParseFault} {k : Empty → Parser α}
      {k' : Empty → Parser α'} (ht : L.Tokens t t') (hfault : L.Faults fault fault') :
    Alike L R (ask (.reject t fault) k) (ask (.reject t' fault') k')
  | abort {what : Cut} {k : Empty → Parser α} {k' : Empty → Parser α'} :
    Alike L R (ask (.abort what) k) (ask (.abort what) k')
  | stalled {k : Empty → Parser α} {p' : Parser α'} : Alike L R (ask .stall k) p'
  | stalled' {p : Parser α} {k' : Empty → Parser α'} : Alike L R p (ask .stall k')

variable {P : α → α' → Prop} {R : β → β' → Prop}

theorem Alike.bind {p : Parser α} {p' : Parser α'} {f : α → Parser β} {f' : α' → Parser β'}
    (h : L.Alike P p p') (hf : ∀ a a', P a a' → L.Alike R (f a) (f' a')) :
    L.Alike R (p >>= f) (p' >>= f') := by
  induction h with
  | done h => exact hf _ _ h
  | role _ ih => exact .role fun role => ih role
  | next _ ih => exact .next fun t t' ht => ih t t' ht
  | nextOrEnd htop _ ih => exact .nextOrEnd htop fun t t' ht => ih t t' ht
  | lookAt _ ih => exact .lookAt fun t t' ht => ih t t' ht
  | putBack ht _ ih => exact .putBack ht ih
  | enter hsegment hopening _ ih => exact .enter hsegment hopening ih
  | enclosingName _ ih => exact .enclosingName fun name name' hname => ih name name' hname
  | depth _ ih => exact .depth fun depth => ih depth
  | tokensLeft _ ih => exact .tokensLeft fun left left' => ih left left'
  | cut hwhat hstart hstop _ ih =>
    exact .cut hwhat hstart hstop fun piece piece' hpiece => ih piece piece' hpiece
  | note hfinding _ ih => exact .note hfinding ih
  | reject ht hfault => exact .reject ht hfault
  | abort => exact .abort
  | stalled => exact .stalled
  | stalled' => exact .stalled'

theorem Alike.discard {p : Parser α} {p' : Parser α'} (h : L.Alike P p p') :
    L.Alike (fun _ _ => True) (Functor.discard p) (Functor.discard p') :=
  h.bind fun _ _ _ => .done trivial

theorem Alike.discard_bind {p : Parser α} {p' : Parser α'} {f : Unit → Parser β}
    {f' : Unit → Parser β'} (h : L.Alike P p p') (hf : L.Alike R (f ()) (f' ())) :
    L.Alike R (Functor.discard p >>= f) (Functor.discard p' >>= f') :=
  h.discard.bind fun _ _ _ => hf

theorem Alike.ite {c : Prop} [Decidable c] {p q : Parser α} {p' q' : Parser α'}
    (hp : c → L.Alike P p p') (hq : ¬c → L.Alike P q q') :
    L.Alike P (if c then p else q) (if c then p' else q') := by
  by_cases h : c
  · rw [if_pos h, if_pos h]
    exact hp h
  · rw [if_neg h, if_neg h]
    exact hq h

/-- Repetitions are alike if their rounds are, whatever the bounds. -/
theorem alike_recurBy {measure : α → Nat → Nat} {measure' : α' → Nat → Nat}
    {body : (α → Parser β) → α → Parser β} {body' : (α' → Parser β') → α' → Parser β'}
    (Q : α → α' → Prop)
    (round : ∀ again again', (∀ a a', Q a a' → L.Alike R (again a) (again' a')) →
      ∀ a a', Q a a' → L.Alike R (body again a) (body' again' a')) {a : α} {a' : α'}
    (h : Q a a') : L.Alike R (recurBy measure body a) (recurBy measure' body' a') := by
  have hfrom : ∀ bound bound' a a', Q a a' →
      L.Alike R (recurFrom measure body bound a) (recurFrom measure' body' bound' a') := by
    intro bound
    induction bound using Nat.strongRecOn with
    | ind bound ih =>
      intro bound' a a' h
      rw [recurFrom, recurFrom]
      refine round _ _ (fun b b' hb => .tokensLeft fun left left' => ?_) a a' h
      by_cases hlt : measure b left < bound
      · by_cases hlt' : measure' b' left' < bound'
        · rw [if_pos hlt, if_pos hlt']
          exact ih _ hlt _ b b' hb
        · rw [if_neg hlt']
          exact .stalled'
      · rw [if_neg hlt]
        exact .stalled
  exact .tokensLeft fun left left' => hfrom _ _ a a' h

theorem alike_recur {body : (α → Parser β) → α → Parser β}
    {body' : (α' → Parser β') → α' → Parser β'} (Q : α → α' → Prop)
    (round : ∀ again again', (∀ a a', Q a a' → L.Alike R (again a) (again' a')) →
      ∀ a a', Q a a' → L.Alike R (body again a) (body' again' a')) {a : α} {a' : α'}
    (h : Q a a') : L.Alike R (recur body a) (recur body' a') :=
  alike_recurBy Q round h

theorem alike_loop {body : Parser β → Parser β} {body' : Parser β' → Parser β'}
    (round : ∀ again again', L.Alike R again again' → L.Alike R (body again) (body' again')) :
    L.Alike R (loop body) (loop body') :=
  alike_recur (fun _ _ => True)
    (fun again again' ih _ _ _ => round (again ()) (again' ()) (ih () () trivial)) trivial

theorem alike_next : L.Alike L.Tokens next next := .next fun _ _ ht => .done ht

theorem alike_nextOrEnd [Fact L.top] : L.Alike L.Tokens nextOrEnd nextOrEnd :=
  .nextOrEnd Fact.out fun _ _ ht => .done ht

theorem alike_lookAt (n : Nat) : L.Alike L.Tokens (lookAt n) (lookAt n) :=
  .lookAt fun _ _ ht => .done ht

variable {t t' : Token}

theorem alike_putBack (h : L.Tokens t t') :
    L.Alike (fun _ _ => True) (putBack t) (putBack t') :=
  .putBack h (.done trivial)

theorem alike_fail {fault fault' : ParseFault} (ht : L.Tokens t t') (h : L.Faults fault fault') :
    L.Alike P (fail t fault) (fail t' fault') :=
  .reject ht h

theorem alike_failExpected {what : Expectation} (ht : L.Tokens t t') :
    L.Alike P (fail t (.expected what t)) (fail t' (.expected what t')) :=
  alike_fail ht (faults_expected ht fun _ _ => rfl)

theorem alike_nextIf {skips : Bool} (h : L.Tokens t t') :
    L.Alike L.Tokens (nextIf skips t) (nextIf skips t') := by
  rw [nextIf, nextIf]
  exact .ite (fun _ => alike_next) fun _ => .done h

theorem alike_expect (kind : TokenKind) (what : Expectation) :
    L.Alike L.Tokens (expect kind what) (expect kind what) := by
  refine alike_next.bind fun t t' ht => ?_
  rw [ht.kind_eq]
  exact .ite (fun _ => .done ht) fun _ => alike_failExpected ht

theorem alike_roleOfFile : L.Alike Eq roleOfFile roleOfFile := .role fun _ => .done rfl

theorem alike_enclosingName : L.Alike L.Names enclosingName enclosingName :=
  .enclosingName fun _ _ hname => .done hname

theorem alike_enter {segment segment' : String} (hsegment : L.Texts segment segment')
    (h : L.Tokens t t') : L.Alike (fun _ _ => True) (enter segment t) (enter segment' t') :=
  .enter hsegment h (.done trivial)

variable {start start' stop stop' : Nat}

theorem alike_cut {what : Cut} (hwhat : what ≠ .token ∧ what ≠ .parameterName)
    (hstart : L.Offsets start start') (hstop : L.Offsets stop stop') :
    L.Alike L.Texts (cut what start stop) (cut what start' stop') :=
  .cut hwhat hstart hstop fun _ _ hpiece => .done hpiece

theorem alike_span (hstart : L.Offsets start start') (hstop : L.Offsets stop stop') :
    L.Alike L.Texts (span start stop) (span start' stop') :=
  (alike_cut (by simp) hstart hstop).bind fun _ _ hpiece => .done fun hexact => by
    rw [hpiece hexact]

theorem alike_note {finding finding' : Finding}
    (h : L.Found Finding.shape Finding.renamed finding finding') :
    L.Alike (fun _ _ => True) (note finding) (note finding') :=
  .note h (.done trivial)

theorem alike_noteDeclaration {d d' : Declaration}
    (h : L.Found Declaration.shape Declaration.renamed d d') :
    L.Alike (fun _ _ => True) (noteDeclaration d) (noteDeclaration d') :=
  alike_note ⟨congrArg Finding.declaration h.shape_eq, fun hexact => by rw [h.eq hexact]; rfl⟩

theorem alike_noteType {type type' : ReflectedType}
    (h : L.Found ReflectedType.shape ReflectedType.renamed type type') :
    L.Alike (fun _ _ => True) (noteType type) (noteType type') :=
  alike_note ⟨congrArg Finding.type h.shape_eq, fun hexact => by rw [h.eq hexact]; rfl⟩

theorem alike_remark {r r' : Remark} (h : L.Found Remark.shape Remark.renamed r r') :
    L.Alike (fun _ _ => True) (remark r) (remark r') :=
  alike_note ⟨congrArg Finding.remark h.shape_eq, fun hexact => by rw [h.eq hexact]; rfl⟩

theorem alike_remarkUnparsed (hstart : L.Offsets start start') (hstop : L.Offsets stop stop') :
    L.Alike (fun _ _ => True) (remarkUnparsed start stop) (remarkUnparsed start' stop') :=
  (alike_span hstart hstop).bind fun _ _ hpiece =>
    alike_remark ⟨rfl, fun hexact => by rw [hpiece hexact]; rfl⟩

theorem alike_noteExtern {s s' : String} (h : L.Texts s s') :
    L.Alike (fun _ _ => True) (noteExtern s) (noteExtern s') := by
  refine alike_roleOfFile.bind fun role _ hrole => ?_
  subst hrole
  exact .ite (fun _ => alike_note ⟨rfl, fun hexact => by rw [h hexact]; rfl⟩) fun _ => .done trivial

end Likeness

end ReflectionTables.Parsing
