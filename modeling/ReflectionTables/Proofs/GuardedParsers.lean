import ReflectionTables.Proofs.AnyAnswers
import ReflectionTables.Proofs.OpenScopes
/-!
# Parsers that keep to a rule

A rule allows some requests, as long as something may be assumed of what a parser has left to do. Where the
assumption holds of all that the reading of a file comes to, only such requests are made.
-/

namespace ReflectionTables.Parsing

open Scanning Reflected

variable {text : String} {α β : Type}

/-- A rule for requests, with what it assumes of a parser that is left to run, whatever follows. Every rule
lets a parser read on. -/
structure Rule where
  Assumes : ∀ {α : Type}, Parser α → Prop
  Allows : Request → Prop
  of_bind : ∀ {α β : Type} {p : Parser α} {f : α → Parser β}, Assumes (p >>= f) → Assumes p
  of_readsOn : ∀ {request : Request}, request.ReadsOn → Allows request

instance (role : FileRole) (rule : Rule) : Request.AdmitsReading role rule.Allows :=
  ⟨fun _ h => rule.of_readsOn h⟩

namespace Parser

/-- Whether a parser keeps to a rule from a reading on, and ends as said. -/
def KeepsTo (rule : Rule) (Q : α → Reading text → Prop) : Parser α → Reading text → Prop
  | done a, c => Q a c
  | ask request next, c => rule.Assumes (ask request next) → rule.Allows request ∧
      ∀ answer c', Reading.machine request c = .ok (answer, c') → (next answer).KeepsTo rule Q c'

variable {rule : Rule} {P Q : α → Reading text → Prop} {R : β → Reading text → Prop} {c : Reading text}

theorem KeepsTo.bind {p : Parser α} {f : α → Parser β} (h : p.KeepsTo rule P c)
    (hf : ∀ a c', P a c' → (f a).KeepsTo rule R c') : (p >>= f).KeepsTo rule R c := by
  induction p generalizing c with
  | done a => exact hf a c h
  | ask request next ih =>
    intro hassumes
    obtain ⟨hallows, hnext⟩ := h (rule.of_bind (p := ask request next) hassumes)
    exact ⟨hallows, fun answer c' hanswer => ih answer (hnext answer c' hanswer)⟩

theorem KeepsTo.mono {p : Parser α} (h : p.KeepsTo rule P c) (hQ : ∀ a c', P a c' → Q a c') :
    p.KeepsTo rule Q c := by
  have hbind := h.bind (f := pure) hQ
  rwa [bind_pure] at hbind

theorem keepsTo_fail {token : Token} {fault : ParseFault} : (fail token fault : Parser α).KeepsTo rule Q c :=
  fun _ => ⟨rule.of_readsOn trivial, fun answer => answer.elim⟩

theorem keepsTo_recurBy {measure : α → Nat → Nat} {body : (α → Parser β) → α → Parser β}
    (Inv : α → Reading text → Prop)
    (round : ∀ again a c, Inv a c → (∀ a' c', Inv a' c' → (again a').KeepsTo rule R c') →
      (body again a).KeepsTo rule R c)
    {a : α} (h : Inv a c) : (Parser.recurBy measure body a).KeepsTo rule R c := by
  revert c
  apply recurBy_induction fun a p => ∀ {c}, Inv a c → p.KeepsTo rule R c
  · intro a f hf c h _
    refine ⟨rule.of_readsOn trivial, fun left c' hanswer => ?_⟩
    cases hanswer
    exact hf _ h
  · exact fun a f c h _ => ⟨rule.of_readsOn trivial, fun answer => answer.elim⟩
  · exact fun again _ ih a c h => round again a c h fun a' c' h' => ih a' h'

theorem KeepsTo.of_assumes {p : Parser α} (hdone : ∀ a : α, rule.Assumes (done a))
    (h : rule.Assumes p → p.KeepsTo rule Q c) : p.KeepsTo rule Q c := by
  cases p with
  | done a => exact h (hdone a)
  | ask request next => exact fun hassumes => h hassumes hassumes

/-- A parser that makes allowed requests only, whatever it is answered, ends as its contract says. -/
theorem Obeys.keepsTo {allowed : Request → Reading text → Prop} {p : Parser α} {S : α → Prop}
    (h : p.Obeys allowed P c) (halways : p.Always c.role rule.Allows S) :
    p.KeepsTo rule (fun a c' => P a c' ∧ c'.role = c.role) c := by
  induction p generalizing c with
  | done a => exact ⟨h, rfl⟩
  | ask request next ih =>
    intro _
    refine ⟨halways.1, fun answer c' hanswer => ?_⟩
    have hobeys := (obeys_ask.1 h).2
    rw [hanswer] at hobeys
    have hrole := Reading.role_machine hanswer
    have hnext := ih answer hobeys (hrole.symm ▸ halways.2 answer (Reading.fits_machine hanswer))
    rwa [hrole] at hnext

theorem Always.keepsTo {p : Parser α} {S : α → Prop} (h : p.Always c.role rule.Allows S) :
    p.KeepsTo rule (fun a _ => S a) c := by
  induction p generalizing c with
  | done a => exact h
  | ask request next ih =>
    intro _
    refine ⟨h.1, fun answer c' hanswer => ih answer ?_⟩
    rw [Reading.role_machine hanswer]
    exact h.2 answer (Reading.fits_machine hanswer)

theorem Always.keepsTo_bind {p : Parser α} {S : α → Prop} {f : α → Parser β}
    (h : p.Always c.role rule.Allows S) (hf : ∀ a c', (f a).KeepsTo rule R c') :
    (p >>= f).KeepsTo rule R c :=
  h.keepsTo.bind fun a c' _ => hf a c'

section Reaches

variable {role : FileRole} {S : Unit → Reading text → Prop} {history : List Request}

/-- Where what the rule assumes holds of all that the reading of a file comes to, the rule allows what is
asked. -/
theorem KeepsTo.allows_of_reaches {request : Request} {next : request.Answer → Parser Unit}
    {s : ParserState text} (h : fileItems.KeepsTo rule S (.new role text))
    (hassumes : ∀ {history p s}, fileItems.Reaches ParserState.machine (.new role text) history p s →
      rule.Assumes p)
    (hreaches : fileItems.Reaches ParserState.machine (.new role text) history (ask request next) s) :
    rule.Allows request := by
  obtain ⟨c, -, -, hkeeps⟩ := exists_reading_with (fun _ p c => p.KeepsTo rule S c) h
    (fun hreaches _ hkeeps hanswer => (hkeeps (hassumes hreaches)).2 _ _ hanswer) hreaches
  exact (hkeeps (hassumes hreaches)).1

theorem KeepsTo.allows_of_mem {p : Parser Unit} {s : ParserState text}
    (h : fileItems.KeepsTo rule S (.new role text))
    (hassumes : ∀ {history p s}, fileItems.Reaches ParserState.machine (.new role text) history p s →
      rule.Assumes p)
    (hreaches : fileItems.Reaches ParserState.machine (.new role text) history p s) :
    ∀ request ∈ history, rule.Allows request := by
  induction hreaches with
  | start => exact List.forall_mem_nil _
  | step hreaches hanswer ih => exact List.forall_mem_cons.mpr ⟨h.allows_of_reaches hassumes hreaches, ih⟩

end Reaches

end Parser

end ReflectionTables.Parsing
