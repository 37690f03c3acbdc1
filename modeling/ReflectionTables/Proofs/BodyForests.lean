import Mathlib.Data.List.Perm.Subperm
import ReflectionTables.Proofs.ScannedTokens
import ReflectionTables.ReflectedTypes
/-!
# The bodies of a text form a forest

Each body lies between two braces, and a record has the bodies in it. Names are announced in the order in
which bodies are entered. In the order in which they are left, each gives a type, or is dropped because its
name depends on the parameters of a record around it, or says nothing, because it is a record without
members.
-/

namespace ReflectionTables.Reflected

open Scanning

/-- Bodies in the order in which they are entered. -/
inductive Bodies
  | none
  | enumeration (type : EnumType) (opening closing : Token) (rest : Bodies)
  | record (type : RecordType) (opening closing : Token) (inner rest : Bodies)

/-- What the end of a body adds to what is known. -/
inductive Return
  | reflected (type : ReflectedType)
  | dropped (declaration : Declaration)
deriving DecidableEq, Repr

def ReflectedType.declaration : ReflectedType → Declaration
  | .record type => ⟨.record type.key, type.name⟩
  | .enumeration type => ⟨.enumeration, type.name⟩

def Return.declaration : Return → Declaration
  | .reflected type => type.declaration
  | .dropped declaration => declaration

def Return.type? : Return → Option ReflectedType
  | .reflected type => some type
  | .dropped _ => .none

def Return.dropped? : Return → Option Declaration
  | .reflected _ => .none
  | .dropped declaration => some declaration

/-- What a type leaves: it is dropped if its name depends on parameters. -/
def ReflectedType.return (type : ReflectedType) (dependent : Bool) : Return :=
  if dependent then .dropped type.declaration else .reflected type

/-- What a record leaves; one without members leaves nothing. -/
def RecordType.returns (type : RecordType) (dependent : Bool) : List Return :=
  if type.members = [] then [] else [(ReflectedType.record type).return dependent]

@[simp] theorem ReflectedType.declaration_return (type : ReflectedType) (dependent : Bool) :
    (type.return dependent).declaration = type.declaration := by
  cases dependent <;> rfl

namespace Bodies

def append : Bodies → Bodies → Bodies
  | .none, bodies => bodies
  | .enumeration type opening closing rest, bodies =>
    .enumeration type opening closing (rest.append bodies)
  | .record type opening closing inner rest, bodies =>
    .record type opening closing inner (rest.append bodies)

/-- The declarations of the bodies, in the order in which they are entered. -/
def declarations : Bodies → List Declaration
  | .none => []
  | .enumeration type _ _ rest => (ReflectedType.enumeration type).declaration :: rest.declarations
  | .record type _ _ inner rest =>
    (ReflectedType.record type).declaration :: (inner.declarations ++ rest.declarations)

/-- What the bodies leave, in the order in which they are left. Bodies in a record depend on its
parameters, and on those that the record depends on. -/
def returns (dependent : Bool) : Bodies → List Return
  | .none => []
  | .enumeration type _ _ rest =>
    (ReflectedType.enumeration type).return dependent :: rest.returns dependent
  | .record type _ _ inner rest =>
    inner.returns (dependent || type.generic != "") ++
      (type.returns dependent ++ rest.returns dependent)

structure Braces (text : String) (opening closing : Token) : Prop where
  opening_mem : opening ∈ (tokensOf text).1
  closing_mem : closing ∈ (tokensOf text).1
  opening_kind : opening.kind = .lBrace
  closing_kind : closing.kind = .rBrace
  depth_eq : closing.depth = opening.depth

/-- Whether bodies stand in a text one after the other, between two offsets. -/
def StandIn (text : String) : Nat → Nat → Bodies → Prop
  | low, high, .none => low ≤ high
  | low, high, .enumeration _ opening closing rest =>
    Braces text opening closing ∧ low ≤ opening.offset ∧ opening.stop ≤ closing.offset ∧
      rest.StandIn text closing.stop high
  | low, high, .record _ opening closing inner rest =>
    Braces text opening closing ∧ low ≤ opening.offset ∧
      inner.StandIn text opening.stop closing.offset ∧ rest.StandIn text closing.stop high

def OwnMembers : Bodies → Prop
  | .none => True
  | .enumeration _ _ _ rest => rest.OwnMembers
  | .record type _ _ inner rest =>
    (∀ m ∈ type.members, m.generic = type.generic) ∧ inner.OwnMembers ∧ rest.OwnMembers

theorem OwnMembers.of_reflected {bodies : Bodies} {type : RecordType} {dependent : Bool}
    (h : bodies.OwnMembers) (htype : .reflected (.record type) ∈ bodies.returns dependent) :
    type.members ≠ [] ∧ ∀ m ∈ type.members, m.generic = type.generic := by
  induction bodies generalizing dependent with
  | none => cases htype
  | enumeration enum opening closing rest ih =>
    rcases List.mem_cons.1 htype with hself | htype
    · cases dependent <;> cases hself
    · exact ih h htype
  | record record opening closing inner rest ihinner ih =>
    obtain ⟨hmembers, hinner, hrest⟩ := h
    rcases List.mem_append.1 htype with htype | htype
    · exact ihinner hinner htype
    rcases List.mem_append.1 htype with hself | htype
    · rw [RecordType.returns] at hself
      split at hself
      · cases hself
      · rename_i hnil
        cases dependent <;> cases List.mem_singleton.1 hself
        exact ⟨hnil, hmembers⟩
    · exact ih hrest htype

/-- Every return is that of a body, and no body returns twice. -/
theorem returns_subperm (dependent : Bool) (bodies : Bodies) :
    ((bodies.returns dependent).map Return.declaration).Subperm bodies.declarations := by
  induction bodies generalizing dependent with
  | none => exact .refl []
  | enumeration type opening closing rest ih =>
    rw [returns, declarations, List.map_cons, ReflectedType.declaration_return, List.subperm_cons]
    exact ih dependent
  | record type opening closing inner rest ihinner ih =>
    have hinner := ihinner (dependent || type.generic != "")
    have hrest := ih dependent
    rw [returns, declarations, List.map_append, List.map_append]
    by_cases hmembers : type.members = []
    · rw [RecordType.returns, if_pos hmembers, List.map_nil, List.nil_append]
      exact (hinner.append hrest).cons_right _
    · rw [RecordType.returns, if_neg hmembers, List.map_singleton, ReflectedType.declaration_return,
        List.singleton_append]
      exact List.perm_middle.subperm.trans ((List.subperm_cons _).2 (hinner.append hrest))

end Bodies

theorem perm_returns (returns : List Return) :
    ((returns.filterMap Return.type?).map ReflectedType.declaration ++
      returns.filterMap Return.dropped?).Perm (returns.map Return.declaration) := by
  induction returns with
  | nil => exact .refl _
  | cons r returns ih =>
    cases r with
    | reflected type => exact ih.cons _
    | dropped declaration => exact List.perm_middle.trans (ih.cons _)

def Remark.dropped? : Remark → Option String
  | .notReflected name => some name
  | .unparsed _ => none

/-- The names that were dropped. -/
def Findings.dropped (f : Findings) : List String := f.remarks.filterMap Remark.dropped?

end ReflectionTables.Reflected
