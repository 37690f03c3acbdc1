import ReflectionTables.Proofs.AggregateLines
/-!
# What a header describes can be read off its text

Its lines are told apart by how they start, so blocks of lines that follow each other are found
again one by one, and a line gives back the text that was put between its fixed parts.
-/

namespace ReflectionTables.Reflected

open Text

inductive Shown
  | record (name generic : String) (members : List (String × MemberKind))
  | enumeration (name : String) (enumerators : List String)
deriving DecidableEq, Repr

def Member.shown (member : Member) : String × MemberKind := (member.name, member.kind)

def RecordType.shown (type : RecordType) : Shown :=
  .record type.name type.generic (type.members.map Member.shown)

def EnumType.shown (type : EnumType) : Shown := .enumeration type.name type.enumerators

def ReflectedType.shown : ReflectedType → Shown
  | .record type => type.shown
  | .enumeration type => type.shown

/-- Whether the texts of a record that are written into a header are on one line. -/
def RecordType.OnOneLine (type : RecordType) : Prop :=
  OneLine type.name ∧ OneLine type.generic ∧
    ∀ member ∈ type.members, OneLine member.name ∧ OneLine member.kind.arity

def EnumType.OnOneLine (type : EnumType) : Prop :=
  OneLine type.name ∧ ∀ enumerator ∈ type.enumerators, OneLine enumerator

def ReflectedType.OnOneLine : ReflectedType → Prop
  | .record type => type.OnOneLine
  | .enumeration type => type.OnOneLine

instance : DecidablePred RecordType.OnOneLine := fun _ => inferInstanceAs (Decidable (_ ∧ _))

instance : DecidablePred EnumType.OnOneLine := fun _ => inferInstanceAs (Decidable (_ ∧ _))

instance : DecidablePred ReflectedType.OnOneLine
  | .record type => inferInstanceAs (Decidable type.OnOneLine)
  | .enumeration type => inferInstanceAs (Decidable type.OnOneLine)

end ReflectionTables.Reflected

namespace ReflectionTables.Generation

open Text Reflected

variable {a b c p s x y : String}

theorem eq_of_between (h : p ++ x ++ s = p ++ y ++ s) : x = y := by
  rw [String.append_left_inj, String.append_right_inj] at h
  exact h

/-- What stands at both places of the same text. -/
theorem eq_of_twice (h : a ++ x ++ b ++ x ++ c = a ++ y ++ b ++ y ++ c) : x = y := by
  have hlist := congrArg String.toList ((String.append_left_inj _).mp h)
  simp only [String.toList_append] at hlist
  have hlength := congrArg List.length hlist
  simp only [List.length_append] at hlength
  exact String.toList_inj.mp (List.append_inj_right' hlist (by omega))

/-- Whether no text starts with both of two texts. -/
def Apart (a b : String) : Prop := ¬ a.toList <+: b.toList ∧ ¬ b.toList <+: a.toList

instance (a b : String) : Decidable (Apart a b) := inferInstanceAs (Decidable (_ ∧ _))

theorem apart_ofList {as bs : List Char} (h : ¬ as <+: bs ∧ ¬ bs <+: as) :
    Apart (String.ofList as) (String.ofList bs) := by
  rw [Apart, String.toList_ofList, String.toList_ofList]
  exact h

theorem Apart.symm (h : Apart a b) : Apart b a := And.symm h

theorem Apart.append (h : Apart a b) : Apart a (b ++ c) := by
  rw [Apart, String.toList_append]
  constructor
  · intro hprefix
    obtain hle | hle := List.prefix_or_prefix_of_prefix hprefix (List.prefix_append _ _)
    · exact h.1 hle
    · exact h.2 hle
  · intro hprefix
    exact h.2 ((List.prefix_append _ _).trans hprefix)

theorem Apart.ne (h : Apart a b) : a ≠ b := by
  rintro rfl
  exact h.1 (List.prefix_refl _)

theorem Apart.startsWith_eq_false (h : Apart a b) : b.startsWith a = false := by
  rw [Bool.eq_false_iff, ne_eq, String.startsWith_string_iff]
  exact h.1

variable {α β : Type} {rest rest' : List String}

/-- Whether blocks of lines show what they were written for, whatever lines follow. -/
def ToldBy (print : α → List String) (shows : α → β) : Prop :=
  ∀ a b rest rest', print a ++ rest = print b ++ rest' → shows a = shows b ∧ rest = rest'

/-- It is enough that blocks are written from what they show. -/
theorem toldBy_of_shows {print : α → List String} {shows : α → β}
    (hshows : ∀ a b rest rest', print a ++ rest = print b ++ rest' → shows a = shows b)
    (hprint : ∀ a b, shows a = shows b → print a = print b) : ToldBy print shows := by
  intro a b rest rest' h
  have heq := hshows a b rest rest' h
  rw [hprint a b heq] at h
  exact ⟨heq, List.append_cancel_left h⟩

/-- Blocks one after the other show what they were written for, if no block looks like their end. -/
theorem ToldBy.flatMap {print : α → List String} {shows : α → β} (h : ToldBy print shows)
    {Ends : List String → Prop} (hends : ∀ a tail, ¬ Ends (print a ++ tail)) (hrest : Ends rest)
    (hrest' : Ends rest') {as bs : List α} (heq : as.flatMap print ++ rest = bs.flatMap print ++ rest') :
    as.map shows = bs.map shows ∧ rest = rest' := by
  induction as generalizing bs with
  | nil =>
    cases bs with
    | nil => exact ⟨rfl, heq⟩
    | cons b bs =>
      rw [List.flatMap_nil, List.nil_append, List.flatMap_cons, List.append_assoc] at heq
      rw [heq] at hrest
      exact absurd hrest (hends _ _)
  | cons a as ih =>
    cases bs with
    | nil =>
      rw [List.flatMap_nil, List.nil_append, List.flatMap_cons, List.append_assoc] at heq
      rw [← heq] at hrest'
      exact absurd hrest' (hends _ _)
    | cons b bs =>
      rw [List.flatMap_cons, List.flatMap_cons, List.append_assoc, List.append_assoc] at heq
      obtain ⟨hshows, heq⟩ := h a b _ _ heq
      obtain ⟨hmap, hrest⟩ := ih heq
      rw [List.map_cons, List.map_cons, hshows, hmap]
      exact ⟨rfl, hrest⟩

def ClosesTable (lines : List String) : Prop := lines.head? = some "    \x7d;"

theorem closesTable_cons : ClosesTable ("    \x7d;" :: rest) := rfl

theorem not_closesTable_cons (h : Apart "    \x7d;" a) : ¬ ClosesTable (a :: rest) := by
  intro hhead
  exact h.ne (Option.some.inj hhead).symm

variable {member member' : Member} {kind kind' : MemberKind}

def rowStart (name size : String) : String := s!"        \x7b \"{name}\", offsetof(Self, {name}), {size}, "

def rowHead (member : Member) : String :=
  rowStart member.name (sizeText member) ++ ("(" ++ member.kind.arity ++ "), ") ++ kindName member.kind ++ ","

theorem rowLines_eq_cons (member : Member) : rowLines member = rowHead member :: (rowLines member).tail := by
  have hassoc (a b c d : String) : a ++ (b ++ c ++ d) = a ++ b ++ c ++ d := by
    rw [← String.append_assoc, ← String.append_assoc]
  exact congrArg (List.cons · _) (hassoc _ _ _ _)

theorem rowLines_eq_of_shown (h : member.shown = member'.shown) : rowLines member = rowLines member' := by
  have hname : member.name = member'.name := congrArg Prod.fst h
  have hkind : member.kind = member'.kind := congrArg Prod.snd h
  simp only [rowLines, sizeText, textLines, viewLines, hname, hkind]

theorem kindName_eq_of_ends (h : a ++ kindName kind ++ "," = b ++ kindName kind' ++ ",") :
    kindName kind = kindName kind' := by
  rw [String.append_left_inj] at h
  have hends : (kindName kind).toList <:+ (kindName kind').toList ∨
      (kindName kind').toList <:+ (kindName kind).toList := by
    have hl : (kindName kind).toList <:+ (a ++ kindName kind).toList := by simp
    have hr : (kindName kind').toList <:+ (a ++ kindName kind).toList := by simp [h]
    exact List.suffix_or_suffix_of_suffix hl hr
  revert hends
  cases kind <;> cases kind' <;> simp only [kindName] <;> decide

/-- The first line of a row shows the kind, and of an array the number of its elements. -/
theorem kind_eq_of_rowHead (hname : member.name = member'.name) (h : rowHead member = rowHead member') :
    member.kind = member'.kind := by
  have hkindName : kindName member.kind = kindName member'.kind := kindName_eq_of_ends h
  rw [rowHead, rowHead, hkindName, String.append_left_inj, String.append_left_inj] at h
  cases hkind : member.kind with
  | array arity =>
    cases hkind' : member'.kind with
    | array arity' =>
      have hsize : sizeText member = sizeText member' := by
        rw [sizeText, sizeText, hkind, hkind', hname]
      rw [hname, hsize, hkind, hkind', String.append_right_inj] at h
      exact congrArg MemberKind.array (eq_of_between h)
    | value | pointer | reference =>
      rw [hkind, hkind'] at hkindName
      revert hkindName
      simp [kindName]
  | value | pointer | reference =>
    cases hkind' : member'.kind <;> rw [hkind, hkind'] at hkindName <;> revert hkindName <;> simp [kindName]

/-- Rows show the names and kinds of members. -/
theorem toldBy_rowLines : ToldBy rowLines Member.shown := by
  apply toldBy_of_shows
  · intro member member' rest rest' h
    have hhead : rowHead member = rowHead member' := by
      rw [rowLines_eq_cons member, rowLines_eq_cons member', List.cons_append, List.cons_append] at h
      exact (List.cons.inj h).1
    simp only [rowLines, List.append_assoc, List.cons_append, List.nil_append, List.cons.injEq] at h
    have hname : member.name = member'.name := eq_of_between h.2.2.1
    rw [Member.shown, Member.shown, hname, kind_eq_of_rowHead hname hhead]
  · intro member member'
    exact rowLines_eq_of_shown

theorem apart_rowHead (h : Apart a "        \x7b \"") (member : Member) : Apart a (rowHead member) := by
  repeat' apply Apart.append
  exact h

theorem not_closesTable_rowLines (member : Member) (tail : List String) :
    ¬ ClosesTable (rowLines member ++ tail) := by
  rw [rowLines_eq_cons]
  exact not_closesTable_cons (apart_rowHead (by decide) member)

variable {generic generic' : String} {type type' : RecordType}

/-- The line of a parameter list shows the list, and it is not taken for what follows it. -/
theorem generic_eq_of_templateLines (ha : Apart a "template <") (hb : Apart b "template <")
    (h : templateLines generic ++ a :: rest = templateLines generic' ++ b :: rest') :
    generic = generic' ∧ a = b ∧ rest = rest' := by
  simp only [templateLines] at h
  split at h <;> split at h
  · rename_i hnone hnone'
    exact ⟨hnone.trans hnone'.symm, List.cons.inj h⟩
  · exact absurd (List.cons.inj h).1 ha.append.append.ne
  · exact absurd (List.cons.inj h).1 hb.append.append.ne.symm
  · obtain ⟨hline, hrest⟩ := List.cons.inj h
    exact ⟨eq_of_between hline, List.cons.inj hrest⟩

theorem recordLines_eq_of_shown (h : type.shown = type'.shown) : recordLines type = recordLines type' := by
  obtain ⟨hname, hgeneric, hmembers⟩ := Shown.record.inj h
  have hrows (members : List Member) : members.flatMap rowLines =
      (members.map Member.shown).flatMap fun shown => rowLines ⟨shown.1, "", "", shown.2⟩ := by
    rw [List.flatMap_map]
    rfl
  have hlength : type.members.length = type'.members.length := by
    simpa using congrArg List.length hmembers
  simp only [recordLines, tableLines, recordTextLines, recordViewLines, hrows, hname, hgeneric, hmembers, hlength]

theorem apart_fieldsOf (h : Apart a "inline const FieldTable& FieldsOf(const ") (name : String) :
    Apart a s!"inline const FieldTable& FieldsOf(const {name}*) \x7b" :=
  h.append.append

theorem shown_eq_of_recordLines (h : recordLines type ++ rest = recordLines type' ++ rest') :
    type.shown = type'.shown := by
  simp only [recordLines, tableLines, List.append_assoc, List.cons_append, List.nil_append] at h
  obtain ⟨hgeneric, hline, hlines⟩ := generic_eq_of_templateLines
    (apart_fieldsOf (by decide) _).symm (apart_fieldsOf (by decide) _).symm h
  simp only [List.cons.injEq, true_and] at hlines
  have hname : type.name = type'.name := eq_of_between hline
  have hmembers := (toldBy_rowLines.flatMap not_closesTable_rowLines closesTable_cons closesTable_cons
    hlines.2).1
  rw [RecordType.shown, RecordType.shown, hname, hgeneric, hmembers]

variable {name enumerator enumerator' : String} {entries : EnumType}

theorem toldBy_enumeratorLine (name : String) :
    ToldBy (fun enumerator => [enumeratorLine name enumerator]) id := by
  intro enumerator enumerator' rest rest' h
  obtain ⟨hline, hrest⟩ := List.cons.inj h
  have heq : enumerator = enumerator' := eq_of_twice hline
  exact ⟨heq, hrest⟩

theorem not_closesTable_enumeratorLine (enumerator : String) (tail : List String) :
    ¬ ClosesTable ([enumeratorLine name enumerator] ++ tail) := by
  apply not_closesTable_cons
  repeat' apply Apart.append
  decide

theorem shown_eq_of_enumLines {entries' : EnumType} (h : enumLines entries ++ rest = enumLines entries' ++ rest') :
    entries.shown = entries'.shown := by
  simp only [enumLines, List.append_assoc, List.cons_append, List.nil_append, List.cons.injEq] at h
  obtain ⟨hline, hlines⟩ := h
  have hname : entries.name = entries'.name := eq_of_between hline
  have hapart (name : String) : Apart "    (void)value;" s!"    static const EnumName<{name}> names[] = \x7b" :=
    (show Apart _ "    static const EnumName<" by decide).append.append
  suffices henumerators : entries.enumerators = entries'.enumerators by
    rw [EnumType.shown, EnumType.shown, hname, henumerators]
  split at hlines <;> split at hlines
  · rename_i hnone hnone'
    exact hnone.trans hnone'.symm
  · exact absurd (List.cons.inj hlines).1 (hapart _).ne
  · exact absurd (List.cons.inj hlines).1 (hapart _).ne.symm
  · simp only [List.cons_append, List.nil_append, List.append_assoc, List.cons.injEq] at hlines
    have hrows := hlines.2
    rw [← hname, List.map_eq_flatMap, List.map_eq_flatMap] at hrows
    have hmap := ((toldBy_enumeratorLine entries.name).flatMap not_closesTable_enumeratorLine closesTable_cons
      closesTable_cons hrows).1
    simpa using hmap

theorem apart_toString (h : Apart a "inline std::string ToString(") (name : String) :
    Apart a s!"inline std::string ToString({name} value) \x7b" :=
  h.append.append

theorem recordLines_ne_enumLines : recordLines type ++ rest ≠ enumLines entries ++ rest' := by
  intro h
  have hhead := congrArg List.head? h
  simp only [recordLines, tableLines, enumLines, templateLines, List.append_assoc, List.cons_append,
    List.nil_append, List.head?_cons] at hhead
  split at hhead
  · have hapart := apart_toString (apart_fieldsOf (by decide) type.name).symm entries.name
    exact hapart.ne (Option.some.inj hhead)
  · have hinline := (apart_toString (a := "template <") (by decide) entries.name).symm
    exact absurd (Option.some.inj hhead).symm hinline.append.append.ne

theorem toldBy_typeLines : ToldBy (fun type => "" :: typeLines type) ReflectedType.shown := by
  apply toldBy_of_shows
  · intro type type' rest rest' h
    have hlines := (List.cons.inj h).2
    cases type with
    | record type =>
      cases type' with
      | record type' => exact shown_eq_of_recordLines hlines
      | enumeration entries => exact absurd hlines recordLines_ne_enumLines
    | enumeration entries =>
      cases type' with
      | record type => exact absurd hlines.symm recordLines_ne_enumLines
      | enumeration entries' => exact shown_eq_of_enumLines hlines
  · intro type type' h
    cases type with
    | record type =>
      cases type' with
      | record type' => exact congrArg (List.cons "") (recordLines_eq_of_shown h)
      | enumeration entries => cases h
    | enumeration entries =>
      cases type' with
      | record type => cases h
      | enumeration entries' =>
        obtain ⟨name, enumerators⟩ := entries
        obtain ⟨name', enumerators'⟩ := entries'
        cases h
        rfl

theorem oneLine_ofList {cs : List Char} (h : '\n' ∉ cs) : OneLine (String.ofList cs) := by
  rw [OneLine, String.toList_ofList]
  exact h

theorem oneLine_toString (n : Nat) : OneLine (toString n) := by
  rw [OneLine, Nat.toString_eq_ofList_toDigits, String.toList_ofList]
  intro hmem
  have hdigit := Nat.isDigit_of_mem_toDigits (by decide) (by decide) hmem
  revert hdigit
  decide

theorem oneLine_sizeText (h : OneLine member.name) : OneLine (sizeText member) := by
  rw [sizeText]
  split
  · exact oneLine_ofList (by decide)
  · apply OneLine.append
    · exact OneLine.append (oneLine_ofList (by decide)) h
    · exact oneLine_ofList (by decide)

theorem oneLine_kindName (kind : MemberKind) : OneLine (kindName kind) := by
  cases kind <;> exact oneLine_ofList (by decide)

theorem oneLine_elementLoop (harity : OneLine x) (hline : OneLine y) :
    ∀ line ∈ elementLoop x y, OneLine line := by
  simp only [elementLoop, List.forall_mem_cons]
  repeat' first | apply And.intro | with_reducible apply OneLine.append
  all_goals first | with_reducible_and_instances assumption | exact oneLine_ofList (by decide) | simp

theorem oneLine_textLines (harity : OneLine member.kind.arity) : ∀ line ∈ textLines member, OneLine line := by
  rw [textLines]
  split
  · rename_i hkind
    rw [hkind] at harity
    exact oneLine_elementLoop harity (oneLine_ofList (by decide))
  all_goals
    rw [List.forall_mem_singleton]
    exact oneLine_ofList (by decide)

theorem oneLine_viewLines (hname : OneLine member.name) (harity : OneLine member.kind.arity) :
    ∀ line ∈ viewLines member, OneLine line := by
  rw [viewLines]
  split
  · rename_i hkind
    rw [hkind] at harity
    apply oneLine_elementLoop harity
    repeat' with_reducible apply OneLine.append
    all_goals first | with_reducible_and_instances assumption | exact oneLine_ofList (by decide)
  all_goals
    rw [List.forall_mem_singleton]
    repeat' with_reducible apply OneLine.append
    all_goals first | with_reducible_and_instances assumption | exact oneLine_ofList (by decide)

theorem oneLine_rowLines (hname : OneLine member.name) (harity : OneLine member.kind.arity) :
    ∀ line ∈ rowLines member, OneLine line := by
  have hsize := oneLine_sizeText hname
  have hkind := oneLine_kindName member.kind
  have htext := oneLine_textLines harity
  have hview := oneLine_viewLines hname harity
  have hclosed : ∀ line ∈ ([] : List String), OneLine line := List.forall_mem_nil _
  simp only [rowLines, List.forall_mem_append, List.forall_mem_cons]
  repeat' first | apply And.intro | with_reducible apply OneLine.append
  all_goals first | with_reducible_and_instances assumption | exact oneLine_ofList (by decide)

theorem oneLine_templateLines (h : OneLine generic) : ∀ line ∈ templateLines generic, OneLine line := by
  rw [templateLines]
  split
  · exact List.forall_mem_nil _
  · rw [List.forall_mem_singleton]
    exact ((show OneLine "template <" by decide).append h).append (by decide)

theorem oneLine_tableLine (h : OneLine name) : OneLine (tableLine name) := by
  have hline :
      OneLine ("    const FieldTable& table = FieldsOf(static_cast<const " ++ name ++ "*>(nullptr));") := by
    apply OneLine.append
    · exact OneLine.append (oneLine_ofList (by decide)) h
    · exact oneLine_ofList (by decide)
  exact hline

theorem oneLine_recordLines (h : type.OnOneLine) : ∀ line ∈ recordLines type, OneLine line := by
  obtain ⟨hname, hgeneric, hmembers⟩ := h
  have htemplate := oneLine_templateLines hgeneric
  have htable := oneLine_tableLine hname
  have hcount := oneLine_toString type.members.length
  have hclosed : ∀ line ∈ ([] : List String), OneLine line := List.forall_mem_nil _
  have hrows : ∀ line ∈ type.members.flatMap rowLines, OneLine line := by
    intro line hline
    obtain ⟨member, hmember, hline⟩ := List.mem_flatMap.mp hline
    exact oneLine_rowLines (hmembers member hmember).1 (hmembers member hmember).2 line hline
  simp only [recordLines, tableLines, recordTextLines, recordViewLines, List.forall_mem_append,
    List.forall_mem_cons]
  repeat' first | apply And.intro | with_reducible apply OneLine.append
  all_goals first | with_reducible_and_instances assumption | exact oneLine_ofList (by decide)

theorem oneLine_enumeratorLine (hname : OneLine name) (henumerator : OneLine enumerator) :
    OneLine (enumeratorLine name enumerator) := by
  have hline : OneLine ("        \x7b " ++ name ++ "::" ++ enumerator ++ ", \"" ++ enumerator ++ "\" \x7d,") := by
    repeat' with_reducible apply OneLine.append
    all_goals first | assumption | exact oneLine_ofList (by decide)
  exact hline

theorem oneLine_enumLines (h : entries.OnOneLine) : ∀ line ∈ enumLines entries, OneLine line := by
  obtain ⟨hname, henumerators⟩ := h
  have hclosed : ∀ line ∈ ([] : List String), OneLine line := List.forall_mem_nil _
  have hrows : ∀ line ∈ entries.enumerators.map (enumeratorLine entries.name), OneLine line := by
    intro line hline
    obtain ⟨enumerator, henumerator, rfl⟩ := List.mem_map.mp hline
    exact oneLine_enumeratorLine hname (henumerators enumerator henumerator)
  rw [enumLines]
  split
  all_goals
    simp only [List.forall_mem_append, List.forall_mem_cons]
    repeat' first | apply And.intro | with_reducible apply OneLine.append
    all_goals first | with_reducible_and_instances assumption | exact oneLine_ofList (by decide)

theorem oneLine_typeLines {types : List ReflectedType} (h : ∀ type ∈ types, type.OnOneLine) :
    ∀ line ∈ types.flatMap fun type => "" :: typeLines type, OneLine line := by
  intro line hline
  obtain ⟨type, htype, hline⟩ := List.mem_flatMap.mp hline
  obtain rfl | hline := List.mem_cons.mp hline
  · exact oneLine_ofList (by decide)
  · cases type with
    | record type => exact oneLine_recordLines (h _ htype) line hline
    | enumeration entries => exact oneLine_enumLines (h _ htype) line hline

@[simp] theorem unlines_append (lines lines' : List String) :
    unlines (lines ++ lines') = unlines lines ++ unlines lines' := by
  rw [unlines, List.map_append, String.join_append]
  rfl

def rowMark : String := "        \x7b "

def countMark : String := "    static const FieldTable table\x7b "

def countLine (count : Nat) : String := s!"    static const FieldTable table\x7b rows, {count} \x7d;"

/-- Whether a line neither starts a row nor counts the rows, and neither does one that goes on behind it. -/
def Unmarked (line : String) : Prop := Apart rowMark line ∧ Apart countMark line

theorem Unmarked.append (h : Unmarked a) : Unmarked (a ++ b) := ⟨h.1.append, h.2.append⟩

structure MarkedBy (lines rows counts : List String) : Prop where
  rows_eq : lines.filter (·.startsWith rowMark) = rows
  counts_eq : lines.filter (·.startsWith countMark) = counts

theorem MarkedBy.append {lines lines' rows rows' counts counts' : List String} (h : MarkedBy lines rows counts)
    (h' : MarkedBy lines' rows' counts') : MarkedBy (lines ++ lines') (rows ++ rows') (counts ++ counts') := by
  constructor
  · rw [List.filter_append, h.rows_eq, h'.rows_eq]
  · rw [List.filter_append, h.counts_eq, h'.counts_eq]

theorem markedBy_nil_of_unmarked {lines : List String} (h : ∀ line ∈ lines, Unmarked line) :
    MarkedBy lines [] [] := by
  constructor <;> rw [List.filter_eq_nil_iff] <;> intro line hline
  · simp [(h line hline).1.startsWith_eq_false]
  · simp [(h line hline).2.startsWith_eq_false]

theorem unmarked_tail_rowLines (member : Member) : ∀ line ∈ (rowLines member).tail, Unmarked line := by
  obtain ⟨name, typeText, generic, kind⟩ := member
  cases kind
  all_goals
    simp only [rowLines, textLines, viewLines, elementLoop, List.cons_append, List.tail_cons, List.nil_append,
      List.forall_mem_cons]
    repeat' first | with_reducible apply And.intro | with_reducible apply Unmarked.append
    all_goals first | exact List.forall_mem_nil _ | exact ⟨apart_ofList (by decide), apart_ofList (by decide)⟩

theorem unmarked_templateLines (generic : String) : ∀ line ∈ templateLines generic, Unmarked line := by
  rw [templateLines]
  split
  · exact List.forall_mem_nil _
  · rw [List.forall_mem_singleton]
    exact (show Unmarked "template <" from ⟨apart_ofList (by decide), apart_ofList (by decide)⟩).append.append

theorem startsWith_append (h : a.startsWith p = true) : (a ++ b).startsWith p = true := by
  rw [String.startsWith_string_iff] at h ⊢
  rw [String.toList_append]
  exact h.trans (List.prefix_append _ _)

theorem markedBy_rowHead (member : Member) : MarkedBy [rowHead member] [rowHead member] [] := by
  have hrow : (rowHead member).startsWith rowMark = true := by
    repeat' apply startsWith_append
    exact (show "        \x7b \"".startsWith rowMark = true by decide +kernel)
  have hcount : (rowHead member).startsWith countMark = false :=
    (apart_rowHead (apart_ofList (by decide)) member).startsWith_eq_false
  constructor
  · rw [List.filter_cons, hrow]
    rfl
  · rw [List.filter_cons, hcount]
    rfl

theorem markedBy_rowLines (member : Member) : MarkedBy (rowLines member) [rowHead member] [] := by
  rw [rowLines_eq_cons]
  exact (markedBy_rowHead member).append (markedBy_nil_of_unmarked (unmarked_tail_rowLines member))

theorem markedBy_rows (members : List Member) : MarkedBy (members.flatMap rowLines) (members.map rowHead) [] := by
  induction members with
  | nil => exact ⟨rfl, rfl⟩
  | cons member members ih => exact (markedBy_rowLines member).append ih

theorem markedBy_countLine (count : Nat) : MarkedBy [countLine count] [] [countLine count] := by
  have hrow : Apart rowMark "    static const FieldTable table\x7b rows, " := apart_ofList (by decide)
  have hcount : "    static const FieldTable table\x7b rows, ".startsWith countMark = true := by decide +kernel
  have hrowLine : (countLine count).startsWith rowMark = false := hrow.append.append.startsWith_eq_false
  have hcountLine : (countLine count).startsWith countMark = true := startsWith_append (startsWith_append hcount)
  constructor
  · rw [List.filter_cons, hrowLine]
    rfl
  · rw [List.filter_cons, hcountLine]
    rfl

/-- The table of a record has one row for each member, and the number of rows is written behind them. -/
theorem markedBy_tableLines (type : RecordType) :
    MarkedBy (tableLines type) (type.members.map rowHead) [countLine type.members.length] := by
  have hhead : MarkedBy [s!"inline const FieldTable& FieldsOf(const {type.name}*) \x7b",
      s!"    using Self = {type.name};", "    static const FieldDesc rows[] = \x7b"] [] [] := by
    apply markedBy_nil_of_unmarked
    simp only [List.forall_mem_cons]
    repeat' first | with_reducible apply And.intro | with_reducible apply Unmarked.append
    all_goals first | exact List.forall_mem_nil _ | exact ⟨apart_ofList (by decide), apart_ofList (by decide)⟩
  have hend : MarkedBy ["    \x7d;"] [] [] := ⟨by decide +kernel, by decide +kernel⟩
  have hbehind : MarkedBy ["    return table;", "\x7d"] [] [] := ⟨by decide +kernel, by decide +kernel⟩
  have htemplate := markedBy_nil_of_unmarked (unmarked_templateLines type.generic)
  have htable := ((((htemplate.append hhead).append (markedBy_rows type.members)).append hend).append
    (markedBy_countLine type.members.length)).append hbehind
  simp only [List.append_assoc, List.cons_append, List.nil_append, List.append_nil] at htable
  simp only [tableLines, List.append_assoc, List.cons_append, List.nil_append]
  exact htable

variable {path : String} {style : HeaderStyle} {types types' : List ReflectedType}

theorem typeLines_eq_of_headerText (h : ∀ type ∈ types, type.OnOneLine) (h' : ∀ type ∈ types', type.OnOneLine)
    (heq : headerText path types style = headerText path types' style) :
    types.flatMap (fun type => "" :: typeLines type) = types'.flatMap fun type => "" :: typeLines type := by
  simp only [headerText, unlines_append] at heq
  rw [String.append_left_inj, String.append_right_inj] at heq
  have hlines := congrArg linesOf heq
  rw [linesOf_unlines (oneLine_typeLines h), linesOf_unlines (oneLine_typeLines h')] at hlines
  exact List.append_cancel_right hlines

/-- Headers with the same text describe the same types in the same order, each with its name, its parameter
list and its members or enumerators. The text of a table has a row for each member, in their order, and states
how many there are. -/
theorem headerText_determines (h : ∀ type ∈ types, type.OnOneLine) (h' : ∀ type ∈ types', type.OnOneLine)
    (heq : headerText path types style = headerText path types' style) :
    types.map ReflectedType.shown = types'.map ReflectedType.shown ∧
    ∀ type, ReflectedType.record type ∈ types →
      MarkedBy (linesOf (unlines (tableLines type))) (type.members.map rowHead)
        [countLine type.members.length] := by
  constructor
  · have hlines := typeLines_eq_of_headerText h h' heq
    rw [← List.append_nil (types.flatMap _), ← List.append_nil (types'.flatMap _)] at hlines
    have hends : ∀ (type : ReflectedType) (tail : List String), ¬ [] = ("" :: typeLines type) ++ tail := by
      intro type tail hnil
      cases hnil
    exact (toldBy_typeLines.flatMap hends rfl rfl hlines).1
  · intro type htype
    have hone : ∀ line ∈ tableLines type, OneLine line := by
      intro line hline
      apply oneLine_recordLines (h _ htype)
      simp only [recordLines, List.append_assoc]
      exact List.mem_append_left _ hline
    rw [linesOf_unlines hone, ← List.append_nil (type.members.map rowHead),
      ← List.append_nil [countLine type.members.length]]
    exact (markedBy_tableLines type).append ⟨by decide +kernel, by decide +kernel⟩

/-- A header shows neither the keyword of a record nor the types of its members. -/
theorem headerText_determines_pair :
    [ReflectedType.record
        ⟨.structKey, "Pair<T>", "class T", [⟨"a", "int", "", .value⟩, ⟨"b", "T", "", .array "2"⟩]⟩,
      .enumeration ⟨"Color", ["Red"]⟩].map ReflectedType.shown =
    [ReflectedType.record
        ⟨.classKey, "Pair<T>", "class T", [⟨"a", "T", "", .value⟩, ⟨"b", "T", "", .array "2"⟩]⟩,
      .enumeration ⟨"Color", ["Red"]⟩].map ReflectedType.shown :=
  (@headerText_determines "pair.h" {} _ _ (by decide) (by decide) rfl).1

end ReflectionTables.Generation
