import Mathlib.Data.List.Forall2
import ReflectionTables.DataMembers
import ReflectionTables.Enumerations
import ReflectionTables.ParameterLists
import ReflectionTables.Proofs.AlikeSkipping
/-!
# Members and enumerators are read alike

Data members and enumerations decide by kinds, spellings and depths too. The text of a parameter
list reaches a branch in two ways: whether it is empty, and whether its arguments can be cut out.
-/

namespace ReflectionTables.Parsing.Likeness

open Text Scanning Reflected Parsing.Parser

variable {L : Likeness} {t t' : Token}

structure Generics (L : Likeness) (s s' : String) : Prop where
  texts : L.Texts s s'
  eq_empty_iff : s' = "" ↔ s = ""
  isSome_eq : (arguments? s').isSome = (arguments? s).isSome

theorem generics_empty : L.Generics "" "" := ⟨fun _ => rfl, Iff.rfl, rfl⟩

structure Contexts (L : Likeness) (ctx ctx' : BodyContext) : Prop where
  typeName_eq : ctx'.typeName = ctx.typeName
  names : L.Names ctx.qualifiedName ctx'.qualifiedName
  generics : L.Generics ctx.generic ctx'.generic
  dependent_eq : ctx'.dependent = ctx.dependent

theorem Contexts.nestsDependent_eq {ctx ctx' : BodyContext} (h : L.Contexts ctx ctx') :
    ctx'.nestsDependent = ctx.nestsDependent := by
  have hempty : (ctx'.generic != "") = (ctx.generic != "") := by
    rw [Bool.eq_iff_iff, bne_iff_ne, bne_iff_ne, ne_eq, ne_eq, h.generics.eq_empty_iff]
  rw [BodyContext.nestsDependent, BodyContext.nestsDependent, h.dependent_eq, hempty]

/-- Members that differ at most in the texts of their types and lengths. -/
abbrev Members (L : Likeness) : List Member → List Member → Prop :=
  L.Shaped (List.map Member.shape)

theorem members_nil : L.Members [] [] := .of_eq rfl

theorem Shaped.append {ms ms' ns ns' : List Member} (hm : L.Members ms ms')
    (hn : L.Members ns ns') : L.Members (ms ++ ns) (ms' ++ ns') := by
  refine ⟨?_, fun hexact => by rw [hm.eq hexact, hn.eq hexact]⟩
  rw [List.map_append, List.map_append, hm.shape_eq, hn.shape_eq]

theorem Shaped.eq_nil_iff {ms ms' : List Member} (h : L.Members ms ms') : ms' = [] ↔ ms = [] := by
  rw [← List.map_eq_nil_iff (f := Member.shape), h.shape_eq, List.map_eq_nil_iff]

theorem alike_throughDimensions (h : L.Tokens t t') :
    L.Alike L.Tokens (throughDimensions t) (throughDimensions t') := by
  refine alike_recur L.Tokens (fun again again' hagain u u' hu => ?_) h
  rw [hu.kind_eq]
  refine .ite (fun _ => ?_) fun _ => .done hu
  exact (alike_throughBrackets hu).discard_bind (alike_next.bind hagain)

theorem alike_throughWidth : L.Alike L.Tokens throughWidth throughWidth := by
  refine alike_loop fun again again' hagain => alike_next.bind fun u u' hu => ?_
  simp only [hu.kind_eq]
  cases u.kind
  case semicolon | comma | eq | lBrace => exact .done hu
  all_goals exact hagain

theorem alike_declaratorSuffix {name name' : Token} (kind : MemberKind) (hname : L.Tokens name name')
    (h : L.Tokens t t') :
    L.Alike (fun a a' => L.Shaped (Option.map MemberKind.shape) a.1 a'.1 ∧ L.Tokens a.2 a'.2)
      (declaratorSuffix name kind t) (declaratorSuffix name' kind t') := by
  rw [declaratorSuffix, declaratorSuffix]
  simp only [h.kind_eq]
  cases t.kind
  case lBracket =>
    refine (alike_throughBrackets h).bind fun close close' hclose => ?_
    refine (alike_cut (by simp) h.stops hclose.offsets).bind fun arity arity' harity => ?_
    refine alike_next.bind fun u u' hu => (alike_throughDimensions hu).bind fun v v' hv => ?_
    exact .done ⟨⟨rfl, fun hexact => by rw [harity hexact]⟩, hv⟩
  case emptyBrackets =>
    refine (alike_remarkUnparsed hname.offsets h.stops).bind fun _ _ _ => ?_
    exact alike_next.bind fun u u' hu => .done ⟨.of_eq rfl, hu⟩
  case colon => exact alike_throughWidth.bind fun u u' hu => .done ⟨.of_eq rfl, hu⟩
  all_goals exact .done ⟨.of_eq rfl, h⟩

theorem alike_afterMemberInitializer (h : L.Tokens t t') :
    L.Alike L.Tokens (afterMemberInitializer t) (afterMemberInitializer t') := by
  rw [afterMemberInitializer, afterMemberInitializer]
  simp only [h.kind_eq]
  cases t.kind
  case eq => exact alike_throughInitializer
  case lBrace => exact (alike_throughBrace h).discard_bind alike_next
  all_goals exact .done h

variable {ctx ctx' : BodyContext}

theorem members_acceptedMembers {name name' : Token} {typeText typeText' : String}
    {kind? kind?' : Option MemberKind} (hname : L.Tokens name name')
    (htype : L.Texts typeText typeText') (hkind : L.Shaped (Option.map MemberKind.shape) kind? kind?')
    (accept : Bool) (hctx : L.Contexts ctx ctx') :
    L.Members (acceptedMembers name.text typeText kind? accept ctx)
      (acceptedMembers name'.text typeText' kind?' accept ctx') := by
  refine ⟨?_, fun hexact => ?_⟩
  · have hshape := hkind.shape_eq
    rw [hname.text_eq]
    cases kind? with
    | none =>
      rw [Option.map_none, Option.map_eq_none_iff] at hshape
      rw [hshape]
      rfl
    | some kind =>
      obtain ⟨kind', rfl, hkind'⟩ := Option.map_eq_some_iff.1 hshape
      cases accept with
      | false => rfl
      | true => simp [acceptedMembers, Member.shape, hkind']
  · simp only [acceptedMembers, hname.text_eq, htype hexact, hkind.eq hexact,
      hctx.generics.texts hexact]

theorem alike_declaratorTail {name name' : Token} {typeText typeText' : String} (kind : MemberKind)
    (hname : L.Tokens name name') (htype : L.Texts typeText typeText') (h : L.Tokens t t')
    (accept : Bool) (hctx : L.Contexts ctx ctx') :
    L.Alike (fun a a' => L.Tokens a.1 a'.1 ∧ L.Members a.2 a'.2)
      (declaratorTail name typeText kind t accept ctx)
      (declaratorTail name' typeText' kind t' accept ctx') := by
  refine (alike_declaratorSuffix kind hname h).bind ?_
  rintro ⟨kind?, u⟩ ⟨kind?', u'⟩ ⟨hkind, hu⟩
  refine (alike_afterMemberInitializer hu).bind fun v v' hv => ?_
  rw [hv.kind_eq]
  refine .ite (fun _ => .reject hv (faults_expected hv fun _ _ => by rw [hname.text_eq])) fun _ => ?_
  exact .done ⟨hv, members_acceptedMembers hname htype hkind accept hctx⟩

theorem markKind_eq (h : L.Tokens t t') : markKind t' = markKind t := by
  rw [markKind, markKind, h.kind_eq]

theorem alike_declaratorMarks (h : L.Tokens t t') :
    L.Alike (fun a a' => a'.1 = a.1 ∧ a'.2.1 = a.2.1 ∧ L.Tokens a.2.2 a'.2.2)
      (declaratorMarks t) (declaratorMarks t') := by
  refine alike_recur
    (fun a a' => a'.1 = a.1 ∧ a'.2.1 = a.2.1 ∧ L.Tokens a.2.2 a'.2.2) ?_ ⟨rfl, rfl, h⟩
  rintro again again' hagain ⟨kind, marks, u⟩ ⟨kind', marks', u'⟩ ⟨hkind, hmarks, hu⟩
  simp only at hkind hmarks hu ⊢
  subst hkind hmarks
  rw [hu.kind_eq, hu.text_eq, markKind_eq hu]
  refine .ite (fun _ => ?_) fun _ => .done ⟨rfl, rfl, hu⟩
  exact alike_next.bind fun v v' hv => hagain _ _ ⟨rfl, rfl, hv⟩

theorem alike_declarators {base base' : String} (hbase : L.Texts base base') (accept : Bool)
    (hctx : L.Contexts ctx ctx') :
    L.Alike L.Members (declarators base accept ctx) (declarators base' accept ctx') := by
  refine alike_recur L.Members (fun again again' hagain ms ms' hms => ?_) members_nil
  refine alike_next.bind fun first first' hfirst => (alike_declaratorMarks hfirst).bind ?_
  rintro ⟨kind, marks, name⟩ ⟨kind', marks', name'⟩ ⟨hkind, hmarks, hname⟩
  simp only at hkind hmarks hname ⊢
  subst hkind hmarks
  rw [hname.kind_eq]
  refine .ite (fun _ => .reject hname (faults_expected hname fun _ _ => rfl)) fun _ => ?_
  refine alike_next.bind fun u u' hu => ?_
  refine (alike_declaratorTail kind' hname (fun hexact => by rw [hbase hexact]) hu accept hctx).bind ?_
  rintro ⟨last, more⟩ ⟨last', more'⟩ ⟨hlast, hmore⟩
  simp only at hlast hmore ⊢
  rw [hlast.kind_eq]
  exact .ite (fun _ => .done (hms.append hmore)) fun _ => hagain _ _ (hms.append hmore)

theorem alike_operatorSymbol : L.Alike (fun _ _ => True) operatorSymbol operatorSymbol := by
  refine alike_next.bind fun u u' hu => ?_
  rw [hu.kind_eq]
  exact .ite (fun _ => (alike_expect _ _).discard) fun _ => .done trivial

theorem alike_operatorParameters : L.Alike L.Tokens operatorParameters operatorParameters := by
  refine alike_loop fun again again' hagain => ?_
  refine alike_next.bind fun u u' hu => ?_
  simp only [hu.kind_eq]
  cases u.kind
  case lParen | emptyParens => exact .done hu
  case semicolon | lBrace | rBrace => exact alike_fail hu fun _ _ => rfl
  all_goals exact hagain

theorem alike_operatorMember : L.Alike (fun _ _ => True) operatorMember operatorMember :=
  alike_operatorSymbol.bind fun _ _ _ =>
    alike_operatorParameters.bind fun _ _ hparams => alike_throughMethodTail hparams

theorem alike_throughMacroCall (h : L.Tokens t t') :
    L.Alike (fun _ _ => True) (throughMacroCall t) (throughMacroCall t') := by
  refine (alike_throughParens h).discard_bind ((alike_lookAt 0).bind fun u u' hu => ?_)
  simp only [hu.kind_eq]
  cases u.kind
  case semicolon => exact alike_next.discard
  case lParen | emptyParens => exact alike_throughStatement.discard
  all_goals exact .done trivial

def Marks (L : Likeness) (mark mark' : Option Nat) : Prop :=
  L.exact → mark' = mark.map (· + L.shift)

structure Heads (L : Likeness) (head head' : MemberHead) : Prop where
  names : List.Forall₂ L.Tokens head.names head'.names
  kind_eq : head'.kind = head.kind
  marks : L.Marks head.markAt head'.markAt

theorem Marks.or_some {mark mark' : Option Nat} (h : L.Marks mark mark') (ht : L.Tokens t t') :
    L.Marks (mark.or (some t.offset)) (mark'.or (some t'.offset)) := by
  intro hexact
  rw [h hexact, ht.offset_eq hexact]
  cases mark <;> rfl

theorem Marks.getD {mark mark' : Option Nat} {offset offset' : Nat} (h : L.Marks mark mark')
    (hoffset : L.Offsets offset offset') : L.Offsets (mark.getD offset) (mark'.getD offset') := by
  intro hexact
  rw [h hexact, hoffset hexact]
  cases mark <;> rfl

theorem Offsets.min {a a' b b' : Nat} (ha : L.Offsets a a') (hb : L.Offsets b b') :
    L.Offsets (min a b) (min a' b') := by
  intro hexact
  have := ha hexact
  have := hb hexact
  omega

theorem Offsets.max {a a' b b' : Nat} (ha : L.Offsets a a') (hb : L.Offsets b b') :
    L.Offsets (max a b) (max a' b') := by
  intro hexact
  have := ha hexact
  have := hb hexact
  omega

theorem Heads.mark {head head' : MemberHead} (h : L.Heads head head') (ht : L.Tokens t t') :
    L.Heads (head.mark t) (head'.mark t') :=
  ⟨h.names, markKind_eq ht, h.marks.or_some ht⟩

inductive HeadEnds (L : Likeness) : HeadEnd → HeadEnd → Prop
  | operator : HeadEnds L .operator .operator
  | declared {head head' : MemberHead} {t t' : Token} (hhead : L.Heads head head')
      (ht : L.Tokens t t') : HeadEnds L (.declared head t) (.declared head' t')

theorem alike_memberHead (h : L.Tokens t t') :
    L.Alike L.HeadEnds (memberHead t) (memberHead t') := by
  refine alike_recur (fun a a' => L.Heads a.1 a'.1 ∧ L.Tokens a.2 a'.2) ?_
    ⟨⟨.nil, rfl, fun _ => rfl⟩, h⟩
  rintro again again' hagain ⟨head, u⟩ ⟨head', u'⟩ ⟨hhead, hu⟩
  simp only at hhead hu
  have hgoOn : ∀ head head', L.Heads head head' → L.Alike L.HeadEnds
      (next >>= fun v => again (head, v)) (next >>= fun v => again' (head', v)) :=
    fun _ _ hhead => alike_next.bind fun _ _ hv => hagain _ _ ⟨hhead, hv⟩
  have hnames : head'.names = [] ↔ head.names = [] := by
    rw [← List.length_eq_zero_iff, ← hhead.names.length_eq, List.length_eq_zero_iff]
  simp only [hu.kind_eq, hu.reserved?_eq, hnames]
  cases u.kind
  case ident =>
    refine .ite (fun _ => .done .operator) fun _ => hgoOn _ _ ⟨?_, hhead.kind_eq, hhead.marks⟩
    exact List.rel_append hhead.names (.cons hu .nil)
  case colonColon => exact hgoOn _ _ hhead
  case lt =>
    refine .ite (fun _ => .done (.declared hhead hu)) fun _ => ?_
    exact (alike_throughAngles hu).discard_bind (hgoOn _ _ hhead)
  case star | amp | ampAmp => exact hgoOn _ _ (hhead.mark hu)
  all_goals exact .done (.declared hhead hu)

theorem tokens_getLastD {ts ts' : List Token} (h : List.Forall₂ L.Tokens ts ts')
    (ht : L.Tokens t t') : L.Tokens (ts.getLastD t) (ts'.getLastD t') := by
  induction h generalizing t t' with
  | nil => exact ht
  | cons hu _ ih =>
    rw [List.getLastD_cons, List.getLastD_cons]
    exact ih hu

theorem alike_memberDeclaration {start start' : Token} (hstart : L.Tokens start start')
    (h : L.Tokens t t') (accept : Bool) (hctx : L.Contexts ctx ctx') :
    L.Alike L.Members (memberDeclaration start t accept ctx)
      (memberDeclaration start' t' accept ctx') := by
  refine (alike_memberHead h).bind fun _ _ hend => ?_
  cases hend with
  | operator => exact alike_operatorMember.bind fun _ _ _ => .done members_nil
  | @declared head head' u u' hhead hu =>
    simp only [hu.kind_eq, ← hhead.names.length_eq]
    refine .ite (fun _ => ?_) fun _ => ?_
    · refine .ite (fun _ => ?_) fun _ => ?_
      · exact (alike_throughMacroCall hu).bind fun _ _ _ => .done members_nil
      · exact (alike_throughMethodTail hu).bind fun _ _ _ => .done members_nil
    · have hfail : L.Alike L.Members
          (fail u (.expected (.memberDeclaration ctx.qualifiedName) u) : Parser (List Member))
          (fail u' (.expected (.memberDeclaration ctx'.qualifiedName) u') : Parser (List Member)) :=
        alike_fail hu (faults_expected hu fun hexact htop => by rw [hctx.names.eq hexact htop])
      have hnames := hhead.names
      generalize head.names = names at hnames
      generalize head'.names = names' at hnames
      cases hnames with
      | nil => exact hfail
      | @cons first first' more more' hfirst hmore =>
        cases hmore with
        | nil => exact hfail
        | @cons second second' more more' hsecond hmore =>
          have hname := tokens_getLastD (.cons hsecond hmore) hfirst
          have hbase := (hhead.marks.getD hname.offsets).min hname.offsets
          refine (alike_span hstart.offsets hbase).bind fun base base' hbase => ?_
          refine (alike_span hstart.offsets hname.offsets).bind fun type type' htype => ?_
          rw [hhead.kind_eq]
          refine (alike_declaratorTail head.kind hname htype hu accept hctx).bind ?_
          rintro ⟨last, ms⟩ ⟨last', ms'⟩ ⟨hlast, hms⟩
          simp only at hlast hms ⊢
          rw [hlast.kind_eq]
          refine .ite (fun _ => ?_) fun _ => .done hms
          exact (alike_declarators hbase accept hctx).bind fun ns ns' hns => .done (hms.append hns)

theorem alike_throughEnumeratorValue (h : L.Tokens t t') :
    L.Alike Eq (throughEnumeratorValue t) (throughEnumeratorValue t') := by
  refine alike_loop fun again again' hagain => alike_next.bind fun u u' hu => ?_
  simp only [hu.kind_eq, hu.depth_eq_iff h]
  cases u.kind
  case comma => exact .done rfl
  case rBrace => exact .ite (fun _ => .done rfl) fun _ => hagain
  case lParen => exact (alike_throughParens hu).discard_bind hagain
  case lBrace => exact (alike_throughBrace hu).discard_bind hagain
  all_goals exact hagain

theorem alike_enumeratorNames (h : L.Tokens t t') :
    L.Alike Eq (enumeratorNames t) (enumeratorNames t') := by
  refine alike_recur Eq ?_ rfl
  rintro again again' hagain names _ rfl
  refine alike_next.bind fun u u' hu => ?_
  simp only [hu.kind_eq, hu.text_eq, hu.depth_eq_iff h]
  refine .ite (fun _ => .done rfl) fun _ => ?_
  refine .ite (fun _ => .reject hu (faults_expected hu fun _ _ => rfl)) fun _ => ?_
  refine alike_next.bind fun after after' hafter => ?_
  simp only [hafter.kind_eq, hafter.depth_eq_iff h]
  cases after.kind
  case comma => exact hagain _ _ rfl
  case rBrace => exact .ite (fun _ => .done rfl) fun _ => alike_failExpected hafter
  case eq =>
    refine (alike_throughEnumeratorValue h).bind fun closed _ hclosed => ?_
    subst hclosed
    exact .ite (fun _ => .done rfl) fun _ => hagain _ _ rfl
  all_goals exact alike_failExpected hafter

theorem alike_throughUnderlyingType :
    L.Alike L.Tokens throughUnderlyingType throughUnderlyingType := by
  refine alike_loop fun again again' hagain => alike_next.bind fun u u' hu => ?_
  rw [hu.kind_eq]
  exact .ite (fun _ => .done hu) fun _ => hagain

theorem alike_enumBody {name name' : Token} (hname : L.Tokens name name') (h : L.Tokens t t')
    (dependent : Bool) :
    L.Alike (fun _ _ => True) (enumBody name t dependent) (enumBody name' t' dependent) := by
  refine alike_roleOfFile.bind fun role _ hrole => ?_
  subst hrole
  refine .ite (fun _ => (alike_throughBrace h).discard) fun _ => ?_
  refine (alike_enter (fun _ => hname.text_eq) h).bind fun _ _ _ => ?_
  refine alike_enclosingName.bind fun qualified qualified' hqualified => ?_
  have hdeclaration : L.Found Declaration.shape Declaration.renamed ⟨.enumeration, qualified⟩
      ⟨.enumeration, qualified'⟩ := ⟨rfl, fun hexact => by rw [hqualified hexact]; rfl⟩
  refine (alike_noteDeclaration hdeclaration).bind fun _ _ _ => ?_
  refine (alike_enumeratorNames h).bind fun names _ hnames => ?_
  subst hnames
  refine .ite (fun _ => alike_remark ⟨rfl, fun hexact => by rw [hqualified hexact]; rfl⟩) fun _ => ?_
  exact alike_noteType ⟨rfl, fun hexact => by rw [hqualified hexact]; rfl⟩

theorem alike_afterUnderlyingType (h : L.Tokens t t') :
    L.Alike L.Tokens (afterUnderlyingType t) (afterUnderlyingType t') := by
  rw [afterUnderlyingType, afterUnderlyingType, h.kind_eq]
  exact .ite (fun _ => alike_throughUnderlyingType) fun _ => .done h

inductive EnumForms (L : Likeness) : EnumForm → EnumForm → Prop
  | declared : EnumForms L .declared .declared
  | anonymous : EnumForms L .anonymous .anonymous
  | named {name name' : Token} (h : L.Tokens name name') : EnumForms L (.named name) (.named name')
  | elaborated {name name' : Token} (h : L.Tokens name name') :
    EnumForms L (.elaborated name) (.elaborated name')

theorem alike_enumAfterWord (dependent : Bool) :
    L.Alike L.EnumForms (enumAfterWord dependent) (enumAfterWord dependent) := by
  refine alike_next.bind fun word word' hword => ?_
  rw [hword.isWord_eq, hword.isWord_eq]
  refine (alike_nextIf hword).bind fun first first' hfirst => ?_
  simp only [hfirst.kind_eq]
  refine (alike_nextIf hfirst).bind fun u u' hu => ?_
  refine (alike_afterUnderlyingType hu).bind fun v v' hv => ?_
  simp only [hv.kind_eq]
  refine .ite (fun _ => ?_) fun _ => ?_
  · cases v.kind
    case semicolon => exact .done .declared
    case lBrace => exact (alike_enumBody hfirst hv dependent).bind fun _ _ _ => .done (.named hfirst)
    all_goals exact (alike_putBack hv).bind fun _ _ _ => .done (.elaborated hfirst)
  · refine .ite (fun _ => ?_) fun _ => alike_failExpected hv
    exact (alike_throughBrace hv).discard_bind (.done .anonymous)

end ReflectionTables.Parsing.Likeness
