import ReflectionTables.RecordBodies
import ReflectionTables.Proofs.AlikeMembers
/-!
# Bodies of records are read alike

Bodies of records: what is alike in the members of an inner body is so in those of the outer one.
-/

namespace ReflectionTables.Parsing.Likeness

open Text Scanning Reflected Parsing.Parser

variable {L : Likeness} {t t' : Token} {ctx ctx' : BodyContext}

abbrev Arguments (L : Likeness) : Option String → Option String → Prop :=
  L.Shaped (Option.map fun _ => "")

structure Tasks (L : Likeness) (task task' : BodyTask) : Prop where
  openings : L.Tokens task.opening task'.opening
  contexts : L.Contexts task.context task'.context
  visible_eq : task'.visible = task.visible

def BodyParsers (L : Likeness) (body body' : BodyParser) : Prop :=
  ∀ task task', L.Tasks task task' →
    L.Alike (fun a a' => L.Tokens a.1 a'.1 ∧ L.Members a.2 a'.2) (body task) (body' task')

theorem alike_recordSegment {arguments? arguments?' : Option String} {generic generic' : String}
    (name : String) (harguments : L.Arguments arguments? arguments?')
    (hgeneric : L.Generics generic generic') (dependent : Bool) :
    L.Alike L.Texts (recordSegment name arguments? generic dependent)
      (recordSegment name arguments?' generic' dependent) := by
  unfold recordSegment
  have hshape := harguments.shape_eq
  cases arguments? with
  | some arguments =>
    obtain ⟨arguments', rfl, -⟩ := Option.map_eq_some_iff.1 hshape
    exact .done fun hexact => by rw [Option.some.inj (harguments.eq hexact)]
  | none =>
    rw [Option.map_none, Option.map_eq_none_iff] at hshape
    subst hshape
    simp only [ne_eq, hgeneric.eq_empty_iff]
    refine .ite (fun _ => ?_) fun _ => .done fun _ => rfl
    have hsome := hgeneric.isSome_eq
    cases h : Parsing.arguments? generic with
    | none =>
      rw [h, Option.isSome_none, Option.isSome_eq_false_iff, Option.isNone_iff_eq_none] at hsome
      rw [hsome]
      exact .abort
    | some arguments =>
      rw [h, Option.isSome_some, Option.isSome_iff_exists] at hsome
      obtain ⟨arguments', h'⟩ := hsome
      rw [h']
      refine .done fun hexact => ?_
      rw [hgeneric.texts hexact, h, Option.some.injEq] at h'
      rw [h']

theorem alike_recordBody {body body' : BodyParser} (hbody : L.BodyParsers body body')
    (key : ClassKey) {name name' : Token} (hname : L.Tokens name name')
    {arguments? arguments?' : Option String} (harguments : L.Arguments arguments? arguments?')
    (h : L.Tokens t t') {generic generic' : String} (hgeneric : L.Generics generic generic')
    (dependent : Bool) :
    L.Alike (fun _ _ => True) (recordBody body key name arguments? t generic dependent)
      (recordBody body' key name' arguments?' t' generic' dependent) := by
  rw [recordBody, recordBody, hname.text_eq]
  refine (alike_recordSegment _ harguments hgeneric dependent).bind fun segment segment' hsegment => ?_
  refine (alike_enter hsegment h).bind fun _ _ _ => ?_
  refine alike_enclosingName.bind fun qualified qualified' hqualified => ?_
  have hdeclaration : L.Found Declaration.shape Declaration.renamed ⟨.record key, qualified⟩
      ⟨.record key, qualified'⟩ := ⟨rfl, fun hexact => by rw [hqualified hexact]; rfl⟩
  refine (alike_noteDeclaration hdeclaration).bind fun _ _ _ => ?_
  have hcontext : L.Contexts ⟨name.text, qualified, generic, dependent⟩
      ⟨name.text, qualified', generic', dependent⟩ := ⟨rfl, hqualified, hgeneric, rfl⟩
  refine (hbody ⟨t, _, _⟩ ⟨t', _, _⟩ ⟨h, hcontext, rfl⟩).bind ?_
  rintro ⟨_, ms⟩ ⟨_, ms'⟩ ⟨-, hms⟩
  simp only at hms ⊢
  simp only [hms.eq_nil_iff]
  refine .ite (fun _ => .done trivial) fun _ => ?_
  refine .ite (fun _ => alike_remark ⟨rfl, fun hexact => by rw [hqualified hexact]; rfl⟩) fun _ => ?_
  refine alike_noteType ⟨?_, fun hexact => ?_⟩
  · rw [ReflectedType.shape, ReflectedType.shape, hms.shape_eq]
  · rw [hqualified hexact, hgeneric.texts hexact, hms.eq hexact]
    rfl

theorem arguments_none : L.Arguments none none := .of_eq rfl

theorem alike_innerRecord {body body' : BodyParser} (hbody : L.BodyParsers body body')
    (key : ClassKey) {word word' : Token} (hword : L.Tokens word word')
    (hctx : L.Contexts ctx ctx') (visible accept : Bool) :
    L.Alike L.Members (innerRecord body key word ctx visible accept)
      (innerRecord body' key word' ctx' visible accept) := by
  refine alike_throughHeadAttributes.bind fun _ _ _ => ?_
  refine (alike_lookAt 0).bind fun first first' hfirst => ?_
  simp only [hfirst.kind_eq]
  refine .ite (fun _ => ?_) fun _ => .ite (fun _ => alike_failExpected hfirst) fun _ => ?_
  · refine alike_next.bind fun opening opening' hopening => ?_
    refine (hbody ⟨opening, ctx, visible⟩ ⟨opening', ctx', visible⟩ ⟨hopening, hctx, rfl⟩).bind ?_
    rintro ⟨_, ms⟩ ⟨_, ms'⟩ ⟨-, hms⟩
    refine alike_next.bind fun u u' hu => ?_
    simp only [hu.kind_eq]
    refine .ite (fun _ => .done hms) fun _ => ?_
    refine alike_throughStatement.bind fun last last' hlast => ?_
    exact (alike_remarkUnparsed hu.offsets hlast.stops).bind fun _ _ _ => .done members_nil
  · refine (alike_lookAt 1).bind fun after after' hafter => ?_
    simp only [hafter.kind_eq, hafter.isWord_eq]
    refine .ite (fun _ => ?_) fun _ => ?_
    · exact alike_next.discard_bind (alike_next.discard_bind (.done members_nil))
    refine alike_next.bind fun name name' hname => ?_
    refine .ite (fun _ => ?_) fun _ => alike_memberDeclaration hword hname accept hctx
    refine alike_throughBases.bind fun opening opening' hopening => ?_
    rw [hctx.nestsDependent_eq, hname.text_eq]
    refine (alike_recordBody hbody key hname arguments_none hopening hctx.generics _).bind
      fun _ _ _ => ?_
    refine alike_next.bind fun u u' hu => ?_
    simp only [hu.kind_eq]
    refine .ite (fun _ => .done members_nil) fun _ => ?_
    exact (alike_putBack hu).bind fun _ _ _ => alike_declarators (fun _ => rfl) accept hctx

theorem alike_innerEnum {word word' : Token} (hword : L.Tokens word word')
    (hctx : L.Contexts ctx ctx') (accept : Bool) :
    L.Alike L.Members (innerEnum word ctx accept) (innerEnum word' ctx' accept) := by
  rw [innerEnum, innerEnum, hctx.nestsDependent_eq]
  refine (alike_enumAfterWord _).bind fun _ _ hform => ?_
  cases hform with
  | declared => exact .done members_nil
  | elaborated hname => exact alike_memberDeclaration hword hname accept hctx
  | anonymous =>
    refine alike_next.bind fun u u' hu => ?_
    simp only [hu.kind_eq]
    refine .ite (fun _ => .done members_nil) fun _ => (alike_putBack hu).bind fun _ _ _ => ?_
    refine alike_throughStatement.bind fun last last' hlast => ?_
    exact (alike_remarkUnparsed hu.offsets hlast.stops).bind fun _ _ _ => .done members_nil
  | named hname =>
    refine alike_next.bind fun u u' hu => ?_
    simp only [hu.kind_eq, hname.text_eq]
    refine .ite (fun _ => .done members_nil) fun _ => ?_
    exact (alike_putBack hu).bind fun _ _ _ => alike_declarators (fun _ => rfl) accept hctx

theorem alike_memberSpecifiers (h : L.Tokens t t') :
    L.Alike (fun a a' => a'.1 = a.1 ∧ L.Tokens a.2 a'.2) (memberSpecifiers t)
      (memberSpecifiers t') := by
  refine alike_recur (fun a a' => a'.1 = a.1 ∧ L.Tokens a.2 a'.2) ?_ ⟨rfl, h⟩
  rintro again again' hagain ⟨isStatic, u⟩ ⟨isStatic', u'⟩ ⟨hstatic, hu⟩
  simp only at hstatic hu ⊢
  subst hstatic
  simp only [hu.reserved?_eq]
  cases u.reserved? with
  | none => exact .done ⟨rfl, hu⟩
  | some word =>
    cases word
    case staticWord | virtualWord | explicitWord | inlineWord | constexprWord | mutableWord =>
      exact alike_next.bind fun v v' hv => hagain _ _ ⟨rfl, hv⟩
    all_goals exact .done ⟨rfl, hu⟩

theorem alike_constructorAhead (h : L.Tokens t t') (hctx : L.Contexts ctx ctx') :
    L.Alike Eq (constructorAhead t ctx) (constructorAhead t' ctx') := by
  rw [constructorAhead, constructorAhead, h.text_eq, hctx.typeName_eq]
  refine .ite (fun _ => (alike_lookAt 0).bind fun u u' hu => .done ?_) fun _ => .done rfl
  rw [hu.kind_eq]

theorem alike_memberItem {body body' : BodyParser} (hbody : L.BodyParsers body body')
    (h : L.Tokens t t') (hctx : L.Contexts ctx ctx') (visible accept : Bool) :
    L.Alike L.Members (memberItem body t ctx visible accept)
      (memberItem body' t' ctx' visible accept) := by
  rw [memberItem, memberItem]
  simp only [h.kind_eq, h.reserved?_eq]
  refine .ite (fun _ => ?_) fun _ => ?_
  · refine (alike_expect _ _).discard_bind (alike_next.bind fun params params' hparams => ?_)
    exact (alike_throughMethodTail hparams).bind fun _ _ _ => .done members_nil
  refine (alike_constructorAhead h hctx).bind fun constructs _ hconstructs => ?_
  subst hconstructs
  have hmember : L.Alike L.Members
      (if constructs = true then next >>= fun params => throughMethodTail params >>= fun _ => pure []
        else memberDeclaration t t accept ctx)
      (if constructs = true then next >>= fun params => throughMethodTail params >>= fun _ => pure []
        else memberDeclaration t' t' accept ctx') := by
    refine .ite (fun _ => ?_) fun _ => alike_memberDeclaration h h accept hctx
    exact alike_next.bind fun _ _ hparams =>
      (alike_throughMethodTail hparams).bind fun _ _ _ => .done members_nil
  cases t.reserved? with
  | none => exact hmember
  | some word =>
    cases word
    case structWord | classWord | unionWord => exact alike_innerRecord hbody _ h hctx visible accept
    case enumWord => exact alike_innerEnum h hctx accept
    case usingWord | typedefWord | staticAssertWord =>
      exact alike_throughStatement.discard_bind (.done members_nil)
    case friendWord => exact alike_throughDeclaration.discard_bind (.done members_nil)
    case templateWord =>
      refine (alike_expect _ _).bind fun opening opening' hopening => ?_
      refine (alike_throughAngles hopening).discard_bind ?_
      exact alike_throughDeclaration.discard_bind (.done members_nil)
    all_goals exact hmember

abbrev ItemEnds (L : Likeness) (a a' : Bool × List Member) : Prop := a'.1 = a.1 ∧ L.Members a.2 a'.2

theorem alike_bodyItem {body body' : BodyParser} (hbody : L.BodyParsers body body')
    (h : L.Tokens t t') (hctx : L.Contexts ctx ctx') (visible : Bool) :
    L.Alike L.ItemEnds (bodyItem body t ctx visible) (bodyItem body' t' ctx' visible) := by
  rw [bodyItem, bodyItem, h.reserved?_eq]
  cases t.reserved?.bind ReservedWord.visibility? with
  | some selected => exact (alike_expect _ _).discard_bind (.done ⟨rfl, members_nil⟩)
  | none =>
    refine (alike_memberSpecifiers h).bind ?_
    rintro ⟨isStatic, u⟩ ⟨isStatic', u'⟩ ⟨hstatic, hu⟩
    simp only at hstatic hu ⊢
    subst hstatic
    exact (alike_memberItem hbody hu hctx visible _).bind fun ms ms' hms => .done ⟨rfl, hms⟩

theorem alike_bodyItems {body body' : BodyParser} (hbody : L.BodyParsers body body') :
    L.BodyParsers (bodyItems body) (bodyItems body') := by
  rintro ⟨opening, ctx, visible⟩ ⟨opening', ctx', visible'⟩ ⟨hopening, hctx, hvisible⟩
  simp only at hopening hctx hvisible
  subst hvisible
  refine alike_recur L.ItemEnds ?_ ⟨rfl, members_nil⟩
  rintro again again' hagain ⟨visible, ms⟩ ⟨visible', ms'⟩ ⟨hvisible, hms⟩
  simp only at hvisible hms
  subst hvisible
  refine alike_next.bind fun u u' hu => ?_
  simp only [hu.kind_eq, hu.depth_eq_iff hopening]
  refine .ite (fun _ => .done ⟨hu, hms⟩) fun _ => ?_
  have hitem : L.Alike (fun a a' => L.Tokens a.1 a'.1 ∧ L.Members a.2 a'.2)
      (bodyItem body u ctx visible' >>= fun a => again (a.1, ms ++ a.2))
      (bodyItem body' u' ctx' visible' >>= fun a => again' (a.1, ms' ++ a.2)) :=
    (alike_bodyItem hbody hu hctx visible').bind
      fun _ _ hend => hagain _ _ ⟨hend.1, hms.append hend.2⟩
  cases u.kind
  case semicolon => exact hagain _ _ ⟨rfl, hms⟩
  case ident | colonColon | tilde => exact hitem
  case lBracket => exact (alike_throughBrackets hu).discard_bind (hagain _ _ ⟨rfl, hms⟩)
  all_goals exact alike_fail hu (faults_unexpected hu fun hexact htop => by
    rw [hctx.names.eq hexact htop])

theorem alike_recordMembers : L.BodyParsers recordMembers recordMembers := fun _ _ htask =>
  alike_recur L.Tasks (fun _ _ hagain _ _ htask => alike_bodyItems hagain _ _ htask) htask

end ReflectionTables.Parsing.Likeness
