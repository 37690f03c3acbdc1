import ReflectionTables.FileItems
import ReflectionTables.Proofs.AlikeBodies
/-!
# Items of a file are read alike

Declarations at file scope. A parameter list may be empty on one side and not on the other only if
it is written so, which is left to the caller.
-/

namespace ReflectionTables.Parsing.Likeness

open Text Scanning Reflected Parsing.Parser

variable {L : Likeness} [Fact L.top] {t t' start start' : Token}

theorem alike_behindParens {again again' : Token → Parser Nat} (h : L.Tokens t t')
    (hagain : ∀ u u', L.Tokens u u' → L.Alike L.Offsets (again u) (again' u')) :
    L.Alike L.Offsets (behindParens again t) (behindParens again' t') := by
  refine (alike_throughParens h).bind fun close close' hclose => ?_
  refine (alike_lookAt 0).bind fun u u' hu => ?_
  simp only [hu.kind_eq]
  cases u.kind
  case semicolon | lBrace => exact alike_nextOrEnd.bind hagain
  all_goals exact .done hclose.stops

theorem alike_throughUnknown (h : L.Tokens t t') :
    L.Alike L.Offsets (throughUnknown t) (throughUnknown t') := by
  refine alike_recurBy L.Tokens (fun again again' hagain u u' hu => ?_) h
  simp only [hu.kind_eq]
  cases u.kind
  case semicolon => exact .done hu.stops
  case lBrace =>
    refine (alike_throughBrace hu).bind fun close close' hclose => ?_
    refine (alike_lookAt 0).bind fun v v' hv => ?_
    rw [hv.kind_eq]
    exact .ite (fun _ => alike_next.bind fun w w' hw => .done hw.stops) fun _ => .done hclose.stops
  case rBrace | endOfText => exact (alike_putBack hu).bind fun _ _ _ => .done hu.offsets
  case lParen | emptyParens => exact alike_behindParens hu hagain
  all_goals exact alike_nextOrEnd.bind hagain

theorem alike_leaveUnparsed (hstart : L.Tokens start start') (h : L.Tokens t t') :
    L.Alike (fun _ _ => True) (leaveUnparsed start t) (leaveUnparsed start' t') :=
  (alike_throughUnknown h).bind fun _ _ hstop =>
    alike_remarkUnparsed hstart.offsets (hstop.max hstart.offsets)

variable {offset offset' stop stop' : Nat}

omit [Fact L.top] in
theorem alike_announce (hstart : L.Offsets offset offset') (hstop : L.Offsets stop stop') :
    L.Alike (fun _ _ => True) (announce offset stop) (announce offset' stop') := by
  refine alike_roleOfFile.bind fun role _ hrole => ?_
  subst hrole
  refine .ite (fun _ => ?_) fun _ => .done trivial
  exact (alike_span hstart hstop).bind fun _ _ hpiece => alike_noteExtern hpiece

omit [Fact L.top] in
theorem alike_throughDefinition :
    L.Alike (fun _ _ => True) throughDefinition throughDefinition := by
  refine alike_loop fun again again' hagain => alike_next.bind fun u u' hu => ?_
  have hparens : L.Alike (fun _ _ => True)
      (do
        discard (throughParens u)
        if (← lookAt 0).kind = .colon then
          discard next
          throughConstructorInitializers
        else again)
      (do
        discard (throughParens u')
        if (← lookAt 0).kind = .colon then
          discard next
          throughConstructorInitializers
        else again') := by
    refine (alike_throughParens hu).discard_bind ((alike_lookAt 0).bind fun v v' hv => ?_)
    rw [hv.kind_eq]
    refine .ite (fun _ => ?_) fun _ => hagain
    exact alike_next.discard_bind alike_throughConstructorInitializers
  simp only [hu.kind_eq]
  cases u.kind
  case semicolon => exact .done trivial
  case lBrace => exact (alike_throughBrace hu).discard
  case lParen | emptyParens => exact hparens
  case rBrace => exact alike_fail hu fun _ _ => rfl
  all_goals exact hagain

theorem alike_afterInitializer (h : L.Tokens t t') :
    L.Alike L.Tokens (afterInitializer t) (afterInitializer t') := by
  rw [afterInitializer, afterInitializer]
  simp only [h.kind_eq]
  cases t.kind
  case eq => exact alike_throughInitializer
  case lBrace => exact (alike_throughBrace h).discard_bind alike_nextOrEnd
  all_goals exact .done h

abbrev Places (L : Likeness) (a a' : Nat × Token) : Prop := L.Offsets a.1 a'.1 ∧ L.Tokens a.2 a'.2

theorem alike_throughSuffixes (hstop : L.Offsets stop stop') (h : L.Tokens t t') :
    L.Alike L.Places (throughSuffixes stop t) (throughSuffixes stop' t') := by
  refine alike_recurBy L.Places ?_ ⟨hstop, h⟩
  rintro again again' hagain ⟨stop, u⟩ ⟨stop', u'⟩ ⟨hstop, hu⟩
  simp only at hstop hu ⊢
  rw [hu.kind_eq]
  refine .ite (fun _ => ?_) fun _ => .done ⟨hstop, hu⟩
  refine (alike_throughBrackets hu).bind fun close close' hclose => ?_
  exact alike_nextOrEnd.bind fun v v' hv => hagain _ _ ⟨hclose.stops, hv⟩

theorem alike_throughMarks (h : L.Tokens t t') :
    L.Alike L.Tokens (throughMarks t) (throughMarks t') := by
  refine alike_recurBy L.Tokens (fun again again' hagain u u' hu => ?_) h
  rw [hu.kind_eq]
  exact .ite (fun _ => alike_nextOrEnd.bind hagain) fun _ => .done hu

theorem alike_laterVariables (hstart : L.Tokens start start') {base base' : String}
    (hbase : L.Texts base base') :
    L.Alike (fun _ _ => True) (laterVariables start base) (laterVariables start' base') := by
  refine alike_loop fun again again' hagain => alike_nextOrEnd.bind fun first first' hfirst => ?_
  refine (alike_throughMarks hfirst).bind fun name name' hname => ?_
  rw [hname.kind_eq]
  refine .ite (fun _ => alike_leaveUnparsed hstart hname) fun _ => ?_
  refine alike_nextOrEnd.bind fun u u' hu => (alike_throughSuffixes hname.stops hu).bind ?_
  rintro ⟨stop, v⟩ ⟨stop', v'⟩ ⟨hstop, hv⟩
  refine (alike_span hfirst.offsets hstop).bind fun declarator declarator' hdeclarator => ?_
  refine (alike_noteExtern fun hexact => by rw [hbase hexact, hdeclarator hexact]).bind
    fun _ _ _ => ?_
  refine (alike_afterInitializer hv).bind fun last last' hlast => ?_
  simp only [hlast.kind_eq]
  cases last.kind
  case semicolon => exact .done trivial
  case comma => exact hagain
  all_goals exact alike_leaveUnparsed hstart hlast

theorem alike_freeFunction (hstart : L.Tokens start start') (h : L.Tokens t t') :
    L.Alike (fun _ _ => True) (freeFunction start t) (freeFunction start' t') := by
  refine (alike_throughParens h).bind fun close close' hclose => ?_
  refine alike_recur L.Offsets (fun again again' hagain stop stop' hstop => ?_) hclose.stops
  refine alike_nextOrEnd.bind fun u u' hu => ?_
  simp only [hu.kind_eq, hu.text_eq]
  cases u.kind
  case semicolon => exact alike_announce hstart.offsets hstop
  case lBrace =>
    exact (alike_announce hstart.offsets hstop).bind fun _ _ _ => (alike_throughBrace hu).discard
  case eq => exact alike_throughStatement.discard
  case ident =>
    refine .ite (fun _ => (alike_lookAt 0).bind fun v v' hv => ?_) fun _ => hagain _ _ hu.stops
    rw [hv.kind_eq]
    refine .ite (fun _ => ?_) fun _ => hagain _ _ hu.stops
    exact alike_next.bind fun w w' hw =>
      (alike_throughParens hw).bind fun x x' hx => hagain _ _ hx.stops
  case minus =>
    refine (alike_lookAt 0).bind fun v v' hv => ?_
    rw [hv.kind_eq]
    refine .ite (fun _ => ?_) fun _ => alike_leaveUnparsed hstart hu
    exact alike_next.bind fun w w' hw => hagain _ _ hw.stops
  case colonColon | star | amp | ampAmp => exact hagain _ _ hu.stops
  case lt => exact (alike_throughAngles hu).bind fun list list' hlist => hagain _ _ hlist.stops
  all_goals exact alike_leaveUnparsed hstart hu

theorem alike_freeOperator (hstart : L.Tokens start start') :
    L.Alike (fun _ _ => True) (freeOperator start) (freeOperator start') := by
  refine alike_operatorSymbol.bind fun _ _ _ => alike_nextOrEnd.bind fun first first' hfirst => ?_
  refine alike_recurBy L.Tokens (fun again again' hagain u u' hu => ?_) hfirst
  simp only [hu.kind_eq]
  cases u.kind
  case lParen | emptyParens => exact alike_freeFunction hstart hu
  case semicolon | lBrace | rBrace | endOfText => exact alike_leaveUnparsed hstart hu
  all_goals exact alike_nextOrEnd.bind hagain

omit [Fact L.top] in
theorem isQualified_eq (h : L.Tokens t t') : isQualified t' = isQualified t := by
  rw [isQualified, isQualified, h.text_eq]

structure FreeHeads (L : Likeness) (head head' : FreeHead) : Prop where
  names_eq : head'.names = head.names
  places : L.Offsets head.nameAt head'.nameAt
  marks : L.Marks head.markAt head'.markAt
  tokens : L.Tokens head.token head'.token

theorem alike_freeVariables (hstart : L.Tokens start start') {head head' : FreeHead}
    (h : L.FreeHeads head head') :
    L.Alike (fun _ _ => True) (freeVariables start head) (freeVariables start' head') := by
  refine (alike_announce hstart.offsets h.tokens.offsets).bind fun _ _ _ => ?_
  refine (alike_afterInitializer h.tokens).bind fun last last' hlast => ?_
  simp only [hlast.kind_eq]
  cases last.kind
  case semicolon => exact .done trivial
  case comma =>
    refine (alike_span hstart.offsets ((h.marks.getD h.places).min h.places)).bind
      fun base base' hbase => ?_
    exact alike_laterVariables hstart hbase
  all_goals exact alike_leaveUnparsed hstart hlast

theorem alike_freeDeclaration (hstart : L.Tokens start start') (h : L.Tokens t t') :
    L.Alike (fun _ _ => True) (freeDeclaration start t) (freeDeclaration start' t') := by
  refine alike_recurBy L.FreeHeads ?_ ⟨rfl, hstart.offsets, fun _ => rfl, h⟩
  rintro again again' hagain ⟨names, nameAt, markAt, u⟩ ⟨names', nameAt', markAt', u'⟩
    ⟨hnames, hplaces, hmarks, hu⟩
  simp only at hnames hplaces hmarks hu ⊢
  subst hnames
  have hgoOn : ∀ names {nameAt nameAt' markAt markAt'}, L.Offsets nameAt nameAt' →
      L.Marks markAt markAt' → L.Alike (fun _ _ => True)
        (nextOrEnd >>= fun v => again ⟨names, nameAt, markAt, v⟩)
        (nextOrEnd >>= fun v => again' ⟨names, nameAt', markAt', v⟩) :=
    fun names _ _ _ _ hplaces hmarks => alike_nextOrEnd.bind fun v v' hv =>
      hagain _ _ ⟨rfl, hplaces, hmarks, hv⟩
  have hleave := alike_leaveUnparsed hstart hu
  simp only [hu.kind_eq, hu.reserved?_eq, isQualified_eq hu]
  cases u.kind
  case ident =>
    refine .ite (fun _ => alike_freeOperator hstart) fun _ => ?_
    exact .ite (fun _ => alike_throughDefinition) fun _ => hgoOn _ hu.offsets hmarks
  case colonColon => exact .ite (fun _ => alike_throughDefinition) fun _ => hgoOn _ hplaces hmarks
  case lt =>
    refine .ite (fun _ => ?_) fun _ => hleave
    exact (alike_throughAngles hu).discard_bind (hgoOn _ hplaces hmarks)
  case star | amp | ampAmp => exact hgoOn _ hplaces (hmarks.or_some hu)
  case lBracket | emptyBrackets =>
    refine .ite (fun _ => ?_) fun _ => hleave
    exact (alike_throughBrackets hu).discard_bind (hgoOn _ hplaces hmarks)
  case eq | lBrace | comma | semicolon =>
    exact .ite (fun _ => alike_freeVariables hstart ⟨rfl, hplaces, hmarks, hu⟩) fun _ => hleave
  case lParen | emptyParens =>
    exact .ite (fun _ => alike_freeFunction hstart hu) fun _ => hleave
  all_goals exact hleave

theorem alike_recordFromName (key : ClassKey) {word word' name name' : Token}
    (hword : L.Tokens word word') (hname : L.Tokens name name')
    {arguments? arguments?' : Option String} (harguments : L.Arguments arguments? arguments?')
    {generic generic' : String} (hgeneric : L.Generics generic generic') :
    L.Alike (fun _ _ => True) (recordFromName key word name arguments? generic)
      (recordFromName key word' name' arguments?' generic') := by
  refine alike_recur Eq ?_ rfl
  rintro again again' hagain inBases _ rfl
  refine alike_next.bind fun u u' hu => ?_
  have hdeclare : L.Alike (fun _ _ => True)
      (putBack u >>= fun _ => freeDeclaration word name)
      (putBack u' >>= fun _ => freeDeclaration word' name') :=
    (alike_putBack hu).bind fun _ _ _ => alike_freeDeclaration hword hname
  simp only [hu.kind_eq, hu.isWord_eq]
  cases u.kind
  case lBrace =>
    refine alike_roleOfFile.bind fun role _ hrole => ?_
    subst hrole
    refine .ite (fun _ => ?_) fun _ => ?_
    · refine (alike_recordBody alike_recordMembers key hname harguments hu hgeneric false).bind
        fun _ _ _ => ?_
      exact (alike_expect _ _).discard
    · exact (alike_throughBrace hu).discard_bind alike_throughStatement.discard
  case semicolon => exact .done trivial
  case colon => exact hagain _ _ rfl
  case lt =>
    refine .ite (fun _ => ?_) fun _ => hdeclare
    exact (alike_throughAngles hu).discard_bind (hagain _ _ rfl)
  case comma | colonColon => exact .ite (fun _ => hagain _ _ rfl) fun _ => hdeclare
  case ident => exact .ite (fun _ => hagain _ _ rfl) fun _ => hdeclare
  all_goals exact hdeclare

omit [Fact L.top] in
theorem alike_writtenList? : L.Alike L.Arguments writtenList? writtenList? := by
  refine (alike_lookAt 0).bind fun u u' hu => ?_
  rw [hu.kind_eq]
  refine .ite (fun _ => ?_) fun _ => .done (.of_eq rfl)
  refine alike_next.bind fun opening opening' hopening => ?_
  refine (alike_throughAngles hopening).bind fun list list' hlist => .done ⟨rfl, fun hexact => ?_⟩
  rw [hlist.texts hexact]

theorem alike_recordItem (key : ClassKey) {word word' : Token} (hword : L.Tokens word word')
    {generic generic' : String} (hgeneric : L.Generics generic generic') :
    L.Alike (fun _ _ => True) (recordItem key word generic) (recordItem key word' generic') := by
  refine alike_throughHeadAttributes.bind fun _ _ _ => alike_next.bind fun name name' hname => ?_
  simp only [hname.kind_eq]
  refine .ite (fun _ => ?_) fun _ => .ite (fun _ => alike_failExpected hname) fun _ => ?_
  · refine (alike_throughBrace hname).discard_bind (alike_throughStatement.bind fun u u' hu => ?_)
    exact alike_remarkUnparsed hword.offsets hu.stops
  · exact alike_writtenList?.bind fun arguments? arguments?' harguments =>
      alike_recordFromName key hword hname harguments hgeneric

omit [Fact L.top] in
theorem alike_namespaceItem : L.Alike (fun _ _ => True) namespaceItem namespaceItem := by
  refine alike_next.bind fun name name' hname => ?_
  simp only [hname.kind_eq]
  refine .ite (fun _ => (alike_throughBrace hname).discard) fun _ => ?_
  refine .ite (fun _ => alike_failExpected hname) fun _ => alike_next.bind fun u u' hu => ?_
  simp only [hu.kind_eq]
  cases u.kind
  case lBrace => exact alike_enter (fun _ => hname.text_eq) hu
  case eq => exact alike_throughStatement.discard
  all_goals exact alike_fail hu (faults_expected hu fun _ _ => by rw [hname.text_eq])

omit [Fact L.top] in
theorem alike_enumItem : L.Alike (fun _ _ => True) enumItem enumItem := by
  refine (alike_enumAfterWord false).bind fun _ _ hform => ?_
  cases hform with
  | declared => exact .done trivial
  | elaborated => exact alike_throughStatement.discard
  | anonymous => exact (alike_expect _ _).discard
  | named => exact (alike_expect _ _).discard

theorem alike_namedItem (h : L.Tokens t t') (hword : t.reserved? ≠ some .templateWord) :
    L.Alike (fun _ _ => True) (namedItem t) (namedItem t') := by
  rw [namedItem, namedItem]
  simp only [h.reserved?_eq, isQualified_eq h]
  have hfree : L.Alike (fun _ _ => True)
      (if isQualified t = true then throughDefinition else freeDeclaration t t)
      (if isQualified t = true then throughDefinition else freeDeclaration t' t') :=
    .ite (fun _ => alike_throughDefinition) fun _ => alike_freeDeclaration h h
  cases hreserved : t.reserved? with
  | none => exact hfree
  | some word =>
    cases word
    case namespaceWord => exact alike_namespaceItem
    case typedefWord | usingWord | staticAssertWord => exact alike_throughStatement.discard
    case structWord | classWord | unionWord => exact alike_recordItem _ h generics_empty
    case enumWord => exact alike_enumItem
    case templateWord => exact absurd hreserved hword
    case inlineWord =>
      refine (alike_lookAt 0).bind fun u u' hu => ?_
      rw [hu.isWord_eq]
      refine .ite (fun _ => ?_) fun _ => alike_throughDefinition
      exact alike_next.discard_bind alike_namespaceItem
    case staticWord | externWord | constexprWord => exact alike_throughDefinition
    all_goals exact hfree

theorem alike_fileItem (h : L.Tokens t t') (hword : t.reserved? ≠ some .templateWord) :
    L.Alike (fun _ _ => True) (fileItem t) (fileItem t') := by
  rw [fileItem, fileItem]
  simp only [h.kind_eq]
  cases t.kind
  case semicolon | rBrace => exact .done trivial
  case lBracket => exact (alike_throughBrackets h).discard
  case ident => exact alike_namedItem h hword
  all_goals exact alike_leaveUnparsed h h

end ReflectionTables.Parsing.Likeness
