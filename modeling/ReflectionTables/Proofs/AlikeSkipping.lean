import ReflectionTables.BracketSkipping
import ReflectionTables.Proofs.AlikeParsers
/-!
# Groups and statements are gone through alike

The parsers that go through a bracketed group, a statement, a list or an initializer decide by
kinds, spellings and depths only.
-/

namespace ReflectionTables.Parsing.Likeness

open Scanning Reflected Parsing.Parser

variable {L : Likeness} {t t' : Token}

theorem alike_throughBrace (h : L.Tokens t t') :
    L.Alike L.Tokens (throughBrace t) (throughBrace t') := by
  refine alike_loop fun again again' hagain => alike_next.bind fun u u' hu => ?_
  simp only [hu.kind_eq, hu.depth_eq_iff h]
  exact .ite (fun _ => .done hu) fun _ => hagain

theorem alike_throughParens (h : L.Tokens t t') :
    L.Alike L.Tokens (throughParens t) (throughParens t') := by
  rw [throughParens, throughParens, h.kind_eq]
  refine .ite (fun _ => .done h) fun _ => alike_recur Eq ?_ rfl
  rintro again again' hagain inner _ rfl
  refine alike_next.bind fun u u' hu => ?_
  simp only [hu.kind_eq]
  cases u.kind
  case lParen => exact hagain _ _ rfl
  case rParen =>
    cases inner with
    | zero => exact .done hu
    | succ inner => exact hagain _ _ rfl
  case lBrace => exact (alike_throughBrace hu).discard_bind (hagain _ _ rfl)
  all_goals exact hagain _ _ rfl

theorem alike_throughBrackets (h : L.Tokens t t') :
    L.Alike L.Tokens (throughBrackets t) (throughBrackets t') := by
  rw [throughBrackets, throughBrackets, h.kind_eq]
  refine .ite (fun _ => .done h) fun _ => alike_recur Eq ?_ rfl
  rintro again again' hagain inner _ rfl
  refine alike_next.bind fun u u' hu => ?_
  simp only [hu.kind_eq]
  cases u.kind
  case lBracket => exact hagain _ _ rfl
  case rBracket =>
    cases inner with
    | zero => exact .done hu
    | succ inner => exact hagain _ _ rfl
  all_goals exact hagain _ _ rfl

theorem alike_throughStatement : L.Alike L.Tokens throughStatement throughStatement := by
  refine alike_loop fun again again' hagain => alike_next.bind fun u u' hu => ?_
  simp only [hu.kind_eq]
  cases u.kind
  case semicolon => exact .done hu
  case lBrace => exact (alike_throughBrace hu).discard_bind hagain
  case rBrace => exact alike_fail hu fun _ _ => rfl
  all_goals exact hagain

theorem alike_throughDeclaration : L.Alike L.Tokens throughDeclaration throughDeclaration := by
  refine alike_loop fun again again' hagain => alike_next.bind fun u u' hu => ?_
  simp only [hu.kind_eq]
  cases u.kind
  case semicolon => exact .done hu
  case lBrace => exact alike_throughBrace hu
  case lParen => exact (alike_throughParens hu).discard_bind hagain
  case rBrace => exact alike_fail hu fun _ _ => rfl
  all_goals exact hagain

structure AngleLists (L : Likeness) (list list' : AngleList) : Prop where
  texts : L.Texts list.text list'.text
  stops : L.Offsets list.stop list'.stop

theorem alike_throughAngles (h : L.Tokens t t') :
    L.Alike L.AngleLists (throughAngles t) (throughAngles t') := by
  refine alike_recur Eq ?_ rfl
  rintro again again' hagain depth _ rfl
  refine alike_next.bind fun u u' hu => ?_
  have hclose : ∀ (depth : Int) {offset offset' : Nat}, L.Offsets offset offset' →
      L.Alike L.AngleLists
        (if depth < 0 then fail u .overclosedList
          else if depth = 0 then
            cut .list t.stop offset >>= fun text => pure ⟨text, offset + 1⟩
          else again depth)
        (if depth < 0 then fail u' .overclosedList
          else if depth = 0 then
            cut .list t'.stop offset' >>= fun text => pure ⟨text, offset' + 1⟩
          else again' depth) := by
    intro depth offset offset' hoffset
    refine .ite (fun _ => alike_fail hu fun _ _ => rfl) fun _ => ?_
    refine .ite (fun _ => ?_) fun _ => hagain _ _ rfl
    exact (alike_cut (by simp) h.stops hoffset).bind fun _ _ htext => .done ⟨htext, hoffset.add 1⟩
  simp only [hu.kind_eq]
  cases u.kind
  case lt => exact hagain _ _ rfl
  case gt => exact hclose _ hu.offsets
  case gtGt => exact hclose _ (hu.offsets.add 1)
  case ltLt => exact alike_fail hu fun _ _ => rfl
  case semicolon => exact alike_fail hu fun _ _ => rfl
  case lParen => exact (alike_throughParens hu).discard_bind (hagain _ _ rfl)
  all_goals exact hagain _ _ rfl

theorem alike_anglesCloseAhead : L.Alike Eq anglesCloseAhead anglesCloseAhead := by
  refine alike_recurBy Eq ?_ rfl
  rintro again again' hagain ⟨depth, n⟩ _ rfl
  refine (alike_lookAt n).bind fun u u' hu => ?_
  have hcount : ∀ depth : Int, L.Alike Eq
      (if depth ≤ 0 then (pure true : Parser Bool) else again (depth, n + 1))
      (if depth ≤ 0 then (pure true : Parser Bool) else again' (depth, n + 1)) :=
    fun depth => .ite (fun _ => .done rfl) fun _ => hagain _ _ rfl
  simp only [hu.kind_eq]
  cases u.kind
  case semicolon | lBrace | rBrace | endOfText => exact .done rfl
  all_goals exact hcount _

theorem alike_throughInitializer : L.Alike L.Tokens throughInitializer throughInitializer := by
  refine alike_recur Eq ?_ rfl
  rintro again again' hagain s _ rfl
  refine alike_next.bind fun u u' hu => ?_
  simp only [hu.kind_eq]
  have hgoOn : ∀ lists afterName, L.Alike L.Tokens (again ⟨lists, afterName⟩)
      (again' ⟨lists, afterName⟩) := fun _ _ => hagain _ _ rfl
  cases u.kind
  case semicolon => exact .done hu
  case comma => exact .ite (fun _ => .done hu) fun _ => hgoOn _ _
  case lParen => exact (alike_throughParens hu).discard_bind (hgoOn _ _)
  case lBrace => exact (alike_throughBrace hu).discard_bind (hgoOn _ _)
  case lBracket => exact (alike_throughBrackets hu).discard_bind (hgoOn _ _)
  case lt =>
    refine .ite (fun _ => ?_) fun _ => hgoOn _ _
    refine alike_anglesCloseAhead.bind fun closes _ hcloses => ?_
    subst hcloses
    exact .ite (fun _ => hgoOn _ _) fun _ => hgoOn _ _
  case rBrace => exact alike_fail hu fun _ _ => rfl
  all_goals exact hgoOn _ _

theorem alike_throughConstructorInitializers :
    L.Alike (fun _ _ => True) throughConstructorInitializers throughConstructorInitializers := by
  refine alike_recur Eq ?_ rfl
  rintro again again' hagain afterName _ rfl
  refine alike_next.bind fun u u' hu => ?_
  have hfail : L.Alike (fun _ _ => True) (fail u (.unexpected u .initializerList) : Parser Unit)
      (fail u' (.unexpected u' .initializerList) : Parser Unit) :=
    alike_fail hu (faults_unexpected hu fun _ _ => rfl)
  simp only [hu.kind_eq]
  cases u.kind
  case ident | colonColon => exact hagain _ _ rfl
  case lt => exact (alike_throughAngles hu).discard_bind (hagain _ _ rfl)
  case lParen | emptyParens =>
    cases afterName with
    | true => exact (alike_throughParens hu).discard_bind (hagain _ _ rfl)
    | false => exact hfail
  case lBrace =>
    cases afterName with
    | true => exact (alike_throughBrace hu).discard_bind (hagain _ _ rfl)
    | false => exact (alike_throughBrace hu).discard
  case comma | dot => exact hagain _ _ rfl
  all_goals exact hfail

theorem alike_throughMethodTail (h : L.Tokens t t') :
    L.Alike (fun _ _ => True) (throughMethodTail t) (throughMethodTail t') := by
  rw [throughMethodTail, throughMethodTail, h.kind_eq]
  refine .ite (fun _ => .reject h (faults_expected h fun _ _ => rfl)) fun _ => ?_
  refine (alike_throughParens h).discard_bind (alike_loop fun again again' hagain => ?_)
  refine alike_next.bind fun u u' hu => ?_
  have hfail : L.Alike (fun _ _ => True) (fail u (.unexpected u .methodTail) : Parser Unit)
      (fail u' (.unexpected u' .methodTail) : Parser Unit) :=
    alike_fail hu (faults_unexpected hu fun _ _ => rfl)
  simp only [hu.kind_eq]
  cases u.kind
  case semicolon => exact .done trivial
  case lBrace => exact (alike_throughBrace hu).discard
  case eq => exact alike_throughStatement.discard
  case colon => exact alike_throughConstructorInitializers
  case lParen | emptyParens => exact (alike_throughParens hu).discard_bind hagain
  case lBracket | emptyBrackets => exact (alike_throughBrackets hu).discard_bind hagain
  case lt => exact (alike_throughAngles hu).discard_bind hagain
  case ident | colonColon | amp | ampAmp | star | minus | gt => exact hagain
  all_goals exact hfail

theorem alike_attributeAhead (h : L.Tokens t t') :
    L.Alike Eq (attributeAhead t) (attributeAhead t') := by
  rw [attributeAhead, attributeAhead, h.text_eq]
  refine .ite (fun _ => (alike_lookAt 1).bind fun u u' hu => .done ?_) fun _ => .done rfl
  rw [hu.kind_eq]

theorem alike_markerAhead : L.Alike Eq markerAhead markerAhead := by
  refine (alike_lookAt 0).bind fun word word' hword => ?_
  rw [hword.text_eq]
  refine .ite (fun _ => .done rfl) fun _ => ?_
  refine (alike_lookAt 1).bind fun name name' hname => ?_
  rw [hname.kind_eq, hname.isWord_eq]
  refine .ite (fun _ => .done rfl) fun _ => ?_
  refine (alike_lookAt 2).bind fun after after' hafter => .done ?_
  rw [hafter.kind_eq, hafter.isWord_eq]

theorem alike_throughHeadAttributes :
    L.Alike (fun _ _ => True) throughHeadAttributes throughHeadAttributes := by
  refine alike_loop fun again again' hagain => (alike_lookAt 0).bind fun u u' hu => ?_
  simp only [hu.kind_eq]
  cases u.kind
  case lBracket =>
    exact alike_next.bind fun _ _ hopening => (alike_throughBrackets hopening).discard_bind hagain
  case ident =>
    refine (alike_attributeAhead hu).bind fun attributed _ hattributed => ?_
    subst hattributed
    refine .ite (fun _ => ?_) fun _ => ?_
    · refine alike_next.discard_bind (alike_next.bind fun _ _ hopening => ?_)
      exact (alike_throughParens hopening).discard_bind hagain
    · refine alike_markerAhead.bind fun marker _ hmarker => ?_
      subst hmarker
      exact .ite (fun _ => alike_next.discard_bind hagain) fun _ => .done trivial
  all_goals exact .done trivial

theorem alike_throughBases : L.Alike L.Tokens throughBases throughBases := by
  refine alike_loop fun again again' hagain => alike_next.bind fun u u' hu => ?_
  have hfail : L.Alike L.Tokens (fail u (.unexpected u .baseClause) : Parser Token)
      (fail u' (.unexpected u' .baseClause) : Parser Token) :=
    alike_fail hu (faults_unexpected hu fun _ _ => rfl)
  simp only [hu.kind_eq]
  cases u.kind
  case lBrace => exact .done hu
  case lt => exact (alike_throughAngles hu).discard_bind hagain
  case ident | colon | colonColon | comma => exact hagain
  all_goals exact hfail

end ReflectionTables.Parsing.Likeness
