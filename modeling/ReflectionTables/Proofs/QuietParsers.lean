import ReflectionTables.Proofs.AnyAnswers
/-!
# Parsers that enter no body

The parsers that enter no body make quiet requests only. They go through what they read, or give the
members that a declaration says; each such member has the parameter list of its record.
-/

namespace ReflectionTables.Parsing

open Scanning Reflected Parsing.Parser

variable {role : FileRole} {allowed : Request → Prop} {opening : Token}

section ReadingOn

variable [Request.AdmitsReading role allowed]

theorem always_throughBrace : (throughBrace opening).Always role allowed fun _ => True := by
  refine always_loop fun again ih => always_next.bind fun token _ => ?_
  split
  · trivial
  · exact ih

theorem always_throughParens : (throughParens opening).Always role allowed fun _ => True := by
  rw [throughParens]
  split
  · trivial
  refine always_recur (fun _ => True) (fun again inner _ ih => ?_) trivial
  refine always_next.bind fun token _ => ?_
  split
  · exact ih _ trivial
  · trivial
  · exact ih _ trivial
  · exact always_throughBrace.discard.bind fun _ _ => ih _ trivial
  · exact ih _ trivial

theorem always_throughAngles : (throughAngles opening).Always role allowed fun _ => True := by
  refine always_recur (fun _ => True) (fun again depth _ ih => ?_) trivial
  refine always_next.bind fun token _ => ?_
  have hclose : ∀ (depth : Int) (offset : Nat), (if depth < 0 then fail token .overclosedList
      else if depth = 0 then do return ⟨← cut .list opening.stop offset, offset + 1⟩
      else again depth : Parser AngleList).Always role allowed fun _ => True := by
    intro depth offset
    split
    · exact always_fail
    split
    · exact always_cut_list.bind fun _ _ => trivial
    · exact ih _ trivial
  split
  · exact ih _ trivial
  · exact hclose _ _
  · exact hclose _ _
  · exact always_fail
  · exact always_fail
  · exact always_throughParens.discard.bind fun _ _ => ih _ trivial
  · exact ih _ trivial

theorem always_throughEnumeratorValue :
    (throughEnumeratorValue opening).Always role allowed fun _ => True := by
  refine always_loop fun again ih => always_next.bind fun token _ => ?_
  split
  · trivial
  · split
    · trivial
    · exact ih
  · exact always_throughParens.discard.bind fun _ _ => ih
  · exact always_throughBrace.discard.bind fun _ _ => ih
  · exact ih

theorem always_enumeratorNames : (enumeratorNames opening).Always role allowed fun _ => True := by
  refine always_recur (fun _ => True) (fun again names _ ih => ?_) trivial
  refine always_next.bind fun token _ => ?_
  split
  · trivial
  split
  · exact always_fail_bind
  refine always_next.bind fun after _ => ?_
  split
  · exact ih _ trivial
  · split
    · trivial
    · exact always_fail
  · refine always_throughEnumeratorValue.bind fun ended _ => ?_
    split
    · trivial
    · exact ih _ trivial
  · exact always_fail

theorem always_throughBrackets : (throughBrackets opening).Always role allowed fun _ => True := by
  rw [throughBrackets]
  split
  · trivial
  refine always_recur (fun _ => True) (fun again inner _ ih => ?_) trivial
  refine always_next.bind fun token _ => ?_
  split
  · exact ih _ trivial
  · trivial
  · exact ih _ trivial
  · exact ih _ trivial

theorem always_throughStatement : throughStatement.Always role allowed fun _ => True := by
  refine always_loop fun again ih => always_next.bind fun token _ => ?_
  split
  · trivial
  · exact always_throughBrace.discard.bind fun _ _ => ih
  · exact always_fail
  · exact ih

theorem always_throughDeclaration : throughDeclaration.Always role allowed fun _ => True := by
  refine always_loop fun again ih => always_next.bind fun token _ => ?_
  split
  · trivial
  · exact always_throughBrace
  · exact always_throughParens.discard.bind fun _ _ => ih
  · exact always_fail
  · exact ih

theorem always_throughConstructorInitializers :
    throughConstructorInitializers.Always role allowed fun _ => True := by
  refine always_recur (fun _ => True) (fun again afterName _ ih => ?_) trivial
  refine always_next.bind fun token _ => ?_
  split
  · exact ih _ trivial
  · exact ih _ trivial
  · exact always_throughAngles.discard.bind fun _ _ => ih _ trivial
  · exact always_throughParens.discard.bind fun _ _ => ih _ trivial
  · exact always_throughParens.discard.bind fun _ _ => ih _ trivial
  · exact always_throughBrace.discard.bind fun _ _ => ih _ trivial
  · exact always_throughBrace.discard
  · exact ih _ trivial
  · exact ih _ trivial
  · exact always_fail

theorem always_throughMethodTail {params : Token} :
    (throughMethodTail params).Always role allowed fun _ => True := by
  rw [throughMethodTail]
  split
  · exact always_fail_bind
  refine always_throughParens.discard.bind fun _ _ => ?_
  refine always_loop fun again ih => always_next.bind fun token _ => ?_
  split
  · trivial
  · exact always_throughBrace.discard
  · exact always_throughStatement.discard
  · exact always_throughConstructorInitializers
  · exact always_throughParens.discard.bind fun _ _ => ih
  · exact always_throughParens.discard.bind fun _ _ => ih
  · exact always_throughBrackets.discard.bind fun _ _ => ih
  · exact always_throughBrackets.discard.bind fun _ _ => ih
  · exact always_throughAngles.discard.bind fun _ _ => ih
  all_goals first
    | exact ih
    | exact always_fail

theorem always_throughBases : throughBases.Always role allowed fun _ => True := by
  refine always_loop fun again ih => always_next.bind fun token _ => ?_
  split
  · trivial
  · exact always_throughAngles.discard.bind fun _ _ => ih
  all_goals first
    | exact ih
    | exact always_fail

theorem always_afterUnderlyingType {token : Token} :
    (afterUnderlyingType token).Always role allowed fun _ => True := by
  rw [afterUnderlyingType]
  split
  · refine always_loop fun again ih => always_next.bind fun token _ => ?_
    split
    · trivial
    · exact ih
  · trivial

end ReadingOn

section GoingForward

variable [Request.AdmitsForward role allowed]

theorem always_anglesCloseAhead : anglesCloseAhead.Always role allowed fun _ => True := by
  refine always_recurBy (fun _ => True) (fun _ _ => True) (fun again ahead _ ih => ?_) trivial
  refine always_lookAt.bind fun token _ => ?_
  have hcount : ∀ depth : Int, (if depth ≤ 0 then return true
      else again (depth, ahead.2 + 1) : Parser Bool).Always role allowed fun _ => True := by
    intro depth
    split
    · trivial
    · exact ih _ trivial
  split
  · exact hcount _
  · exact hcount _
  · exact hcount _
  · trivial
  · trivial
  · trivial
  · trivial
  · exact hcount _

theorem always_throughInitializer : throughInitializer.Always role allowed fun _ => True := by
  refine always_recur (fun _ => True) (fun again s _ ih => ?_) trivial
  refine always_next.bind fun token _ => ?_
  split
  · trivial
  · split
    · trivial
    · exact ih _ trivial
  · exact always_throughParens.discard.bind fun _ _ => ih _ trivial
  · exact always_throughBrace.discard.bind fun _ _ => ih _ trivial
  · exact always_throughBrackets.discard.bind fun _ _ => ih _ trivial
  · split
    · refine always_anglesCloseAhead.bind fun closes _ => ?_
      split
      · exact ih _ trivial
      · exact ih _ trivial
    · exact ih _ trivial
  · exact ih _ trivial
  · exact ih _ trivial
  · exact always_fail
  · exact ih _ trivial

theorem always_throughHeadAttributes : throughHeadAttributes.Always role allowed fun _ => True := by
  refine always_loop fun again ih => always_lookAt.bind fun token _ => ?_
  split
  · refine always_next.bind fun opening _ => ?_
    exact always_throughBrackets.discard.bind fun _ _ => ih
  · have hattribute : (attributeAhead token).Always role allowed fun _ => True := by
      rw [attributeAhead]
      split
      · exact always_lookAt.bind fun _ _ => trivial
      · trivial
    have hmarker : markerAhead.Always role allowed fun _ => True := by
      refine always_lookAt.bind fun word _ => ?_
      split
      · trivial
      refine always_lookAt.bind fun name _ => ?_
      split
      · trivial
      · exact always_lookAt.bind fun _ _ => trivial
    refine hattribute.bind fun specifier _ => ?_
    split
    · refine always_next.discard.bind fun _ _ => always_next.bind fun opening _ => ?_
      exact always_throughParens.discard.bind fun _ _ => ih
    refine hmarker.bind fun marker _ => ?_
    split
    · exact always_next.discard.bind fun _ _ => ih
    · trivial
  · trivial

section Members

variable {first name token : Token} {kind : MemberKind} {typeText base : String} {accept : Bool}
  {ctx : BodyContext} {members : List Member}

theorem always_throughDimensions : (throughDimensions first).Always role allowed fun _ => True := by
  refine always_recur (fun _ => True) (fun again token _ ih => ?_) trivial
  split
  · refine always_throughBrackets.discard.bind fun _ _ => ?_
    exact always_next.bind fun _ _ => ih _ trivial
  · trivial

theorem always_throughWidth : throughWidth.Always role allowed fun _ => True := by
  refine always_loop fun again ih => always_next.bind fun token _ => ?_
  split
  all_goals trivial

theorem always_declaratorSuffix :
    (declaratorSuffix name kind first).Always role allowed fun _ => True := by
  rw [declaratorSuffix]
  split
  · refine always_throughBrackets.bind fun close _ => ?_
    refine (always_cut (.inr (.inl rfl))).bind fun arity _ => ?_
    refine always_next.bind fun token _ => ?_
    exact always_throughDimensions.bind fun _ _ => trivial
  · exact always_remarkUnparsed.bind fun _ _ => always_next.bind fun _ _ => trivial
  · exact always_throughWidth.bind fun _ _ => trivial
  · trivial

theorem always_afterMemberInitializer :
    (afterMemberInitializer token).Always role allowed fun _ => True := by
  rw [afterMemberInitializer]
  split
  · exact always_throughInitializer
  · exact always_throughBrace.discard.bind fun _ _ => always_next
  · trivial

def BodyContext.Owns (ctx : BodyContext) (members : List Member) : Prop :=
  ∀ m ∈ members, m.generic = ctx.generic

theorem BodyContext.owns_nil (ctx : BodyContext) : ctx.Owns [] := by simp [Owns]

theorem BodyContext.Owns.append {more : List Member} (h : ctx.Owns members) (hmore : ctx.Owns more) :
    ctx.Owns (members ++ more) := by
  intro m hm
  rcases List.mem_append.1 hm with hm | hm
  · exact h m hm
  · exact hmore m hm

/-- Whether all members were accepted and have the parameter list of a record. -/
def BodyContext.Gives (ctx : BodyContext) (accept : Bool) (members : List Member) : Prop :=
  ∀ m ∈ members, accept = true ∧ m.generic = ctx.generic

theorem BodyContext.gives_nil (ctx : BodyContext) (accept : Bool) : ctx.Gives accept [] := by
  simp [Gives]

namespace BodyContext.Gives

theorem append {more : List Member} (h : ctx.Gives accept members) (hmore : ctx.Gives accept more) :
    ctx.Gives accept (members ++ more) := by
  intro m hm
  rcases List.mem_append.1 hm with hm | hm
  · exact h m hm
  · exact hmore m hm

theorem owns (h : ctx.Gives accept members) : ctx.Owns members := fun m hm => (h m hm).2

end BodyContext.Gives

theorem gives_acceptedMembers {name : String} {kind? : Option MemberKind} :
    ctx.Gives accept (acceptedMembers name typeText kind? accept ctx) := by
  intro m hm
  unfold acceptedMembers at hm
  split at hm
  · split at hm
    · rename_i haccept
      rw [List.mem_singleton.1 hm]
      exact ⟨haccept, rfl⟩
    · cases hm
  · cases hm

theorem gives_declaratorTail :
    (declaratorTail name typeText kind first accept ctx).Always role allowed (ctx.Gives accept ·.2) := by
  refine always_declaratorSuffix.bind fun r _ => ?_
  refine always_afterMemberInitializer.bind fun token _ => ?_
  split
  · exact always_fail_bind
  · exact gives_acceptedMembers

theorem always_declaratorMarks : (declaratorMarks first).Always role allowed fun _ => True := by
  refine always_recur (fun _ => True) ?_ trivial
  rintro again ⟨kind, marks, token⟩ - ih
  dsimp only
  split
  · exact always_next.bind fun _ _ => ih _ trivial
  · trivial

theorem gives_declarators :
    (declarators base accept ctx).Always role allowed (ctx.Gives accept) := by
  refine always_recur (ctx.Gives accept) (fun again members h ih => ?_) (ctx.gives_nil accept)
  refine always_next.bind fun token _ => always_declaratorMarks.bind fun r _ => ?_
  obtain ⟨kind, marks, name⟩ := r
  dsimp only
  split
  · exact always_fail_bind
  refine always_next.bind fun first _ => gives_declaratorTail.bind fun r hr => ?_
  obtain ⟨last, more⟩ := r
  dsimp only
  split
  · exact h.append hr
  · exact ih _ (h.append hr)

theorem always_declarators : (declarators base accept ctx).Always role allowed ctx.Owns :=
  gives_declarators.mono fun _ h => h.owns

theorem always_operatorSymbol : operatorSymbol.Always role allowed fun _ => True := by
  refine always_next.bind fun symbol _ => ?_
  split
  · exact always_expect.discard
  · trivial

theorem always_operatorMember : operatorMember.Always role allowed fun _ => True := by
  have hparameters : operatorParameters.Always role allowed fun _ => True := by
    refine always_loop fun again ih => always_next.bind fun token _ => ?_
    split
    all_goals first
      | trivial
      | exact always_fail
  exact always_operatorSymbol.bind fun _ _ => hparameters.bind fun _ _ => always_throughMethodTail

theorem always_throughMacroCall : (throughMacroCall token).Always role allowed fun _ => True := by
  refine always_throughParens.discard.bind fun _ _ => always_lookAt.bind fun after _ => ?_
  split
  · exact always_next.discard
  · exact always_throughStatement.discard
  · exact always_throughStatement.discard
  · trivial

theorem always_memberHead : (memberHead first).Always role allowed fun _ => True := by
  refine always_recur (fun _ => True) ?_ trivial
  rintro again ⟨head, token⟩ - ih
  have hgoOn : ∀ head : MemberHead, (next >>= fun token => again (head, token)).Always role allowed
      fun _ => True :=
    fun head => always_next.bind fun _ _ => ih _ trivial
  dsimp only
  split
  · split
    · trivial
    · exact hgoOn _
  · exact hgoOn _
  · split
    · trivial
    · exact always_throughAngles.discard.bind fun _ _ => hgoOn _
  · exact hgoOn _
  · exact hgoOn _
  · exact hgoOn _
  · trivial

theorem gives_memberDeclaration {start : Token} :
    (memberDeclaration start first accept ctx).Always role allowed (ctx.Gives accept) := by
  have hnil := ctx.gives_nil accept
  refine always_memberHead.bind fun r _ => ?_
  split
  · exact always_operatorMember.bind fun _ _ => hnil
  split
  · split
    · exact always_throughMacroCall.bind fun _ _ => hnil
    · exact always_throughMethodTail.bind fun _ _ => hnil
  split
  · refine always_span.bind fun base _ => always_span.bind fun typeText _ => ?_
    refine gives_declaratorTail.bind fun r hr => ?_
    obtain ⟨last, members⟩ := r
    dsimp only
    split
    · exact gives_declarators.bind fun more hmore => hr.append hmore
    · exact hr
  · exact always_fail

theorem always_memberDeclaration {start : Token} :
    (memberDeclaration start first accept ctx).Always role allowed ctx.Owns :=
  gives_memberDeclaration.mono fun _ h => h.owns

end Members

section Free

variable {first token : Token} {stop : Nat}

theorem always_throughDefinition : throughDefinition.Always role allowed fun _ => True := by
  refine always_loop fun again ih => always_next.bind fun token _ => ?_
  have hparens : (do
      discard (throughParens token)
      if (← lookAt 0).kind = TokenKind.colon then
        discard next
        throughConstructorInitializers
      else again).Always role allowed fun _ => True := by
    refine always_throughParens.discard.bind fun _ _ => always_lookAt.bind fun after _ => ?_
    split
    · exact always_next.discard.bind fun _ _ => always_throughConstructorInitializers
    · exact ih
  split
  · trivial
  · exact always_throughBrace.discard
  · exact hparens
  · exact hparens
  · exact always_fail
  · exact ih

theorem always_afterInitializer : (afterInitializer token).Always role allowed fun _ => True := by
  rw [afterInitializer]
  split
  · exact always_throughInitializer
  · exact always_throughBrace.discard.bind fun _ _ => always_nextOrEnd
  · trivial

theorem always_throughSuffixes : (throughSuffixes stop first).Always role allowed fun _ => True := by
  refine always_recurBy (fun _ => True) (fun _ _ => True) ?_ trivial
  rintro again ⟨stop, token⟩ - ih
  dsimp only
  split
  · refine always_throughBrackets.bind fun close _ => ?_
    exact always_nextOrEnd.bind fun _ _ => ih _ trivial
  · trivial

theorem always_throughMarks : (throughMarks first).Always role allowed fun _ => True := by
  refine always_recurBy (fun _ => True) (fun _ _ => True) (fun again token _ ih => ?_) trivial
  split
  · exact always_nextOrEnd.bind fun _ _ => ih _ trivial
  · trivial

theorem always_writtenList? : writtenList?.Always role allowed fun _ => True := by
  refine always_lookAt.bind fun token _ => ?_
  split
  · refine always_next.bind fun opening _ => ?_
    exact always_throughAngles.bind fun _ _ => trivial
  · trivial

end Free

end GoingForward

section Free

variable [Request.Admits role allowed] {start first token : Token} {stop : Nat} {base : String}

theorem always_leaveUnparsed : (leaveUnparsed start token).Always role allowed fun _ => True := by
  have hunknown : (throughUnknown token).Always role allowed fun _ => True := by
    refine always_recurBy (fun _ => True) (fun _ _ => True) (fun again token _ ih => ?_) trivial
    have hagain : (nextOrEnd >>= again).Always role allowed fun _ => True :=
      always_nextOrEnd.bind fun _ _ => ih _ trivial
    have hparens : (behindParens again token).Always role allowed fun _ => True := by
      refine always_throughParens.bind fun close _ => always_lookAt.bind fun after _ => ?_
      split
      · exact hagain
      · exact hagain
      · trivial
    split
    · trivial
    · refine always_throughBrace.bind fun close _ => always_lookAt.bind fun after _ => ?_
      split
      · exact always_next.bind fun _ _ => trivial
      · trivial
    · exact always_putBack.bind fun _ _ => trivial
    · exact always_putBack.bind fun _ _ => trivial
    · exact hparens
    · exact hparens
    · exact hagain
  exact hunknown.bind fun _ _ => always_remarkUnparsed

theorem always_announce {start : Nat} : (announce start stop).Always role allowed fun _ => True := by
  refine always_roleOfFile.bind fun _ _ => ?_
  split
  · exact always_span.bind fun _ _ => always_noteExtern
  · trivial

theorem always_laterVariables : (laterVariables start base).Always role allowed fun _ => True := by
  refine always_loop fun again ih => ?_
  refine always_nextOrEnd.bind fun first _ => always_throughMarks.bind fun name _ => ?_
  split
  · exact always_leaveUnparsed
  refine always_nextOrEnd.bind fun token _ => always_throughSuffixes.bind fun r _ => ?_
  refine always_span.bind fun declarator _ => always_noteExtern.bind fun _ _ => ?_
  refine always_afterInitializer.bind fun token _ => ?_
  split
  · trivial
  · exact ih
  · exact always_leaveUnparsed

theorem always_freeFunction {params : Token} :
    (freeFunction start params).Always role allowed fun _ => True := by
  refine always_throughParens.bind fun close _ => ?_
  refine always_recur (fun _ => True) (fun again stop _ ih => ?_) trivial
  refine always_nextOrEnd.bind fun token _ => ?_
  split
  · exact always_announce
  · exact always_announce.bind fun _ _ => always_throughBrace.discard
  · exact always_throughStatement.discard
  · split
    · refine always_lookAt.bind fun after _ => ?_
      split
      · refine always_next.bind fun opening _ => ?_
        exact always_throughParens.bind fun close _ => ih _ trivial
      · exact ih _ trivial
    · exact ih _ trivial
  · refine always_lookAt.bind fun after _ => ?_
    split
    · exact always_next.bind fun _ _ => ih _ trivial
    · exact always_leaveUnparsed
  · exact ih _ trivial
  · exact ih _ trivial
  · exact ih _ trivial
  · exact ih _ trivial
  · exact always_throughAngles.bind fun _ _ => ih _ trivial
  · exact always_leaveUnparsed

theorem always_freeOperator : (freeOperator start).Always role allowed fun _ => True := by
  refine always_operatorSymbol.bind fun _ _ => always_nextOrEnd.bind fun first _ => ?_
  refine always_recurBy (fun _ => True) (fun _ _ => True) (fun again token _ ih => ?_) trivial
  split
  · exact always_freeFunction
  · exact always_freeFunction
  · exact always_leaveUnparsed
  · exact always_leaveUnparsed
  · exact always_leaveUnparsed
  · exact always_leaveUnparsed
  · exact always_nextOrEnd.bind fun _ _ => ih _ trivial

theorem always_freeVariables {head : FreeHead} :
    (freeVariables start head).Always role allowed fun _ => True := by
  refine always_announce.bind fun _ _ => always_afterInitializer.bind fun last _ => ?_
  split
  · trivial
  · exact always_span.bind fun base _ => always_laterVariables
  · exact always_leaveUnparsed

theorem always_freeDeclaration : (freeDeclaration start first).Always role allowed fun _ => True := by
  refine always_recurBy (fun _ => True) (fun _ _ => True) (fun again head _ ih => ?_) trivial
  have hgoOn : ∀ names nameAt markAt, (nextOrEnd >>= fun token =>
      again ⟨names, nameAt, markAt, token⟩).Always role allowed fun _ => True :=
    fun names nameAt markAt => always_nextOrEnd.bind fun _ _ => ih _ trivial
  have hif : ∀ {c : Prop} [Decidable c] {p : Parser Unit}, p.Always role allowed (fun _ => True) →
      (if c then p else leaveUnparsed start head.token).Always role allowed fun _ => True := by
    intro c _ p hp
    split
    · exact hp
    · exact always_leaveUnparsed
  dsimp only
  split
  · split
    · exact always_freeOperator
    split
    · exact always_throughDefinition
    · exact hgoOn _ _ _
  · split
    · exact always_throughDefinition
    · exact hgoOn _ _ _
  · exact hif (always_throughAngles.discard.bind fun _ _ => hgoOn _ _ _)
  · exact hgoOn _ _ _
  · exact hgoOn _ _ _
  · exact hgoOn _ _ _
  · exact hif (always_throughBrackets.discard.bind fun _ _ => hgoOn _ _ _)
  · exact hif (always_throughBrackets.discard.bind fun _ _ => hgoOn _ _ _)
  · exact hif always_freeVariables
  · exact hif always_freeVariables
  · exact hif always_freeVariables
  · exact hif always_freeVariables
  · exact hif always_freeFunction
  · exact hif always_freeFunction
  · exact always_leaveUnparsed

end Free

end ReflectionTables.Parsing
