import ReflectionTables.Proofs.CarefulMembers
import ReflectionTables.RecordBodies
/-!
# Contracts of the parsers of record bodies

A body is read from behind its opening brace to its closing one. The items take the parser of an
inner body as an argument, so their contracts assume that it keeps to its own wherever more was
delivered.
-/

namespace ReflectionTables.Parsing

open Text Scanning Reflected Parsing.Parser Reading

variable {text : String} {c c₀ : Reading text} {l : List Token}

/-- Whether only names are spelled like the record whose body is read. -/
def BodyContext.Named (ctx : BodyContext) (text : String) : Prop :=
  ∀ t : Token, t.StandsIn text → t.text = ctx.typeName → t.kind = .ident

def BodyParser.Reads (body : BodyParser) (c₀ : Reading text) : Prop :=
  ∀ task c, c₀.Onward c → task.context.Named text →
    (body task).Meets (fun r c' => c'.Past c.delivered r.1) c

theorem meets_recordSegment {name generic : String} {arguments? : Option String}
    {dependent : Bool} :
    (recordSegment name arguments? generic dependent).Meets (fun _ c' => c' = c) c := by
  unfold recordSegment
  split
  · rfl
  split
  · split
    · rfl
    · exact meets_abort
  · rfl

section Items

variable {body : BodyParser} {key : ClassKey} {ctx : BodyContext} {visible accept : Bool}
  {name opening word token first : Token} {generic : String} {dependent : Bool}
  {arguments? : Option String}

theorem meets_recordBody (hbody : body.Reads c₀) (h : c.Holds opening) (honward : c₀.Onward c)
    (hkind : opening.kind = .lBrace) (hname : name.StandsIn text) (hident : name.kind = .ident) :
    (recordBody body key name arguments? opening generic dependent).Meets
      (fun _ c' => c'.Behind c.delivered) c := by
  rw [recordBody]
  refine meets_recordSegment.bind fun segment c₁ h₁ => ?_
  subst h₁
  refine meets_enter_declaration h hkind fun qualified c₂ h₂ => ?_
  have hnamed : (BodyContext.mk name.text qualified generic dependent).Named text :=
    fun t ht heq => hname.kind_of_text_eq ht hident heq
  refine (hbody _ c₂ (honward.of_delivered_eq h₂.delivered_eq) hnamed).bind fun r c₃ h₃ => ?_
  obtain ⟨close, members⟩ := r
  have hbehind := h₃.behind.trans ((Behind.refl c₁).of_delivered_eq h₂.delivered_eq)
  simp only
  split
  · exact hbehind
  split
  · refine (meets_remark (Finding.clean_notReflected _)).mono fun _ c₄ h₄ => ?_
    obtain ⟨_, rfl⟩ := h₄
    exact hbehind
  · refine meets_noteType.mono fun _ c₄ h₄ => ?_
    obtain ⟨_, rfl⟩ := h₄
    exact hbehind

theorem meets_innerRecord (hbody : body.Reads c₀) (h : c.Holds word) (honward : c₀.Onward c)
    (hword : word.kind = .ident) (hctx : ctx.Named text) :
    (innerRecord body key word ctx visible accept).Meets (fun _ c' => c'.Behind c.delivered)
      c := by
  rw [innerRecord]
  refine (meets_throughHeadAttributes (h.inItem (by simp [hword]))).bind fun _ c₁ h₁ => ?_
  refine (meets_lookAt_zero h₁.2).bind fun first c₂ h₂ => ?_
  have hbehind₂ := h₁.1.of_delivered_eq h₂.delivered_eq
  have honward₂ := honward.trans_behind hbehind₂
  split
  · refine meets_next.bind fun opening c₃ h₃ => ?_
    refine (hbody _ c₃ (honward₂.trans h₃.onward) hctx).bind fun r c₄ h₄ => ?_
    refine meets_next.bind fun t c₅ h₅ => ?_
    have hbehind := h₅.behind (h₄.behind.trans (h₃.behind hbehind₂))
    split
    · exact hbehind
    refine meets_throughStatement.bind fun last c₆ h₆ => ?_
    refine (meets_remarkUnparsed (h₆.offset_le_stop h₅.holds.mem) (begins_offset h₅.holds.mem)
      (edge_stop h₆.mem)).bind fun _ c₇ h₇ => ?_
    obtain ⟨_, rfl⟩ := h₇
    exact h₆.behind.trans hbehind
  split
  · exact meets_fail h₂.isTokenOf
  rename_i hident
  have hident : first.kind = .ident := Decidable.not_not.1 hident
  have hclear := h₂.clear c₁.clear_zero (by rw [hident]; rfl) (by simp [hident])
  refine (meets_lookAt (h₁.2.of_delivered_eq h₂.delivered_eq) hclear).bind fun after c₃ h₃ => ?_
  have heq₃ := h₃.delivered_eq.trans h₂.delivered_eq
  have hbehind₃ := h₁.1.of_delivered_eq heq₃
  split
  · refine meets_next.discard_bind fun _ c₄ h₄ => ?_
    exact meets_next.discard_bind fun _ c₅ h₅ => h₅.behind (h₄.behind hbehind₃)
  refine meets_next.bind fun name c₄ h₄ => ?_
  have hname : name.kind = .ident := by
    rw [h₂.delivers (by simp [hident]) heq₃ h₄, hident]
  have hbehind₄ := h₄.behind hbehind₃
  split
  · refine meets_throughBases.bind fun opening c₅ h₅ => ?_
    have honward₅ := ((honward.trans_behind hbehind₃).trans h₄.onward).trans h₅.1.onward
    refine (meets_recordBody hbody h₅.1.holds honward₅ h₅.2 h₄.holds.standsIn
      hname).bind fun _ c₆ h₆ => ?_
    have hbehind₆ := h₆.trans (h₅.1.behind.trans hbehind₄)
    refine meets_next.bind fun t c₇ h₇ => ?_
    split
    · exact h₇.behind hbehind₆
    refine (meets_putBack h₇.holds).bind fun _ c₈ h₈ => ?_
    refine meets_declarators.mono fun _ c₉ h₉ => h₉.trans ?_
    rw [Behind, h₈.1, h₇.delivered_eq]
    exact hbehind₆
  · have hle := (h₄.past.trans hbehind₃).offset_le h.mem
    exact (meets_memberDeclaration h₄.holds (begins_offset h.mem) hle).mono
      fun _ c₅ h₅ => h₅.trans hbehind₄

theorem meets_innerEnum (h : c.Holds word) :
    (innerEnum word ctx accept).Meets (fun _ c' => c'.Behind c.delivered) c := by
  rw [innerEnum]
  refine meets_enumAfterWord.bind fun form c₁ h₁ => ?_
  cases form with
  | declared => exact h₁.1
  | elaborated name =>
    have hpast := (h₁.2 name rfl).1
    exact (meets_memberDeclaration hpast.holds (begins_offset h.mem)
      (hpast.offset_le h.mem)).mono fun _ c₂ h₂ => h₂.trans hpast.behind
  | anonymous =>
    refine meets_next.bind fun t c₂ h₂ => ?_
    split
    · exact h₂.behind h₁.1
    refine (meets_putBack h₂.holds).bind fun _ c₃ h₃ => ?_
    refine meets_throughStatement.bind fun last c₄ h₄ => ?_
    have hle : t.offset ≤ last.stop :=
      Nat.le_trans (h₄.next_offset_le h₃.2) (Nat.le_add_right _ _)
    refine (meets_remarkUnparsed hle (begins_offset h₂.holds.mem)
      (edge_stop h₄.mem)).bind fun _ c₅ h₅ => ?_
    obtain ⟨_, rfl⟩ := h₅
    refine h₄.behind.trans ?_
    rw [Behind, h₃.1, h₂.delivered_eq]
    exact h₁.1
  | named name =>
    refine meets_next.bind fun t c₂ h₂ => ?_
    split
    · exact h₂.behind h₁.1
    refine (meets_putBack h₂.holds).bind fun _ c₃ h₃ => ?_
    refine meets_declarators.mono fun _ c₄ h₄ => h₄.trans ?_
    rw [Behind, h₃.1, h₂.delivered_eq]
    exact h₁.1

theorem meets_memberSpecifiers (h : c.Holds first) :
    (memberSpecifiers first).Meets (fun r c' => c'.At c.delivered r.2) c := by
  rw [memberSpecifiers]
  refine meets_recur (fun s c' => c'.Holds s.2) ?_ h
  rintro again ⟨isStatic, token⟩ c' hbehind h ih
  have hagain : ∀ isStatic : Bool, (next >>= fun t => again (isStatic, t)).Meets
      (fun r c' => c'.At c.delivered r.2) c' :=
    fun isStatic => meets_next.bind fun t c₁ h₁ => ih (isStatic, t) c₁ h₁.onward h₁.holds
  simp only
  split
  · exact hagain _
  · exact hagain _
  · exact hagain _
  · exact hagain _
  · exact hagain _
  · exact hagain _
  · exact ⟨h, hbehind⟩

theorem meets_constructorAhead (h : c.Holds token) (hctx : ctx.Named text) :
    (constructorAhead token ctx).Meets (fun _ c' => c'.Holds token ∧ c'.delivered = c.delivered)
      c := by
  rw [constructorAhead]
  split
  · rename_i htext
    have hident := hctx token h.standsIn htext
    refine (meets_lookAt_zero (h.inItem (by simp [hident]))).bind fun t c₁ h₁ => ?_
    exact ⟨h.of_delivered_eq h₁.delivered_eq (by rw [hident]; rfl), h₁.delivered_eq⟩
  · exact ⟨h, rfl⟩

theorem meets_memberItem (hbody : body.Reads c₀) (h : c.Holds token) (honward : c₀.Onward c)
    (hctx : ctx.Named text) :
    (memberItem body token ctx visible accept).Meets (fun _ c' => c'.Behind c.delivered) c := by
  rw [memberItem]
  split
  · refine meets_expect.discard_bind fun name c₁ h₁ => ?_
    refine meets_next.bind fun params c₂ h₂ => ?_
    refine (meets_throughMethodTail h₂.holds).bind fun _ c₃ h₃ => ?_
    exact h₃.trans (h₂.behind h₁.1.past.behind)
  refine (meets_constructorAhead h hctx).bind fun constructs c₁ h₁ => ?_
  obtain ⟨hholds, heq⟩ := h₁
  have honward₁ := honward.of_delivered_eq heq
  rw [← heq]
  split
  · exact meets_innerRecord hbody hholds honward₁ (Token.kind_of_reserved? ‹_›) hctx
  · exact meets_innerRecord hbody hholds honward₁ (Token.kind_of_reserved? ‹_›) hctx
  · exact meets_innerRecord hbody hholds honward₁ (Token.kind_of_reserved? ‹_›) hctx
  · exact meets_innerEnum hholds
  · exact meets_throughStatement.discard_bind fun _ c₂ h₂ => h₂.behind
  · exact meets_throughStatement.discard_bind fun _ c₂ h₂ => h₂.behind
  · exact meets_throughStatement.discard_bind fun _ c₂ h₂ => h₂.behind
  · exact meets_throughDeclaration.discard_bind fun _ c₂ h₂ => h₂.behind
  · refine meets_expect.bind fun opening c₂ h₂ => ?_
    refine (meets_throughAngles h₂.1.holds).discard_bind fun list c₃ h₃ => ?_
    obtain ⟨u, hu, -⟩ := h₃.last
    refine meets_throughDeclaration.discard_bind fun _ c₄ h₄ => ?_
    exact h₄.behind.trans (hu.behind.trans h₂.1.past.behind)
  · split
    · refine meets_next.bind fun params c₂ h₂ => ?_
      refine (meets_throughMethodTail h₂.holds).bind fun _ c₃ h₃ => ?_
      exact h₃.trans h₂.past.behind
    · exact meets_memberDeclaration hholds (begins_offset hholds.mem) (Nat.le_refl _)

theorem meets_bodyItem (hbody : body.Reads c₀) (h : c.Holds first) (honward : c₀.Onward c)
    (hctx : ctx.Named text) :
    (bodyItem body first ctx visible).Meets (fun _ c' => c'.Behind c.delivered) c := by
  rw [bodyItem]
  split
  · exact meets_expect.discard_bind fun _ c₁ h₁ => h₁.1.past.behind
  · refine (meets_memberSpecifiers h).bind fun r c₁ h₁ => ?_
    refine (meets_memberItem hbody h₁.holds (honward.trans_behind h₁.behind)
      hctx).bind fun _ c₂ h₂ => ?_
    exact h₂.trans h₁.behind

end Items

theorem meets_bodyItems {body : BodyParser} {task : BodyTask} (hbody : body.Reads c)
    (hctx : task.context.Named text) :
    (bodyItems body task).Meets (fun r c' => c'.Past c.delivered r.1) c := by
  rw [bodyItems]
  refine meets_recur (fun _ _ => True) ?_ trivial
  rintro again ⟨visible, members⟩ c' hbehind - ih
  refine meets_next.bind fun t c₁ h₁ => ?_
  simp only
  split
  · exact h₁.past.trans hbehind
  have hitem : (bodyItem body t task.context visible >>= fun r =>
      again (r.1, members ++ r.2)).Meets (fun r c' => c'.Past c.delivered r.1) c₁ := by
    refine (meets_bodyItem hbody h₁.holds (h₁.onward.from_behind hbehind)
      hctx).bind fun r c₂ h₂ => ?_
    exact ih _ c₂ (h₁.onward.trans_behind h₂) trivial
  split
  · exact ih _ c₁ h₁.onward trivial
  · exact hitem
  · exact hitem
  · exact hitem
  · refine (meets_throughBrackets h₁.holds).discard_bind fun close c₂ h₂ => ?_
    exact ih _ c₂ (h₁.onward.trans_behind h₂.1.behind) trivial
  · exact meets_fail h₁.holds.isTokenOf

theorem meets_recordMembers {task : BodyTask} (hctx : task.context.Named text) :
    (recordMembers task).Meets (fun r c' => c'.Past c.delivered r.1) c := by
  rw [recordMembers, recur]
  refine meets_recurBy (fun (task : BodyTask) (_ : Reading text) => task.context.Named text)
    (fun _ c (r : Token × List Member) c' => c'.Past c.delivered r.1) ?_ hctx
  intro again task c hctx ih
  exact meets_bodyItems
    (fun task' c' honward hctx' => ih task' c' hctx' (tokensLeft_lt honward.length_lt)) hctx

end ReflectionTables.Parsing
