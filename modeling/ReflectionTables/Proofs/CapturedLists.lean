import ReflectionTables.Proofs.ConsumedTokens
import ReflectionTables.Proofs.PieceScans
import ReflectionTables.Proofs.StreamPlaces
import ReflectionTables.ReflectionText
/-!
# Lists in angle brackets delimit themselves

The text of a list in angle brackets delimits itself. The list ends where its brackets close, at `>`
or in the middle of `>>`. What stands between, put between two brackets again, is scanned as it was
in the text, so the brackets close at the same place. The same goes for the line that introduces a
template with the list.
-/

namespace ReflectionTables.Scanning

open Parsing

section Related

variable {R : Token → Token → Prop} {opening opening' : Token} {ts us : List Token}

/-- Whether related tokens open and close the same groups. -/
structure KeepsBrackets (R : Token → Token → Prop) : Prop where
  kind_eq : ∀ {t t'}, R t t' → t'.kind = t.kind
  depth_eq_iff : ∀ {t t' u u'}, R t t' → R u u' → (t'.depth = u'.depth ↔ t.depth = u.depth)

theorem keepsBrackets_tokens (L : Likeness) : KeepsBrackets L.Tokens :=
  ⟨fun h => h.kind_eq, fun h hu => h.depth_eq_iff hu⟩

theorem KeepsBrackets.flip (hR : KeepsBrackets R) : KeepsBrackets (flip R) :=
  ⟨fun h => (hR.kind_eq h).symm, fun h hu => (hR.depth_eq_iff h hu).symm⟩

theorem exists_append_of_forall₂ {vs : List Token} (h : List.Forall₂ R vs (ts ++ us)) :
    ∃ ts' us', vs = ts' ++ us' ∧ List.Forall₂ R ts' ts ∧ List.Forall₂ R us' us :=
  ⟨_, _, (List.take_append_drop _ _).symm, List.forall₂_take_append _ _ _ h,
    List.forall₂_drop_append _ _ _ h⟩

theorem ClosesBrace.of_forall₂ (hR : KeepsBrackets R) (h : ClosesBrace opening.depth ts)
    (hopening : R opening' opening) (hts : List.Forall₂ R us ts) : ClosesBrace opening'.depth us := by
  induction h generalizing us with
  | @closing t hclose =>
    obtain _ | ⟨ht, ⟨⟩⟩ := hts
    exact .closing ⟨(hR.kind_eq ht).symm.trans hclose.1, (hR.depth_eq_iff ht hopening).1 hclose.2⟩
  | @inside t ts hinside _ ih =>
    obtain _ | ⟨ht, hts⟩ := hts
    refine .inside (fun hclose => hinside ?_) (ih hts)
    exact ⟨(hR.kind_eq ht).trans hclose.1, (hR.depth_eq_iff ht hopening).2 hclose.2⟩

theorem ClosesParens.of_forall₂ (hR : KeepsBrackets R) {n : Nat} (h : ClosesParens n ts)
    (hts : List.Forall₂ R us ts) : ClosesParens n us := by
  induction h generalizing us with
  | closing hkind =>
    obtain _ | ⟨ht, ⟨⟩⟩ := hts
    exact .closing ((hR.kind_eq ht).symm.trans hkind)
  | closed hkind _ ih =>
    obtain _ | ⟨ht, hts⟩ := hts
    exact .closed ((hR.kind_eq ht).symm.trans hkind) (ih hts)
  | opened hkind _ ih =>
    obtain _ | ⟨ht, hts⟩ := hts
    exact .opened ((hR.kind_eq ht).symm.trans hkind) (ih hts)
  | block hkind hinner _ ih =>
    obtain _ | ⟨ht, hts⟩ := hts
    obtain ⟨inner, rest, rfl, hinner', hrest⟩ := exists_append_of_forall₂ hts
    exact .block ((hR.kind_eq ht).symm.trans hkind) (hinner.of_forall₂ hR ht hinner') (ih hrest)
  | token hkind _ ih =>
    obtain _ | ⟨ht, hts⟩ := hts
    rw [hR.kind_eq ht] at hkind
    exact .token hkind (ih hts)

/-- Where lists of angle brackets close does not depend on where the tokens stand. -/
theorem ClosesAngles.of_forall₂ (hR : KeepsBrackets R) {n : Int} (h : ClosesAngles n ts)
    (hts : List.Forall₂ R us ts) : ClosesAngles n us := by
  induction h generalizing us with
  | closing hkind =>
    obtain _ | ⟨ht, ⟨⟩⟩ := hts
    rw [hR.kind_eq ht] at hkind
    exact .closing hkind
  | closed hkind hmore _ ih =>
    obtain _ | ⟨ht, hts⟩ := hts
    rw [hR.kind_eq ht] at hkind
    exact .closed hkind hmore (ih hts)
  | opened hkind _ ih =>
    obtain _ | ⟨ht, hts⟩ := hts
    exact .opened ((hR.kind_eq ht).symm.trans hkind) (ih hts)
  | parens hkind hinner _ ih =>
    obtain _ | ⟨ht, hts⟩ := hts
    obtain ⟨inner, rest, rfl, hinner', hrest⟩ := exists_append_of_forall₂ hts
    exact .parens ((hR.kind_eq ht).symm.trans hkind) (hinner.of_forall₂ hR hinner') (ih hrest)
  | token hkind _ ih =>
    obtain _ | ⟨ht, hts⟩ := hts
    rw [hR.kind_eq ht] at hkind
    exact .token hkind (ih hts)

/-- Nor on the text that they stand in. -/
theorem closesAngles_placed {before : String} {lift : Nat} {n : Int} :
    ClosesAngles n (placed before lift ts) ↔ ClosesAngles n ts := by
  have hplaced : List.Forall₂ (insideLikeness before lift []).Tokens ts (placed before lift ts) :=
    forall₂_placed [] ts
  have hkeeps := keepsBrackets_tokens (insideLikeness before lift [])
  exact ⟨fun h => h.of_forall₂ hkeeps hplaced, fun h => h.of_forall₂ hkeeps.flip hplaced.flip⟩

theorem bracesPair_concat {depth : Nat} {t : Token} (h : bracesPair depth ts = true)
    (hkind : t.kind ≠ .rBrace) : bracesPair depth (ts ++ [t]) = true := by
  induction ts generalizing depth with
  | nil => simp [bracesPair, hkind]
  | cons u ts ih =>
    rw [bracesPair, Bool.and_eq_true] at h
    rw [List.cons_append, bracesPair, Bool.and_eq_true]
    exact ⟨h.1, ih h.2⟩

theorem ClosesAngles.exists_last {n : Int} (h : ClosesAngles n ts) :
    ∃ front closing, ts = front ++ [closing] := by
  rcases List.eq_nil_or_concat ts with rfl | ⟨front, closing, hts⟩
  · cases h
  · exact ⟨front, closing, hts.trans List.concat_eq_append⟩

end Related

end ReflectionTables.Scanning

namespace ReflectionTables.Parsing

open Text Scanning Reflected Generation Parsing.Parser Reading

variable {text : String} {α : Type} {c : Reading text} {opening t : Token} {ts us : List Token}

/-- Behind a row that a parser goes through, nothing more was found. -/
theorem Parser.Consumes.yields {L : List Token → Prop} {p : Parser α} (h : p.Consumes L c)
    (hpending : c.pending = ts ++ us) (hts : L ts) :
    p.Yields (fun _ c' => c'.pending = us ∧ c'.findings = c.findings) c := by
  rw [Consumes] at h
  rw [Yields]
  cases hrun : p.run Reading.machine c with
  | ok result =>
    rw [hrun] at h
    exact ⟨(h.2.2 ts us hpending).1 hts, h.1⟩
  | error failure =>
    rw [hrun] at h
    exact fun hexpected => h hexpected ts us hpending hts

theorem yields_next_of_pending (h : c.pending = t :: ts) :
    next.Yields (fun u c' => u = t ∧ c'.delivered = t :: c.delivered ∧ c'.pending = ts) c := by
  have hend : t.kind ≠ .endOfText := (delivers_advance h).holds.kind_ne
  rw [next, Parser.request, Yields, Parser.run]
  simp only [Reading.machine, read_of_pending h, if_neg hend]
  exact ⟨rfl, rfl, rfl⟩

theorem byte_of_lt (h : t.StandsIn text) (hkind : t.kind = .lt) :
    (bytesOf text)[t.offset]? = some 60 ∧ t.stop = t.offset + 1 := by
  obtain ⟨b, after, hdrop, hlexeme⟩ := h.isLexeme
  obtain ⟨hone, hb⟩ := Lexeme.single_of_ofBytes hlexeme (.inr (.inl hkind))
  rw [hkind] at hb
  obtain rfl : b = 60 := UInt8.toNat_inj.1 hb
  refine ⟨?_, by rw [Token.stop, hone]⟩
  rw [← Nat.add_zero t.offset, ← List.getElem?_drop, hdrop]
  rfl

/-- A token that closes lists ends with the bracket that closes the last of them. -/
theorem byte_of_gt (h : t.StandsIn text) (hkind : t.kind = .gt ∨ t.kind = .gtGt) :
    (bytesOf text)[t.stop - 1]? = some 62 := by
  obtain ⟨b, after, hdrop, hlexeme⟩ := h.isLexeme
  have hget : ∀ n, (bytesOf text)[t.offset + n]? = (b :: after)[n]? := fun n => by
    rw [← List.getElem?_drop, hdrop]
  rcases hkind with hkind | hkind
  · obtain ⟨hone, hb⟩ := Lexeme.single_of_ofBytes hlexeme (.inr (.inr hkind))
    rw [hkind] at hb
    obtain rfl : b = 62 := UInt8.toNat_inj.1 hb
    rw [Token.stop, hone]
    exact hget 0
  · rw [hkind] at hlexeme
    obtain ⟨htwo, -, b', hafter, hb⟩ := Lexeme.bytes_of_gtGt hlexeme
    obtain rfl : b' = 62 := UInt8.toNat_inj.1 hb
    rw [Token.stop, htwo]
    exact (hget 1).trans (List.head?_eq_getElem? ▸ hafter)

/-- Whether a list ends with this token: its text goes up to the last byte of the token. -/
structure AngleList.EndsAt (list : AngleList) (text : String) (opening closing : Token) : Prop where
  kind : closing.kind = .gt ∨ closing.kind = .gtGt
  stop_eq : list.stop = closing.stop
  isCut : slice? text opening.stop (closing.stop - 1) = some list.text

theorem standsIn_of_pending (h : c.pending = ts ++ us) (ht : t ∈ ts) : t.StandsIn text := by
  refine standsIn_of_mem_tokensOf ?_
  rw [← c.delivered_pending, h]
  exact List.mem_append_right _ (List.mem_append_left _ ht)

theorem AngleList.EndsAt.slice?_eq {list : AngleList} {closing : Token}
    (h : list.EndsAt text opening closing) (hopening : opening.StandsIn text)
    (hkind : opening.kind = .lt) (hclosing : closing.StandsIn text) :
    slice? text opening.offset list.stop = some ("<" ++ (list.text ++ ">")) := by
  obtain ⟨hbyte, hstop⟩ := byte_of_lt hopening hkind
  have hlast := byte_of_gt hclosing h.kind
  have hpos := hclosing.offset_lt_stop
  have hfirst : slice? text opening.offset opening.stop = some "<" := by
    rw [hstop]
    exact slice?_of_ascii hbyte (by decide)
  have hbehind : slice? text (closing.stop - 1) list.stop = some ">" := by
    have hcut := slice?_of_ascii hlast (by decide)
    rw [Nat.sub_add_cancel (by omega)] at hcut
    rw [h.stop_eq]
    exact hcut
  exact slice?_of_adjacent hfirst (slice?_of_adjacent h.isCut hbehind)

/-- Where the brackets close, the list ends with the token that was delivered last. -/
theorem yields_anglesEnd {n : Int} (h : ClosesAngles n ts) (hpending : c.pending = ts ++ us) :
    (anglesEnd opening n).Yields (fun list c' => c'.pending = us ∧
      ∃ closing, c'.delivered.head? = some closing ∧ list.EndsAt text opening closing) c := by
  induction h generalizing c with
  | @closing t k hkind =>
    have ht := standsIn_of_pending hpending List.mem_cons_self
    refine yields_recur fun again _ => (yields_next_of_pending hpending).bind ?_
    rintro t c₁ ⟨rfl, hdelivered, h₁⟩
    -- The list ends at the last bracket of the token, which is the second one of `>>`.
    have hlist : ∀ offset, offset + 1 = t.stop → (do
        return ⟨← cut .list opening.stop offset, offset + 1⟩ : Parser AngleList).Yields (fun list c' =>
          c'.pending = us ∧ ∃ closing, c'.delivered.head? = some closing ∧
            list.EndsAt text opening closing) c₁ := by
      intro offset hoffset
      refine (yields_cut (by simp)).bind ?_
      rintro piece _ ⟨hpiece, rfl⟩
      refine ⟨h₁, t, by rw [hdelivered, List.head?_cons], hkind.imp And.left And.left, hoffset, ?_⟩
      rw [← hoffset]
      exact hpiece
    rcases hkind with ⟨hkind, rfl⟩ | ⟨hkind, rfl⟩
    · simp only [hkind]
      exact hlist _ (ht.stop_of_gt hkind).symm
    · simp only [hkind]
      exact hlist _ (ht.isBoundary_of_gtGt hkind).1.symm
  | @closed n k t ts hkind hmore _ ih =>
    refine yields_recur fun again hagain => (yields_next_of_pending hpending).bind ?_
    rintro t c₁ ⟨rfl, -, h₁⟩
    rcases hkind with ⟨hkind, rfl⟩ | ⟨hkind, rfl⟩ <;>
    · simp only [hkind]
      rw [if_neg (by omega), if_neg (by omega)]
      exact hagain _ c₁ _ (ih h₁)
  | @opened n t ts hkind _ ih =>
    refine yields_recur fun again hagain => (yields_next_of_pending hpending).bind ?_
    rintro t c₁ ⟨rfl, -, h₁⟩
    simp only [hkind]
    exact hagain _ c₁ _ (ih h₁)
  | @parens n t inner ts hkind hinner _ ih =>
    rw [List.cons_append, List.append_assoc] at hpending
    refine yields_recur fun again hagain => (yields_next_of_pending hpending).bind ?_
    rintro t c₁ ⟨rfl, -, h₁⟩
    simp only [hkind]
    exact ((consumes_throughParens hkind).yields h₁ hinner).discard_bind fun _ c₂ h₂ =>
      hagain _ c₂ _ (ih h₂.1)
  | @token n t ts hkind _ ih =>
    refine yields_recur fun again hagain => (yields_next_of_pending hpending).bind ?_
    rintro t c₁ ⟨rfl, -, h₁⟩
    split
    · exact absurd ‹_› hkind.1
    · exact absurd ‹_› hkind.2.1
    · exact absurd ‹_› hkind.2.2.1
    · exact absurd ‹_› hkind.2.2.2.1
    · exact absurd ‹_› hkind.2.2.2.2.1
    · exact absurd ‹_› hkind.2.2.2.2.2
    · exact hagain _ c₁ _ (ih h₁)

section Runs

variable {s s' : ParserState text} {before front after : List Token} {closing : Token} {list : AngleList}

/-- A list is read from a stream where its brackets close. -/
theorem exists_throughAngles_run
    (htokens : (tokensOf text).1 = before ++ opening :: (front ++ closing :: after))
    (hkind : opening.kind = .lt) (hs : s.IsBehind (before.length + 1))
    (hcloses : ClosesAngles 1 (front ++ [closing])) :
    ∃ list s', (throughAngles opening).run ParserState.machine s = .ok (list, s') ∧
      s'.IsBehind (before.length + 1 + front.length + 1) ∧ list.EndsAt text opening closing := by
  have hsplit : (tokensOf text).1 = before ++ opening :: ((front ++ [closing]) ++ after) := by
    rw [htokens, List.append_assoc, List.singleton_append]
  obtain ⟨-, hdelivered, hpending⟩ := hs.reading_shownBy hsplit
  have hholds : s.reading.Holds opening :=
    ⟨by rw [hdelivered, List.head?_cons], fun hbrace => by rw [hkind] at hbrace; cases hbrace⟩
  obtain ⟨list, s', c', hrun, ⟨-, last, hlast, hends⟩, hdelivered', hbehind, -⟩ := hs.exists_run hsplit
    always_throughAngles (meets_throughAngles hholds) (yields_anglesEnd hcloses hpending) fun _ _ h => h.1
  rw [List.head?_eq_getLast?_reverse, hdelivered', ← List.cons_append, ← List.append_assoc,
    List.getLast?_concat] at hlast
  cases hlast
  rw [List.length_append, List.length_singleton, ← Nat.add_assoc] at hbehind
  exact ⟨list, s', hrun, hbehind, hends⟩

/-- A list that is read from a stream ends where its brackets close. -/
theorem closesAngles_of_run (htokens : (tokensOf text).1 = before ++ opening :: after)
    (hs : s.IsBehind (before.length + 1))
    (hrun : (throughAngles opening).run ParserState.machine s = .ok (list, s')) :
    ∃ front closing rest, after = front ++ closing :: rest ∧ ClosesAngles 1 (front ++ [closing]) := by
  obtain ⟨hshown, -, hpending⟩ := hs.reading_shownBy htokens
  obtain ⟨c', hrun', -⟩ := hshown.exists_reading_run always_throughAngles hrun
  have hconsumes : (throughAngles opening).Consumes (ClosesAngles 1) s.reading := consumes_throughAngles
  rw [Consumes, hrun'] at hconsumes
  obtain ⟨-, ⟨ts, hts⟩, hiff⟩ := hconsumes
  have hcloses := (hiff ts _ hts.symm).2 rfl
  obtain ⟨front, closing, rfl⟩ := hcloses.exists_last
  refine ⟨front, closing, c'.pending, ?_, hcloses⟩
  rw [← hpending, ← hts, List.append_assoc, List.singleton_append]

end Runs

section Ends

variable {before front : List Token} {closing : Token} {list : String}

/-- Whether a text ends in a list in angle brackets that stands behind so many tokens: from the bracket
that opens it a parser goes to the end of the text, and delivers this text between the brackets. -/
def EndsInList (text : String) (n : Nat) (list : String) : Prop :=
  ∀ s : ParserState text, s.IsBehind n → ∃ s',
    (next >>= throughAngles).run ParserState.machine s = .ok (⟨list, text.utf8ByteSize⟩, s') ∧ s'.AtEnd

theorem endsInList_of_tokens
    (htokens : (tokensOf text).1 = before ++ opening :: (front ++ [closing]))
    (hending : (tokensOf text).2 = .ok t) (hkind : opening.kind = .lt)
    (hcloses : ClosesAngles 1 (front ++ [closing])) (hstop : closing.stop = text.utf8ByteSize)
    (hlist : slice? text opening.stop (text.utf8ByteSize - 1) = some list) :
    EndsInList text before.length list := by
  intro s hs
  obtain ⟨s₁, hnext, hs₁⟩ := hs.next htokens
  obtain ⟨captured, s', hrun, hs', hends⟩ := exists_throughAngles_run htokens hkind hs₁ hcloses
  have hcaptured : captured = ⟨list, text.utf8ByteSize⟩ := by
    have hcut := hends.isCut
    rw [hstop, hlist, Option.some.injEq] at hcut
    rw [AngleList.mk.injEq]
    exact ⟨hcut.symm, hends.stop_eq.trans hstop⟩
  have hlength : (tokensOf text).1.length = before.length + 1 + front.length + 1 := by
    simp only [htokens, List.length_append, List.length_cons, List.length_nil]
    omega
  rw [← hlength] at hs'
  refine ⟨s', ?_, hs'.atEnd hending⟩
  rw [run_bind, next, Parser.request, Parser.run, hnext, ← hcaptured]
  exact hrun

theorem slice?_between_brackets (list : String) :
    slice? ("<" ++ (list ++ ">")) 1 (("<" ++ (list ++ ">")).utf8ByteSize - 1) = some list := by
  rw [String.utf8ByteSize_append, String.utf8ByteSize_append]
  exact slice?_middle "<" list ">"

structure IsAngleList (text : String) (opening : Token) (front : List Token) (closing : Token) : Prop where
  tokens_eq : (tokensOf text).1 = opening :: (front ++ [closing])
  ending : ∃ t, (tokensOf text).2 = .ok t
  kind_eq : opening.kind = .lt
  stop_eq : opening.stop = 1
  closes : ClosesAngles 1 (front ++ [closing])
  last : closing.stop = text.utf8ByteSize

namespace IsAngleList

theorem endsInList (h : IsAngleList ("<" ++ (list ++ ">")) opening front closing) :
    EndsInList ("<" ++ (list ++ ">")) 0 list := by
  obtain ⟨t, hending⟩ := h.ending
  have hlist : slice? ("<" ++ (list ++ ">")) opening.stop (("<" ++ (list ++ ">")).utf8ByteSize - 1) =
      some list := by
    rw [h.stop_eq]
    exact slice?_between_brackets list
  have htokens : (tokensOf ("<" ++ (list ++ ">"))).1 = [] ++ opening :: (front ++ [closing]) := h.tokens_eq
  exact endsInList_of_tokens htokens hending h.kind_eq h.closes h.last hlist

theorem endsInList_behind {word : String} (h : IsAngleList ("<" ++ (list ++ ">")) opening front closing)
    (hline : tokensOf (word ++ ("<" ++ (list ++ ">"))) =
      (t :: (tokensOf ("<" ++ (list ++ ">"))).1.map (·.behind word),
        ((tokensOf ("<" ++ (list ++ ">"))).2.map (·.behind word)).mapError (·.behind word))) :
    EndsInList (word ++ ("<" ++ (list ++ ">"))) 1 list := by
  obtain ⟨u, hending⟩ := h.ending
  rw [h.tokens_eq, hending, List.map_cons, List.map_append, List.map_singleton] at hline
  have htokens : (tokensOf (word ++ ("<" ++ (list ++ ">")))).1 =
      [t] ++ opening.behind word :: (front.map (·.behind word) ++ [closing.behind word]) :=
    congrArg Prod.fst hline
  have hcloses : ClosesAngles 1 (placed word 0 (front ++ [closing])) := closesAngles_placed.2 h.closes
  rw [placed, List.map_append, List.map_singleton] at hcloses
  have hpos : 1 ≤ ("<" ++ (list ++ ">")).utf8ByteSize := by
    rw [String.utf8ByteSize_append]
    exact Nat.le_add_right 1 _
  have hstop : (closing.behind word).stop = (word ++ ("<" ++ (list ++ ">"))).utf8ByteSize := by
    rw [Token.stop_behind, h.last, Nat.add_comm]
    exact String.utf8ByteSize_append.symm
  have hlist : slice? (word ++ ("<" ++ (list ++ ">"))) (opening.behind word).stop
      ((word ++ ("<" ++ (list ++ ">"))).utf8ByteSize - 1) = some list := by
    rw [Token.stop_behind, h.stop_eq, Nat.add_comm, String.utf8ByteSize_append, Nat.add_sub_assoc hpos,
      slice?_append_right]
    exact slice?_between_brackets list
  exact endsInList_of_tokens htokens (congrArg Prod.snd hline) h.kind_eq hcloses hstop hlist

end IsAngleList

/-- A list between its brackets is scanned as in the text, if it closes no brace that was opened before it. -/
theorem exists_isAngleList {list : AngleList} {after : List Token}
    (htokens : (tokensOf text).1 = before ++ opening :: (front ++ closing :: after))
    (hkind : opening.kind = .lt) (hcloses : ClosesAngles 1 (front ++ [closing]))
    (hends : list.EndsAt text opening closing) (hpair : bracesPair 0 front = true) :
    ∃ opening' front' closing', IsAngleList ("<" ++ (list.text ++ ">")) opening' front' closing' := by
  have hopening : opening.StandsIn text := standsIn_of_mem_tokensOf (by simp [htokens])
  have hclosing : closing.StandsIn text := standsIn_of_mem_tokensOf (by simp [htokens])
  -- The brackets are the first and the last token of the piece that is scanned again.
  obtain ⟨houter, -⟩ := tokensBetween_of_tokens htokens
  have hpiece := hends.slice?_eq hopening hkind hclosing
  rw [hends.stop_eq] at hpiece
  have hlast : closing ∈ tokensBetween text opening.offset closing.stop := by simp [houter]
  have hpaired : bracesPair 0 (tokensBetween text opening.offset closing.stop) = true := by
    have hclose : closing.kind ≠ .rBrace := by
      rcases hends.kind with h | h <;> rw [h] <;> decide
    rw [houter, bracesPair, hkind]
    exact bracesPair_concat hpair hclose
  obtain ⟨a, lift, hsize, hplaced, hending⟩ :=
    tokensOf_piece ⟨opening, by simp [htokens], rfl⟩ hlast rfl hpiece hpaired
  rw [houter] at hplaced
  obtain ⟨opening', ts', htokens', rfl, hts⟩ := List.map_eq_cons_iff.1 hplaced.symm
  obtain ⟨front', last', rfl, rfl, hlast'⟩ := List.map_eq_append_iff.1 hts
  obtain ⟨closing', behind, rfl, rfl, hnil⟩ := List.map_eq_cons_iff.1 hlast'
  obtain rfl := List.map_eq_nil_iff.1 hnil
  have hlength := size_of_slice? hpiece
  have hbyte := (byte_of_lt hopening hkind).2
  have hstop : (opening'.within a lift).stop = opening'.stop + a.utf8ByteSize := opening'.stop_behind a
  have hstop' : (closing'.within a lift).stop = closing'.stop + a.utf8ByteSize := closing'.stop_behind a
  exact ⟨opening', front', closing', {
    tokens_eq := htokens'
    ending := hending
    kind_eq := hkind
    stop_eq := by omega
    closes := by
      rw [← hts] at hcloses
      exact closesAngles_placed.1 hcloses
    last := by omega }⟩

end Ends

/-- A list in angle brackets that is read from a text delimits itself. Its text goes from the end of the
opening bracket to the `>` in front of its end, which ends a token. Between brackets it is read again up to
the end, and so it is in the line that introduces a template, if it closes no brace that was opened before
it. -/
theorem throughAngles_delimits {s s' : ParserState text} {before after : List Token} {list : AngleList}
    (htokens : (tokensOf text).1 = before ++ opening :: after) (hkind : opening.kind = .lt)
    (hs : s.IsBehind (before.length + 1))
    (hrun : (throughAngles opening).run ParserState.machine s = .ok (list, s')) :
    slice? text opening.stop (list.stop - 1) = some list.text ∧
      charAt? text (list.stop - 1) = some '>' ∧
      (∃ front closing rest, after = front ++ closing :: rest ∧ ClosesAngles 1 (front ++ [closing]) ∧
        closing.stop = list.stop ∧ s'.IsBehind (before.length + 1 + front.length + 1)) ∧
      (bracesPair 0 (tokensBetween text opening.stop (list.stop - 1)) = true →
        EndsInList ("<" ++ list.text ++ ">") 0 list.text ∧
          ∀ line ∈ templateLines list.text,
            (∃ word, (tokensOf line).1.head? = some word ∧ word.reserved? = some .templateWord) ∧
              EndsInList line 1 list.text) := by
  obtain ⟨front, closing, rest, rfl, hcloses⟩ := closesAngles_of_run htokens hs hrun
  obtain ⟨list', s₁, hrun', hbehind, hends⟩ := exists_throughAngles_run htokens hkind hs hcloses
  rw [hrun] at hrun'
  cases hrun'
  have hclosing : closing.StandsIn text := standsIn_of_mem_tokensOf (by simp [htokens])
  have hbyte := byte_of_gt hclosing hends.kind
  rw [← hends.stop_eq] at hbyte
  refine ⟨hends.stop_eq ▸ hends.isCut, charAt?_of_ascii hbyte (by decide),
    ⟨front, closing, rest, rfl, hcloses, hends.stop_eq.symm, hbehind⟩, fun hpair => ?_⟩
  rw [hends.stop_eq, (tokensBetween_of_tokens htokens).2] at hpair
  obtain ⟨opening', front', closing', hlist⟩ := exists_isAngleList htokens hkind hcloses hends hpair
  have hword : ∃ cs, (⟨.ident, "template", 0, 0⟩ : Token).ReadBefore cs :=
    (Scanner.atBoundary_new "template").readBefore_of_mem (by decide +kernel)
  obtain ⟨cs, hbefore⟩ := hword
  have hline := tokensOf_behind_space hbefore rfl ("<" ++ (list.text ++ ">"))
  rw [String.append_assoc]
  refine ⟨hlist.endsInList, fun line hmem => ?_⟩
  have hshown : line = "template" ++ " " ++ ("<" ++ (list.text ++ ">")) := by
    rw [templateLines] at hmem
    split at hmem
    · cases hmem
    · rw [List.mem_singleton.1 hmem]
      have hhead : ("template <" : String) = "template" ++ " " ++ "<" := by decide
      change "template <" ++ list.text ++ ">" = _
      rw [hhead, String.append_assoc, String.append_assoc]
  rw [hshown]
  exact ⟨⟨_, by rw [hline]; rfl, by decide⟩, hlist.endsInList_behind hline⟩

/-- A list that ends in the middle of `>>`, with a comparison in parentheses and a literal in it. -/
theorem throughAngles_delimits_halfway :
    let text := "S<A<(1>2), '>'>>x"
    let inner : AngleList := ⟨"A<(1>2), '>'>", 16⟩
    let line := "template <A<(1>2), '>'>>"
    (∃ s s' : ParserState text, s.IsBehind 2 ∧
      (throughAngles ⟨.lt, "<", 1, 0⟩).run ParserState.machine s = .ok (inner, s')) ∧
      charAt? text 15 = some '>' ∧
      (∃ s', (next >>= throughAngles).run ParserState.machine (.new .header "<A<(1>2), '>'>>") =
        .ok (⟨inner.text, 15⟩, s') ∧ s'.AtEnd) ∧
      ∃ s s', ParserState.machine .next (.new .header line) = .ok (⟨.ident, "template", 0, 0⟩, s) ∧
        (next >>= throughAngles).run ParserState.machine s = .ok (⟨inner.text, 24⟩, s') ∧ s'.AtEnd := by
  intro text inner line
  let name : Token := ⟨.ident, "S", 0, 0⟩
  let opening : Token := ⟨.lt, "<", 1, 0⟩
  let group : List Token :=
    [⟨.number, "1", 5, 0⟩, ⟨.gt, ">", 6, 0⟩, ⟨.number, "2", 7, 0⟩, ⟨.rParen, ")", 8, 0⟩]
  let front : List Token := ⟨.ident, "A", 2, 0⟩ :: ⟨.lt, "<", 3, 0⟩ :: ⟨.lParen, "(", 4, 0⟩ ::
    (group ++ [⟨.comma, ",", 9, 0⟩, ⟨.char, "'>'", 11, 0⟩])
  let closing : Token := ⟨.gtGt, ">>", 14, 0⟩
  let last : Token := ⟨.ident, "x", 16, 0⟩
  have htokens : (tokensOf text).1 = [name] ++ opening :: (front ++ closing :: [last]) := by decide +kernel
  have hgroup : ClosesParens 0 group :=
    .token (by decide) (.token (by decide) (.token (by decide) (.closing rfl)))
  have hparens : ClosesAngles 2 (⟨.lParen, "(", 4, 0⟩ ::
      (group ++ [⟨.comma, ",", 9, 0⟩, ⟨.char, "'>'", 11, 0⟩, closing])) :=
    .parens rfl hgroup (.token (by decide) (.token (by decide) (.closing (.inr ⟨rfl, rfl⟩))))
  have hcloses : ClosesAngles 1 (front ++ [closing]) := .token (by decide) (.opened rfl hparens)
  have hnew : (ParserState.new .header text).IsBehind ([] : List Token).length :=
    ParserState.isBehind_new .header text
  obtain ⟨s₁, -, hs₁⟩ := hnew.next htokens
  have hname : s₁.IsBehind [name].length := hs₁
  obtain ⟨s, -, hs⟩ := hname.next htokens
  obtain ⟨list, s', hrun, -, hends⟩ := exists_throughAngles_run htokens rfl hs hcloses
  have hlist : list = inner := by
    have hcut := hends.isCut
    have htext : slice? text opening.stop (closing.stop - 1) = some inner.text := by decide +kernel
    rw [htext, Option.some.injEq] at hcut
    rw [AngleList.mk.injEq]
    exact ⟨hcut.symm, hends.stop_eq⟩
  rw [hlist] at hrun
  obtain ⟨-, hchar, -, hagain⟩ := throughAngles_delimits htokens rfl hs hrun
  obtain ⟨halone, hline⟩ := hagain (by decide +kernel)
  obtain ⟨-, hend⟩ := hline line (by decide)
  have htemplate : (tokensOf line).1 = [] ++ ⟨.ident, "template", 0, 0⟩ :: (tokensOf line).1.tail := by
    decide +kernel
  have hstart : (ParserState.new .header line).IsBehind ([] : List Token).length :=
    ParserState.isBehind_new .header line
  obtain ⟨s₂, hword, hs₂⟩ := hstart.next htemplate
  obtain ⟨s₃, hread⟩ := hend s₂ hs₂
  exact ⟨⟨s, s', hs, hrun⟩, hchar, halone _ (ParserState.isBehind_new _ _), s₂, s₃, hword, hread⟩

/-- A list that closes a brace opened before it is not scanned alone. -/
example :
    let reading : Parser AngleList := do
      discard next
      discard next
      throughAngles (← next)
    (reading.run ParserState.machine (.new .header "\x7b S<a\x7d>")).toOption.map Prod.fst =
        some ⟨"a\x7d", 7⟩ ∧
      (tokensOf "<a\x7d>").2.toOption = none := by
  decide +kernel

end ReflectionTables.Parsing
