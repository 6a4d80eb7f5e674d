import WidgetStyle.Proofs.Source.QuotedNames

/-!
# WidgetStyle.Proofs.Value.Comments — what becomes of a text without its comments

As far as comments go, a text is made of quotations, of comments, and of single characters outside
of both (`MadeOf`).  A quotation goes from a quotation mark to the next one of its kind that no
backslash protects, and a comment from `/*` to the next `*/`; the last one may lack its end.  Taking
the comments out puts a space for each comment and leaves all other parts as they are
(`MadeOf.blankComments_eq`).

No comment is left, nor does one arise where two characters come together: outside of quotations
there is no `/*` in the result (`holdsNoComment_blankComments`).  And a text of that kind is left as
it is (`blankComments_eq_self_iff`), so taking comments out of it again changes nothing.
-/

namespace WidgetStyle.Value

open Text

/-! ## Texts without comments -/

/-- Whether there is no `/*` in a text outside of quotations, when the walk comes to it in the given
state. -/
def HoldsNoComment (q : Quoting) (cs : List Char) : Prop :=
  ∀ front back, cs = front ++ '/' :: '*' :: back → q.after front ≠ .outside

section HoldsNoComment

variable {q : Quoting} {c : Char} {cs : List Char}

theorem holdsNoComment_nil : HoldsNoComment q [] := by
  intro front back h
  exact absurd h (by simp)

theorem holdsNoComment_cons_iff :
    HoldsNoComment q (c :: cs) ↔ ¬q.OpensComment c cs ∧ HoldsNoComment (q.step c) cs := by
  constructor
  · intro h
    constructor
    · rintro ⟨rfl, rfl, hstar⟩
      obtain ⟨back, rfl⟩ := List.head?_eq_some_iff.mp hstar
      exact h [] back rfl rfl
    · intro front back heq
      exact h (c :: front) back (congrArg (c :: ·) heq)
  · rintro ⟨hopens, hmore⟩ front back heq houtside
    cases front with
    | nil =>
        obtain ⟨rfl, rfl⟩ := List.cons.inj heq
        exact hopens ⟨houtside, rfl, rfl⟩
    | cons d front =>
        obtain ⟨rfl, rfl⟩ := List.cons.inj heq
        exact hmore front back rfl houtside

/-- A text without comments is left as it is. -/
theorem blankFrom_of_holdsNoComment (h : HoldsNoComment q cs) : blankFrom q.mode cs = cs := by
  induction cs generalizing q with
  | nil => rw [blankFrom]
  | cons c cs ih =>
      obtain ⟨hopens, hmore⟩ := holdsNoComment_cons_iff.mp h
      rw [blankFrom_cons hopens, ih hmore]

/-- Where an asterisk comes first, it did so before. -/
theorem head?_of_head?_blankFrom (h : (blankFrom .plain cs).head? = some '*') :
    cs.head? = some '*' := by
  cases cs with
  | nil => exact absurd h (by simp [blankFrom])
  | cons c cs =>
      by_cases hopens : Quoting.outside.OpensComment c cs
      · obtain ⟨-, rfl, hstar⟩ := hopens
        obtain ⟨cs, rfl⟩ := List.head?_eq_some_iff.mp hstar
        rw [blankFrom_open, List.head?_cons] at h
        exact absurd (Option.some.inj h) (by decide)
      · have hcons := blankFrom_cons hopens
        rw [Quoting.mode] at hcons
        rw [hcons] at h
        exact h

/-- Where a walk stands with respect to quotations. -/
def CommentMode.quoting : CommentMode → Quoting
  | .plain | .comment _ => .outside
  | .quoted quote => .inside quote
  | .escaped quote => .escaped quote

/-- No comment is left behind, and none arises. -/
theorem holdsNoComment_blankFrom (mode : CommentMode) (cs : List Char) :
    HoldsNoComment mode.quoting (blankFrom mode cs) := by
  fun_induction blankFrom mode cs with
  | case1 mode => exact holdsNoComment_nil
  | case2 cs ih =>
      refine holdsNoComment_cons_iff.mpr ⟨?_, ih⟩
      rintro ⟨-, hslash, -⟩
      exact absurd hslash (by decide)
  | case3 c cs hplain ih =>
      have hstep : Quoting.outside.step c =
          (if isQuote c then CommentMode.quoted c else .plain).quoting := by
        rw [Quoting.step]
        split <;> rfl
      refine holdsNoComment_cons_iff.mpr ⟨?_, hstep ▸ ih⟩
      rintro ⟨-, rfl, hstar⟩
      obtain ⟨back, rfl⟩ := List.head?_eq_some_iff.mp (head?_of_head?_blankFrom hstar)
      exact hplain back rfl rfl
  | case4 quote c cs ih =>
      have hstep : (Quoting.inside quote).step c =
          (if c = '\\' then CommentMode.escaped quote
            else if c = quote then .plain else .quoted quote).quoting := by
        rw [Quoting.step]
        split
        · rfl
        · split <;> rfl
      refine holdsNoComment_cons_iff.mpr ⟨?_, hstep ▸ ih⟩
      rintro ⟨hinside, -⟩
      cases hinside
  | case5 quote c cs ih =>
      refine holdsNoComment_cons_iff.mpr ⟨?_, ih⟩
      rintro ⟨hinside, -⟩
      cases hinside
  | case6 afterAsterisk c cs ih =>
      have houtside : (if afterAsterisk && c = '/' then CommentMode.plain
          else .comment (c = '*')).quoting = .outside := by
        split <;> rfl
      rwa [houtside] at ih

theorem holdsNoComment_blankComments (cs : List Char) :
    HoldsNoComment .outside (blankComments cs) :=
  holdsNoComment_blankFrom .plain cs

/-- Just the texts without comments are left as they are. -/
theorem blankComments_eq_self_iff : blankComments cs = cs ↔ HoldsNoComment .outside cs := by
  constructor
  · intro h
    have hblank := holdsNoComment_blankComments cs
    rwa [h] at hblank
  · exact blankFrom_of_holdsNoComment

end HoldsNoComment

/-! ## Parts of a text -/

/-- A part of a text: a character outside of quotations and comments, a quotation, or a comment. -/
inductive CommentPart where
  | plain (c : Char)
  | quotation (text : List Char)
  | comment (text : List Char)
  deriving DecidableEq, Repr

namespace CommentPart

/-- The characters of a part. -/
def chars : CommentPart → List Char
  | .plain c => [c]
  | .quotation text | .comment text => text

/-- The part with a space for a comment. -/
def blanked : CommentPart → CommentPart
  | .comment _ => .plain ' '
  | part => part

/-- The quotation that a part is, when it is one. -/
def quotation? : CommentPart → Option (List Char)
  | .quotation text => some text
  | .plain _ | .comment _ => none

end CommentPart

/-- A quotation that begins and does not end: none of its beginnings is a quotation. -/
structure IsOpenQuotation (text : List Char) : Prop where
  mark : ∃ c ∈ text.head?, isQuote c = true
  no_end : ∀ front, front <+: text → isQuotation front = false

/-- What stands between the marks of a comment. -/
def IsCommentBody (body : List Char) : Prop := ¬['*', '/'] <:+: body

/-- The text is made of the parts.  Only the last quotation or comment may lack its end. -/
inductive MadeOf : List CommentPart → List Char → Prop
  | nil : MadeOf [] []
  | plain {parts : List CommentPart} {c : Char} {cs : List Char} (hquote : isQuote c = false)
      (hcomment : ¬(c = '/' ∧ cs.head? = some '*')) (more : MadeOf parts cs) :
      MadeOf (.plain c :: parts) (c :: cs)
  | quotation {parts : List CommentPart} {text cs : List Char} (h : isQuotation text = true)
      (more : MadeOf parts cs) : MadeOf (.quotation text :: parts) (text ++ cs)
  | openQuotation {text : List Char} (h : IsOpenQuotation text) : MadeOf [.quotation text] text
  | comment {parts : List CommentPart} {body cs : List Char} (h : IsCommentBody body)
      (more : MadeOf parts cs) :
      MadeOf (.comment ('/' :: '*' :: (body ++ ['*', '/'])) :: parts)
        ('/' :: '*' :: (body ++ '*' :: '/' :: cs))
  | openComment {body : List Char} (h : IsCommentBody body) :
      MadeOf [.comment ('/' :: '*' :: body)] ('/' :: '*' :: body)

variable {parts : List CommentPart} {cs body : List Char}

/-! ### Every text is made of parts -/

theorem exists_comment_end (h : ['*', '/'] <:+: cs) :
    ∃ body back, cs = body ++ '*' :: '/' :: back ∧ IsCommentBody body := by
  induction cs with
  | nil => exact absurd h (by decide)
  | cons c cs ih =>
      by_cases hend : ['*', '/'] <+: c :: cs
      · obtain ⟨back, hback⟩ := hend
        exact ⟨[], back, hback.symm, fun hinfix => absurd (List.infix_nil.mp hinfix) nofun⟩
      · obtain ⟨body, back, rfl, hbody⟩ := ih ((List.infix_cons_iff.mp h).resolve_left hend)
        refine ⟨c :: body, back, rfl, fun hinfix => ?_⟩
        rcases List.infix_cons_iff.mp hinfix with hbegins | hinfix
        · refine hend (hbegins.trans ?_)
          exact ⟨'*' :: '/' :: back, rfl⟩
        · exact hbody hinfix

theorem exists_madeOf (cs : List Char) : ∃ parts, MadeOf parts cs := by
  induction hlength : cs.length using Nat.strongRecOn generalizing cs with
  | ind n ih =>
      cases cs with
      | nil => exact ⟨[], .nil⟩
      | cons c cs =>
          cases hquote : isQuote c with
          | true =>
              by_cases hends : ∃ front, front <+: c :: cs ∧ isQuotation front = true
              · obtain ⟨front, ⟨back, hback⟩, hquotation⟩ := hends
                have hfront : front ≠ [] := by
                  rintro rfl
                  cases hquotation
                have hlt : back.length < n := by
                  have hpos := List.length_pos_iff.mpr hfront
                  rw [← hlength, ← hback, List.length_append]
                  omega
                obtain ⟨parts, more⟩ := ih back.length hlt back rfl
                exact ⟨.quotation front :: parts, hback ▸ .quotation hquotation more⟩
              · refine ⟨[.quotation (c :: cs)], .openQuotation ⟨⟨c, rfl, hquote⟩, ?_⟩⟩
                intro front hfront
                exact Bool.eq_false_iff.mpr fun hquotation => hends ⟨front, hfront, hquotation⟩
          | false =>
              by_cases hcomment : c = '/' ∧ cs.head? = some '*'
              · obtain ⟨rfl, hstar⟩ := hcomment
                obtain ⟨cs, rfl⟩ := List.head?_eq_some_iff.mp hstar
                by_cases hends : ['*', '/'] <:+: cs
                · obtain ⟨body, back, rfl, hbody⟩ := exists_comment_end hends
                  have hlt : back.length < n := by
                    rw [← hlength]
                    simp only [List.length_cons, List.length_append]
                    omega
                  obtain ⟨parts, more⟩ := ih back.length hlt back rfl
                  exact ⟨_, .comment hbody more⟩
                · exact ⟨_, .openComment hends⟩
              · have hlt : cs.length < n := by
                  rw [← hlength, List.length_cons]
                  exact Nat.lt_succ_self _
                obtain ⟨parts, more⟩ := ih cs.length hlt cs rfl
                exact ⟨_, .plain hquote hcomment more⟩

/-- The parts of a text are all there is of it. -/
theorem MadeOf.flatMap_chars (h : MadeOf parts cs) : parts.flatMap CommentPart.chars = cs := by
  induction h with
  | nil => rfl
  | plain _ _ _ ih => rw [List.flatMap_cons, ih]; rfl
  | quotation _ _ ih => rw [List.flatMap_cons, ih]; rfl
  | openQuotation => rw [List.flatMap_singleton]; rfl
  | comment _ _ ih => rw [List.flatMap_cons, ih]; simp [CommentPart.chars]
  | openComment => rw [List.flatMap_singleton]; rfl

/-! ### Parts without the comments -/

/-- The walk passes by the body of a comment, and then waits for the end. -/
theorem exists_blankFrom_comment (h : IsCommentBody body) (afterAsterisk : Bool)
    (hslash : afterAsterisk = true → body.head? ≠ some '/') :
    ∃ afterAsterisk', ∀ rest, blankFrom (.comment afterAsterisk) (body ++ rest) =
      blankFrom (.comment afterAsterisk') rest := by
  induction body generalizing afterAsterisk with
  | nil => exact ⟨afterAsterisk, fun _ => rfl⟩
  | cons c body ih =>
      have hpass : ¬(afterAsterisk && c = '/') = true := by
        rw [Bool.and_eq_true, decide_eq_true_eq]
        rintro ⟨hafter, rfl⟩
        exact hslash hafter rfl
      have hbody : IsCommentBody body := fun hinfix => h (List.infix_cons hinfix)
      have hnext : decide (c = '*') = true → body.head? ≠ some '/' := by
        intro hc hhead
        obtain rfl := of_decide_eq_true hc
        obtain ⟨back, rfl⟩ := List.head?_eq_some_iff.mp hhead
        exact h ⟨[], back, rfl⟩
      obtain ⟨afterAsterisk', hrest⟩ := ih hbody _ hnext
      refine ⟨afterAsterisk', fun rest => ?_⟩
      rw [List.cons_append, blankFrom, if_neg hpass, hrest]

theorem blankFrom_comment_append (h : IsCommentBody body) (cs : List Char) :
    blankFrom (.comment false) (body ++ '*' :: '/' :: cs) = blankComments cs := by
  obtain ⟨afterAsterisk, hrest⟩ := exists_blankFrom_comment h false nofun
  rw [hrest]
  simp [blankFrom, blankComments]

theorem blankFrom_openComment (h : IsCommentBody body) : blankFrom (.comment false) body = [] := by
  obtain ⟨afterAsterisk, hrest⟩ := exists_blankFrom_comment h false nofun
  have hend := hrest []
  rwa [List.append_nil, blankFrom] at hend

theorem blankComments_plain_cons {c : Char} (hquote : isQuote c = false)
    (hcomment : ¬(c = '/' ∧ cs.head? = some '*')) :
    blankComments (c :: cs) = c :: blankComments cs := by
  have hcons := blankFrom_cons (q := .outside) fun hopens => hcomment hopens.2
  rw [step_outside_of_not_isQuote hquote] at hcons
  exact hcons

theorem blankComments_quotation_append {text : List Char} (h : isQuotation text = true)
    (cs : List Char) : blankComments (text ++ cs) = text ++ blankComments cs := by
  cases text with
  | nil => cases h
  | cons quote inside =>
      obtain ⟨hquote, hcloses⟩ := Bool.and_eq_true_iff.mp h
      have hcomment : ¬Quoting.outside.OpensComment quote (inside ++ cs) := by
        rintro ⟨-, rfl, -⟩
        exact absurd hquote (by decide)
      have hcons := blankFrom_cons hcomment
      rw [step_outside_of_isQuote hquote, blankFrom_closesAtEnd_append rfl hcloses] at hcons
      exact hcons

/-- A quotation that does not end is never left. -/
theorem after_ne_outside {q : Quoting} (hq : q ≠ .outside)
    (h : ∀ front, front <+: cs → closesAtEnd q front = false) {front : List Char}
    (hfront : front <+: cs) : q.after front ≠ .outside := by
  induction cs generalizing q front with
  | nil =>
      obtain rfl := List.prefix_nil.mp hfront
      exact hq
  | cons c cs ih =>
      cases front with
      | nil => exact hq
      | cons d front =>
          obtain ⟨rfl, hmore⟩ := List.cons_prefix_cons.mp hfront
          have hstep : q.step d ≠ .outside := by
            intro hstep
            have hend := h [d] ⟨cs, rfl⟩
            rw [closesAtEnd, if_pos hstep] at hend
            cases hend
          refine ih hstep (fun front hbegins => ?_) hmore
          have hend := h (d :: front) (List.cons_prefix_cons.mpr ⟨rfl, hbegins⟩)
          rwa [closesAtEnd, if_neg hstep] at hend

theorem blankComments_of_isOpenQuotation (h : IsOpenQuotation cs) : blankComments cs = cs := by
  refine blankComments_eq_self_iff.mpr fun front back heq => ?_
  obtain ⟨quote, hhead, hquote⟩ := h.mark
  obtain ⟨inside, rfl⟩ := List.head?_eq_some_iff.mp hhead
  cases front with
  | nil =>
      obtain ⟨rfl, -⟩ := List.cons.inj heq
      exact absurd hquote (by decide)
  | cons d front =>
      obtain ⟨rfl, rfl⟩ := List.cons.inj heq
      have hopen : ∀ front', front' <+: front ++ '/' :: '*' :: back →
          closesAtEnd (.inside quote) front' = false := by
        intro front' hbegins
        have := h.no_end (quote :: front') (List.cons_prefix_cons.mpr ⟨rfl, hbegins⟩)
        rwa [isQuotation, hquote, Bool.true_and] at this
      have hinside := after_ne_outside (q := .inside quote) nofun hopen (List.prefix_append _ _)
      rw [← step_outside_of_isQuote hquote] at hinside
      exact hinside

/-- Taking comments out of a text leaves a space for each, and all other parts as they are. -/
theorem MadeOf.blankComments_eq (h : MadeOf parts cs) :
    blankComments cs = parts.flatMap fun part => part.blanked.chars := by
  induction h with
  | nil => rfl
  | plain hquote hcomment _ ih =>
      rw [blankComments_plain_cons hquote hcomment, ih, List.flatMap_cons]
      rfl
  | quotation h _ ih =>
      rw [blankComments_quotation_append h, ih, List.flatMap_cons]
      rfl
  | openQuotation h =>
      rw [blankComments_of_isOpenQuotation h, List.flatMap_singleton]
      rfl
  | comment h _ ih =>
      rw [blankComments, blankFrom_open, blankFrom_comment_append h, ih, List.flatMap_cons]
      rfl
  | openComment h =>
      rw [blankComments, blankFrom_open, blankFrom_openComment h, List.flatMap_singleton]
      rfl

/-- The result is made of the same parts, but for the comments. -/
theorem MadeOf.blanked (h : MadeOf parts cs) :
    MadeOf (parts.map CommentPart.blanked) (blankComments cs) := by
  induction h with
  | nil => exact .nil
  | plain hquote hcomment _ ih =>
      rw [blankComments_plain_cons hquote hcomment]
      exact .plain hquote (fun hopens => hcomment ⟨hopens.1, head?_of_head?_blankFrom hopens.2⟩) ih
  | quotation h _ ih =>
      rw [blankComments_quotation_append h]
      exact .quotation h ih
  | openQuotation h =>
      rw [blankComments_of_isOpenQuotation h]
      exact .openQuotation h
  | comment h _ ih =>
      rw [blankComments, blankFrom_open, blankFrom_comment_append h]
      exact .plain rfl (fun hopens => absurd hopens.1 (by decide)) ih
  | openComment h =>
      rw [blankComments, blankFrom_open, blankFrom_openComment h]
      exact .plain rfl (fun hopens => absurd hopens.1 (by decide)) .nil

theorem filterMap_quotation?_blanked (parts : List CommentPart) :
    (parts.map CommentPart.blanked).filterMap CommentPart.quotation? =
      parts.filterMap CommentPart.quotation? := by
  rw [List.filterMap_map]
  refine List.filterMap_congr fun part _ => ?_
  cases part <;> rfl

/-- Taking comments out of a text a second time changes nothing, and no `/*` is left outside of
quotations.  Every text is made of parts; the result has a space for each comment and all other
parts as they are, and just the quotations of the text are the quotations of the result, in their
order.  A text without `/*` is left as it is. -/
theorem blankComments_keeps_quotations (cs : List Char) :
    blankComments (blankComments cs) = blankComments cs ∧
    (∀ front back, blankComments cs = front ++ '/' :: '*' :: back →
      Quoting.outside.after front ≠ .outside) ∧
    (∃ parts, MadeOf parts cs) ∧
    (∀ parts, MadeOf parts cs → parts.flatMap CommentPart.chars = cs ∧
      blankComments cs = (parts.flatMap fun part => part.blanked.chars) ∧
      ∃ left, MadeOf left (blankComments cs) ∧
        left.filterMap CommentPart.quotation? = parts.filterMap CommentPart.quotation?) ∧
    (¬['/', '*'] <:+: cs → blankComments cs = cs) := by
  refine ⟨?_, holdsNoComment_blankComments cs, exists_madeOf cs, fun parts h => ?_, fun h => ?_⟩
  · exact blankComments_eq_self_iff.mpr (holdsNoComment_blankComments cs)
  · exact ⟨h.flatMap_chars, h.blankComments_eq, _, h.blanked, filterMap_quotation?_blanked parts⟩
  · refine blankComments_eq_self_iff.mpr fun front back heq => absurd ?_ h
    exact ⟨front, back, by rw [heq, List.append_assoc]; rfl⟩

end WidgetStyle.Value
