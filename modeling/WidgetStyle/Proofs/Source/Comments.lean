import WidgetStyle.Proofs.Source.Leading
import WidgetStyle.Proofs.Value.Pieces
import WidgetStyle.Value.Comment

/-!
# WidgetStyle.Proofs.Source.Comments — comments among the lexemes and comments in the text

A value is made of lexemes, but its comments are taken out of its text: `blankComments` goes through
the characters again and has a notion of its own of where a quotation stands.  Both ways to see the
comments agree for a value just in case it `ShowsComments`: no comment begins inside what the walk takes
for a quotation, and no `/*` outside of quotations belongs to another lexeme
(`blankComments_eq_spaced_iff`).

Where they do not agree, the two texts part at a slash that one of them has and the other has not
(`Parts`), and something that is not blank stands before it (`Parts.exists_not_isBlank`).
-/

namespace WidgetStyle.Value

open Text

/-! ## The walk that takes comments out -/

/-- How the walk that takes comments out goes on outside of comments. -/
def Quoting.mode : Quoting → CommentMode
  | .outside => .plain
  | .inside quote => .quoted quote
  | .escaped quote => .escaped quote

/-- Whether a comment begins at the character in front of a text. -/
def Quoting.OpensComment (q : Quoting) (c : Char) (cs : List Char) : Prop :=
  q = .outside ∧ c = '/' ∧ cs.head? = some '*'

/-- A character with which no comment begins stays. -/
theorem blankFrom_cons {q : Quoting} {c : Char} {cs : List Char} (h : ¬q.OpensComment c cs) :
    blankFrom q.mode (c :: cs) = c :: blankFrom (q.step c).mode cs := by
  cases q with
  | inside quote =>
      simp only [Quoting.mode, blankFrom, Quoting.step]
      congr 2
      split
      · rfl
      · split <;> rfl
  | escaped quote => simp only [Quoting.mode, blankFrom, Quoting.step]
  | outside =>
      have hstep : (Quoting.outside.step c).mode = if isQuote c then .quoted c else .plain := by
        rw [Quoting.step]
        split <;> rfl
      rw [hstep, Quoting.mode, blankFrom]
      rintro cs' rfl rfl
      exact h ⟨rfl, rfl, rfl⟩

theorem blankFrom_open (cs : List Char) :
    blankFrom .plain ('/' :: '*' :: cs) = ' ' :: blankFrom (.comment false) cs := by
  rw [blankFrom]

/-- The walk goes on behind the characters of a comment. -/
theorem blankFrom_comment (cs : List Char) :
    blankFrom (.comment false) cs =
      blankFrom .plain (cs.drop (Source.extent Source.commentStep 0 cs + 2)) := by
  have hstar : ∀ cs : List Char, cs.head? ≠ some '/' →
      blankFrom (.comment true) cs = blankFrom (.comment false) cs := by
    intro cs hcs
    cases cs with
    | nil => rw [blankFrom, blankFrom]
    | cons c cs =>
        have hc : c ≠ '/' := fun hc => hcs (congrArg some hc)
        simp [blankFrom, hc]
  induction cs with
  | nil => simp [blankFrom]
  | cons c cs ih =>
      by_cases hend : c = '*' ∧ cs.head? = some '/'
      · obtain ⟨rfl, hslash⟩ := hend
        obtain ⟨more, rfl⟩ := List.head?_eq_some_iff.mp hslash
        simp [blankFrom, Source.extent, Source.commentStep]
      · have hstep : Source.commentStep c cs = some 0 := by simp [Source.commentStep, hend]
        rw [Source.extent, hstep, blankFrom]
        simp only [Bool.false_and, Bool.false_eq_true, if_false]
        rw [Nat.add_right_comm, List.drop_succ_cons, ← ih]
        by_cases hc : c = '*'
        · rw [decide_eq_true hc]
          exact hstar cs fun hslash => hend ⟨hc, hslash⟩
        · rw [decide_eq_false hc]

end WidgetStyle.Value

namespace WidgetStyle.Source

open Text Value

/-! ## Comments as blanks -/

/-- The characters of a lexeme, with a space for a comment. -/
def Lexeme.spaced (x : Lexeme) : List Char := if x.kind = .comment then [' '] else x.text

/-- The characters of some lexemes, with a space for each comment. -/
def spaced (xs : List Lexeme) : List Char := xs.flatMap Lexeme.spaced

theorem spaced_of_comment {x : Lexeme} (hx : x.kind = .comment) : x.spaced = [' '] := if_pos hx

theorem spaced_of_not_comment {x : Lexeme} (hx : x.kind ≠ .comment) : x.spaced = x.text := if_neg hx

theorem spaced_cons (x : Lexeme) (xs : List Lexeme) : spaced (x :: xs) = x.spaced ++ spaced xs := rfl

/-- What is in front of a value text `u` with the lexemes `xs` behind it: the walk comes to each comment
outside of quotations, and begins a comment nowhere else. -/
structure ShowsCommentsFrom (q : Quoting) (u : List Char) (xs : List Lexeme) : Prop where
  comment : ∀ before x after, xs = before ++ x :: after → x.kind = .comment →
    q.after (u ++ spaced before) = .outside
  other : ∀ before after, u ++ spaced xs = before ++ '/' :: '*' :: after →
    q.after before ≠ .outside

/-- Two texts part: one goes on with a space where the other has a slash.  Either the walk is inside a
quotation and keeps the slash of a comment, or it is outside and takes a slash and an asterisk for a
comment. -/
inductive Parts (q : Quoting) : List Char → List Char → List Char → Prop
  | kept {p s t : List Char} (hp : q.after p ≠ .outside) : Parts q p (p ++ '/' :: s) (p ++ ' ' :: t)
  | taken {p s t : List Char} (hp : q.after p = .outside) :
      Parts q p (p ++ ' ' :: s) (p ++ '/' :: '*' :: t)

theorem Parts.cons {q : Quoting} {c : Char} {p s t : List Char} (h : Parts (q.step c) p s t) :
    Parts q (c :: p) (c :: s) (c :: t) := by
  cases h with
  | kept hp => exact .kept (p := c :: p) hp
  | taken hp => exact .taken (p := c :: p) hp

section

variable {q : Quoting} {c : Char} {u : List Char} {x : Lexeme} {xs : List Lexeme} {more : List Char}

theorem showsCommentsFrom_nil : ShowsCommentsFrom q [] [] where
  comment before x after h := absurd h (by simp)
  other before after h := absurd h (by simp [spaced])

theorem showsCommentsFrom_char :
    ShowsCommentsFrom q (c :: u) xs ↔
      ¬q.OpensComment c (u ++ spaced xs) ∧ ShowsCommentsFrom (q.step c) u xs := by
  constructor
  · intro h
    refine ⟨?_, h.comment, fun before after heq => ?_⟩
    · rintro ⟨hq, rfl, hstar⟩
      obtain ⟨after, hafter⟩ := List.head?_eq_some_iff.mp hstar
      exact h.other [] after (congrArg ('/' :: ·) hafter) hq
    · exact h.other (c :: before) after (congrArg (c :: ·) heq)
  · rintro ⟨hopen, h⟩
    refine ⟨h.comment, fun before after heq => ?_⟩
    cases before with
    | nil =>
        obtain ⟨rfl, hafter⟩ := List.cons.inj heq
        exact fun hq => hopen ⟨hq, rfl, congrArg List.head? hafter⟩
    | cons d before =>
        obtain ⟨rfl, hrest⟩ := List.cons.inj heq
        exact h.other before after hrest

theorem showsCommentsFrom_lexeme :
    ShowsCommentsFrom q [] (x :: xs) ↔
      (x.kind = .comment → q = .outside) ∧ ShowsCommentsFrom q x.spaced xs := by
  constructor
  · intro h
    refine ⟨h.comment [] x xs rfl, fun before y after heq hy => ?_, h.other⟩
    have hq := h.comment (x :: before) y after (congrArg (x :: ·) heq) hy
    rwa [spaced_cons, List.nil_append] at hq
  · rintro ⟨hx, h⟩
    refine ⟨fun before y after heq hy => ?_, h.other⟩
    cases before with
    | nil =>
        obtain ⟨rfl, -⟩ := List.cons.inj heq
        exact hx hy
    | cons z before =>
        obtain ⟨rfl, hrest⟩ := List.cons.inj heq
        rw [spaced_cons, List.nil_append]
        exact h.comment before y after hrest hy

/-- The walk takes a comment for one, and goes on as behind a space. -/
theorem blankFrom_of_comment (h : Leads [x] more) (hx : x.kind = .comment) :
    blankFrom .plain (x.text ++ more) = blankFrom .plain (' ' :: more) := by
  have hspace : blankFrom .plain (' ' :: more) = ' ' :: blankFrom .plain more :=
    blankFrom_cons (q := .outside) fun hopen => absurd hopen.2.1 (by decide)
  obtain ⟨c, cs, htext, hfirst, hbegins⟩ := h.begins
  rw [hx] at hbegins
  obtain ⟨rfl, hstar⟩ := hbegins
  obtain ⟨v, hv⟩ := List.head?_eq_some_iff.mp hstar
  rw [hv, firstLexeme_comment] at hfirst
  obtain rfl : '*' :: v.take (extent commentStep 0 v + 2) = cs := by
    rw [← hfirst] at htext
    exact (List.cons.inj htext).2
  have hmore : v.drop (extent commentStep 0 v + 2) = more := by
    have hv' : v.take (extent commentStep 0 v + 2) ++ more = v := (List.cons.inj hv).2
    exact List.append_cancel_left ((List.take_append_drop _ _).trans hv'.symm)
  rw [htext, List.cons_append, hv, blankFrom_open, blankFrom_comment, hmore, hspace]

/-- An asterisk that follows is no comment. -/
theorem head?_flatMap_text_eq_star_iff (h : Leads xs more) (u : List Char) :
    (u ++ xs.flatMap Lexeme.text).head? = some '*' ↔ (u ++ spaced xs).head? = some '*' := by
  cases u with
  | cons c u => rfl
  | nil =>
      cases xs with
      | nil => rfl
      | cons x xs =>
          rw [leads_cons_iff] at h
          obtain ⟨c, cs, htext, -, hbegins⟩ := h.1.begins
          rw [List.nil_append, List.nil_append, List.flatMap_cons, spaced_cons]
          by_cases hx : x.kind = .comment
          · rw [hx] at hbegins
            obtain ⟨rfl, -⟩ := hbegins
            simp [htext, spaced_of_comment hx]
          · rw [spaced_of_not_comment hx, htext]
            rfl

/-- The walk through the characters of `u` and of the lexemes `xs` leaves a space for each comment if
they show their comments, and parts from this otherwise. -/
def Walks (q : Quoting) (u : List Char) (xs : List Lexeme) : Prop :=
  (ShowsCommentsFrom q u xs ∧
      blankFrom q.mode (u ++ xs.flatMap Lexeme.text) = u ++ spaced xs) ∨
    (¬ShowsCommentsFrom q u xs ∧
      ∃ p, Parts q p (blankFrom q.mode (u ++ xs.flatMap Lexeme.text)) (u ++ spaced xs))

theorem walks_char (h : Leads xs more) (hu : Walks (q.step c) u xs) : Walks q (c :: u) xs := by
  have hhead := head?_flatMap_text_eq_star_iff h u
  rw [Walks, List.cons_append, List.cons_append, showsCommentsFrom_char]
  by_cases hopen : q.OpensComment c (u ++ spaced xs)
  · refine Or.inr ⟨fun hshows => hshows.1 hopen, [], ?_⟩
    obtain ⟨rfl, rfl, hstar⟩ := hopen
    obtain ⟨s, hs⟩ := List.head?_eq_some_iff.mp (hhead.mpr hstar)
    obtain ⟨t, ht⟩ := List.head?_eq_some_iff.mp hstar
    rw [Quoting.mode, hs, ht, blankFrom_open]
    exact .taken (p := []) rfl
  · have hopen' : ¬q.OpensComment c (u ++ xs.flatMap Lexeme.text) := fun hopen' =>
      hopen ⟨hopen'.1, hopen'.2.1, hhead.mp hopen'.2.2⟩
    rw [blankFrom_cons hopen']
    rcases hu with ⟨hshows, heq⟩ | ⟨hshows, p, hparts⟩
    · exact Or.inl ⟨⟨hopen, hshows⟩, congrArg (c :: ·) heq⟩
    · exact Or.inr ⟨fun h => hshows h.2, c :: p, hparts.cons⟩

theorem walks_text (h : Leads xs more) (hxs : ∀ q, Walks q [] xs) (q : Quoting) (u : List Char) :
    Walks q u xs := by
  induction u generalizing q with
  | nil => exact hxs q
  | cons c u ih => exact walks_char h (ih _)

/-- **The walk** through the lexemes of a text. -/
theorem walks (h : Leads xs more) (q : Quoting) : Walks q [] xs := by
  induction xs generalizing q with
  | nil =>
      refine Or.inl ⟨showsCommentsFrom_nil, ?_⟩
      cases q <;> rfl
  | cons x xs ih =>
      rw [leads_cons_iff] at h
      have hrest := walks_text h.2 (ih h.2)
      rw [Walks, showsCommentsFrom_lexeme, List.nil_append, List.nil_append, List.flatMap_cons,
        spaced_cons]
      by_cases hx : x.kind = .comment
      · rw [spaced_of_comment hx]
        by_cases hq : q = .outside
        · subst hq
          have hcomment : Leads [x] (xs.flatMap Lexeme.text) := by
            by_cases hend : xs.flatMap Lexeme.text ++ more = []
            · rw [(List.append_eq_nil_iff.mp hend).1, ← hend]
              exact h.1
            · exact h.1.of_comment hx hend _
          have heq : blankFrom (Quoting.mode .outside) (x.text ++ xs.flatMap Lexeme.text) =
              blankFrom (Quoting.mode .outside) ([' '] ++ xs.flatMap Lexeme.text) :=
            blankFrom_of_comment hcomment hx
          rw [heq, and_iff_right fun _ => rfl]
          exact hrest .outside [' ']
        · obtain ⟨c, cs, htext, -, hbegins⟩ := h.1.begins
          rw [hx] at hbegins
          obtain ⟨rfl, -⟩ := hbegins
          refine Or.inr ⟨fun hshows => hq (hshows.1 hx), [], ?_⟩
          rw [htext, List.cons_append, blankFrom_cons fun hopen => hq hopen.1]
          exact .kept (p := []) hq
      · rw [spaced_of_not_comment hx]
        rcases hrest q x.text with ⟨hshows, heq⟩ | ⟨hshows, hparts⟩
        · exact Or.inl ⟨⟨fun hcomment => absurd hcomment hx, hshows⟩, heq⟩
        · exact Or.inr ⟨fun h => hshows h.2, hparts⟩

theorem Parts.ne {p s t : List Char} (h : Parts q p s t) : s ≠ t := by
  cases h <;> simp

/-- The lexemes of a value show their comments to the walk. -/
abbrev ShowsComments (xs : List Lexeme) : Prop := ShowsCommentsFrom .outside [] xs

/-- **Both notions of a comment** agree just in case the lexemes show their comments. -/
theorem blankComments_eq_spaced_iff (h : Leads xs more) :
    blankComments (xs.flatMap Lexeme.text) = spaced xs ↔ ShowsComments xs := by
  rcases walks h .outside with ⟨hshows, heq⟩ | ⟨hshows, p, hparts⟩
  · exact iff_of_true heq hshows
  · exact iff_of_false hparts.ne hshows

/-! ## What stands before a slash -/

/-- A name ends in front of a slash that no backslash escapes. -/
theorem nameExtent_le_of_slash {p : List Char} (hp : ∀ c ∈ p, c ≠ '\\') (cs : List Char) :
    nameExtent (p ++ '/' :: cs) ≤ p.length := by
  induction p with
  | nil => exact Nat.le_refl _
  | cons c p ih =>
      rw [List.forall_mem_cons] at hp
      rw [nameExtent, List.cons_append, extent]
      cases hstep : nameStep c (p ++ '/' :: cs) with
      | none => exact Nat.zero_le _
      | some k =>
          obtain rfl : k = 0 := by
            simp only [nameStep, decide_eq_false hp.1, Bool.false_and, Bool.false_eq_true,
              if_false] at hstep
            split at hstep
            · exact (Option.some.inj hstep).symm
            · cases hstep
          exact Nat.succ_le_succ (ih hp.2)

theorem mem_take_extent_whileChar {test : Char → Bool} {cs : List Char} :
    ∀ c ∈ cs.take (extent (whileChar test) 0 cs), test c = true := by
  induction cs with
  | nil => simp
  | cons c cs ih =>
      rw [extent, whileChar]
      cases hc : test c with
      | false => simp
      | true => exact List.forall_mem_cons.mpr ⟨hc, ih⟩

/-- A blank is made of ASCII blanks. -/
theorem isAsciiBlank_of_mem_blank (h : Leads [x] more) (hx : x.kind = .blank) :
    ∀ c ∈ x.text, isAsciiBlank c = true := by
  obtain ⟨c, cs, -, hfirst, hbegins⟩ := h.begins
  rw [hx] at hbegins
  rw [← hfirst, firstLexeme_blank hbegins]
  exact List.forall_mem_cons.mpr ⟨hbegins, mem_take_extent_whileChar⟩

theorem measure_slash (cs : List Char) :
    measure '/' cs =
      if cs.head? = some '*' then (.comment, 2 + extent commentStep 0 (cs.drop 1) + 2)
      else (.other, 1) := by
  by_cases hstar : cs.head? = some '*'
  · obtain ⟨cs, rfl⟩ := List.head?_eq_some_iff.mp hstar
    rfl
  · rw [if_neg hstar]
    simp [measure, hstar, isAsciiBlank, isQuote, startsNumber, startsUnsigned, isDecimalDigit,
      startsName, isNameInitial, singleKind]

/-- Characters beyond ASCII begin names. -/
theorem measure_of_beyond_ascii (hc : 0x80 ≤ c.toNat) (cs : List Char) :
    measure c cs = nameLexeme (c :: cs) := by
  have hne : ∀ d : Char, d.toNat < 0x80 → c ≠ d := by
    rintro d hd rfl
    omega
  have hblank : isAsciiBlank c = false := by simp [isAsciiBlank, hne]
  have hquote : isQuote c = false := by simp [isQuote, hne]
  have hdigit : isDecimalDigit c = false := by
    have hnine : ¬c ≤ '9' := fun hle => by
      have : c.toNat ≤ '9'.toNat := hle
      have : '9'.toNat = 57 := rfl
      omega
    simp [isDecimalDigit, hnine]
  have hnumber : startsNumber (c :: cs) = false := by
    rw [startsNumber, if_neg (by simp [hne])]
    rw [startsUnsigned]
    · exact hdigit
    · rintro d cs' rfl
      exact absurd rfl (hne '.' (by decide))
  have hname : startsName (c :: cs) = true := by simp [startsName, isNameInitial, hc]
  simp [measure, hblank, hquote, hnumber, hname, hne]

theorem measure_of_isBlank (hc : isBlank c = true) (hascii : isAsciiBlank c = false) (cs : List Char) :
    measure c cs = (.other, 1) ∨ measure c cs = nameLexeme (c :: cs) := by
  by_cases hbeyond : 0x80 ≤ c.toNat
  · exact Or.inr (measure_of_beyond_ascii hbeyond cs)
  · have hvertical : c = '\x0b' := by
      simp only [isAsciiBlank, Bool.or_eq_false_iff, beq_eq_false_iff_ne] at hascii
      obtain ⟨⟨⟨⟨hspace, htab⟩, hline⟩, hfeed⟩, hreturn⟩ := hascii
      have hne : ∀ d : Char, c ≠ d → c.toNat ≠ d.toNat := fun d hd h => hd (Char.toNat_inj.mp h)
      have := hne _ hspace
      have := hne _ htab
      have := hne _ hline
      have := hne _ hfeed
      have := hne _ hreturn
      simp only [isBlank, Bool.or_eq_true, Bool.and_eq_true, decide_eq_true_eq, beq_iff_eq] at hc
      refine Char.toNat_inj.mp ?_
      simp only [Char.reduceToNat] at *
      omega
    subst hvertical
    exact Or.inl rfl

/-- Where no parenthesis follows a name, it is all of the lexeme. -/
theorem nameLexeme_eq_name {w : List Char} (h : (w.drop (nameExtent w)).head? ≠ some '(') :
    nameLexeme w = (.name, nameExtent w) := by
  rw [nameLexeme]
  split
  · next heq => rw [heq] at h; exact absurd rfl h
  · rfl

/-- What is read as a name at the front of blanks ends in front of the slash behind them. -/
theorem nameLexeme_le_of_slash {p : List Char} (hp : ∀ c ∈ p, isBlank c = true) (rest : List Char) :
    (nameLexeme (p ++ '/' :: rest)).2 ≤ p.length := by
  have hle : nameExtent (p ++ '/' :: rest) ≤ p.length := by
    refine nameExtent_le_of_slash (fun c hc => ?_) rest
    rintro rfl
    exact absurd (hp _ hc) (by decide)
  have hparen : ((p ++ '/' :: rest).drop (nameExtent (p ++ '/' :: rest))).head? ≠ some '(' := by
    rw [List.drop_append_of_le_length hle]
    cases hafter : p.drop (nameExtent (p ++ '/' :: rest)) with
    | nil => simp
    | cons c after =>
        have hc : c ∈ p := List.mem_of_mem_drop (hafter ▸ List.mem_cons_self)
        intro heq
        obtain rfl : c = '(' := Option.some.inj heq
        exact absurd (hp _ hc) (by decide)
  rw [nameLexeme_eq_name hparen]
  exact hle

/-- A slash with nothing but blanks before it in its lexeme is a lexeme of its own, if it is not the
beginning of a comment. -/
theorem slash_of_isBlank (h : Leads [x] more) (hx : x.kind ≠ .comment) {p back : List Char}
    (htext : x.text = p ++ '/' :: back) (hp : ∀ c ∈ p, isBlank c = true) :
    back = [] ∧ more.head? ≠ some '*' := by
  obtain ⟨c, cs, hc, hfirst, -⟩ := h.begins
  rw [hc] at htext
  cases p with
  | nil =>
      obtain ⟨rfl, rfl⟩ := List.cons.inj htext
      have hstar : (cs ++ more).head? ≠ some '*' := by
        intro hstar
        rw [firstLexeme, measure_slash, if_pos hstar] at hfirst
        exact hx (by rw [← hfirst])
      rw [firstLexeme, measure_slash, if_neg hstar] at hfirst
      obtain rfl : cs = [] := by
        rw [← hfirst] at hc
        exact (List.cons.inj hc).2.symm
      exact ⟨rfl, hstar⟩
  | cons d p =>
      obtain ⟨rfl, hcs⟩ := List.cons.inj htext
      obtain rfl : cs = p ++ '/' :: back := hcs
      -- Behind a blank there is no slash in the same lexeme.
      exfalso
      have hblank := hp c List.mem_cons_self
      cases hascii : isAsciiBlank c with
      | true =>
          have hkind : x.kind = .blank := by rw [← hfirst, firstLexeme_blank hascii]
          have hslash := isAsciiBlank_of_mem_blank h hkind '/' (by rw [hc]; simp)
          exact absurd hslash (by decide)
      | false =>
          have hlength : x.text.length ≤ 1 + ((measure c (p ++ '/' :: back ++ more)).2 - 1) := by
            rw [← hfirst, firstLexeme]
            simp only [List.length_cons, List.length_take]
            omega
          rw [hc] at hlength
          simp only [List.length_cons, List.length_append] at hlength
          rcases measure_of_isBlank hblank hascii (p ++ '/' :: back ++ more) with hother | hname
          · rw [hother] at hlength
            omega
          · have hw : c :: (p ++ '/' :: back ++ more) = (c :: p) ++ '/' :: (back ++ more) := by simp
            have hle := nameLexeme_le_of_slash hp (back ++ more)
            rw [← hw, ← hname, List.length_cons] at hle
            omega

/-- Where the lexemes hold `/*` and no comment begins, something stands before it. -/
theorem exists_not_isBlank_of_slash (h : Leads xs more) {p t : List Char}
    (hslash : spaced xs = p ++ '/' :: '*' :: t) : ∃ c ∈ p, isBlank c = false := by
  suffices hp : ¬∀ c ∈ p, isBlank c = true by simpa using hp
  intro hp
  induction xs generalizing p with
  | nil => exact absurd hslash (by simp [spaced])
  | cons x xs ih =>
      rw [leads_cons_iff] at h
      rw [spaced_cons] at hslash
      rcases List.append_eq_append_iff.mp hslash with ⟨p', rfl, hrest⟩ | ⟨back, hx, hrest⟩
      · exact ih h.2 hrest fun c hc => hp c (List.mem_append_right _ hc)
      · cases back with
        | nil => exact ih (p := []) h.2 hrest.symm (List.forall_mem_nil _)
        | cons d back =>
            obtain ⟨rfl, hback⟩ := List.cons.inj hrest
            have hkind : x.kind ≠ .comment := fun hkind => by
              rw [spaced_of_comment hkind] at hx
              have hmem : '/' ∈ [' '] := by rw [hx]; simp
              exact absurd hmem (by decide)
            rw [spaced_of_not_comment hkind] at hx
            obtain ⟨rfl, hstar⟩ := slash_of_isBlank h.1 hkind hx hp
            -- The asterisk would make the slash the beginning of a comment.
            have hhead := (head?_flatMap_text_eq_star_iff h.2 []).mpr
              (congrArg List.head? hback).symm
            rw [List.nil_append] at hhead
            rw [List.head?_append, hhead] at hstar
            exact hstar rfl

theorem exists_isQuote_of_after {p : List Char} (h : Quoting.outside.after p ≠ .outside) :
    ∃ c ∈ p, isQuote c = true := by
  suffices hp : ¬∀ c ∈ p, isQuote c = false by simpa using hp
  intro hp
  induction p with
  | nil => exact h rfl
  | cons c p ih =>
      rw [List.forall_mem_cons] at hp
      refine ih (fun hout => h ?_) hp.2
      have hstep : Quoting.outside.step c = .outside := by
        rw [Quoting.step, hp.1, if_neg Bool.false_ne_true]
      show (Quoting.outside.step c).after p = .outside
      rw [hstep, hout]

/-- Where the two notions of a comment part, something that is not blank stands before. -/
theorem Parts.exists_not_isBlank (h : Leads xs more) {p s : List Char}
    (hparts : Parts .outside p s (spaced xs)) : ∃ c ∈ p, isBlank c = false := by
  generalize ht : spaced xs = t at hparts
  cases hparts with
  | kept hp =>
      obtain ⟨c, hc, hquote⟩ := exists_isQuote_of_after hp
      refine ⟨c, hc, ?_⟩
      rcases (by simpa [isQuote] using hquote : c = '"' ∨ c = '\'') with rfl | rfl <;> decide
  | taken hp => exact exists_not_isBlank_of_slash h ht

end

end WidgetStyle.Source
