import WidgetStyle.Proofs.Source.Stops

/-!
# WidgetStyle.Proofs.Source.Leading — lexemes and the text behind them

`Leads xs more` says that a text which begins with the characters of some lexemes, and goes on with
`more`, begins with these lexemes.  What `more` is can have an influence: a name goes on in the
letters that follow it.  Two kinds of lexemes are free of it.  Whatever stands in front of a
semicolon or a closing curly bracket does not depend on what follows that (`Leads.stop`), and what
may stand between items, blanks, comments and the two markup signs, may be followed by less of
the same text (`Leads.of_between`).
-/

namespace WidgetStyle.Source

open Text

/-! ## Lexemes at the front of a text -/

/-- The lexemes stand at the front of the text that they spell together with `more`. -/
def Leads (xs : List Lexeme) (more : List Char) : Prop :=
  lexemes (xs.flatMap Lexeme.text ++ more) = xs ++ lexemes more

theorem leads_nil (more : List Char) : Leads [] more := rfl

/-- A lexeme at the front of a text is its first lexeme, and those of the rest follow. -/
theorem firstLexeme_of_lexemes_eq {x : Lexeme} {xs : List Lexeme} {more : List Char}
    (h : lexemes (x.text ++ more) = x :: xs) :
    ∃ c cs, x.text = c :: cs ∧ firstLexeme c (cs ++ more) = x ∧ xs = lexemes more := by
  cases htext : x.text ++ more with
  | nil => rw [htext] at h; exact absurd h.symm (List.cons_ne_nil _ _)
  | cons c u =>
      rw [htext, lexemes_cons] at h
      obtain ⟨hx, hxs⟩ := List.cons.inj h
      obtain ⟨cs, hfront⟩ : ∃ cs, x.text = c :: cs := ⟨_, by rw [← hx]; rfl⟩
      rw [hfront, List.cons_append] at htext
      obtain ⟨-, rfl⟩ := List.cons.inj htext
      refine ⟨c, cs, hfront, hx, ?_⟩
      rw [← hxs, hx, hfront]
      simp

theorem leads_singleton_iff {x : Lexeme} {more : List Char} :
    Leads [x] more ↔ ∃ c cs, x.text = c :: cs ∧ firstLexeme c (cs ++ more) = x := by
  rw [Leads, List.flatMap_singleton, List.singleton_append]
  constructor
  · intro h
    obtain ⟨c, cs, htext, hx, -⟩ := firstLexeme_of_lexemes_eq h
    exact ⟨c, cs, htext, hx⟩
  · rintro ⟨c, cs, htext, hx⟩
    rw [htext, List.cons_append, lexemes_cons, hx, htext]
    simp

theorem leads_cons_iff {x : Lexeme} {xs : List Lexeme} {more : List Char} :
    Leads (x :: xs) more ↔ Leads [x] (xs.flatMap Lexeme.text ++ more) ∧ Leads xs more := by
  rw [leads_singleton_iff, Leads, List.flatMap_cons, List.append_assoc]
  constructor
  · intro h
    obtain ⟨c, cs, htext, hx, hxs⟩ := firstLexeme_of_lexemes_eq h
    exact ⟨⟨c, cs, htext, hx⟩, hxs.symm⟩
  · rintro ⟨hx, hxs⟩
    have hfirst := leads_singleton_iff.mpr hx
    rw [Leads, List.flatMap_singleton] at hfirst
    rw [hfirst, hxs]
    rfl

theorem leads_append_iff {xs ys : List Lexeme} {more : List Char} :
    Leads (xs ++ ys) more ↔ Leads xs (ys.flatMap Lexeme.text ++ more) ∧ Leads ys more := by
  induction xs with
  | nil => exact (and_iff_right (leads_nil _)).symm
  | cons x xs ih =>
      rw [List.cons_append, leads_cons_iff, ih, List.flatMap_append, List.append_assoc, ← and_assoc,
        ← leads_cons_iff]

/-- Leading lexemes of a text are followed by the lexemes of the rest. -/
theorem leads_of_lexemes_eq {xs ys : List Lexeme} {more : List Char}
    (h : lexemes (xs.flatMap Lexeme.text ++ more) = xs ++ ys) : Leads xs more := by
  induction xs with
  | nil => exact leads_nil more
  | cons x xs ih =>
      rw [List.flatMap_cons, List.append_assoc] at h
      obtain ⟨c, cs, htext, hx, hxs⟩ := firstLexeme_of_lexemes_eq h
      exact leads_cons_iff.mpr ⟨leads_singleton_iff.mpr ⟨c, cs, htext, hx⟩, ih hxs.symm⟩

/-! ## Lexemes in front of a stop -/

/-- What follows a stop has no influence on the lexemes in front of it. -/
theorem Leads.stop {xs : List Lexeme} {s : Char} (hs : IsStop s) {u : List Char}
    (h : Leads xs (s :: u)) (u' : List Char) : Leads xs (s :: u') := by
  induction xs with
  | nil => exact leads_nil _
  | cons x xs ih =>
      rw [leads_cons_iff] at h ⊢
      refine ⟨?_, ih h.2⟩
      obtain ⟨c, cs, htext, hx⟩ := leads_singleton_iff.mp h.1
      refine leads_singleton_iff.mpr ⟨c, cs, htext, ?_⟩
      have halike := Alike.of_append hs (c :: cs ++ xs.flatMap Lexeme.text) u u'
      rw [List.append_assoc, List.append_assoc] at halike
      have hlength : (firstLexeme c (cs ++ (xs.flatMap Lexeme.text ++ s :: u))).text.length ≤
          (c :: cs ++ xs.flatMap Lexeme.text).length := by
        rw [hx, htext, List.length_append]
        exact Nat.le_add_right _ _
      exact (halike.firstLexeme_eq hlength).trans hx

/-- A stop is a lexeme. -/
theorem leads_stop {s : Char} (hs : IsStop s) (more : List Char) :
    Leads [⟨singleKind s, [s]⟩] more := by
  rcases hs with rfl | rfl <;> exact leads_singleton_iff.mpr ⟨_, [], rfl, rfl⟩

/-! ## What the kind of a lexeme tells -/

/-- The texts at whose front a lexeme of this kind can stand, for the kinds that need little. -/
def Kind.Begins : Kind → Char → List Char → Prop
  | .blank, c, _ => isAsciiBlank c = true
  | .comment, c, cs => c = '/' ∧ cs.head? = some '*'
  | .markupOpen, c, cs => c = '<' ∧ ['!', '-', '-'] <+: cs
  | .markupClose, c, cs => c = '-' ∧ ['-', '>'] <+: cs
  | .semicolon, c, _ => c = ';'
  | .closing .curly, c, _ => c = '}'
  | _, _, _ => True

theorem begins_nameLexeme (u : List Char) (c : Char) (cs : List Char) :
    (nameLexeme u).1.Begins c cs := by
  simp only [nameLexeme]
  split
  · split
    · split
      · split <;> trivial
      · trivial
    · trivial
  · trivial

theorem begins_stringLexeme (quote : Char) (u : List Char) (c : Char) (cs : List Char) :
    (stringLexeme quote u).1.Begins c cs := by
  simp only [stringLexeme]
  split
  · trivial
  · split <;> trivial

theorem begins_singleKind (c : Char) (cs : List Char) : (singleKind c).Begins c cs := by
  simp only [singleKind]
  repeat' split
  all_goals trivial

/-- What can be told in both cases can be told. -/
theorem ite_begins {test : Prop} [Decidable test] {x y : Kind × Nat} {c : Char} {cs : List Char}
    (hx : test → x.1.Begins c cs) (hy : y.1.Begins c cs) :
    (if test then x else y).1.Begins c cs := by
  split
  · next htest => exact hx htest
  · exact hy

/-- What the first characters of a lexeme are can be told from its kind. -/
theorem begins_measure (c : Char) (cs : List Char) : (measure c cs).1.Begins c cs := by
  rw [measure]
  refine ite_begins id (ite_begins (fun _ => begins_stringLexeme ..) (ite_begins (fun _ => ?number)
    (ite_begins (fun hclose => ?close) (ite_begins (fun _ => begins_nameLexeme ..)
    (ite_begins (fun _ => trivial) (ite_begins (fun _ => trivial) (ite_begins (fun hcomment => ?comment)
    (ite_begins (fun _ => trivial) (ite_begins (fun hopen => ?markup) (begins_singleKind c cs))))))))))
  case number =>
    rw [numberLexeme_eq_unit]
    trivial
  case close => simpa [Kind.Begins] using hclose
  case comment => simpa [Kind.Begins] using hcomment
  case markup => simpa [Kind.Begins] using hopen

/-- A lexeme in front of a text, with what its kind tells. -/
theorem Leads.begins {x : Lexeme} {more : List Char} (h : Leads [x] more) :
    ∃ c cs, x.text = c :: cs ∧ firstLexeme c (cs ++ more) = x ∧ x.kind.Begins c (cs ++ more) := by
  obtain ⟨c, cs, htext, hx⟩ := leads_singleton_iff.mp h
  have hkind : x.kind = (measure c (cs ++ more)).1 := by rw [← hx]; rfl
  exact ⟨c, cs, htext, hx, hkind ▸ begins_measure c (cs ++ more)⟩

/-- A semicolon or a closing curly bracket in front of a text. -/
theorem Leads.eq_stop {x : Lexeme} {more : List Char} (h : Leads [x] more)
    (hkind : x.kind = .semicolon ∨ x.kind = .closing .curly) :
    ∃ s, IsStop s ∧ x = ⟨singleKind s, [s]⟩ := by
  obtain ⟨c, cs, -, hx, hbegins⟩ := h.begins
  rcases hkind with hkind | hkind
  · rw [hkind] at hbegins
    obtain rfl : c = ';' := hbegins
    exact ⟨';', Or.inl rfl, hx.symm⟩
  · rw [hkind] at hbegins
    obtain rfl : c = '}' := hbegins
    exact ⟨'}', Or.inr rfl, hx.symm⟩

/-! ## What may stand between items -/

/-- Whether the lexeme may stand between items. -/
def Lexeme.standsBetween (x : Lexeme) : Bool :=
  x.kind = .blank || x.kind = .comment || x.kind = .markupOpen || x.kind = .markupClose

/-- A run goes through the whole of a text and not on. -/
theorem extent_whileChar_eq_length_iff {test : Char → Bool} {cs more : List Char} :
    extent (whileChar test) 0 (cs ++ more) = cs.length ↔
      (∀ c ∈ cs, test c = true) ∧ ∀ c ∈ more.head?, test c = false := by
  induction cs with
  | nil =>
      cases more with
      | nil => simp [extent]
      | cons c more => cases hc : test c <;> simp [extent, whileChar, hc]
  | cons c cs ih =>
      rw [List.cons_append, extent, whileChar]
      cases hc : test c with
      | false => simp [hc]
      | true => simp [hc, ih]

/-- A comment that is closed ends at the same place whatever follows. -/
theorem extent_commentStep_append {body : List Char} {e : Nat} (hbody : body.length = e + 2)
    {more : List Char} (h : extent commentStep 0 (body ++ more) = e) (more' : List Char) :
    extent commentStep 0 (body ++ more') = e := by
  induction body generalizing e with
  | nil => exact absurd hbody (Nat.succ_ne_zero _).symm
  | cons c body ih =>
      obtain ⟨d, rest, rfl⟩ := List.exists_cons_of_length_pos (l := body) (by simp at hbody; omega)
      have hsame : commentStep c (d :: rest ++ more') = commentStep c (d :: rest ++ more) := rfl
      rw [List.cons_append, extent] at h ⊢
      rw [hsame]
      cases hstep : commentStep c (d :: rest ++ more) with
      | none => rwa [hstep] at h
      | some k =>
          -- A step of a comment is one character.
          obtain rfl : k = 0 := by
            rw [commentStep] at hstep
            split at hstep
            · cases hstep
            · exact (Option.some.inj hstep).symm
          rw [hstep] at h
          subst h
          exact congrArg (· + 1) (ih (by simpa using hbody) rfl)

theorem firstLexeme_blank {c : Char} (hc : isAsciiBlank c = true) (cs : List Char) :
    firstLexeme c cs = ⟨.blank, c :: cs.take (blankExtent cs)⟩ := by
  rw [firstLexeme, measure, if_pos hc]
  simp only [Nat.add_sub_cancel_left]
  rfl

theorem firstLexeme_comment (cs : List Char) :
    firstLexeme '/' ('*' :: cs) =
      ⟨.comment, '/' :: '*' :: cs.take (extent commentStep 0 cs + 2)⟩ := by
  have hmeasure : measure '/' ('*' :: cs) = (.comment, 2 + extent commentStep 0 cs + 2) := rfl
  have hlength : 2 + extent commentStep 0 cs + 2 - 1 = extent commentStep 0 cs + 2 + 1 := by omega
  rw [firstLexeme, hmeasure]
  simp only [hlength, List.take_succ_cons]

/-- A blank may be followed by less: nothing blank comes to follow it. -/
theorem Leads.of_blank {x : Lexeme} {more tail : List Char} (hkind : x.kind = .blank)
    (h : Leads [x] (more ++ tail)) : Leads [x] more := by
  obtain ⟨c, cs, htext, hx, hbegins⟩ := h.begins
  rw [hkind] at hbegins
  refine leads_singleton_iff.mpr ⟨c, cs, htext, ?_⟩
  rw [firstLexeme_blank hbegins] at hx ⊢
  have hcs : (cs ++ (more ++ tail)).take (blankExtent (cs ++ (more ++ tail))) = cs := by
    rw [← hx] at htext
    exact (List.cons.inj htext).2
  have hlength : blankExtent (cs ++ (more ++ tail)) = cs.length := by
    have hle : blankExtent (cs ++ (more ++ tail)) ≤ (cs ++ (more ++ tail)).length :=
      extent_le_length _ _ _
    have htake := congrArg List.length hcs
    rwa [List.length_take, Nat.min_eq_left hle] at htake
  obtain ⟨hall, hnext⟩ := extent_whileChar_eq_length_iff.mp hlength
  have hlength' : blankExtent (cs ++ more) = cs.length := by
    refine extent_whileChar_eq_length_iff.mpr ⟨hall, fun d hd => hnext d ?_⟩
    rw [List.head?_append, Option.mem_def.mp hd]
    rfl
  rw [hlength', List.take_left, ← hx, hcs]

/-- A closed comment may be followed by anything. -/
theorem Leads.of_comment {x : Lexeme} {more : List Char} (hkind : x.kind = .comment)
    (hmore : more ≠ []) (h : Leads [x] more) (more' : List Char) : Leads [x] more' := by
  obtain ⟨c, cs, htext, hx, hbegins⟩ := h.begins
  rw [hkind] at hbegins
  obtain ⟨rfl, hstar⟩ := hbegins
  obtain ⟨v, hv⟩ := List.head?_eq_some_iff.mp hstar
  rw [hv, firstLexeme_comment] at hx
  obtain rfl : '*' :: v.take (extent commentStep 0 v + 2) = cs := by
    rw [← hx] at htext
    exact (List.cons.inj htext).2
  -- The comment is closed, since something follows.
  have hlength : (v.take (extent commentStep 0 v + 2)).length = extent commentStep 0 v + 2 := by
    have hpos := List.length_pos_iff.mpr hmore
    have htotal := congrArg List.length hv
    simp only [List.cons_append, List.length_cons, List.length_append, List.length_take] at htotal ⊢
    omega
  have hbody : v.take (extent commentStep 0 v + 2) ++ more = v := (List.cons.inj hv).2
  have hextent := extent_commentStep_append hlength (congrArg (extent commentStep 0) hbody) more'
  refine leads_singleton_iff.mpr ⟨'/', _, htext, ?_⟩
  rw [List.cons_append, firstLexeme_comment, hextent, List.take_append_of_le_length (by omega),
    List.take_take, Nat.min_self]
  exact hx

/-- Signs of markup may be followed by anything. -/
theorem Leads.of_markup {x : Lexeme} {more : List Char}
    (hkind : x.kind = .markupOpen ∨ x.kind = .markupClose) (h : Leads [x] more)
    (more' : List Char) : Leads [x] more' := by
  obtain ⟨c, cs, htext, hx, hbegins⟩ := h.begins
  rcases hkind with hkind | hkind
  · rw [hkind] at hbegins
    obtain ⟨rfl, v, hv⟩ := hbegins
    rw [← hv] at hx
    obtain rfl : ['!', '-', '-'] = cs := by
      rw [← hx] at htext
      exact (List.cons.inj htext).2
    exact leads_singleton_iff.mpr ⟨'<', _, htext, hx⟩
  · rw [hkind] at hbegins
    obtain ⟨rfl, v, hv⟩ := hbegins
    rw [← hv] at hx
    obtain rfl : ['-', '>'] = cs := by
      rw [← hx] at htext
      exact (List.cons.inj htext).2
    exact leads_singleton_iff.mpr ⟨'-', _, htext, hx⟩

/-- What may stand between items may be followed by less of the same text. -/
theorem Leads.of_between {xs : List Lexeme} {more tail : List Char} (htail : tail ≠ [])
    (hxs : ∀ x ∈ xs, x.standsBetween = true) (h : Leads xs (more ++ tail)) : Leads xs more := by
  induction xs with
  | nil => exact leads_nil more
  | cons x xs ih =>
      rw [leads_cons_iff] at h ⊢
      refine ⟨?_, ih (fun y hy => hxs y (List.mem_cons_of_mem _ hy)) h.2⟩
      have hx := hxs x List.mem_cons_self
      have hfirst := h.1
      rw [← List.append_assoc] at hfirst
      simp only [Lexeme.standsBetween, Bool.or_eq_true, decide_eq_true_eq, or_assoc] at hx
      rcases hx with hblank | hcomment | hmarkup
      · exact hfirst.of_blank hblank
      · exact hfirst.of_comment hcomment (List.append_ne_nil_of_right_ne_nil _ htail) _
      · exact hfirst.of_markup hmarkup _

/-! ## Lexemes of a closed front -/

/-- Lexemes that end in a stop, apart from what may stand between items. -/
def EndsClosed (xs : List Lexeme) : Prop :=
  ∃ front between, xs = front ++ between ∧ (∀ x ∈ between, x.standsBetween = true) ∧
    ∀ x ∈ front.getLast?, x.kind = .semicolon ∨ x.kind = .closing .curly

/-- **Locality of lexemes.**  What follows a closed front has no influence on its lexemes: they are
the same when less follows, also nothing at all. -/
theorem Leads.of_endsClosed {xs : List Lexeme} (hxs : EndsClosed xs) {more tail : List Char}
    (htail : tail ≠ []) (h : Leads xs (more ++ tail)) : Leads xs more := by
  obtain ⟨front, between, rfl, hbetween, hlast⟩ := hxs
  obtain ⟨hfront, hrest⟩ := leads_append_iff.mp h
  refine leads_append_iff.mpr ⟨?_, hrest.of_between htail hbetween⟩
  cases hend : front.getLast? with
  | none =>
      obtain rfl := List.getLast?_eq_none_iff.mp hend
      exact leads_nil _
  | some x =>
      obtain ⟨init, rfl⟩ := List.getLast?_eq_some_iff.mp hend
      obtain ⟨hinit, hx⟩ := leads_append_iff.mp hfront
      obtain ⟨s, hs, rfl⟩ := hx.eq_stop (hlast x hend)
      exact leads_append_iff.mpr ⟨hinit.stop hs _, leads_stop hs _⟩

end WidgetStyle.Source
