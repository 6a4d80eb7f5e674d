import WidgetStyle.Proofs.Source.Leading
import WidgetStyle.Source.Rule

/-!
# WidgetStyle.Proofs.Source.Boundary — texts put together at the end of an item

Reading goes from one item to the next (`Reads`).  Where it stands between two items, the text can
be cut: both parts by themselves have the items that they have in the whole (`itemsIn_eq`), whatever
else was skipped or dropped before.

The proof goes down through all stages of reading.  Items split at such a place (`Splits`), since
every one of them goes up to its own end.  Its components are the same without what follows, since
all blocks are closed (`components_lexemesOf`).  And its lexemes are the same, because the last one
that matters is a semicolon or a closing curly bracket (`EndsItem.endsClosed`).
-/

namespace WidgetStyle.Source

open Text

/-! ## Where a block ends -/

/-- The brackets that are open behind a lexeme inside a block, and `none` when it closes the
block. -/
def openAfter : List Bracket → Lexeme → Option (List Bracket)
  | [], _ => none
  | current :: outer, x =>
    match x.opens with
    | some b => some (b :: current :: outer)
    | none =>
      if x.kind = .closing current then (if outer = [] then none else some outer)
      else some (current :: outer)

theorem insideExtent_cons (stack : List Bracket) (x : Lexeme) (xs : List Lexeme) :
    insideExtent stack (x :: xs) =
      match openAfter stack x with
      | none => 0
      | some stack' => insideExtent stack' xs + 1 := by
  cases stack with
  | nil => rfl
  | cons current outer =>
      simp only [insideExtent, openAfter]
      cases x.opens with
      | some b => rfl
      | none => by_cases hclose : x.kind = .closing current <;> cases outer <;> simp [hclose]

theorem getLast?_openAfter {stack stack' : List Bracket} {x : Lexeme}
    (h : openAfter stack x = some stack') : stack'.getLast? = stack.getLast? := by
  cases stack with
  | nil => exact absurd h nofun
  | cons current outer =>
      simp only [openAfter] at h
      split at h
      · obtain rfl := Option.some.inj h
        rw [List.getLast?_cons_cons]
      · split at h
        · split at h
          · exact absurd h nofun
          · next houter =>
              obtain rfl := Option.some.inj h
              obtain ⟨next, outer, rfl⟩ := List.exists_cons_of_ne_nil houter
              rw [List.getLast?_cons_cons]
        · rw [Option.some.inj h]

theorem kind_of_openAfter_eq_none {stack : List Bracket} {b : Bracket}
    (hb : stack.getLast? = some b) {x : Lexeme} (h : openAfter stack x = none) :
    x.kind = .closing b := by
  cases stack with
  | nil => exact absurd hb nofun
  | cons current outer =>
      simp only [openAfter] at h
      split at h
      · exact absurd h nofun
      · split at h
        · next hclose =>
            split at h
            · next houter =>
                subst houter
                rw [← Option.some.inj hb]
                exact hclose
            · exact absurd h nofun
        · exact absurd h nofun

/-- What follows the closing bracket of a block has no influence on where the block ends. -/
theorem insideExtent_append {stack : List Bracket} {xs : List Lexeme} {y : Lexeme}
    {more : List Lexeme} (h : insideExtent stack (xs ++ y :: more) = xs.length)
    (more' : List Lexeme) : insideExtent stack (xs ++ y :: more') = xs.length := by
  induction xs generalizing stack with
  | nil =>
      rw [List.nil_append, insideExtent_cons] at h ⊢
      cases hopen : openAfter stack y with
      | none => rfl
      | some stack' => rw [hopen] at h; exact absurd h (Nat.succ_ne_zero _)
  | cons x xs ih =>
      rw [List.cons_append, insideExtent_cons] at h ⊢
      cases hopen : openAfter stack x with
      | none => rw [hopen] at h; exact h
      | some stack' =>
          rw [hopen] at h
          exact congrArg (· + 1) (ih (Nat.succ.inj h))

/-- The bracket that closes a block is the one that its opening asks for. -/
theorem kind_of_drop_insideExtent {stack : List Bracket} {b : Bracket}
    (hb : stack.getLast? = some b) {xs : List Lexeme} {y : Lexeme} {more : List Lexeme}
    (h : xs.drop (insideExtent stack xs) = y :: more) : y.kind = .closing b := by
  induction xs generalizing stack with
  | nil => cases stack <;> exact absurd h.symm (List.cons_ne_nil _ _)
  | cons x xs ih =>
      rw [insideExtent_cons] at h
      cases hopen : openAfter stack x with
      | none =>
          rw [hopen] at h
          rw [← (List.cons.inj h).1]
          exact kind_of_openAfter_eq_none hb hopen
      | some stack' =>
          rw [hopen] at h
          exact ih ((getLast?_openAfter hopen).trans hb) h

/-! ## Closed components -/

/-- The lexemes behind the head of a component. -/
def Component.tail (c : Component) : List Lexeme := c.inside ++ c.closing.toList

/-- A component as it is read when something follows: a lexeme by itself, or a block with the
bracket that closes it. -/
structure Component.IsClosed (c : Component) : Prop where
  first : ∀ more, firstComponent c.head (c.tail ++ more) = c
  single : c.head.opens = none → c.tail = []
  block : ∀ b, c.head.opens = some b → ∃ y, c.closing = some y ∧ y.kind = .closing b

/-- A block that ends at its closing bracket. -/
theorem isClosed_block {x y : Lexeme} {b : Bracket} {inside more : List Lexeme}
    (hopens : x.opens = some b) (h : insideExtent [b] (inside ++ y :: more) = inside.length) :
    Component.IsClosed ⟨x, inside, some y⟩ where
  first more' := by
    simp only [firstComponent, hopens, Component.tail, Option.toList_some, List.append_assoc,
      List.singleton_append, insideExtent_append h more']
    simp
  single hnone := absurd (hopens.symm.trans hnone) nofun
  block b' hb' := by
    obtain rfl := Option.some.inj (hopens.symm.trans hb')
    have hafter : (inside ++ y :: more).drop (insideExtent [b] (inside ++ y :: more)) = y :: more := by
      rw [h, List.drop_left]
    exact ⟨y, rfl, kind_of_drop_insideExtent rfl hafter⟩

theorem isClosed_firstComponent {c : Component} {more : List Lexeme} (hmore : more ≠ [])
    (h : firstComponent c.head (c.tail ++ more) = c) : c.IsClosed := by
  obtain ⟨x, inside, closing⟩ := c
  simp only [Component.tail, firstComponent] at h
  cases hopens : x.opens with
  | none =>
      rw [hopens] at h
      cases h
      refine ⟨fun more' => ?_, fun _ => rfl, fun b hb => absurd (hopens.symm.trans hb) nofun⟩
      rw [firstComponent, hopens]
  | some b =>
      rw [hopens] at h
      obtain ⟨-, hinside, hclosing⟩ := Component.mk.inj h
      cases closing with
      | none =>
          -- A block without an end takes all there is.
          rw [Option.toList_none, List.append_nil] at hinside hclosing
          rw [List.take_of_length_le (List.drop_eq_nil_iff.mp (List.head?_eq_none_iff.mp hclosing))]
            at hinside
          exact absurd (List.append_right_eq_self.mp hinside) hmore
      | some y =>
          rw [Option.toList_some, List.append_assoc, List.singleton_append] at hinside hclosing
          obtain ⟨after, hafter⟩ := List.head?_eq_some_iff.mp hclosing
          have hextent : insideExtent [b] (inside ++ y :: more) = inside.length := by
            have hlength := congrArg List.length hinside
            have hlt := congrArg List.length hafter
            rw [List.length_take] at hlength
            rw [List.length_drop, List.length_cons] at hlt
            omega
          exact isClosed_block hopens hextent

/-! ## Runs of components -/

/-- The lexemes of a run of components. -/
def lexemesOf (cs : List Component) : List Lexeme := cs.flatMap Component.lexemes

theorem lexemes_eq_head_cons_tail (c : Component) : c.lexemes = c.head :: c.tail := rfl

theorem text_lexemesOf (cs : List Component) :
    (lexemesOf cs).flatMap Lexeme.text = sourceText cs := by
  have htext : ∀ c : Component, c.lexemes.flatMap Lexeme.text = c.text := fun c => by
    simp only [lexemes_eq_head_cons_tail, Component.tail, Component.text, List.flatMap_cons,
      List.flatMap_append, List.append_assoc]
    cases c.closing <;> simp
  simp only [lexemesOf, List.flatMap_assoc, htext, sourceText]

theorem lexemesOf_cons_append (c : Component) (cs : List Component) (more : List Lexeme) :
    lexemesOf (c :: cs) ++ more = c.head :: (c.tail ++ (lexemesOf cs ++ more)) := by
  simp only [lexemesOf, List.flatMap_cons, lexemes_eq_head_cons_tail, List.cons_append,
    List.append_assoc]

theorem drop_tailSize (c : Component) (more : List Lexeme) :
    (c.tail ++ more).drop c.tailSize = more := by
  rw [Component.tailSize, ← List.length_append]
  exact List.drop_left

/-- Closed components are read whatever follows. -/
theorem components_lexemesOf {cs : List Component} (h : ∀ c ∈ cs, c.IsClosed)
    (more : List Lexeme) : components (lexemesOf cs ++ more) = cs ++ components more := by
  induction cs with
  | nil => rfl
  | cons c cs ih =>
      rw [lexemesOf_cons_append, components_cons, (h c List.mem_cons_self).first, drop_tailSize,
        ih fun d hd => h d (List.mem_cons_of_mem _ hd)]
      rfl

/-- Components behind which something follows are closed. -/
theorem isClosed_of_components_eq {cs rest : List Component} {more : List Lexeme}
    (hmore : more ≠ []) (h : components (lexemesOf cs ++ more) = cs ++ rest) :
    ∀ c ∈ cs, c.IsClosed := by
  induction cs with
  | nil => exact List.forall_mem_nil _
  | cons c cs ih =>
      rw [lexemesOf_cons_append, components_cons] at h
      obtain ⟨hfirst, hrest⟩ := List.cons.inj h
      rw [hfirst, drop_tailSize] at hrest
      have hclosed := isClosed_firstComponent (List.append_ne_nil_of_right_ne_nil _ hmore) hfirst
      exact List.forall_mem_cons.mpr ⟨hclosed, ih hrest⟩

/-! ## Items -/

/-- How the items of a text are read: from the components `cs` reading comes to stand in front of
`rest`, between two items. -/
inductive Reads : List Component → List Component → Prop
  | here (cs : List Component) : Reads cs cs
  | between {c : Component} {cs rest : List Component} (hc : c.isBetweenItems = true)
      (h : Reads cs rest) : Reads (c :: cs) rest
  | atRule {c : Component} {cs rest : List Component} (hc : c.isBetweenItems = false)
      (hname : c.head.kind = .atName) (h : Reads ((onwards endsAtRule cs).drop 1) rest) :
      Reads (c :: cs) rest
  | rule {c : Component} {cs rest : List Component} (hc : c.isBetweenItems = false)
      (hname : c.head.kind ≠ .atName)
      (h : Reads ((onwards Component.isBody (c :: cs)).drop 1) rest) : Reads (c :: cs) rest

/-- Components whose items are the same whatever follows. -/
def Splits (front : List Component) : Prop :=
  ∀ more, itemsIn (front ++ more) = itemsIn front ++ itemsIn more

/-- Components that end in the end of an item, apart from what may stand between items. -/
def EndsItem (front : List Component) : Prop :=
  ∃ items between, front = items ++ between ∧ (∀ c ∈ between, c.isBetweenItems = true) ∧
    ∀ c ∈ items.getLast?, endsAtRule c = true

/-- A list is cut at the first that passes a test. -/
theorem exists_cut {stop : Component → Bool} {cs rest : List Component}
    (h : (onwards stop cs).drop 1 = rest) (hrest : rest ≠ []) :
    ∃ heading e, cs = heading ++ e :: rest ∧ (∀ c ∈ heading, stop c = false) ∧ stop e = true := by
  induction cs with
  | nil => exact absurd h.symm hrest
  | cons c cs ih =>
      cases hc : stop c with
      | true =>
          rw [onwards, List.dropWhile_cons_of_neg (by simp [hc])] at h
          exact ⟨[], c, congrArg (c :: ·) h, List.forall_mem_nil _, hc⟩
      | false =>
          rw [onwards, List.dropWhile_cons_of_pos (by simp [hc])] at h
          obtain ⟨heading, e, rfl, hheading, he⟩ := ih h
          exact ⟨c :: heading, e, rfl, List.forall_mem_cons.mpr ⟨hc, hheading⟩, he⟩

theorem before_append {stop : Component → Bool} {heading : List Component} {e : Component}
    (hheading : ∀ c ∈ heading, stop c = false) (he : stop e = true) (more : List Component) :
    before stop (heading ++ e :: more) = heading ∧
      onwards stop (heading ++ e :: more) = e :: more := by
  have hgo : ∀ c ∈ heading, (!stop c) = true := fun c hc => by rw [hheading c hc]; rfl
  rw [before, onwards, List.takeWhile_append_of_pos hgo, List.dropWhile_append_of_pos hgo]
  simp [he]

theorem splits_between {c : Component} {front : List Component} (hc : c.isBetweenItems = true)
    (h : Splits front) : Splits (c :: front) := by
  intro more
  rw [List.cons_append, itemsIn, itemsIn, if_pos hc, if_pos hc]
  exact h more

theorem splits_atRule {c e : Component} {heading front : List Component}
    (hc : c.isBetweenItems = false) (hname : c.head.kind = .atName)
    (hheading : ∀ c ∈ heading, endsAtRule c = false) (he : endsAtRule e = true)
    (h : Splits front) : Splits (c :: (heading ++ e :: front)) := by
  intro more
  have hbefore := before_append hheading he
  rw [List.cons_append, List.append_assoc, List.cons_append, itemsIn, itemsIn]
  simp only [hc, hname, (hbefore _).1, (hbefore _).2, List.head?_cons, List.drop_succ_cons,
    List.drop_zero, h more]
  rfl

theorem isGap_of_isBody {c : Component} (h : c.isBody = true) :
    c.isGap = false ∧ c.head.kind ≠ .name ∧ c.head.kind ≠ .colon := by
  have hkind : c.head.kind = .opening .curly := of_decide_eq_true h
  simp [Component.isGap, hkind]

/-- Gaps are dropped in front of a body and not behind it. -/
theorem exists_dropWhile_isGap {body : Component} (hbody : body.isBody = true)
    (heading : List Component) :
    ∃ kept, ∀ more, (heading ++ body :: more).dropWhile Component.isGap = kept ++ body :: more := by
  induction heading with
  | nil =>
      refine ⟨[], fun more => List.dropWhile_cons_of_neg ?_⟩
      rw [(isGap_of_isBody hbody).1]
      exact Bool.false_ne_true
  | cons c heading ih =>
      cases hc : c.isGap with
      | true =>
          obtain ⟨kept, hkept⟩ := ih
          exact ⟨kept, fun more => (List.dropWhile_cons_of_pos hc).trans (hkept more)⟩
      | false => exact ⟨c :: heading, fun more => List.dropWhile_cons_of_neg (by simp [hc])⟩

/-- Whether a variable is declared astray can be told from the heading. -/
theorem startsVariable_append {body : Component} (hbody : body.isBody = true)
    (heading more : List Component) :
    startsVariable (heading ++ body :: more) = startsVariable (heading ++ [body]) := by
  obtain ⟨kept, hkept⟩ := exists_dropWhile_isGap hbody heading
  rw [startsVariable, startsVariable, hkept, hkept]
  cases kept with
  | nil => simp [(isGap_of_isBody hbody).2.1]
  | cons c kept =>
      obtain ⟨kept', hkept'⟩ := exists_dropWhile_isGap hbody kept
      simp only [List.cons_append, hkept']
      cases kept' <;> rfl

theorem itemsIn_rule {body : Component} (hbody : body.isBody = true) {heading : List Component}
    (hheading : ∀ c ∈ heading, c.isBody = false)
    (hfirst : ∀ c ∈ (heading ++ [body]).head?, c.isBetweenItems = false ∧ c.head.kind ≠ .atName)
    (more : List Component) :
    itemsIn (heading ++ body :: more) =
      (if startsVariable (heading ++ [body]) then .broken else .rule heading body.inside) ::
        itemsIn more := by
  obtain ⟨hbefore, honwards⟩ := before_append hheading hbody more
  have hvariable := startsVariable_append hbody heading more
  obtain ⟨c, cs, hcs⟩ : ∃ c cs, heading ++ body :: more = c :: cs := by cases heading <;> simp
  obtain ⟨hc, hname⟩ := hfirst c (by cases heading <;> simp_all)
  rw [hcs] at hbefore honwards hvariable ⊢
  rw [itemsIn]
  simp only [hc, hname, hbefore, honwards, hvariable, List.head?_cons, List.drop_succ_cons,
    List.drop_zero]
  rfl

theorem splits_rule {body : Component} (hbody : body.isBody = true) {heading : List Component}
    (hheading : ∀ c ∈ heading, c.isBody = false)
    (hfirst : ∀ c ∈ (heading ++ [body]).head?, c.isBetweenItems = false ∧ c.head.kind ≠ .atName)
    {front : List Component} (h : Splits front) : Splits (heading ++ body :: front) := by
  intro more
  rw [List.append_assoc, List.cons_append, itemsIn_rule hbody hheading hfirst,
    itemsIn_rule hbody hheading hfirst, h more]
  rfl

theorem EndsItem.between {c : Component} (hc : c.isBetweenItems = true) {front : List Component}
    (h : EndsItem front) : EndsItem (c :: front) := by
  obtain ⟨items, between, rfl, hbetween, hlast⟩ := h
  cases items with
  | nil => exact ⟨[], c :: between, rfl, List.forall_mem_cons.mpr ⟨hc, hbetween⟩, nofun⟩
  | cons d items => exact ⟨c :: d :: items, between, rfl, hbetween, by rwa [List.getLast?_cons_cons]⟩

theorem EndsItem.item {e : Component} (he : endsAtRule e = true) {front : List Component}
    (h : EndsItem front) (heading : List Component) : EndsItem (heading ++ e :: front) := by
  obtain ⟨items, between, rfl, hbetween, hlast⟩ := h
  refine ⟨heading ++ e :: items, between, by simp, hbetween, fun c hc => ?_⟩
  rw [List.getLast?_append, List.getLast?_cons] at hc
  cases hitems : items.getLast? with
  | none => rw [hitems] at hc; cases hc; exact he
  | some d => rw [hitems] at hc; cases hc; exact hlast d hitems

/-- **Where reading stands between items**, what lies before it can be read by itself. -/
theorem Reads.exists_front {cs rest : List Component} (h : Reads cs rest) (hrest : rest ≠ []) :
    ∃ front, cs = front ++ rest ∧ Splits front ∧ EndsItem front := by
  induction h with
  | here cs => exact ⟨[], rfl, fun _ => by rw [itemsIn]; rfl, [], [], rfl, List.forall_mem_nil _, nofun⟩
  | @between c cs rest hc _ ih =>
      obtain ⟨front, rfl, hsplits, hends⟩ := ih hrest
      exact ⟨c :: front, rfl, splits_between hc hsplits, hends.between hc⟩
  | @atRule c cs rest hc hname _ ih =>
      obtain ⟨front, hfront, hsplits, hends⟩ := ih hrest
      obtain ⟨heading, e, rfl, hheading, he⟩ :=
        exists_cut hfront (List.append_ne_nil_of_right_ne_nil _ hrest)
      refine ⟨c :: (heading ++ e :: front), by simp, splits_atRule hc hname hheading he hsplits, ?_⟩
      exact hends.item he (c :: heading)
  | @rule c cs rest hc hname _ ih =>
      obtain ⟨front, hfront, hsplits, hends⟩ := ih hrest
      obtain ⟨heading, body, hcs, hheading, hbody⟩ :=
        exists_cut hfront (List.append_ne_nil_of_right_ne_nil _ hrest)
      have hfirst : ∀ d ∈ (heading ++ [body]).head?,
          d.isBetweenItems = false ∧ d.head.kind ≠ .atName := by
        intro d hd
        obtain rfl : d = c := by cases heading <;> simp_all
        exact ⟨hc, hname⟩
      refine ⟨heading ++ body :: front, by simp [hcs], splits_rule hbody hheading hfirst hsplits, ?_⟩
      exact hends.item (by rw [endsAtRule, hbody, Bool.or_true]) heading

/-! ## Lexemes of whole items -/

/-- What may stand between items opens no block. -/
theorem lexemes_of_between {c : Component} (h : c.IsClosed) (hc : c.isBetweenItems = true) :
    c.lexemes = [c.head] := by
  have hopens : c.head.opens = none := by
    simp only [Component.isBetweenItems, Component.isGap, Bool.or_eq_true, decide_eq_true_eq] at hc
    rcases hc with ((hc | hc) | hc) | hc <;> simp [Lexeme.opens, hc]
  rw [lexemes_eq_head_cons_tail, h.single hopens]

/-- What ends an at-rule ends in a semicolon or a closing curly bracket. -/
theorem exists_getLast?_lexemes {e : Component} (h : e.IsClosed) (he : endsAtRule e = true) :
    ∃ x, e.lexemes.getLast? = some x ∧ (x.kind = .semicolon ∨ x.kind = .closing .curly) := by
  rcases (Bool.or_eq_true _ _).mp he with hsemicolon | hbody
  · have hkind : e.head.kind = .semicolon := of_decide_eq_true hsemicolon
    refine ⟨e.head, ?_, Or.inl hkind⟩
    rw [lexemes_eq_head_cons_tail, h.single (by simp [Lexeme.opens, hkind])]
    rfl
  · have hkind : e.head.kind = .opening .curly := of_decide_eq_true hbody
    obtain ⟨y, hy, hclose⟩ := h.block .curly (by simp [Lexeme.opens, hkind])
    refine ⟨y, ?_, Or.inr hclose⟩
    rw [lexemes_eq_head_cons_tail, Component.tail, hy, Option.toList_some, ← List.cons_append,
      List.getLast?_concat]

/-- The lexemes of whole items end in a stop. -/
theorem EndsItem.endsClosed {front : List Component} (h : EndsItem front)
    (hclosed : ∀ c ∈ front, c.IsClosed) : EndsClosed (lexemesOf front) := by
  obtain ⟨items, between, rfl, hbetween, hlast⟩ := h
  refine ⟨lexemesOf items, lexemesOf between, List.flatMap_append, fun x hx => ?_, fun x hx => ?_⟩
  · obtain ⟨c, hc, hx⟩ := List.mem_flatMap.mp hx
    rw [lexemes_of_between (hclosed c (List.mem_append_right _ hc)) (hbetween c hc)] at hx
    rw [List.mem_singleton.mp hx]
    exact hbetween c hc
  · cases hend : items.getLast? with
    | none =>
        obtain rfl := List.getLast?_eq_none_iff.mp hend
        exact absurd hx nofun
    | some e =>
        obtain ⟨init, rfl⟩ := List.getLast?_eq_some_iff.mp hend
        obtain ⟨last, hlast', hkind⟩ := exists_getLast?_lexemes (hclosed e (by simp)) (hlast e hend)
        rw [lexemesOf, List.flatMap_append, List.flatMap_singleton, List.getLast?_append, hlast',
          Option.some_or] at hx
        cases hx
        exact hkind

/-! ## Blanks between items -/

theorem drop_extent_whileChar (test : Char → Bool) (cs : List Char) :
    cs.drop (extent (whileChar test) 0 cs) = cs.dropWhile test := by
  induction cs with
  | nil => rfl
  | cons c cs ih =>
      rw [extent, whileChar, List.dropWhile_cons]
      cases test c with
      | false => rfl
      | true => exact ih

/-- Blanks in front of a text change nothing about its items. -/
theorem itemsIn_dropWhile_blank (cs : List Char) :
    itemsIn (componentsOf (cs.dropWhile isAsciiBlank)) = itemsIn (componentsOf cs) := by
  cases cs with
  | nil => rfl
  | cons c cs =>
      cases hc : isAsciiBlank c with
      | false => rw [List.dropWhile_cons_of_neg (by simp [hc])]
      | true =>
          have hrest : cs.drop ((firstLexeme c cs).text.length - 1) = cs.dropWhile isAsciiBlank := by
            have hle : blankExtent cs ≤ cs.length := extent_le_length _ _ _
            rw [firstLexeme_blank hc, List.length_cons, List.length_take, Nat.min_eq_left hle]
            exact drop_extent_whileChar isAsciiBlank cs
          have hfirst : firstComponent (firstLexeme c cs) (lexemes (cs.dropWhile isAsciiBlank)) =
              ⟨firstLexeme c cs, [], none⟩ := by
            rw [firstLexeme_blank hc]
            rfl
          have hbetween : Component.isBetweenItems ⟨firstLexeme c cs, [], none⟩ = true := by
            rw [firstLexeme_blank hc]
            rfl
          rw [List.dropWhile_cons_of_pos hc, componentsOf, componentsOf, lexemes_cons, hrest,
            components_cons, hfirst, itemsIn, if_pos hbetween]
          rfl

theorem itemsIn_blanks_append {gap : List Char} (hgap : ∀ c ∈ gap, isAsciiBlank c = true)
    (cs : List Char) : itemsIn (componentsOf (gap ++ cs)) = itemsIn (componentsOf cs) := by
  rw [← itemsIn_dropWhile_blank, List.dropWhile_append_of_pos hgap, itemsIn_dropWhile_blank]

/-! ## Two texts -/

/-- In the text of `front` and `more`, reading comes to stand between two items where `front` ends,
apart from blanks. -/
def StandsBetween (front more : List Char) : Prop :=
  ∃ rest gap, Reads (componentsOf (front ++ more)) rest ∧ sourceText rest = gap ++ more ∧
    ∀ c ∈ gap, isAsciiBlank c = true

/-- **Cutting between components.**  Where the components of a text are cut, and something follows,
the text is cut as well: the components in front are closed, what follows cannot change their lexemes,
and the components behind are those of what follows. -/
theorem componentsOf_cut {whole : List Char} {cs rest : List Component}
    (h : componentsOf whole = cs ++ rest) (hne : sourceText rest ≠ []) :
    whole = sourceText cs ++ sourceText rest ∧ (∀ c ∈ cs, c.IsClosed) ∧
      Leads (lexemesOf cs) (sourceText rest) ∧ componentsOf (sourceText rest) = rest := by
  have hlexemes : lexemes whole = lexemesOf cs ++ lexemesOf rest := by
    rw [← flatMap_lexemes_components (lexemes whole), ← componentsOf, h, List.flatMap_append]
    rfl
  have hwhole : whole = sourceText cs ++ sourceText rest := by
    rw [← flatMap_text_lexemes whole, hlexemes, List.flatMap_append, text_lexemesOf, text_lexemesOf]
  have hcut : lexemes ((lexemesOf cs).flatMap Lexeme.text ++ sourceText rest) =
      lexemesOf cs ++ lexemesOf rest := by
    rw [text_lexemesOf, ← hwhole, hlexemes]
  have hleads : Leads (lexemesOf cs) (sourceText rest) := leads_of_lexemes_eq hcut
  have hrest : lexemes (sourceText rest) = lexemesOf rest :=
    List.append_cancel_left (hleads.symm.trans hcut)
  have hfollows : lexemesOf rest ≠ [] := by
    intro hnil
    rw [← text_lexemesOf, hnil] at hne
    exact hne rfl
  have hcomponents : components (lexemesOf cs ++ lexemesOf rest) = cs ++ rest :=
    (congrArg components hlexemes).symm.trans h
  have hclosed := isClosed_of_components_eq hfollows hcomponents
  refine ⟨hwhole, hclosed, hleads, ?_⟩
  rw [components_lexemesOf hclosed] at hcomponents
  rw [componentsOf, hrest]
  exact List.append_cancel_left hcomponents

/-- **Locality of items.**  Where a text can be cut between two items and a blank follows, its items
are those of both parts. -/
theorem StandsBetween.itemsIn_eq {front more : List Char} {c : Char} (hc : isAsciiBlank c = true)
    (h : StandsBetween front (c :: more)) :
    itemsIn (componentsOf (front ++ c :: more)) =
      itemsIn (componentsOf front) ++ itemsIn (componentsOf more) := by
  obtain ⟨rest, gap, hreads, htext, hgap⟩ := h
  have hne : sourceText rest ≠ [] := htext ▸ List.append_ne_nil_of_right_ne_nil _ (List.cons_ne_nil _ _)
  have hrest : rest ≠ [] := by
    rintro rfl
    exact hne rfl
  obtain ⟨cs, hcs, hsplits, hends⟩ := hreads.exists_front hrest
  obtain ⟨hwhole, hclosed, hleads, hback⟩ := componentsOf_cut hcs hne
  rw [htext] at hwhole hleads hback
  have hfront : front = sourceText cs ++ gap := by
    rw [← List.append_assoc] at hwhole
    exact List.append_cancel_right hwhole
  -- The front by itself has the same lexemes and components.
  have hleadsFront : Leads (lexemesOf cs) gap :=
    hleads.of_endsClosed (hends.endsClosed hclosed) (List.cons_ne_nil _ _)
  have hfrontComponents : componentsOf front = cs ++ componentsOf gap := by
    rw [hfront, ← text_lexemesOf, componentsOf, hleadsFront, components_lexemesOf hclosed]
    rfl
  have hgapItems : itemsIn (componentsOf gap) = [] := by
    rw [← List.append_nil gap, itemsIn_blanks_append hgap, componentsOf, lexemes, lexemesFrom,
      components, componentsFrom, itemsIn]
  have hrestItems : itemsIn rest = itemsIn (componentsOf more) := by
    rw [← hback, itemsIn_blanks_append hgap, ← List.singleton_append,
      itemsIn_blanks_append (by simpa using hc)]
  rw [hcs, hfrontComponents, hsplits, hsplits, hgapItems, List.append_nil, hrestItems]

/-! ## Sheets -/

theorem filterMap_dropEncoding {β : Type} (f : Item → Option β)
    (h : ∀ name heading body, lower name = "charset" → f (.atRule name heading body) = none)
    (items : List Item) : (dropEncoding items).filterMap f = items.filterMap f := by
  cases items with
  | nil => rfl
  | cons item items =>
      cases item with
      | rule => rfl
      | broken => rfl
      | atRule name heading body =>
          rw [dropEncoding]
          split
          · next hname => rw [List.filterMap_cons_none (h name heading body hname)]
          · rfl

/-- The rules and the keyframe sets of a text are those of its items. -/
theorem Sheet.parse_eq (text : String) :
    (Sheet.parse text).rules =
        (itemsIn (componentsOf (dropByteOrderMark text.toList))).filterMap Item.rule? ∧
      (Sheet.parse text).keyframes =
        (itemsIn (componentsOf (dropByteOrderMark text.toList))).filterMap Item.keyframes? := by
  refine ⟨filterMap_dropEncoding _ (fun _ _ _ _ => rfl) _,
    filterMap_dropEncoding _ (fun name heading body hname => ?_) _⟩
  have hkeyframes : namesKeyframes name = false := by
    rw [namesKeyframes, hname]
    decide
  cases body with
  | none => rfl
  | some body => rw [Item.keyframes?, hkeyframes, if_neg Bool.false_ne_true]

theorem dropByteOrderMark_eq_self {cs : List Char} (h : cs.head? ≠ some '\uFEFF') :
    dropByteOrderMark cs = cs := by
  cases cs with
  | nil => rfl
  | cons c cs =>
      rw [dropByteOrderMark]
      rintro cs' ⟨rfl, rfl⟩
      exact h rfl

theorem dropByteOrderMark_append {c : Char} (hc : c ≠ '\uFEFF') (front more : List Char) :
    dropByteOrderMark (front ++ c :: more) = dropByteOrderMark front ++ c :: more := by
  cases front with
  | nil => exact dropByteOrderMark_eq_self (by simpa using hc)
  | cons d front =>
      by_cases hd : d = '\uFEFF'
      · subst hd
        rfl
      · have hself : ∀ cs, dropByteOrderMark (d :: cs) = d :: cs := fun cs =>
          dropByteOrderMark_eq_self (by simpa using hd)
        rw [List.cons_append, hself, hself, List.cons_append]

/-- **Two texts.**  The rules and keyframe sets of a text and another one behind it, on a new line,
are those of the one and then those of the other. -/
theorem Sheet.parse_newline {first second : String} (hmark : second.toList.head? ≠ some '\uFEFF')
    (h : StandsBetween (dropByteOrderMark first.toList) ('\n' :: second.toList)) :
    (Sheet.parse (first ++ "\n" ++ second)).rules =
        (Sheet.parse first).rules ++ (Sheet.parse second).rules ∧
      (Sheet.parse (first ++ "\n" ++ second)).keyframes =
        (Sheet.parse first).keyframes ++ (Sheet.parse second).keyframes := by
  have hwhole : dropByteOrderMark (first ++ "\n" ++ second).toList =
      dropByteOrderMark first.toList ++ '\n' :: second.toList := by
    rw [String.toList_append, String.toList_append, List.append_assoc]
    exact dropByteOrderMark_append (by decide) _ _
  have hsecond := dropByteOrderMark_eq_self hmark
  have hitems := h.itemsIn_eq (by decide)
  rw [(Sheet.parse_eq _).1, (Sheet.parse_eq _).2, (Sheet.parse_eq first).1, (Sheet.parse_eq first).2,
    (Sheet.parse_eq second).1, (Sheet.parse_eq second).2, hwhole, hsecond, hitems,
    List.filterMap_append, List.filterMap_append]
  exact ⟨rfl, rfl⟩

end WidgetStyle.Source
