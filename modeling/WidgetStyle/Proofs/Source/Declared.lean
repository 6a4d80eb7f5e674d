import Mathlib.Data.List.TakeWhile
import WidgetStyle.Proofs.Source.Boundary
import WidgetStyle.Source.Rule

/-!
# WidgetStyle.Proofs.Source.Declared — where the declarations of a text stand in it

Every declaration that is read stands somewhere in the text: a name, a colon, and a value that goes up
to a semicolon or to the end of its list (`Declares`).  The list is the text itself for a declaration
list, and the inside of a body for a style sheet (`Level`), so that the lexemes of every value are
consecutive lexemes of the text.
-/

namespace WidgetStyle.Source

open Text Value

/-! ## Lists inside lists -/

/-- The lists of components in which lexemes are read: their own components, and those inside a body
of such a list. -/
inductive Level (xs : List Lexeme) : List Component → Prop
  | top : Level xs (components xs)
  | body {cs : List Component} {c : Component} (h : Level xs cs) (hc : c ∈ cs)
      (hbody : c.isBody = true) : Level xs (components c.inside)

theorem lexemesOf_components (xs : List Lexeme) : lexemesOf (components xs) = xs :=
  flatMap_lexemes_components xs

theorem inside_isInfix {cs : List Component} {c : Component} (hc : c ∈ cs) :
    c.inside <:+: lexemesOf cs := by
  obtain ⟨front, rest, rfl⟩ := List.append_of_mem hc
  refine ⟨lexemesOf front ++ [c.head], c.closing.toList ++ lexemesOf rest, ?_⟩
  simp [lexemesOf, lexemes_eq_head_cons_tail, Component.tail]

/-- The lexemes of each list are consecutive lexemes of the whole. -/
theorem Level.lexemesOf_isInfix {xs : List Lexeme} {cs : List Component} (h : Level xs cs) :
    lexemesOf cs <:+: xs := by
  induction h with
  | top => simp only [lexemesOf_components, List.infix_refl]
  | body _ hc _ ih =>
      rw [lexemesOf_components]
      exact (inside_isInfix hc).trans ih

/-! ## Declarations in a list -/

/-- Among the components `cs` stands a name, with a colon behind it and a value behind that, which goes
up to a semicolon or to the end. -/
def Declares (cs : List Component) (name : Component) (value : List Component) : Prop :=
  ∃ front gaps colon rest, cs = front ++ name :: (gaps ++ colon :: (value ++ rest)) ∧
    name.head.kind = .name ∧ (∀ c ∈ gaps, c.isGap = true) ∧ colon.head.kind = .colon ∧
    (∀ c ∈ value, c.isSemicolon = false) ∧ ∀ c ∈ rest.head?, c.isSemicolon = true

/-- The declaration that is read from a name and a value. -/
def Declaration.read (name : Component) (value : List Component) : Declaration where
  name := declaredName (nameValue name.head.text)
  value := String.ofList (splitImportant (blankComments (sourceText value))).1
  important := (splitImportant (blankComments (sourceText value))).2

theorem Declares.of_isSuffix {cs cs' : List Component} {name : Component} {value : List Component}
    (h : Declares cs name value) (hcs : cs <:+ cs') : Declares cs' name value := by
  obtain ⟨before, rfl⟩ := hcs
  obtain ⟨front, gaps, colon, rest, rfl, hparts⟩ := h
  exact ⟨before ++ front, gaps, colon, rest, (List.append_assoc _ _ _).symm, hparts⟩

theorem drop_onwards_isSuffix (stop : Component → Bool) (c : Component) (cs : List Component) :
    (onwards stop cs).drop 1 <:+ c :: cs :=
  (List.drop_suffix _ _).trans ((List.dropWhile_suffix _).trans (List.suffix_cons _ _))

/-- What a declaration at the front of a list was read from. -/
theorem declares_of_declaration? {c : Component} {cs : List Component} {d : Declaration}
    (hname : c.head.kind = .name)
    (hd : declaration? c.head.text (before Component.isSemicolon cs) = some d) :
    ∃ value, Declares (c :: cs) c value ∧ d = .read c value := by
  obtain ⟨item, hitem⟩ : ∃ item, before Component.isSemicolon cs = item := ⟨_, rfl⟩
  have hcs : cs = item ++ onwards Component.isSemicolon cs := by
    rw [← hitem]
    exact (List.takeWhile_append_dropWhile).symm
  have hinside : ∀ x ∈ item, x.isSemicolon = false := by
    intro x hx
    rw [← hitem] at hx
    simpa using List.mem_takeWhile_imp hx
  have hend : ∀ x ∈ (onwards Component.isSemicolon cs).head?, x.isSemicolon = true := by
    intro x hx
    have hstop := List.head?_dropWhile_not (fun c : Component => !c.isSemicolon) cs
    rw [onwards] at hx
    rw [Option.mem_def.mp hx] at hstop
    simpa using hstop
  rw [hitem, declaration?] at hd
  have hgaps := List.takeWhile_append_dropWhile (p := Component.isGap) (l := item)
  cases hrest : item.dropWhile Component.isGap with
  | nil => rw [hrest] at hd; cases hd
  | cons colon value =>
      rw [hrest] at hd hgaps
      simp only at hd
      split at hd
      · next hcolon =>
          refine ⟨value, ⟨[], item.takeWhile Component.isGap, colon,
            onwards Component.isSemicolon cs, ?_, hname, fun x hx => List.mem_takeWhile_imp hx, hcolon,
            fun x hx => hinside x ?_, hend⟩, (Option.some.inj hd).symm⟩
          · rw [List.nil_append, show colon :: (value ++ onwards Component.isSemicolon cs) =
              (colon :: value) ++ onwards Component.isSemicolon cs from rfl,
              ← List.append_assoc, hgaps, ← hcs]
          · rw [← hgaps]
            exact List.mem_append_right _ (List.mem_cons_of_mem _ hx)
      · cases hd

/-- **Every declaration of a list stands in it.** -/
theorem exists_declares {cs : List Component} {d : Declaration} (hd : d ∈ declarationsIn cs) :
    ∃ name value, Declares cs name value ∧ d = .read name value := by
  induction cs using declarationsIn.induct with
  | case1 => rw [declarationsIn] at hd; exact absurd hd List.not_mem_nil
  | case2 c cs hc ih =>
      rw [declarationsIn, if_pos hc] at hd
      obtain ⟨name, value, h, hread⟩ := ih hd
      exact ⟨name, value, h.of_isSuffix (List.suffix_cons _ _), hread⟩
  | case3 c cs hc hname ih =>
      rw [declarationsIn, if_neg hc, if_pos hname] at hd
      obtain ⟨name, value, h, hread⟩ := ih hd
      exact ⟨name, value, h.of_isSuffix (drop_onwards_isSuffix _ _ _), hread⟩
  | case4 c cs hc hname ih =>
      rw [declarationsIn, if_neg hc, if_neg hname] at hd
      rcases List.mem_append.mp hd with hd | hd
      · rw [Option.mem_toList] at hd
        split at hd
        · next hkind =>
            obtain ⟨value, h⟩ := declares_of_declaration? hkind hd
            exact ⟨c, value, h⟩
        · cases hd
      · obtain ⟨name, value, h, hread⟩ := ih hd
        exact ⟨name, value, h.of_isSuffix (drop_onwards_isSuffix _ _ _), hread⟩

/-! ## Bodies of rules and of frames -/

/-- The body of an item. -/
def Item.body? : Item → Option (List Lexeme)
  | .rule _ body => some body
  | .atRule _ _ body => body
  | .broken => none

/-- The body of an item is a body among the components. -/
theorem exists_isBody_of_mem_itemsIn {cs : List Component} {item : Item} {body : List Lexeme}
    (hitem : item ∈ itemsIn cs) (hbody : item.body? = some body) :
    ∃ c ∈ cs, c.isBody = true ∧ c.inside = body := by
  induction cs using itemsIn.induct with
  | case1 => rw [itemsIn] at hitem; exact absurd hitem List.not_mem_nil
  | case2 c cs hc ih =>
      rw [itemsIn, if_pos hc] at hitem
      obtain ⟨d, hd, h⟩ := ih hitem
      exact ⟨d, List.mem_cons_of_mem _ hd, h⟩
  | case3 c cs hc hname ih =>
      rw [itemsIn, if_neg hc, if_pos hname] at hitem
      rcases List.mem_cons.mp hitem with rfl | hitem
      · obtain ⟨d, hd, hinside⟩ := Option.map_eq_some_iff.mp hbody
        obtain ⟨hd, hcurly⟩ := Option.filter_eq_some_iff.mp hd
        have hmem := List.mem_of_mem_head? (Option.mem_def.mpr hd)
        exact ⟨d, List.mem_cons_of_mem _ ((List.dropWhile_suffix _).subset hmem), hcurly, hinside⟩
      · obtain ⟨d, hd, h⟩ := ih hitem
        exact ⟨d, (drop_onwards_isSuffix _ _ _).subset hd, h⟩
  | case4 c cs hc hname ih =>
      rw [itemsIn, if_neg hc, if_neg hname] at hitem
      rcases List.mem_cons.mp hitem with rfl | hitem
      · split at hbody
        · cases hbody
        · split at hbody
          · next found hfound =>
              have hmem := List.mem_of_mem_head? (Option.mem_def.mpr hfound)
              have hstop := List.head?_dropWhile_not (fun c : Component => !c.isBody) (c :: cs)
              rw [onwards] at hfound
              rw [hfound] at hstop
              exact ⟨found, (List.dropWhile_suffix _).subset hmem, by simpa using hstop,
                Option.some.inj hbody⟩
          · cases hbody
      · obtain ⟨d, hd, h⟩ := ih hitem
        exact ⟨d, ((List.drop_suffix _ _).trans (List.dropWhile_suffix _)).subset hd, h⟩

theorem mem_of_mem_dropEncoding {item : Item} {items : List Item} (h : item ∈ dropEncoding items) :
    item ∈ items := by
  cases items with
  | nil => exact h
  | cons first items =>
      cases first with
      | rule => exact h
      | broken => exact h
      | atRule name heading body =>
          rw [dropEncoding] at h
          split at h
          · exact List.mem_cons_of_mem _ h
          · exact h

/-- The declarations of a rule among some items are those of a list inside. -/
theorem Level.of_rule? {xs ys : List Lexeme} (h : Level xs (components ys)) {item : Item}
    (hitem : item ∈ items ys) {rule : Rule} (hrule : item.rule? = some rule) :
    ∃ cs, Level xs cs ∧ rule.declarations = declarationsIn cs := by
  cases item with
  | rule heading body =>
      obtain ⟨c, hc, hcurly, hinside⟩ :=
        exists_isBody_of_mem_itemsIn (mem_of_mem_dropEncoding hitem) rfl
      refine ⟨components body, hinside ▸ h.body hc hcurly, ?_⟩
      rw [Item.rule?] at hrule
      split at hrule
      · cases hrule
      · rw [← Option.some.inj hrule]
  | atRule | broken => cases hrule

/-- All rules of a sheet: those of its own, and the frames of its keyframe sets. -/
def Sheet.allRules (s : Sheet) : List Rule := s.rules ++ s.keyframes.flatMap Keyframes.frames

/-- **The declarations of every rule** of a style sheet text, and of every frame, are those of a list
in it. -/
theorem Sheet.exists_level {text : String} {rule : Rule} (h : rule ∈ (Sheet.parse text).allRules) :
    ∃ cs, Level (lexemes (dropByteOrderMark text.toList)) cs ∧
      rule.declarations = declarationsIn cs := by
  rcases List.mem_append.mp h with h | h
  · obtain ⟨item, hitem, hrule⟩ := List.mem_filterMap.mp h
    exact Level.top.of_rule? hitem hrule
  · obtain ⟨frames, hframes, hrule⟩ := List.mem_flatMap.mp h
    obtain ⟨item, hitem, hitemFrames⟩ := List.mem_filterMap.mp hframes
    cases item with
    | rule | broken => cases hitemFrames
    | atRule name heading body =>
        cases body with
        | none => cases hitemFrames
        | some body =>
            rw [Item.keyframes?] at hitemFrames
            split at hitemFrames
            · obtain ⟨_, -, rfl⟩ := Option.map_eq_some_iff.mp hitemFrames
              obtain ⟨frame, hframe, hrule⟩ := List.mem_filterMap.mp hrule
              obtain ⟨c, hc, hcurly, hinside⟩ :=
                exists_isBody_of_mem_itemsIn (mem_of_mem_dropEncoding hitem) rfl
              have hbody := Level.top.body hc hcurly
              rw [hinside] at hbody
              exact hbody.of_rule? hframe hrule
            · cases hitemFrames

end WidgetStyle.Source
