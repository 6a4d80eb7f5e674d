import WidgetStyle.Proofs.Source.Boundary
import WidgetStyle.Proofs.Source.Endings
import WidgetStyle.Source.Declaration

/-!
# WidgetStyle.Proofs.Source.Neighbours — what is no declaration stays for itself

Whatever a declaration list holds, reading finds its way again at the next semicolon that stands in
no block.  So a text in which nothing is open at the end (`EndsComplete`) can be put before another
with a semicolon between them: the declarations of the whole are those of the one and then those of
the other (`declarations_append_semicolon`), and it does not matter what else the first one holds.

The proof follows the stages of reading: the semicolon is a lexeme (`lexemes_append_stop`), it is
a component since all blocks are closed (`EndsComplete.componentsOf_append`), and each stretch of
components that is read or left out ends at it, if not before (`declarationsIn_append`).
-/

namespace WidgetStyle.Source

/-! ## Components in front of a semicolon -/

/-- Whether the component is a block without the bracket that closes it. -/
def Component.isOpen (c : Component) : Bool := c.head.opens.isSome && c.closing.isNone

/-- At the end of the text nothing is open: no block, and no comment, string, address or escape. -/
structure EndsComplete (text : List Char) : Prop where
  lexeme : ∀ x ∈ (lexemes text).getLast?, x.isOpen = false
  block : ∀ c ∈ componentsOf text, c.isOpen = false

instance (text : List Char) : Decidable (EndsComplete text) :=
  decidable_of_iff ((∀ x ∈ (lexemes text).getLast?, x.isOpen = false) ∧
      ∀ c ∈ componentsOf text, c.isOpen = false)
    ⟨fun h => ⟨h.1, h.2⟩, fun h => ⟨h.lexeme, h.block⟩⟩

/-- A first component that is not open is closed. -/
theorem isClosed_of_isOpen_eq_false {x : Lexeme} {xs : List Lexeme}
    (h : (firstComponent x xs).isOpen = false) : (firstComponent x xs).IsClosed := by
  cases hopens : x.opens with
  | none =>
      have hfirst : ∀ more, firstComponent x more = ⟨x, [], none⟩ := fun more => by
        rw [firstComponent, hopens]
      rw [hfirst]
      exact ⟨hfirst, fun _ => rfl, fun b hb => by cases hopens.symm.trans hb⟩
  | some b =>
      have hfirst : ∀ more, firstComponent x more =
          ⟨x, more.take (insideExtent [b] more), (more.drop (insideExtent [b] more)).head?⟩ :=
        fun more => by simp only [firstComponent, hopens]
      rw [hfirst] at h ⊢
      simp only [Component.isOpen, hopens, Option.isSome_some, Bool.true_and] at h
      obtain ⟨y, hy⟩ := Option.ne_none_iff_exists'.mp (by simpa using h :
        (xs.drop (insideExtent [b] xs)).head? ≠ none)
      obtain ⟨after, hafter⟩ := List.head?_eq_some_iff.mp hy
      have hlength : (xs.take (insideExtent [b] xs)).length = insideExtent [b] xs := by
        have hlt := congrArg List.length hafter
        rw [List.length_drop, List.length_cons] at hlt
        rw [List.length_take]
        omega
      have hextent : insideExtent [b] (xs.take (insideExtent [b] xs) ++ y :: after) =
          (xs.take (insideExtent [b] xs)).length := by
        rw [← hafter, List.take_append_drop, hlength]
      rw [hy]
      exact isClosed_block hopens hextent

theorem isClosed_of_mem_components {xs : List Lexeme}
    (h : ∀ c ∈ components xs, c.isOpen = false) : ∀ c ∈ components xs, c.IsClosed := by
  induction hn : xs.length using Nat.strongRecOn generalizing xs with
  | ind n ih =>
      subst hn
      cases xs with
      | nil => exact List.forall_mem_nil _
      | cons x xs =>
          rw [components_cons, List.forall_mem_cons] at h ⊢
          refine ⟨isClosed_of_isOpen_eq_false h.1, ih _ ?_ h.2 rfl⟩
          rw [List.length_drop, List.length_cons]
          omega

/-- The component that a semicolon is. -/
def semicolon : Component := ⟨⟨.semicolon, [';']⟩, [], none⟩

/-- A semicolon behind a complete text is a component of its own, and changes none of the others. -/
theorem EndsComplete.componentsOf_append {front : List Char} (h : EndsComplete front)
    (more : List Char) :
    componentsOf (front ++ ';' :: more) = componentsOf front ++ semicolon :: componentsOf more := by
  have hfront : lexemes front = lexemesOf (componentsOf front) :=
    (flatMap_lexemes_components _).symm
  have hclosed : ∀ c ∈ componentsOf front, c.IsClosed := isClosed_of_mem_components h.block
  rw [componentsOf, lexemes_append_stop (Or.inl rfl) h.lexeme, hfront, components_lexemesOf hclosed,
    components_cons]
  rfl

/-! ## Declarations in front of a semicolon -/

section

variable {stop : Component → Bool} {e : Component}

/-- A stop behind the components comes after the first stop among them, if there is one. -/
theorem cut_append_stop (he : stop e = true) (cs ds : List Component) :
    before stop (cs ++ e :: ds) = before stop cs ∧
      onwards stop (cs ++ e :: ds) = onwards stop cs ++ e :: ds := by
  induction cs with
  | nil => simp [before, onwards, he]
  | cons c cs ih =>
      simp only [before, onwards, List.cons_append, List.takeWhile_cons, List.dropWhile_cons] at ih ⊢
      rw [ih.1, ih.2]
      refine ⟨rfl, ?_⟩
      split <;> rfl

/-- What is read behind a stop, when the stop may be the semicolon between two lists. -/
theorem declarationsIn_drop_onwards (he : stop e = true) {cs ds : List Component}
    (ih : declarationsIn ((onwards stop cs).drop 1 ++ e :: ds) =
      declarationsIn ((onwards stop cs).drop 1) ++ declarationsIn ds) :
    declarationsIn ((onwards stop (cs ++ e :: ds)).drop 1) =
      declarationsIn ((onwards stop cs).drop 1) ++ declarationsIn ds := by
  rw [(cut_append_stop he cs ds).2]
  cases hrest : onwards stop cs with
  | nil => rw [List.nil_append, List.drop_succ_cons, List.drop_zero, List.drop_nil, declarationsIn,
      List.nil_append]
  | cons c rest =>
      rw [hrest] at ih
      exact ih

/-- A semicolon cuts a declaration list into two. -/
theorem declarationsIn_append (he : e.isSemicolon = true) (cs ds : List Component) :
    declarationsIn (cs ++ e :: ds) = declarationsIn cs ++ declarationsIn ds := by
  have hbetween : e.isBetweenDeclarations = true := by
    rw [Component.isBetweenDeclarations, he, Bool.or_true, Bool.true_or]
  have hends : endsAtRule e = true := by rw [endsAtRule, he, Bool.true_or]
  induction cs using declarationsIn.induct with
  | case1 =>
      have hnil : declarationsIn [] = [] := by rw [declarationsIn]
      rw [List.nil_append, hnil, List.nil_append, declarationsIn, if_pos hbetween]
  | case2 c cs hc ih =>
      rw [List.cons_append, declarationsIn, if_pos hc, declarationsIn, if_pos hc, ih]
  | case3 c cs hc hname ih =>
      rw [List.cons_append, declarationsIn, if_neg hc, if_pos hname, declarationsIn, if_neg hc,
        if_pos hname, declarationsIn_drop_onwards hends ih]
  | case4 c cs hc hname ih =>
      rw [List.cons_append, declarationsIn, if_neg hc, if_neg hname, declarationsIn, if_neg hc,
        if_neg hname]
      simp only [(cut_append_stop he cs ds).1, declarationsIn_drop_onwards he ih, List.append_assoc]

end

/-! ## Two texts -/

/-- **A semicolon between two texts.**  When nothing is open at the end of the first, the declarations
of the whole are those of the first and then those of the second. -/
theorem declarations_append_semicolon {first second : String} (h : EndsComplete first.toList) :
    declarations (first ++ ";" ++ second) = declarations first ++ declarations second := by
  have htext : (first ++ ";" ++ second).toList = first.toList ++ ';' :: second.toList := by
    rw [String.toList_append, String.toList_append, List.append_assoc]
    rfl
  rw [declarations, htext, h.componentsOf_append, declarationsIn_append rfl]
  rfl

/-- A list with a malformed declaration, an at-rule with a body, a rule, a stray bracket and a
semicolon in a block, before another with a declaration. -/
theorem declarations_append_semicolon_malformed :
    let first := "color red; @media (x;y) \x7ba:b\x7d p \x7bc:d\x7d; top:) 1; left:[;]"
    EndsComplete first.toList ∧ declarations (first ++ ";" ++ "width:2") =
      [⟨"top", ") 1", false⟩, ⟨"left", "[;]", false⟩, ⟨"width", "2", false⟩] := by
  intro first
  have hcomplete : EndsComplete first.toList := by decide +kernel
  refine ⟨hcomplete, ?_⟩
  rw [declarations_append_semicolon hcomplete]
  decide +kernel

end WidgetStyle.Source
