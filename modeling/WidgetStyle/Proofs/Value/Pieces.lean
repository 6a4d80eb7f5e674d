import WidgetStyle.Value.Split

/-!
# WidgetStyle.Proofs.Value.Pieces — what cutting leaves of a text

A text is cut at the separators that stand outside quotations and brackets.  `PiecesFrom` says this
without cutting: a piece goes up to the first separator that cuts, and behind it the text starts
afresh.  Cutting gives these pieces (`piecesFrom_cutFrom`).

A piece is cut no further (`cut_of_mem_cut`), so a word of a value is a value of one word
(`splitWords_of_mem_splitWords`), and with their separator in between the pieces of a text make up
the text (`PiecesFrom.intercalate`).
-/

namespace WidgetStyle.Value

/-- The state after a text. -/
def Quoting.after (st : Quoting) (cs : List Char) : Quoting := cs.foldl Quoting.step st

theorem Quoting.after_append (st : Quoting) (cs ds : List Char) :
    st.after (cs ++ ds) = (st.after cs).after ds := List.foldl_append

/-- The state after a text. -/
def Nesting.after (st : Nesting) (cs : List Char) : Nesting := cs.foldl Nesting.step st

theorem Nesting.quoting_after (st : Nesting) (cs : List Char) :
    (st.after cs).quoting = st.quoting.after cs := by
  induction cs generalizing st with
  | nil => rfl
  | cons c cs ih => exact ih (st.step c)

/-- Whether no separator cuts the text. -/
def Uncut (separates : Char → Bool) (st : Nesting) (cs : List Char) : Prop :=
  ∀ front c back, cs = front ++ c :: back → (st.after front).cuts separates c = false

/-- The pieces of a text: each goes up to the first separator that cuts, and the next one starts
behind it. -/
inductive PiecesFrom (separates : Char → Bool) : Nesting → List Char → List (List Char) → Prop
  | last {st : Nesting} {cs : List Char} (uncut : Uncut separates st cs) :
      PiecesFrom separates st cs [cs]
  | cut {st : Nesting} {front rest : List Char} {c : Char} {pieces : List (List Char)}
      (uncut : Uncut separates st front) (cuts : (st.after front).cuts separates c = true)
      (more : PiecesFrom separates {} rest pieces) :
      PiecesFrom separates st (front ++ c :: rest) (front :: pieces)

/-- The pieces of a text that is outside quotations and brackets where it begins. -/
abbrev Pieces (separates : Char → Bool) (cs : List Char) (pieces : List (List Char)) : Prop :=
  PiecesFrom separates {} cs pieces

variable {separates : Char → Bool} {st : Nesting} {cs : List Char}

theorem Nesting.eq_of_cuts {c : Char} (h : st.cuts separates c = true) : st = {} := by
  simp only [cuts, Bool.and_eq_true, decide_eq_true_eq] at h
  obtain ⟨⟨⟨⟨⟨hquoting, hdepth⟩, -⟩, -⟩, -⟩, -⟩ := h
  cases st
  cases hquoting
  cases hdepth
  rfl

theorem uncut_nil : Uncut separates st [] := by
  intro front c back h
  exact absurd h (by simp)

theorem uncut_cons_iff {c : Char} :
    Uncut separates st (c :: cs) ↔ st.cuts separates c = false ∧ Uncut separates (st.step c) cs := by
  constructor
  · intro h
    refine ⟨h [] c cs rfl, fun front d back heq => ?_⟩
    exact h (c :: front) d back (congrArg (c :: ·) heq)
  · rintro ⟨hc, hcs⟩ front d back heq
    cases front with
    | nil =>
        obtain ⟨rfl, -⟩ := List.cons.inj heq
        exact hc
    | cons e front =>
        obtain ⟨rfl, hrest⟩ := List.cons.inj heq
        exact hcs front d back hrest

theorem cutFrom_of_uncut (h : Uncut separates st cs) : cutFrom separates st cs = [cs] := by
  induction cs generalizing st with
  | nil => rfl
  | cons c cs ih =>
      obtain ⟨hc, hcs⟩ := uncut_cons_iff.mp h
      rw [cutFrom, hc, if_neg Bool.false_ne_true, ih hcs]
      rfl

/-- Cutting gives the pieces of a text. -/
theorem piecesFrom_cutFrom (separates : Char → Bool) (st : Nesting) (cs : List Char) :
    PiecesFrom separates st cs (cutFrom separates st cs) := by
  induction cs generalizing st with
  | nil => exact .last uncut_nil
  | cons c cs ih =>
      rw [cutFrom]
      split
      case isTrue hcuts =>
        obtain rfl := Nesting.eq_of_cuts hcuts
        exact .cut uncut_nil hcuts (ih {})
      case isFalse hcuts =>
        have hc : st.cuts separates c = false := eq_false_of_ne_true hcuts
        -- The character goes to the first piece, and there is one.
        generalize hpieces : cutFrom separates (st.step c) cs = pieces
        have hstep := hpieces ▸ ih (st.step c)
        cases hstep with
        | last uncut => exact .last (uncut_cons_iff.mpr ⟨hc, uncut⟩)
        | cut uncut cuts more => exact .cut (uncut_cons_iff.mpr ⟨hc, uncut⟩) cuts more

theorem pieces_cut (separates : Char → Bool) (cs : List Char) :
    Pieces separates cs (cut separates cs) :=
  piecesFrom_cutFrom separates {} cs

namespace PiecesFrom

variable {pieces : List (List Char)}

theorem ne_nil (h : PiecesFrom separates st cs pieces) : pieces ≠ [] := by
  cases h <;> exact List.cons_ne_nil _ _

/-- The first piece is cut no further, and no other one is. -/
theorem uncut_of_mem (h : PiecesFrom separates st cs pieces) :
    (∀ piece ∈ pieces.head?, Uncut separates st piece) ∧
      ∀ piece ∈ pieces.tail, Uncut separates {} piece := by
  induction h with
  | last uncut => exact ⟨fun piece hpiece => Option.some.inj hpiece ▸ uncut, nofun⟩
  | @cut st front rest c pieces uncut _ more ih =>
      refine ⟨fun piece hpiece => Option.some.inj hpiece ▸ uncut, fun piece hpiece => ?_⟩
      cases pieces with
      | nil => cases hpiece
      | cons first others =>
          rcases List.mem_cons.mp hpiece with rfl | hpiece
          · exact ih.1 _ rfl
          · exact ih.2 piece hpiece

/-- With the separator in between, the pieces make up the text. -/
theorem intercalate {separator : Char} (h : PiecesFrom (· == separator) st cs pieces) :
    [separator].intercalate pieces = cs := by
  induction h with
  | last => simp [List.intercalate]
  | @cut st front rest c pieces _ cuts more ih =>
      have hc : c = separator := by
        simp only [Nesting.cuts, Bool.and_eq_true, beq_iff_eq] at cuts
        exact cuts.2
      rw [List.intercalate_cons_of_ne_nil more.ne_nil, ih, hc]
      simp

end PiecesFrom

/-- No separator cuts a piece of a text. -/
theorem uncut_of_mem_cut {piece : List Char} (h : piece ∈ cut separates cs) :
    Uncut separates {} piece := by
  have huncut := (pieces_cut separates cs).uncut_of_mem
  generalize cut separates cs = pieces at h huncut
  cases pieces with
  | nil => cases h
  | cons first others =>
      rcases List.mem_cons.mp h with rfl | h
      · exact huncut.1 _ rfl
      · exact huncut.2 piece h

/-- A piece of a text is cut no further. -/
theorem cut_of_mem_cut {piece : List Char} (h : piece ∈ cut separates cs) :
    cut separates piece = [piece] :=
  cutFrom_of_uncut (uncut_of_mem_cut h)

/-- A word of a value is a value of one word. -/
theorem splitWords_of_mem_splitWords {word : List Char} (h : word ∈ splitWords cs) :
    splitWords word = [word] := by
  obtain ⟨hmem, hsome⟩ := List.mem_filter.mp h
  rw [splitWords, cut_of_mem_cut hmem]
  exact List.filter_cons_of_pos hsome

end WidgetStyle.Value
