import WidgetStyle.Proofs.Value.Pieces
import WidgetStyle.Proofs.Variable.Calls

/-!
# WidgetStyle.Proofs.Variable.Scanning — how the scans for references go on

Two scans look for references: one for where the next one begins, one for where it ends.  This module
says what each does on a text that goes on: what was found stays found, and otherwise the scan goes
on in the state that it is in (`Segment.findFrom_append_cons`, `Segment.closeFrom_append_of_some`,
`Segment.closeFrom_append_of_none`).  Both pass by a quotation as a whole, whatever it holds
(`Segment.findFrom_quotation_append`, `Segment.closeFrom_quotation_append`).
-/

namespace WidgetStyle

open Text Value

/-! ## Quotations -/

/-- The quotation mark of the quotation that a walk is in. -/
def Value.Quoting.mark? : Quoting → Option Char
  | .outside => none
  | .inside quote | .escaped quote => some quote

/-- Whether a quotation ends with the last character of a text, and not before. -/
def closesAtEnd : Quoting → List Char → Bool
  | _, [] => false
  | st, c :: cs => if st.step c = .outside then cs.isEmpty else closesAtEnd (st.step c) cs

/-- Whether a text is a single quotation, from one mark to the other. -/
def isQuotation : List Char → Bool
  | [] => false
  | c :: cs => isQuote c && closesAtEnd (.inside c) cs

section Closes

variable {st : Quoting} {c quote : Char} {cs : List Char}

theorem mark?_of_step_eq_outside (h : st.mark? = some quote) (hstep : st.step c = .outside) :
    c = quote := by
  cases st with
  | outside => cases h
  | escaped => cases hstep
  | inside mark =>
      obtain rfl := Option.some.inj h
      rw [Quoting.step] at hstep
      split at hstep
      · cases hstep
      · split at hstep
        · assumption
        · cases hstep

theorem mark?_step (h : st.mark? = some quote) (hstep : st.step c ≠ .outside) :
    (st.step c).mark? = some quote := by
  cases st with
  | outside => cases h
  | escaped => exact h
  | inside mark =>
      rw [Quoting.step] at hstep ⊢
      split
      · exact h
      · split
        · next hslash hquote => exact absurd (by rw [if_neg hslash, if_pos hquote]) hstep
        · exact h

theorem ne_outside_of_mark? (h : st.mark? = some quote) : st ≠ .outside := by
  rintro rfl
  cases h

theorem eq_of_isQuote (h : isQuote c = true) : c = '"' ∨ c = '\'' := by
  rwa [isQuote, Bool.or_eq_true, beq_iff_eq, beq_iff_eq] at h

theorem not_isWordChar_of_isQuote (h : isQuote c = true) : isWordChar c = false := by
  rcases eq_of_isQuote h with rfl | rfl <;> decide

end Closes

namespace Segment

variable {quoting : Quoting} {previous : Option Char} {depth : Nat} {c : Char}
  {cs head tail : List Char}

/-! ## Where a reference begins -/

/-- Whether a character can stand in `var(`, in any letter case. -/
def inVar (c : Char) : Bool := ['v', 'a', 'r', '('].contains c.toLower

theorem length_of_startsReference (h : startsReference cs = true) : 4 ≤ cs.length := by
  have hlength := congrArg List.length (of_decide_eq_true h)
  rw [List.length_map, List.length_take] at hlength
  change min 4 cs.length = 4 at hlength
  omega

/-- What stands behind another character makes no difference to where a reference starts. -/
theorem startsReference_append_cons (hc : inVar c = false) (cs rest : List Char) :
    startsReference (cs ++ c :: rest) = startsReference cs := by
  by_cases hlength : 4 ≤ cs.length
  · rw [startsReference, startsReference, List.take_append_of_le_length hlength]
  · have hshort : startsReference cs = false :=
      Bool.eq_false_iff.mpr fun h => hlength (length_of_startsReference h)
    rw [hshort, Bool.eq_false_iff]
    intro h
    -- The character is among the four that would spell `var(`.
    obtain ⟨n, hn⟩ := Nat.exists_eq_add_of_lt (Nat.not_le.mp hlength)
    have hmem : c ∈ (cs ++ c :: rest).take 4 := by
      rw [List.take_append, show 4 - cs.length = n + 1 by omega, List.take_succ_cons]
      exact List.mem_append_right _ List.mem_cons_self
    have hlower : c.toLower ∈ ['v', 'a', 'r', '('] := of_decide_eq_true h ▸ List.mem_map_of_mem hmem
    rw [inVar, List.contains_iff_mem.mpr hlower] at hc
    cases hc

/-- A character that continues no name is as good as none before a text. -/
theorem findFrom_some (h : isWordChar c = false) (quoting : Quoting) (cs : List Char) :
    findFrom quoting (some c) cs = findFrom quoting none cs := by
  cases cs with
  | nil => rfl
  | cons d cs => rw [findFrom, findFrom, Option.any_some, h, Option.any_none]

/-- Behind a text that holds no reference the scan goes on where the text leaves it. -/
theorem findFrom_append_cons (hc : inVar c = false) (quoting : Quoting) (previous : Option Char)
    (cs rest : List Char) : findFrom quoting previous (cs ++ c :: rest) =
      match findFrom quoting previous cs with
      | some (head, tail) => some (head, tail ++ c :: rest)
      | none => (findFrom (quoting.after cs) (cs.getLast?.or previous) (c :: rest)).map
          fun (head, tail) => (cs ++ head, tail) := by
  induction cs generalizing quoting previous with
  | nil => simp [findFrom.eq_1, Quoting.after]
  | cons d cs ih =>
      have hstarts : startsReference (d :: (cs ++ c :: rest)) = startsReference (d :: cs) :=
        startsReference_append_cons hc (d :: cs) rest
      rw [List.cons_append, findFrom, findFrom, hstarts, ih]
      split
      case isTrue => rfl
      case isFalse =>
        have hlast : (d :: cs).getLast?.or previous = cs.getLast?.or (some d) := by
          cases hcs : cs.getLast? <;> simp [List.getLast?_cons, hcs]
        cases findFrom (quoting.step d) (some d) cs with
        | some found => rfl
        | none =>
            simp only [Option.map_none, Option.map_map, hlast]
            rfl

theorem after_of_findFrom (h : findFrom quoting previous cs = some (head, tail)) :
    quoting.after head = .outside := by
  induction cs generalizing quoting previous head with
  | nil => exact absurd h (by simp [findFrom])
  | cons c cs ih =>
      rw [findFrom] at h
      split at h
      case isTrue hfound =>
        obtain ⟨rfl, -⟩ := Prod.mk.inj (Option.some.inj h)
        simp only [Bool.and_eq_true, decide_eq_true_eq] at hfound
        exact hfound.1.1
      case isFalse =>
        obtain ⟨⟨head', tail'⟩, hrest, heq⟩ := Option.map_eq_some_iff.mp h
        obtain ⟨rfl, rfl⟩ := Prod.mk.inj heq
        change (quoting.step c).after head' = .outside
        exact ih hrest

theorem findFrom_closesAtEnd_append {quote : Char} (hmark : quoting.mark? = some quote)
    (h : closesAtEnd quoting cs = true) (previous : Option Char) (rest : List Char) :
    findFrom quoting previous (cs ++ rest) =
      (findFrom .outside (some quote) rest).map fun (head, tail) => (cs ++ head, tail) := by
  induction cs generalizing quoting previous with
  | nil => cases h
  | cons c cs ih =>
      rw [List.cons_append, findFrom, if_neg (by simp [ne_outside_of_mark? hmark])]
      rw [closesAtEnd] at h
      split at h
      case isTrue hstep =>
        rw [List.isEmpty_iff.mp h, hstep, mark?_of_step_eq_outside hmark hstep]
        rfl
      case isFalse hstep =>
        rw [ih (mark?_step hmark hstep) h, Option.map_map]
        rfl

/-- The scan for a reference passes by a quotation as a whole. -/
theorem findFrom_quotation_append (h : isQuotation cs = true) (previous : Option Char)
    (rest : List Char) : findFrom .outside previous (cs ++ rest) =
      (find? rest).map fun (head, tail) => (cs ++ head, tail) := by
  cases cs with
  | nil => cases h
  | cons c cs =>
      obtain ⟨hquote, hclose⟩ := Bool.and_eq_true_iff.mp h
      have hstarts : startsReference (c :: (cs ++ rest)) = false := by
        rw [Bool.eq_false_iff]
        intro hstarts
        obtain ⟨name, more, hname, heq⟩ := exists_of_startsReference hstarts
        obtain ⟨d, name, rfl⟩ := List.exists_cons_of_ne_nil (ne_nil_of_spellsVar hname)
        obtain ⟨rfl, -⟩ := List.cons.inj heq
        have hword := isWordChar_of_spellsVar hname _ List.mem_cons_self
        exact absurd hword (by simp [not_isWordChar_of_isQuote hquote])
      have hstep : Quoting.outside.step c = .inside c := by rw [Quoting.step, hquote, if_pos rfl]
      rw [List.cons_append, findFrom, hstarts, if_neg (by simp), hstep,
        findFrom_closesAtEnd_append rfl hclose, findFrom_some (not_isWordChar_of_isQuote hquote),
        Option.map_map]
      rfl

/-! ## Where a reference ends -/

/-- A character ends the call, or it is passed by. -/
theorem closeFrom_cons (quoting : Quoting) (depth : Nat) (c : Char) :
    (quoting.step c = .outside ∧ ∀ cs, closeFrom quoting depth (c :: cs) = some ([c], cs)) ∨
      ∃ depth', ∀ cs, closeFrom quoting depth (c :: cs) =
        (closeFrom (quoting.step c) depth' cs).map fun (head, tail) => (c :: head, tail) := by
  by_cases hend : (quoting = .outside && c = ')' && depth ≤ 1) = true
  · refine .inl ⟨?_, fun cs => by rw [closeFrom, if_pos hend]⟩
    simp only [Bool.and_eq_true, decide_eq_true_eq] at hend
    rw [hend.1.1, hend.1.2]
    rfl
  · exact .inr ⟨_, fun cs => by rw [closeFrom, if_neg hend]⟩

theorem closeFrom_append_of_some (h : closeFrom quoting depth cs = some (head, tail))
    (rest : List Char) : closeFrom quoting depth (cs ++ rest) = some (head, tail ++ rest) := by
  induction cs generalizing quoting depth head with
  | nil => exact absurd h (by simp [closeFrom])
  | cons c cs ih =>
      rw [List.cons_append]
      rcases closeFrom_cons quoting depth c with ⟨-, hend⟩ | ⟨depth', hpass⟩
      · rw [hend] at h ⊢
        obtain ⟨rfl, rfl⟩ := Prod.mk.inj (Option.some.inj h)
        rfl
      · rw [hpass] at h ⊢
        obtain ⟨⟨head', tail'⟩, hrest, heq⟩ := Option.map_eq_some_iff.mp h
        obtain ⟨rfl, rfl⟩ := Prod.mk.inj heq
        rw [ih hrest]
        rfl

theorem closeFrom_append_of_none (h : closeFrom quoting depth cs = none) :
    ∃ depth', ∀ rest, closeFrom quoting depth (cs ++ rest) =
      (closeFrom (quoting.after cs) depth' rest).map fun (head, tail) => (cs ++ head, tail) := by
  induction cs generalizing quoting depth with
  | nil => exact ⟨depth, fun rest => by simp [Quoting.after]⟩
  | cons c cs ih =>
      rcases closeFrom_cons quoting depth c with ⟨-, hend⟩ | ⟨depth', hpass⟩
      · rw [hend] at h
        cases h
      · rw [hpass, Option.map_eq_none_iff] at h
        obtain ⟨depth'', hrest⟩ := ih h
        refine ⟨depth'', fun rest => ?_⟩
        rw [List.cons_append, hpass, hrest, Option.map_map]
        rfl

theorem after_of_closeFrom (h : closeFrom quoting depth cs = some (head, tail)) :
    quoting.after head = .outside := by
  induction cs generalizing quoting depth head with
  | nil => exact absurd h (by simp [closeFrom])
  | cons c cs ih =>
      rcases closeFrom_cons quoting depth c with ⟨hstep, hend⟩ | ⟨depth', hpass⟩
      · rw [hend] at h
        obtain ⟨rfl, -⟩ := Prod.mk.inj (Option.some.inj h)
        exact hstep
      · rw [hpass] at h
        obtain ⟨⟨head', tail'⟩, hrest, heq⟩ := Option.map_eq_some_iff.mp h
        obtain ⟨rfl, rfl⟩ := Prod.mk.inj heq
        change (quoting.step c).after head' = .outside
        exact ih hrest

theorem closeFrom_closesAtEnd_append {quote : Char} (hmark : quoting.mark? = some quote)
    (h : closesAtEnd quoting cs = true) (depth : Nat) (rest : List Char) :
    closeFrom quoting depth (cs ++ rest) =
      (closeFrom .outside depth rest).map fun (head, tail) => (cs ++ head, tail) := by
  induction cs generalizing quoting with
  | nil => cases h
  | cons c cs ih =>
      have hpasses : Passes quoting c := fun houtside => absurd houtside (ne_outside_of_mark? hmark)
      rw [List.cons_append, closeFrom_passes _ _ hpasses]
      rw [closesAtEnd] at h
      split at h
      case isTrue hstep =>
        rw [List.isEmpty_iff.mp h, hstep]
        rfl
      case isFalse hstep =>
        rw [ih (mark?_step hmark hstep) h, Option.map_map]
        rfl

/-- The scan for the end of a reference passes by a quotation as a whole. -/
theorem closeFrom_quotation_append (h : isQuotation cs = true) (depth : Nat) (rest : List Char) :
    closeFrom .outside depth (cs ++ rest) =
      (closeFrom .outside depth rest).map fun (head, tail) => (cs ++ head, tail) := by
  cases cs with
  | nil => cases h
  | cons c cs =>
      obtain ⟨hquote, hclose⟩ := Bool.and_eq_true_iff.mp h
      have hpasses : Passes .outside c := by
        intro _
        constructor <;> rintro rfl <;> exact absurd hquote (by decide)
      have hstep : Quoting.outside.step c = .inside c := by rw [Quoting.step, hquote, if_pos rfl]
      rw [List.cons_append, closeFrom_passes _ _ hpasses, hstep,
        closeFrom_closesAtEnd_append rfl hclose, Option.map_map]
      rfl

end Segment

end WidgetStyle
