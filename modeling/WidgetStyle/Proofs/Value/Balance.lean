import WidgetStyle.Proofs.Source.Importance
import WidgetStyle.Proofs.Variable.Scanning

/-!
# WidgetStyle.Proofs.Value.Balance — which texts are calls

A call is a name, an opening parenthesis, and what is between it and the closing one at the end.
What may stand there is given by a grammar (`Balanced`): quotations, groups in parentheses, and
other characters.  Two walks over characters follow it: `balancedFrom` accepts just the balanced
texts (`balancedFrom_iff`), and `staysOpen`, which reading a call goes by, accepts just what a
balanced text can begin with (`staysOpen_iff`).

So a text is read as a call if it is one, but also when what is between the outer parentheses is
`LeftOpen`: it ends inside a quotation, or with a parenthesis still open (`isSome_parse?_iff`).
Likewise an argument loses its quotation marks when it is a quotation, and also when it only stands
between two equal marks (`quoted_ofPiece`).
-/

namespace WidgetStyle

open Text Value

/-! ## Balanced texts -/

/-- The texts whose parentheses match and whose quotations are closed. -/
inductive Balanced : List Char → Prop
  | nil : Balanced []
  | plain {c : Char} {cs : List Char} (hopen : c ≠ '(') (hclose : c ≠ ')')
      (hquote : isQuote c = false) (h : Balanced cs) : Balanced (c :: cs)
  | quotation {quotation cs : List Char} (hquotation : isQuotation quotation) (h : Balanced cs) :
      Balanced (quotation ++ cs)
  | group {inner cs : List Char} (hinner : Balanced inner) (h : Balanced cs) :
      Balanced ('(' :: (inner ++ ')' :: cs))

/-- What a balanced text can begin with, and is none itself. -/
def LeftOpen (cs : List Char) : Prop := ¬Balanced cs ∧ ∃ rest, Balanced (cs ++ rest)

section Walks

variable {quoting : Quoting} {depth : Nat} {cs rest : List Char}

theorem balancedFrom_open : balancedFrom .outside depth ('(' :: cs) =
    balancedFrom .outside (depth + 1) cs := rfl

theorem balancedFrom_close : balancedFrom .outside (depth + 1) (')' :: cs) =
    balancedFrom .outside depth cs := by
  simp [balancedFrom]

theorem passes_of_plain {c : Char} (hopen : c ≠ '(') (hclose : c ≠ ')') : Passes quoting c :=
  fun _ => ⟨hopen, hclose⟩

theorem passes_of_mark? {quote c : Char} (h : quoting.mark? = some quote) : Passes quoting c :=
  fun houtside => absurd houtside (ne_outside_of_mark? h)

theorem passes_of_isQuote {c : Char} (h : isQuote c = true) : Passes quoting c := by
  intro _
  constructor <;> rintro rfl <;> exact absurd h (by decide)

theorem step_outside_of_isQuote {c : Char} (h : isQuote c = true) :
    Quoting.outside.step c = .inside c := by
  rw [Quoting.step, h, if_pos rfl]

theorem step_outside_of_not_isQuote {c : Char} (h : isQuote c = false) :
    Quoting.outside.step c = .outside := by
  rw [Quoting.step, h]
  rfl

theorem balancedFrom_closesAtEnd_append {quote : Char} (hmark : quoting.mark? = some quote)
    (h : closesAtEnd quoting cs = true) :
    balancedFrom quoting depth (cs ++ rest) = balancedFrom .outside depth rest := by
  induction cs generalizing quoting with
  | nil => cases h
  | cons c cs ih =>
      rw [List.cons_append, balancedFrom_passes (passes_of_mark? hmark)]
      rw [closesAtEnd] at h
      split at h
      case isTrue hstep => rw [List.isEmpty_iff.mp h, hstep, List.nil_append]
      case isFalse hstep => exact ih (mark?_step hmark hstep) h

/-- The walk passes by a quotation as a whole. -/
theorem balancedFrom_quotation_append (h : isQuotation cs = true) :
    balancedFrom .outside depth (cs ++ rest) = balancedFrom .outside depth rest := by
  cases cs with
  | nil => cases h
  | cons c cs =>
      obtain ⟨hquote, hclose⟩ := Bool.and_eq_true_iff.mp h
      rw [List.cons_append, balancedFrom_passes (passes_of_isQuote hquote),
        step_outside_of_isQuote hquote, balancedFrom_closesAtEnd_append rfl hclose]

theorem Balanced.balancedFrom_append (h : Balanced cs) (depth : Nat) (rest : List Char) :
    balancedFrom .outside depth (cs ++ rest) = balancedFrom .outside depth rest := by
  induction h generalizing depth rest with
  | nil => rfl
  | plain hopen hclose hquote _ ih =>
      rw [List.cons_append, balancedFrom_passes (passes_of_plain hopen hclose),
        step_outside_of_not_isQuote hquote, ih]
  | quotation hquotation _ ih =>
      rw [List.append_assoc, balancedFrom_quotation_append hquotation, ih]
  | group _ _ ihinner ih =>
      rw [List.cons_append, List.append_assoc, balancedFrom_open, ihinner, List.cons_append,
        balancedFrom_close, ih]

/-- A walk inside a quotation that comes to a good end leaves the quotation. -/
theorem exists_closesAtEnd_of_balancedFrom {quote : Char} (hmark : quoting.mark? = some quote)
    (h : balancedFrom quoting depth cs = true) :
    ∃ front back, cs = front ++ back ∧ closesAtEnd quoting front = true ∧
      balancedFrom .outside depth back = true := by
  induction cs generalizing quoting with
  | nil =>
      simp only [balancedFrom, Bool.and_eq_true, decide_eq_true_eq] at h
      exact absurd h.1 (ne_outside_of_mark? hmark)
  | cons c cs ih =>
      rw [balancedFrom_passes (passes_of_mark? hmark)] at h
      by_cases hstep : quoting.step c = .outside
      · rw [hstep] at h
        exact ⟨[c], cs, rfl, by rw [closesAtEnd, if_pos hstep]; rfl, h⟩
      · obtain ⟨front, back, rfl, hclose, hback⟩ := ih (mark?_step hmark hstep) h
        exact ⟨c :: front, back, rfl, by rw [closesAtEnd, if_neg hstep, hclose], hback⟩

/-- A walk outside quotations that comes to a quotation mark and to a good end passes by a
quotation. -/
theorem exists_quotation_of_balancedFrom {c : Char} (hquote : isQuote c = true)
    (h : balancedFrom .outside depth (c :: cs) = true) :
    ∃ quotation back, c :: cs = quotation ++ back ∧ back.length < (c :: cs).length ∧
      isQuotation quotation = true ∧ balancedFrom .outside depth back = true := by
  rw [balancedFrom_passes (passes_of_isQuote hquote), step_outside_of_isQuote hquote] at h
  obtain ⟨front, back, rfl, hclose, hback⟩ := exists_closesAtEnd_of_balancedFrom rfl h
  refine ⟨c :: front, back, rfl, ?_, Bool.and_eq_true_iff.mpr ⟨hquote, hclose⟩, hback⟩
  simp only [List.length_cons, List.length_append]
  omega

/-- What a walk that comes to a good end tells of the text: it is balanced, or begins with a
balanced text and the parenthesis that closes the innermost open one. -/
def Closes : Nat → List Char → Prop
  | 0, cs => Balanced cs
  | depth + 1, cs => ∃ inner back, cs = inner ++ ')' :: back ∧ Balanced inner ∧
      balancedFrom .outside depth back = true

theorem Closes.append {front : List Char} (hfront : ∀ cs, Balanced cs → Balanced (front ++ cs))
    (h : Closes depth cs) : Closes depth (front ++ cs) := by
  cases depth with
  | zero => exact hfront cs h
  | succ depth =>
      obtain ⟨inner, back, rfl, hinner, hback⟩ := h
      exact ⟨front ++ inner, back, by rw [List.append_assoc], hfront inner hinner, hback⟩

theorem closes_of_balancedFrom (h : balancedFrom .outside depth cs = true) : Closes depth cs := by
  induction hlength : cs.length using Nat.strongRecOn generalizing cs depth with
  | ind n ih =>
      subst hlength
      cases cs with
      | nil =>
          obtain rfl : depth = 0 := by simpa [balancedFrom] using h
          exact .nil
      | cons c cs =>
          by_cases hopen : c = '('
          · subst hopen
            obtain ⟨inner, back, rfl, hinner, hback⟩ :=
              ih cs.length (Nat.lt_succ_self _) (balancedFrom_open.symm.trans h) rfl
            have hlt : back.length < ('(' :: (inner ++ ')' :: back)).length := by
              simp only [List.length_cons, List.length_append]
              omega
            have hback := ih back.length hlt hback rfl
            have hgroup : ∀ cs, Balanced cs → Balanced ('(' :: (inner ++ [')']) ++ cs) :=
              fun cs hcs => by simpa using Balanced.group hinner hcs
            simpa using hback.append hgroup
          · by_cases hclose : c = ')'
            · subst hclose
              cases depth with
              | zero => simp [balancedFrom] at h
              | succ depth => exact ⟨[], cs, rfl, .nil, balancedFrom_close.symm.trans h⟩
            · cases hquote : isQuote c with
              | true =>
                  obtain ⟨quotation, back, heq, hlt, hquotation, hback⟩ :=
                    exists_quotation_of_balancedFrom hquote h
                  rw [heq]
                  exact (ih back.length hlt hback rfl).append fun _ => .quotation hquotation
              | false =>
                  rw [balancedFrom_passes (passes_of_plain hopen hclose),
                    step_outside_of_not_isQuote hquote] at h
                  have hplain : ∀ cs, Balanced cs → Balanced ([c] ++ cs) :=
                    fun _ => .plain hopen hclose hquote
                  exact (ih cs.length (Nat.lt_succ_self _) h rfl).append hplain

/-- The walk that counts parentheses follows the grammar. -/
theorem balancedFrom_iff : balancedFrom .outside 0 cs = true ↔ Balanced cs := by
  refine ⟨closes_of_balancedFrom, fun h => ?_⟩
  have := h.balancedFrom_append 0 []
  rwa [List.append_nil] at this

/-! ## Texts that stay open -/

/-- What closes the quotation and the parentheses that are open. -/
def closing (quoting : Quoting) (depth : Nat) : List Char :=
  (match quoting with
    | .outside => []
    | .inside quote => [quote]
    | .escaped quote => [quote, quote]) ++ List.replicate depth ')'

/-- The walk is outside quotations, or inside one that a quotation mark began. -/
def Quoted (quoting : Quoting) : Prop := ∀ quote, quoting.mark? = some quote → isQuote quote = true

theorem quoted_outside : Quoted .outside := by
  intro quote h
  cases h

theorem Quoted.step (h : Quoted quoting) (c : Char) : Quoted (quoting.step c) := by
  intro quote hmark
  by_cases hstep : quoting.step c = .outside
  · rw [hstep] at hmark
    cases hmark
  · cases hquoting : quoting.mark? with
    | some mark =>
        have := mark?_step hquoting hstep
        rw [hmark] at this
        exact h quote (hquoting.trans this.symm)
    | none =>
        obtain rfl : quoting = .outside := by cases quoting <;> first | rfl | cases hquoting
        rw [Quoting.step] at hmark hstep
        split at hmark
        · next hc =>
            obtain rfl := Option.some_inj.mp hmark
            exact hc
        · cases hmark

theorem balancedFrom_closing (h : Quoted quoting) (depth : Nat) :
    balancedFrom quoting depth (closing quoting depth) = true := by
  have houtside (depth : Nat) : balancedFrom .outside depth (List.replicate depth ')') = true := by
    induction depth with
    | zero => rfl
    | succ depth ih => rw [List.replicate_succ, balancedFrom_close, ih]
  have hinside {quote : Char} (hquote : isQuote quote = true) :
      balancedFrom (.inside quote) depth (quote :: List.replicate depth ')') = true := by
    have hslash : quote ≠ '\\' := by
      rintro rfl
      exact absurd hquote (by decide)
    rw [balancedFrom_passes (passes_of_mark? rfl), Quoting.step, if_neg hslash, if_pos rfl,
      houtside]
  cases quoting with
  | outside => exact houtside depth
  | inside quote => exact hinside (h quote rfl)
  | escaped quote =>
      change balancedFrom (.escaped quote) depth (quote :: quote :: List.replicate depth ')') = true
      rw [balancedFrom_passes (passes_of_mark? rfl)]
      exact hinside (h quote rfl)

/-- A text that stays open can go on until everything is closed. -/
theorem exists_balancedFrom_of_staysOpen (hquoted : Quoted quoting)
    (h : staysOpen quoting (depth + 1) cs = true) :
    ∃ rest, balancedFrom quoting depth (cs ++ rest) = true := by
  induction cs generalizing quoting depth with
  | nil => exact ⟨_, balancedFrom_closing hquoted depth⟩
  | cons c cs ih =>
      rcases parenthesis_cases quoting c with ⟨rfl, rfl⟩ | ⟨rfl, rfl⟩ | hpasses
      · exact ih hquoted h
      · cases depth with
        | zero => cases h
        | succ depth =>
            rw [staysOpen_close _ _ (by omega)] at h
            obtain ⟨rest, hrest⟩ := ih hquoted h
            exact ⟨rest, balancedFrom_close.trans hrest⟩
      · rw [staysOpen_passes _ _ hpasses] at h
        obtain ⟨rest, hrest⟩ := ih (hquoted.step c) h
        exact ⟨rest, (balancedFrom_passes hpasses).trans hrest⟩

theorem staysOpen_append (h : staysOpen quoting depth (cs ++ rest) = true) :
    staysOpen quoting depth cs = true := by
  induction cs generalizing quoting depth with
  | nil => rfl
  | cons c cs ih =>
      rw [List.cons_append] at h
      rcases parenthesis_cases quoting c with ⟨rfl, rfl⟩ | ⟨rfl, rfl⟩ | hpasses
      · exact ih h
      · by_cases hdepth : 1 < depth
        · rw [staysOpen_close _ _ hdepth] at h ⊢
          exact ih h
        · simp [staysOpen, Nat.not_lt.mp hdepth] at h
      · rw [staysOpen_passes _ _ hpasses] at h ⊢
        exact ih h

/-- The walk that reading a call goes by accepts just the beginnings of balanced texts. -/
theorem staysOpen_iff : staysOpen .outside 1 cs = true ↔ ∃ rest, Balanced (cs ++ rest) := by
  constructor
  · intro h
    obtain ⟨rest, hrest⟩ := exists_balancedFrom_of_staysOpen quoted_outside h
    exact ⟨rest, balancedFrom_iff.mp hrest⟩
  · rintro ⟨rest, hrest⟩
    exact staysOpen_append (staysOpen_of_balanced (balancedFrom_iff.mpr hrest))

theorem staysOpen_iff_or : staysOpen .outside 1 cs = true ↔ Balanced cs ∨ LeftOpen cs := by
  rw [staysOpen_iff]
  constructor
  · intro h
    by_cases hbalanced : Balanced cs
    · exact Or.inl hbalanced
    · exact Or.inr ⟨hbalanced, h⟩
  · rintro (h | h)
    · exact ⟨[], by rwa [List.append_nil]⟩
    · exact h.2

end Walks

/-! ## Texts that are calls -/

/-- The text, without the blanks around it, is a name, an opening parenthesis, a text between, and
a closing parenthesis. -/
structure HasCallShape (cs front inner : List Char) : Prop where
  text : trim cs = front ++ '(' :: (inner ++ [')'])
  name_ne_nil : trim front ≠ []
  word : ∀ c ∈ trim front, isWordChar c = true

theorem callParts?_eq_some_iff {cs front inner : List Char} :
    callParts? cs = some (front, inner) ↔
      cs = front ++ '(' :: (inner ++ [')']) ∧ '(' ∉ front := by
  have hpass {front : List Char} (h : '(' ∉ front) : ∀ c ∈ front, (c != '(') = true :=
    fun c hc => bne_iff_ne.mpr fun heq => h (heq ▸ hc)
  rw [callParts?]
  constructor
  · intro h
    split at h
    · cases h
    · next c body hbody =>
        obtain ⟨hlast, hparts⟩ := Option.ite_none_right_eq_some.mp h
        obtain ⟨rfl, rfl⟩ := Prod.mk.inj (Option.some_inj.mp hparts)
        have hc : c = '(' := by
          have := List.head?_dropWhile_not (· != '(') cs
          rw [hbody] at this
          simpa using this
        subst hc
        obtain ⟨inner, rfl⟩ := List.getLast?_eq_some_iff.mp hlast
        refine ⟨?_, fun hmem => ?_⟩
        · rw [List.dropLast_concat, ← hbody, List.takeWhile_append_dropWhile]
        · exact absurd (List.mem_takeWhile_imp hmem) (by decide)
  · rintro ⟨rfl, hfront⟩
    rw [List.dropWhile_append_of_pos (hpass hfront), List.takeWhile_append_of_pos (hpass hfront)]
    simp

/-- There is no parenthesis in the name. -/
theorem HasCallShape.not_mem {cs front inner : List Char} (h : HasCallShape cs front inner) :
    '(' ∉ front := by
  intro hmem
  have := h.word _ (Source.mem_trim_of_mem (by decide) hmem)
  exact absurd this (by decide)

/-- What is asked of the name and of what is between the outer parentheses. -/
theorem refuses_eq_false_iff {name inner : List Char} :
    (name.isEmpty || !name.all isWordChar || !staysOpen .outside 1 inner) = false ↔
      name ≠ [] ∧ (∀ c ∈ name, isWordChar c = true) ∧ (Balanced inner ∨ LeftOpen inner) := by
  rw [Bool.or_eq_false_iff, Bool.or_eq_false_iff, Bool.not_eq_false', Bool.not_eq_false',
    List.isEmpty_eq_false_iff, List.all_eq_true, staysOpen_iff_or, and_assoc]

/-- The texts that are read as calls, and what they are read as. -/
theorem Call.parse?_eq_some_iff {cs : List Char} {call : Call} :
    Call.parse? cs = some call ↔ ∃ front inner, HasCallShape cs front inner ∧
      (Balanced inner ∨ LeftOpen inner) ∧
      call = ⟨lower (String.ofList (trim front)), (splitList ',' inner).map Argument.ofPiece⟩ := by
  rw [Call.parse?]
  constructor
  · intro h
    split at h
    · cases h
    · next front inner hparts =>
        obtain ⟨hrefuses, hcall⟩ := Option.ite_none_left_eq_some.mp h
        obtain ⟨hname, hword, hinner⟩ := refuses_eq_false_iff.mp (Bool.eq_false_iff.mpr hrefuses)
        exact ⟨front, inner, ⟨(callParts?_eq_some_iff.mp hparts).1, hname, hword⟩, hinner,
          (Option.some_inj.mp hcall).symm⟩
  · rintro ⟨front, inner, hshape, hinner, rfl⟩
    have hrefuses := refuses_eq_false_iff.mpr ⟨hshape.name_ne_nil, hshape.word, hinner⟩
    rw [callParts?_eq_some_iff.mpr ⟨hshape.text, hshape.not_mem⟩]
    dsimp only
    rw [hrefuses, if_neg Bool.false_ne_true]

/-- The text stands between two equal quotation marks. -/
def Enclosed (piece : List Char) : Prop :=
  ∃ quote body, isQuote quote = true ∧ piece = quote :: (body ++ [quote])

theorem exists_of_closesAtEnd {quoting : Quoting} {quote : Char} {cs : List Char}
    (hmark : quoting.mark? = some quote) (h : closesAtEnd quoting cs = true) :
    ∃ body, cs = body ++ [quote] := by
  induction cs generalizing quoting with
  | nil => cases h
  | cons c cs ih =>
      rw [closesAtEnd] at h
      split at h
      · next hstep =>
          obtain rfl := List.isEmpty_iff.mp h
          exact ⟨[], by rw [mark?_of_step_eq_outside hmark hstep, List.nil_append]⟩
      · next hstep =>
          obtain ⟨body, rfl⟩ := ih (mark?_step hmark hstep) h
          exact ⟨c :: body, rfl⟩

theorem enclosed_of_isQuotation {piece : List Char} (h : isQuotation piece = true) :
    Enclosed piece := by
  cases piece with
  | nil => cases h
  | cons c cs =>
      obtain ⟨hquote, hclose⟩ := Bool.and_eq_true_iff.mp h
      obtain ⟨body, rfl⟩ := exists_of_closesAtEnd rfl hclose
      exact ⟨c, body, hquote, rfl⟩

theorem Argument.quoted_ofPiece {piece : List Char} :
    (Argument.ofPiece piece).quoted = true ↔ Enclosed piece := by
  have hquoted : (Argument.ofPiece piece).quoted = (unquote? piece).isSome := by
    rw [Argument.ofPiece]
    cases unquote? piece <;> rfl
  rw [hquoted]
  cases piece with
  | nil =>
      refine iff_of_false Bool.false_ne_true ?_
      rintro ⟨quote, body, -, h⟩
      cases h
  | cons c cs =>
      have hsome : (unquote? (c :: cs)).isSome ↔ isQuote c = true ∧ cs.getLast? = some c := by
        rw [unquote?]
        split <;> simp_all
      rw [hsome, List.getLast?_eq_some_iff]
      constructor
      · rintro ⟨hquote, body, rfl⟩
        exact ⟨c, body, hquote, rfl⟩
      · rintro ⟨quote, body, hquote, heq⟩
        obtain ⟨rfl, rfl⟩ := List.cons.inj heq
        exact ⟨hquote, body, rfl⟩

/-- A text is read as a call just in case it is one, or leaves open what is between its outer
parentheses.  An argument loses its quotation marks just in case it stands between two equal ones;
so a quotation does, and so do two quotations with words between them. -/
theorem Call.isSome_parse?_iff (cs : List Char) :
    ((Call.parse? cs).isSome = true ↔
      ∃ front inner, HasCallShape cs front inner ∧ (Balanced inner ∨ LeftOpen inner)) ∧
    ∀ call, Call.parse? cs = some call → ∃ front inner, HasCallShape cs front inner ∧
      call.name = lower (String.ofList (trim front)) ∧
      call.arguments = (splitList ',' inner).map Argument.ofPiece ∧
      ∀ piece ∈ splitList ',' inner, ((Argument.ofPiece piece).quoted = true ↔ Enclosed piece) ∧
        (isQuotation piece = true → (Argument.ofPiece piece).quoted = true) := by
  constructor
  · rw [Option.isSome_iff_exists]
    constructor
    · rintro ⟨call, hcall⟩
      obtain ⟨front, inner, hshape, hinner, -⟩ := Call.parse?_eq_some_iff.mp hcall
      exact ⟨front, inner, hshape, hinner⟩
    · rintro ⟨front, inner, hshape, hinner⟩
      exact ⟨_, Call.parse?_eq_some_iff.mpr ⟨front, inner, hshape, hinner, rfl⟩⟩
  · intro call hcall
    obtain ⟨front, inner, hshape, -, rfl⟩ := Call.parse?_eq_some_iff.mp hcall
    exact ⟨front, inner, hshape, rfl, rfl, fun piece _ =>
      ⟨Argument.quoted_ofPiece, fun h => Argument.quoted_ofPiece.mpr (enclosed_of_isQuotation h)⟩⟩

/-- A parenthesis that is still open does not keep `f((1)` from being read as a call, and two
quotations lose their outer marks. -/
theorem Call.reads_open_parenthesis :
    ((Call.parse? "f((1)".toList).isSome = true ∧
      ∀ front inner, HasCallShape "f((1)".toList front inner → ¬Balanced inner) ∧
    Call.parse? "f(\"a\" \"b\")".toList = some ⟨"f", [⟨"a\" \"b", true⟩]⟩ ∧
      isQuotation "\"a\" \"b\"".toList = false := by
  refine ⟨⟨by decide +kernel, fun front inner h hbalanced => ?_⟩, by decide +kernel, by decide⟩
  have hparts := callParts?_eq_some_iff.mpr ⟨h.text, h.not_mem⟩
  rw [show callParts? (trim "f((1)".toList) = some (['f'], ['(', '1']) by decide] at hparts
  obtain ⟨-, rfl⟩ := Prod.mk.inj (Option.some_inj.mp hparts)
  exact absurd (balancedFrom_iff.mpr hbalanced) (by decide)

end WidgetStyle
