import WidgetStyle.Proofs.Sheet.Headings
import WidgetStyle.Variable.Substitution

/-!
# WidgetStyle.Proofs.Variable.Reference — the reference to a name

For a name of letters, digits, hyphens and underscores (`IsWord`), `var(name)` is a call that refers
to the name (`refersTo_reference`), and nothing stands beside it in its text (`segments_reference`).
A reference stands for the variable that a resolver finds under the name
(`Resolver.expandReference_of_lookup?`), and substituting `var(name)` leaves just that
(`Resolver.substitute_reference`).

The characters of a name are no blanks, quotation marks, brackets or commas (`IsPlain`), and every
walk over the text passes them by: there is one lemma for each walk.
-/

namespace WidgetStyle

open Text Value

/-- Whether a name consists of ASCII letters, digits, hyphens and underscores, of one at least. -/
def IsWord (name : String) : Prop := name.toList ≠ [] ∧ name.toList.all isWordChar = true

instance (name : String) : Decidable (IsWord name) :=
  inferInstanceAs (Decidable (name.toList ≠ [] ∧ name.toList.all isWordChar = true))

/-- The reference to a name. -/
def reference (name : String) : String := "var(" ++ name ++ ")"

/-! ## Segments -/

theorem segments_of_find?_eq_none {cs : List Char} (h : Segment.find? cs = none) :
    segments cs = [.text cs] := by
  rw [segments]
  split
  · rfl
  · next hf => exact absurd (h.symm.trans hf) nofun

theorem segments_of_find? {cs head tail : List Char} (h : Segment.find? cs = some (head, tail)) :
    segments cs = match Segment.splitCall? tail with
      | none => [.text head, .text tail]
      | some (call, rest) => .text head :: .reference call :: segments rest := by
  rw [segments]
  split
  · next hf => exact absurd (h.symm.trans hf) nofun
  · next head' tail' hf =>
      obtain ⟨rfl, rfl⟩ := Prod.mk.inj (Option.some.inj (h.symm.trans hf))
      split <;> next hc => rw [hc]

/-! ## Plain characters -/

/-- A character that is none of those which the walks over a text look for. -/
structure IsPlain (c : Char) : Prop where
  blank : isBlank c = false
  quote : isQuote c = false
  opens : opensBracket c = false
  closes : closesBracket c = false
  comma : c ≠ ','

theorem toNat_of_isWordChar {c : Char} (h : isWordChar c = true) :
    45 ≤ c.toNat ∧ c.toNat ≤ 122 ∧ c.toNat ≠ 91 ∧ c.toNat ≠ 93 := by
  simp only [isWordChar, isAsciiAlphanumeric, Bool.or_eq_true, Bool.and_eq_true, decide_eq_true_eq,
    beq_iff_eq, Char.le_def, UInt32.le_iff_toNat_le] at h
  rcases h with (((⟨hlow, hhigh⟩ | ⟨hlow, hhigh⟩) | ⟨hlow, hhigh⟩) | rfl) | rfl
  case inr => decide
  case inl.inr => decide
  all_goals
    change _ ≤ c.toNat at hlow
    change c.toNat ≤ _ at hhigh
    simp only [Char.reduceVal, UInt32.reduceToNat] at hlow hhigh
    omega

theorem isWordChar_of_toLower {c : Char} (h : isWordChar c.toLower = true) :
    isWordChar c = true := by
  by_cases hupper : c.val ≥ 'A'.val ∧ c.val ≤ 'Z'.val
  · have hletter : isAsciiAlphanumeric c = true := by
      simp [isAsciiAlphanumeric, Char.le_def.mpr hupper.1, Char.le_def.mpr hupper.2]
    simp [isWordChar, hletter]
  · rwa [show c.toLower = c from dif_neg hupper] at h

theorem IsPlain.of_isWordChar {c : Char} (h : isWordChar c = true) : IsPlain c := by
  obtain ⟨hlow, hhigh, hopen, hclose⟩ := toNat_of_isWordChar h
  have hne : ∀ d : Char, c.toNat ≠ d.toNat → c ≠ d := fun d hd hcd => hd (congrArg Char.toNat hcd)
  constructor
  case blank =>
    simp only [isBlank, Bool.or_eq_false_iff, Bool.and_eq_false_iff, decide_eq_false_iff_not,
      beq_eq_false_iff_ne]
    omega
  case quote =>
    simp only [isQuote, Bool.or_eq_false_iff, beq_eq_false_iff_ne]
    exact ⟨hne _ (by change _ ≠ 34; omega), hne _ (by change _ ≠ 39; omega)⟩
  case opens =>
    simp only [opensBracket, Bool.or_eq_false_iff, beq_eq_false_iff_ne]
    exact ⟨hne _ (by change _ ≠ 40; omega), hne _ (by change _ ≠ 91; omega)⟩
  case closes =>
    simp only [closesBracket, Bool.or_eq_false_iff, beq_eq_false_iff_ne]
    exact ⟨hne _ (by change _ ≠ 41; omega), hne _ (by change _ ≠ 93; omega)⟩
  case comma => exact hne _ (by change _ ≠ 44; omega)

namespace IsPlain

variable {c : Char} (h : IsPlain c)
include h

theorem ne_open : c ≠ '(' := by
  rintro rfl
  exact absurd h.opens (by decide)

theorem ne_close : c ≠ ')' := by
  rintro rfl
  exact absurd h.closes (by decide)

theorem step_outside : Quoting.outside.step c = .outside := by
  rw [Quoting.step, h.quote, if_neg Bool.false_ne_true]

theorem step_nesting : Nesting.step {} c = {} := by
  simp [Nesting.step, h.step_outside, h.opens, h.closes]

end IsPlain

/-! ## Walks over plain text -/

section Plain

variable {cs : List Char} (h : ∀ c ∈ cs, IsPlain c)
include h

theorem closeFrom_plain_append (depth : Nat) (rest : List Char) :
    Segment.closeFrom .outside depth (cs ++ rest) =
      (Segment.closeFrom .outside depth rest).map fun (head, tail) => (cs ++ head, tail) := by
  induction cs with
  | nil => simp
  | cons c cs ih =>
      have hc := h c List.mem_cons_self
      rw [List.cons_append, Segment.closeFrom, if_neg (by simp [hc.ne_close])]
      simp only [if_neg hc.ne_open, if_neg hc.ne_close, ite_self, hc.step_outside]
      rw [ih fun d hd => h d (List.mem_cons_of_mem _ hd), Option.map_map]
      rfl

theorem staysOpen_plain (depth : Nat) : staysOpen .outside depth cs = true := by
  induction cs with
  | nil => rfl
  | cons c cs ih =>
      have hc := h c List.mem_cons_self
      rw [staysOpen, if_neg (by simp [hc.ne_open]), if_neg (by simp [hc.ne_close]), hc.step_outside,
        ih fun d hd => h d (List.mem_cons_of_mem _ hd)]

theorem cut_plain : cut (· == ',') cs = [cs] := by
  rw [cut]
  induction cs with
  | nil => rfl
  | cons c cs ih =>
      have hc := h c List.mem_cons_self
      rw [cutFrom, if_neg (by simp [Nesting.cuts, hc.comma]), hc.step_nesting,
        ih fun d hd => h d (List.mem_cons_of_mem _ hd), consFirst]

theorem ofPiece_plain : Argument.ofPiece cs = ⟨String.ofList cs, false⟩ := by
  have hnone : unquote? cs = none := by
    cases cs with
    | nil => rfl
    | cons c cs => rw [unquote?, (h c List.mem_cons_self).quote]; rfl
  rw [Argument.ofPiece, hnone]

theorem trim_plain : trim cs = cs := trim_eq_self fun c hc => (h c hc).blank

end Plain

/-! ## The call -/

section

variable {name : String}

theorem toList_reference (name : String) :
    (reference name).toList = 'v' :: 'a' :: 'r' :: '(' :: (name.toList ++ [')']) := by
  simp [reference]

theorem find?_reference (name : String) :
    Segment.find? (reference name).toList = some ([], (reference name).toList) := by
  rw [toList_reference]
  rfl

theorem mentionsVar_reference (name : String) :
    Resolver.mentionsVar (reference name).toList = true := by
  rw [toList_reference]
  rfl

variable (h : IsWord name)
include h

theorem IsWord.isPlain : ∀ c ∈ name.toList, IsPlain c := fun c hc =>
  .of_isWordChar (List.all_eq_true.mp h.2 c hc)

theorem IsWord.splitList : splitList ',' name.toList = [name.toList] := by
  have hnotblank : name.toList.all isBlank = false := by
    obtain ⟨c, hc⟩ := List.exists_mem_of_ne_nil _ h.1
    exact List.all_eq_false.mpr ⟨c, hc, by simp [(h.isPlain c hc).blank]⟩
  have hpieces : listPieces ',' name.toList = [name.toList] := by
    rw [listPieces, if_pos (by decide), cut_plain h.isPlain]
  rw [Value.splitList, hnotblank, if_neg Bool.false_ne_true, hpieces, List.map_singleton,
    trim_plain h.isPlain]

/-- The reference to a name is a call of `var` with the name as its only argument. -/
theorem parse?_reference :
    Call.parse? (reference name).toList = some ⟨"var", [⟨name, false⟩]⟩ := by
  have htrim : trim (reference name).toList = (reference name).toList := by
    refine trim_eq_self fun c hc => ?_
    simp only [toList_reference, List.mem_cons, List.mem_append, List.not_mem_nil, or_false] at hc
    rcases hc with rfl | rfl | rfl | rfl | hc | rfl
    case inr.inr.inr.inr.inl => exact (h.isPlain c hc).blank
    all_goals decide
  have hparts : callParts? (reference name).toList = some (['v', 'a', 'r'], name.toList) := by
    simp [callParts?, toList_reference]
  have hfront : trim ['v', 'a', 'r'] = ['v', 'a', 'r'] := by decide
  have hname : lower (String.ofList ['v', 'a', 'r']) = "var" := by decide
  rw [Call.parse?, htrim, hparts]
  simp only [hfront, hname, staysOpen_plain h.isPlain, h.splitList, List.map_singleton,
    ofPiece_plain h.isPlain, String.ofList_toList]
  rfl

theorem referredName_reference : Resolver.referredName ⟨"var", [⟨name, false⟩]⟩ = name := by
  change trimmed name = name
  rw [trimmed, trim_plain h.isPlain, String.ofList_toList]

theorem splitCall?_reference :
    Segment.splitCall? (reference name).toList = some ((reference name).toList, []) := by
  have hclose := closeFrom_plain_append h.isPlain 1 [')']
  rw [toList_reference, Segment.splitCall?]
  simp [Segment.closeFrom, Quoting.step, isQuote, hclose]

/-- The reference to a name is the only segment of its text that is not empty. -/
theorem segments_reference :
    segments (reference name).toList = [.text [], .reference (reference name).toList, .text []] := by
  have hcall := splitCall?_reference h
  rw [segments_of_find? (find?_reference name), hcall]
  simp only [segments_of_find?_eq_none (show Segment.find? [] = none from rfl)]

end

/-! ## What it stands for -/

/-- Whether a text is a call that refers to a name, with or without a fallback. -/
def RefersTo (text : List Char) (name : String) : Prop :=
  ∃ call, Call.parse? text = some call ∧ Resolver.referredName call = name

theorem refersTo_reference {name : String} (h : IsWord name) :
    RefersTo (reference name).toList name :=
  ⟨_, parse?_reference h, referredName_reference h⟩

namespace Resolver

variable (r : Resolver) {name : String} {stack : List String}

/-- A reference to a variable that is found and not being expanded stands for its expansion. -/
theorem expandReference_of_lookup? {text : List Char} {v : Variable} (h : RefersTo text name)
    (hstack : name ∉ stack) (hv : r.lookup? name = some v) :
    r.expandReference stack text = r.expand (name :: stack) v.value.toList := by
  obtain ⟨call, hcall, rfl⟩ := h
  rw [expandReference, hcall]
  simp only [if_neg hstack, hv]

/-- A value without references is its own expansion. -/
theorem expand_of_find?_eq_none {value : List Char} (h : Segment.find? value = none)
    (hdepth : stack.length ≤ r.maxDepth) : r.expand stack value = .ok value := by
  rw [expand_eq, if_neg (Nat.not_lt.mpr hdepth), segments_of_find?_eq_none h]
  simp [expandSegment, bind, Except.bind, pure, Except.pure]

/-- What is left of an expansion in a value: the text, or nothing when it fails. -/
def outcome : Except ExpansionFailure (List Char) → String
  | .ok text => String.ofList text
  | .error _ => ""

/-- Substituting the reference to a name leaves what the reference stands for. -/
theorem substitute_reference (h : IsWord name) :
    r.substitute (reference name) = outcome (r.expandReference [] (reference name).toList) := by
  have hdepth : ¬ r.maxDepth < ([] : List String).length := Nat.not_lt_zero _
  rw [substitute, mentionsVar_reference, if_pos rfl, expand_eq, if_neg hdepth, segments_reference h]
  cases hcall : r.expandReference [] (reference name).toList with
  | ok text => simp [outcome, expandSegment, hcall, bind, Except.bind, pure, Except.pure]
  | error failure => simp [outcome, expandSegment, hcall, bind, Except.bind]

end Resolver

end WidgetStyle
