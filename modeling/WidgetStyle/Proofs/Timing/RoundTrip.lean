import WidgetStyle.Proofs.Decimal.Printing
import WidgetStyle.Proofs.Value.Balance
import WidgetStyle.Proofs.Value.Words
import WidgetStyle.Timing.Function

/-!
# WidgetStyle.Proofs.Timing.RoundTrip — timing functions read back

Reading gives three forms of timing functions (`TimingFunction.Written`): the curves that have a name,
steps that are counted by a positive number of 32 bits, and Bézier curves whose x coordinates lie between
0 and 1.  Each of them is read back from its text (`TimingFunction.Written.parse?_render`).

A name is looked up again.  The other two are printed as calls (`printedCall`), with numbers that no walk
over the text stops at, so that the arguments are read as they were printed
(`Call.parse?_printedCall`); numbers themselves are read back as `Decimal` has it.
-/

namespace WidgetStyle

open Text Value

/-! ## Printed calls -/

section Quiet

variable {cs : List Char} (h : ∀ c ∈ cs, isQuote c = false ∧ opensBracket c = false ∧
  closesBracket c = false)
include h

/-- Without quotation marks and brackets a text ends where it began. -/
theorem Nesting.after_of_quiet : Nesting.after {} cs = {} := by
  induction cs with
  | nil => rfl
  | cons c cs ih =>
      obtain ⟨hquote, hopens, hcloses⟩ := h c List.mem_cons_self
      have hstep : Nesting.step {} c = {} := by
        simp [Nesting.step, Quoting.step, hquote, hopens, hcloses]
      rw [Nesting.after, List.foldl_cons, hstep]
      exact ih fun d hd => h d (List.mem_cons_of_mem _ hd)

theorem staysOpen_of_quiet (depth : Nat) : staysOpen .outside depth cs = true := by
  induction cs with
  | nil => rfl
  | cons c cs ih =>
      obtain ⟨hquote, hopens, hcloses⟩ := h c List.mem_cons_self
      have hopen : c ≠ '(' := by
        rintro rfl
        exact absurd hopens (by decide)
      have hclose : c ≠ ')' := by
        rintro rfl
        exact absurd hcloses (by decide)
      have hstep : Quoting.outside.step c = .outside := by
        rw [Quoting.step, hquote, if_neg Bool.false_ne_true]
      rw [staysOpen_passes _ _ fun _ => ⟨hopen, hclose⟩, hstep]
      exact ih fun d hd => h d (List.mem_cons_of_mem _ hd)

end Quiet

/-- A comma, a blank and an argument, for each of the arguments. -/
def moreArguments (arguments : List (List Char)) : List Char :=
  arguments.flatMap fun argument => ',' :: ' ' :: argument

/-- A call as it is printed, with an argument at least. -/
def printedCall (name first : List Char) (more : List (List Char)) : List Char :=
  name ++ '(' :: ((first ++ moreArguments more) ++ [')'])

theorem uncut_of_comma_not_mem {cs : List Char} (st : Nesting) (h : ',' ∉ cs) :
    Uncut (· == ',') st cs := by
  rintro front c back rfl
  have hc : (c == ',') = false := by
    rw [beq_eq_false_iff_ne]
    rintro rfl
    exact h (by simp)
  simp [Nesting.cuts, hc]

/-- A text between commas. -/
structure IsItem (cs : List Char) : Prop where
  comma : ',' ∉ cs
  quiet : ∀ c ∈ cs, isQuote c = false ∧ opensBracket c = false ∧ closesBracket c = false

theorem IsItem.of_plain {cs : List Char} (h : ∀ c ∈ cs, IsPlain c) : IsItem cs where
  comma hmem := (h _ hmem).comma rfl
  quiet c hc := ⟨(h c hc).quote, (h c hc).opens, (h c hc).closes⟩

theorem IsItem.blank_cons {cs : List Char} (h : IsItem cs) : IsItem (' ' :: cs) where
  comma hmem := by
    rcases List.mem_cons.mp hmem with heq | hmem
    · exact absurd heq (by decide)
    · exact h.comma hmem
  quiet c hc := by
    rcases List.mem_cons.mp hc with rfl | hc
    · decide
    · exact h.quiet c hc

theorem cut_arguments {first : List Char} {more : List (List Char)} (hfirst : IsItem first)
    (hmore : ∀ argument ∈ more, IsItem argument) :
    cut (· == ',') (first ++ moreArguments more) = first :: more.map (' ' :: ·) := by
  induction more generalizing first with
  | nil =>
      rw [moreArguments, List.flatMap_nil, List.append_nil]
      exact cutFrom_of_uncut (uncut_of_comma_not_mem _ hfirst.comma)
  | cons argument more ih =>
      -- the first argument is over at the comma, and the blank goes to the next one
      have hcuts : (Nesting.after {} first).cuts (· == ',') ',' = true := by
        rw [Nesting.after_of_quiet hfirst.quiet]
        decide
      have hrest := ih (hmore argument List.mem_cons_self).blank_cons
        fun b hb => hmore b (List.mem_cons_of_mem _ hb)
      rw [moreArguments, List.flatMap_cons, List.cons_append]
      exact (cutFrom_append_cons (uncut_of_comma_not_mem _ hfirst.comma) hcuts).trans
        (congrArg (first :: ·) hrest)

/-- An argument that is read as it is printed. -/
structure IsArgument (cs : List Char) : Prop where
  ne_nil : cs ≠ []
  plain : ∀ c ∈ cs, IsPlain c

theorem trim_printedCall {name : List Char} (hname : name ≠ [])
    (hword : ∀ c ∈ name, isWordChar c = true) (first : List Char) (more : List (List Char)) :
    trim (printedCall name first more) = printedCall name first more := by
  obtain ⟨c, name, rfl⟩ := List.exists_cons_of_ne_nil hname
  have hc : isBlank c = false := (IsPlain.of_isWordChar (hword c List.mem_cons_self)).blank
  have hends := trim_of_ends hc (d := ')') (by decide) (name ++ '(' :: (first ++ moreArguments more))
  rwa [List.append_assoc, List.cons_append] at hends

section PrintedCall

variable {name first : List Char} {more : List (List Char)} (hfirst : IsArgument first)
  (hmore : ∀ argument ∈ more, IsArgument argument)
include hfirst hmore

theorem splitList_arguments : splitList ',' (first ++ moreArguments more) = first :: more := by
  obtain ⟨c, hc⟩ := List.exists_mem_of_ne_nil _ hfirst.ne_nil
  have hnotblank : (first ++ moreArguments more).all isBlank = false :=
    List.all_eq_false.mpr ⟨c, List.mem_append_left _ hc, by simp [(hfirst.plain c hc).blank]⟩
  have hcut := cut_arguments (.of_plain hfirst.plain) fun b hb => .of_plain (hmore b hb).plain
  have htrim : (more.map (' ' :: ·)).map trim = more := by
    rw [List.map_map]
    exact (List.map_congr_left fun b hb => trim_plain (hmore b hb).plain).trans (List.map_id more)
  rw [splitList, hnotblank, if_neg Bool.false_ne_true, listPieces, if_pos (by decide), hcut,
    List.map_cons, trim_plain hfirst.plain, htrim]

theorem staysOpen_arguments (depth : Nat) :
    staysOpen .outside depth (first ++ moreArguments more) = true := by
  refine staysOpen_of_quiet (fun c hc => ?_) depth
  rcases List.mem_append.mp hc with hc | hc
  · exact (IsItem.of_plain hfirst.plain).quiet c hc
  · obtain ⟨argument, hargument, hc⟩ := List.mem_flatMap.mp hc
    rcases List.mem_cons.mp hc with rfl | hc
    · decide
    · exact (IsItem.of_plain (hmore argument hargument).plain).blank_cons.quiet c hc

/-- A printed call is read with the arguments as they were printed. -/
theorem Call.parse?_printedCall (hname : name ≠ []) (hword : ∀ c ∈ name, isWordChar c = true) :
    Call.parse? (printedCall name first more) = some ⟨lower (String.ofList name),
      (first :: more).map fun argument => ⟨String.ofList argument, false⟩⟩ := by
  have hplain : ∀ c ∈ name, IsPlain c := fun c hc => .of_isWordChar (hword c hc)
  have hparts : callParts? (printedCall name first more) =
      some (name, first ++ moreArguments more) :=
    callParts?_eq_some_iff.mpr ⟨rfl, fun hmem => (hplain _ hmem).ne_open rfl⟩
  have hrefuses : (name.isEmpty || !name.all isWordChar ||
      !staysOpen .outside 1 (first ++ moreArguments more)) = false := by
    rw [staysOpen_arguments hfirst hmore, List.all_eq_true.mpr hword, List.isEmpty_eq_false_iff.mpr hname]
    rfl
  have hpieces : (first :: more).map Argument.ofPiece =
      (first :: more).map fun argument => ⟨String.ofList argument, false⟩ := by
    refine List.map_congr_left fun argument hargument => ofPiece_plain ?_
    rcases List.mem_cons.mp hargument with rfl | hargument
    · exact hfirst.plain
    · exact (hmore argument hargument).plain
  rw [Call.parse?, trim_printedCall hname hword, hparts]
  simp only [trim_plain hplain, hrefuses, Bool.false_eq_true, if_false,
    splitList_arguments hfirst hmore, hpieces]

end PrintedCall

theorem map_toLower_printedCall (name first : List Char) (more : List (List Char)) :
    (printedCall name first more).map Char.toLower =
      printedCall (name.map Char.toLower) (first.map Char.toLower)
        (more.map fun argument => argument.map Char.toLower) := by
  have hmore : (moreArguments more).map Char.toLower =
      moreArguments (more.map fun argument => argument.map Char.toLower) := by
    rw [moreArguments, moreArguments, List.map_flatMap, List.flatMap_map]
    rfl
  simp only [printedCall, List.map_append, List.map_cons, List.map_nil, hmore]
  rfl

/-! ## Printed numbers as arguments -/

theorem isWordChar_of_isDigit {c : Char} (h : Decimal.isDigit c = true) : isWordChar c = true := by
  have : isAsciiAlphanumeric c = true := Bool.or_eq_true_iff.mpr (Or.inr h)
  rw [isWordChar, this]
  rfl

theorem isPlain_point : IsPlain '.' := ⟨by decide, by decide, by decide, by decide, by decide⟩

/-- The text of a double in lower case is one argument. -/
theorem isArgument_positional (x : Float) :
    IsArgument ((Decimal.positional x).toList.map Char.toLower) := by
  by_cases hnan : Double.infinityBits < Double.magnitude x
  · rw [Decimal.toList_positional_of_nan hnan]
    refine ⟨List.cons_ne_nil _ _, fun c hc => .of_isWordChar ?_⟩
    fin_cases hc <;> rfl
  · rw [Decimal.map_toLower_positional (not_lt.mp hnan)]
    refine ⟨Decimal.positional_ne_nil x, fun c hc => ?_⟩
    rcases Decimal.mem_positional (not_lt.mp hnan) hc with hc | hc
    · exact .of_isWordChar (isWordChar_of_isDigit hc)
    · fin_cases hc
      case «1» => exact isPlain_point
      all_goals exact .of_isWordChar rfl

namespace TimingFunction

/-! ## Reading the forms -/

/-- What reading gives: a curve with a name, a Bézier curve with x coordinates between 0 and 1, or
steps. -/
inductive Written : TimingFunction → Prop
  | linear : Written (named .linear)
  | eased (family : CurveFamily) (direction : EaseDirection) : Written (named (.eased family direction))
  | bezier {x₁ y₁ x₂ y₂ : Float} (h₁ : inUnit x₁ = true) (h₂ : inUnit x₂ = true) :
      Written (bezier x₁ y₁ x₂ y₂)
  | steps {count : Nat} (position : StepPosition) (hpos : 0 < count) (hlt : count < UInt32.size) :
      Written (steps count position)

theorem written_of_ofName? {name : String} {curve : Curve} (h : Curve.ofName? name = some curve) :
    Written (named curve) := by
  rw [Curve.ofName?] at h
  split at h
  · obtain ⟨family, -, rfl⟩ := Option.map_eq_some_iff.mp h
    exact .eased family _
  · obtain ⟨-, hcurve⟩ := Option.ite_none_right_eq_some.mp h
    rw [← Option.some_inj.mp hcurve]
    exact .linear

theorem nodup_keywords : (keywords.map Prod.fst).Nodup := by decide

theorem written_of_lookup {text : String} {f : TimingFunction} (h : keywords.lookup text = some f) :
    Written f := by
  have hmem := (Assoc.lookup_eq_some_iff nodup_keywords).mp h
  simp only [keywords, List.mem_cons, Prod.mk.injEq, List.not_mem_nil, or_false] at hmem
  rcases hmem with ⟨-, rfl⟩ | ⟨-, rfl⟩ | ⟨-, rfl⟩ | ⟨-, rfl⟩ | ⟨-, rfl⟩ | ⟨-, rfl⟩ | ⟨-, rfl⟩
  · exact .linear
  · exact .bezier rfl rfl
  · exact .bezier rfl rfl
  · exact .bezier rfl rfl
  · exact .bezier rfl rfl
  · exact .steps .start one_pos (by decide)
  · exact .steps .finish one_pos (by decide)

theorem written_of_ofBezierArguments? {arguments : List String} {f : TimingFunction}
    (h : ofBezierArguments? arguments = some f) : Written f := by
  rw [ofBezierArguments?] at h
  split at h
  · obtain ⟨hunit, hf⟩ := Option.ite_none_right_eq_some.mp h
    obtain ⟨h₁, h₂⟩ := Bool.and_eq_true_iff.mp hunit
    rw [← Option.some_inj.mp hf]
    exact .bezier h₁ h₂
  · exact absurd h (Option.some_ne_none _).symm

theorem written_of_ofStepArguments? {arguments : List String} {f : TimingFunction}
    (h : ofStepArguments? arguments = some f) : Written f := by
  rw [ofStepArguments?] at h
  split at h
  · exact absurd h (Option.some_ne_none _).symm
  · split at h
    · next count position hcount hposition =>
        obtain ⟨hne, hf⟩ := Option.ite_none_left_eq_some.mp h
        rw [← Option.some_inj.mp hf]
        exact .steps position (Nat.pos_of_ne_zero hne) (Decimal.lt_of_readNat? hcount)
    · exact absurd h (Option.some_ne_none _).symm

theorem written_of_parse? {text : String} {f : TimingFunction} (h : parse? text = some f) :
    Written f := by
  rw [parse?] at h
  split at h
  · next hkeyword =>
      rw [← Option.some_inj.mp h]
      exact written_of_lookup hkeyword
  · split at h
    · obtain ⟨call, -, hcall⟩ := Option.bind_eq_some_iff.mp h
      rw [ofCall?] at hcall
      split at hcall
      · exact written_of_ofBezierArguments? hcall
      · obtain ⟨-, hsteps⟩ := Option.ite_none_right_eq_some.mp hcall
        exact written_of_ofStepArguments? hsteps
    · obtain ⟨curve, hcurve, rfl⟩ := Option.map_eq_some_iff.mp h
      exact written_of_ofName? hcurve

/-! ## Reading what is printed -/

theorem parse?_name (family : CurveFamily) (direction : EaseDirection) :
    parse? (Curve.eased family direction).name = some (named (.eased family direction)) := by
  cases family <;> cases direction <;> rfl

/-- No keyword is a call. -/
theorem lookup_keywords_of_mem {text : String} (h : '(' ∈ text.toList) :
    keywords.lookup text = none := by
  refine List.lookup_eq_none_iff.mpr fun keyword hkeyword => ?_
  have hcall : '(' ∉ keyword.1.toList := by
    have : ∀ name ∈ keywords.map Prod.fst, '(' ∉ name.toList := by decide
    exact this _ (List.mem_map_of_mem hkeyword)
  rw [bne_iff_ne]
  rintro rfl
  exact hcall h

/-- A printed call is read by its arguments in lower case. -/
theorem parse?_printedCall {text : String} {name first : List Char} {more : List (List Char)}
    (htext : text.toList = printedCall name first more) (hname : name ≠ [])
    (hword : ∀ c ∈ name, isWordChar c = true) (hlower : name.map Char.toLower = name)
    (hfirst : IsArgument (first.map Char.toLower))
    (hmore : ∀ argument ∈ more, IsArgument (argument.map Char.toLower)) :
    parse? text = ofCall? ⟨String.ofList name, (first :: more).map fun argument =>
      ⟨String.ofList (argument.map Char.toLower), false⟩⟩ := by
  have hread : (lower (trimmed text)).toList = printedCall name (first.map Char.toLower)
      (more.map fun argument => argument.map Char.toLower) := by
    rw [toList_lower, toList_trimmed, htext, trim_printedCall hname hword, map_toLower_printedCall,
      hlower]
  -- the parenthesis rules out the keywords and leads to the reader of calls
  have hopen : '(' ∈ (lower (trimmed text)).toList := by simp [hread, printedCall]
  have hmore' : ∀ argument ∈ more.map (·.map Char.toLower), IsArgument argument := by
    simpa using hmore
  have hcall := Call.parse?_printedCall hfirst hmore' hname hword
  rw [parse?, lookup_keywords_of_mem hopen]
  dsimp only
  rw [if_pos (List.contains_iff_mem.mpr hopen), hread, hcall, Option.bind_some, lower,
    String.toList_ofList, hlower, ← List.map_cons, List.map_map]
  rfl

theorem toList_render_bezier (x₁ y₁ x₂ y₂ : Float) :
    (bezier x₁ y₁ x₂ y₂).render.toList =
      printedCall "cubic-bezier".toList (Decimal.positional x₁).toList
        [(Decimal.positional y₁).toList, (Decimal.positional x₂).toList,
          (Decimal.positional y₂).toList] := by
  simp [render, bezier, printedCall, moreArguments]

/-- The word for a position. -/
def positionName : StepPosition → String
  | .start => "start"
  | .finish => "end"

theorem toList_render_steps (count : Nat) (position : StepPosition) :
    (steps count position).render.toList =
      printedCall "steps".toList (Decimal.positional (Float.ofNat (max count 1))).toList
        [(positionName position).toList] := by
  have hstart : (0.0 : Float) < 1.0 := by decide
  have hfinish : ¬(0.0 : Float) < 0.0 := by decide
  cases position <;> simp [render, steps, printedCall, moreArguments, positionName, hstart, hfinish]

theorem parse?_render_bezier {x₁ y₁ x₂ y₂ : Float} (h₁ : inUnit x₁ = true) (h₂ : inUnit x₂ = true) :
    parse? (bezier x₁ y₁ x₂ y₂).render = some (bezier x₁ y₁ x₂ y₂) := by
  have hread : ∀ x : Float, Decimal.readFloat?
      (trim (String.ofList ((Decimal.positional x).toList.map Char.toLower)).toList) = some x := by
    intro x
    rw [String.toList_ofList, trim_plain (isArgument_positional x).plain,
      Decimal.readFloat?_lower_positional]
  have hmore : ∀ argument ∈ [(Decimal.positional y₁).toList, (Decimal.positional x₂).toList,
      (Decimal.positional y₂).toList], IsArgument (argument.map Char.toLower) := by
    simp only [List.forall_mem_cons]
    exact ⟨isArgument_positional _, isArgument_positional _, isArgument_positional _, nofun⟩
  have hname : String.ofList "cubic-bezier".toList = "cubic-bezier" := String.ofList_toList
  have hword : "cubic-bezier".toList.all isWordChar = true := by decide
  rw [parse?_printedCall (toList_render_bezier x₁ y₁ x₂ y₂) (by decide) (List.all_eq_true.mp hword)
    (by decide) (isArgument_positional x₁) hmore, ofCall?, hname]
  simp only [if_true, List.map_cons, List.map_nil]
  rw [ofBezierArguments?]
  simp only [List.map_cons, List.map_nil, hread, h₁, h₂, Bool.and_self, if_true]

theorem parse?_render_steps {count : Nat} (position : StepPosition) (hpos : 0 < count)
    (hlt : count < UInt32.size) :
    parse? (steps count position).render = some (steps count position) := by
  have hmax : max count 1 = count := max_eq_left hpos
  have htext := toList_render_steps count position
  rw [hmax] at htext
  have hcount : Decimal.readNat? UInt32.size (trim (String.ofList
      ((Decimal.positional (Float.ofNat count)).toList.map Char.toLower)).toList) = some count := by
    obtain ⟨-, -, hfin, -⟩ := Double.bitsValue_ofNat hpos (hlt.trans (by decide))
    rw [String.toList_ofList, trim_plain (isArgument_positional _).plain,
      Decimal.map_toLower_positional hfin.le, Decimal.readNat?_positional_ofNat hpos hlt hlt]
  have hmore : ∀ argument ∈ [(positionName position).toList],
      IsArgument (argument.map Char.toLower) := by
    rintro argument hargument
    obtain rfl := List.mem_singleton.mp hargument
    refine ⟨by cases position <;> decide, fun c hc => .of_isWordChar ?_⟩
    have hall : ((positionName position).toList.map Char.toLower).all isWordChar = true := by
      cases position <;> decide
    exact List.all_eq_true.mp hall c hc
  have hposition : stepPosition? (some (String.ofList
      ((positionName position).toList.map Char.toLower))) = some position := by
    cases position <;> decide
  have hname : String.ofList "steps".toList = "steps" := String.ofList_toList
  have hword : "steps".toList.all isWordChar = true := by decide
  have hne : "steps" ≠ "cubic-bezier" := by decide
  rw [parse?_printedCall htext (by decide) (List.all_eq_true.mp hword) (by decide)
    (isArgument_positional _) hmore, ofCall?, hname]
  simp only [hne, if_false, if_true, List.map_cons, List.map_nil]
  rw [ofStepArguments?]
  simp only [List.getElem?_cons_zero, List.getElem?_cons_succ, hcount, hposition, hpos.ne', if_false]

/-- Each of the forms is read back from its text. -/
theorem Written.parse?_render {f : TimingFunction} (h : Written f) : parse? f.render = some f := by
  cases h with
  | linear => rfl
  | eased family direction => exact parse?_name family direction
  | bezier h₁ h₂ => exact parse?_render_bezier h₁ h₂
  | steps position hpos hlt => exact parse?_render_steps position hpos hlt

/-- So the forms are all that reading gives, and it gives each of them. -/
theorem written_iff_exists_parse? {f : TimingFunction} :
    Written f ↔ ∃ text, parse? text = some f :=
  ⟨fun h => ⟨f.render, h.parse?_render⟩, fun ⟨_, h⟩ => written_of_parse? h⟩

/-- **Timing functions read back.**  What is read from a text is read again from its own text, with the
same curve and the same parameters; what is no number is the same as itself. -/
theorem parse?_render_of_parse? {text : String} {f : TimingFunction} (h : parse? text = some f) :
    parse? f.render = some f :=
  (written_of_parse? h).parse?_render

/-- The statement at a curve with an infinite coordinate and one that is no number, and at the largest
count of steps. -/
theorem parse?_render_of_parse?_extremes :
    let curve := bezier 0.25 (-1.0 / 0.0) 1.0 (0.0 / 0.0)
    let stairs := steps 4294967295 .start
    parse? "Cubic-Bezier(.25, -INF, 1e0, nan)" = some curve ∧
      curve.render = "cubic-bezier(0.25, -inf, 1, NaN)" ∧ parse? curve.render = some curve ∧
      parse? "steps( +4294967295 , jump-start)" = some stairs ∧
      stairs.render = "steps(4294967295, start)" ∧ parse? stairs.render = some stairs := by
  intro curve stairs
  have hcurve : parse? "Cubic-Bezier(.25, -INF, 1e0, nan)" = some curve := by rfl
  have hstairs : parse? "steps( +4294967295 , jump-start)" = some stairs := by rfl
  exact ⟨hcurve, by decide +kernel, parse?_render_of_parse? hcurve, hstairs, by decide +kernel,
    parse?_render_of_parse? hstairs⟩

end TimingFunction

end WidgetStyle
