import WidgetStyle.Proofs.Source.Lookahead

/-!
# WidgetStyle.Proofs.Source.Stops — how far reading looks ahead

Reading a lexeme looks ahead, but never past a semicolon or a closing curly bracket, unless it takes
that character into the lexeme.

To say so, two texts are compared that agree up to such a stop and may differ behind it (`Alike`).
Every run that ends in front of the stop ends at the same place in both (`Alike.extent_eq`); so does
every lexeme (`Alike.firstLexeme_eq`).
-/

namespace WidgetStyle.Source

open Text

/-! ## Texts that are alike up to a stop -/

/-- Two texts that agree in `n` characters and in a stop behind them. -/
inductive Alike : Nat → List Char → List Char → Prop
  | stop {s : Char} (hs : IsStop s) (u u' : List Char) : Alike 0 (s :: u) (s :: u')
  | cons (c : Char) {n : Nat} {u u' : List Char} (h : Alike n u u') :
      Alike (n + 1) (c :: u) (c :: u')

namespace Alike

variable {n k : Nat} {c : Char} {u u' : List Char}

theorem of_append {s : Char} (hs : IsStop s) (front u u' : List Char) :
    Alike front.length (front ++ s :: u) (front ++ s :: u') := by
  induction front with
  | nil => exact .stop hs u u'
  | cons c front ih => exact .cons c ih

/-- What two such texts are made of. -/
theorem exists_append (h : Alike n u u') :
    ∃ s front v v', IsStop s ∧ n = front.length ∧ u = front ++ s :: v ∧ u' = front ++ s :: v' := by
  induction h with
  | @stop s hs v v' => exact ⟨s, [], v, v', hs, rfl, rfl, rfl⟩
  | cons c _ ih =>
      obtain ⟨s, front, v, v', hs, rfl, rfl, rfl⟩ := ih
      exact ⟨s, c :: front, v, v', hs, rfl, rfl, rfl⟩

/-- What is seen of a text as if it ended at a stop is the same in both texts. -/
theorem eq_of_append_stop {β : Type} {f : List Char → β} (h : Alike n u u')
    (hf : ∀ {s}, IsStop s → ∀ front v, f (front ++ s :: v) = f front) : f u' = f u := by
  obtain ⟨s, front, v, v', hs, -, rfl, rfl⟩ := h.exists_append
  rw [hf hs, hf hs]

/-- The same for what is seen of a text that does not begin with the stop. -/
theorem eq_of_append_stop_of_ne_nil {β : Type} {f : List Char → β} (h : Alike n u u')
    (hstop : ∀ {s}, IsStop s → ∀ v v', f (s :: v') = f (s :: v))
    (hf : ∀ {s}, IsStop s → ∀ {front}, front ≠ [] → ∀ v, f (front ++ s :: v) = f front) :
    f u' = f u := by
  obtain ⟨s, front, v, v', hs, -, rfl, rfl⟩ := h.exists_append
  by_cases hfront : front = []
  · subst hfront
    exact hstop hs v v'
  · rw [hf hs hfront, hf hs hfront]

theorem lt_length (h : Alike n u u') : n < u.length := by
  induction h with
  | stop => exact Nat.succ_pos _
  | cons _ _ ih => exact Nat.succ_lt_succ ih

theorem drop (h : Alike n u u') (hk : k ≤ n) :
    ∃ m, n = k + m ∧ Alike m (u.drop k) (u'.drop k) := by
  induction h generalizing k with
  | stop hs u u' =>
      obtain rfl := Nat.le_zero.mp hk
      exact ⟨0, rfl, .stop hs u u'⟩
  | @cons c n u u' h ih =>
      cases k with
      | zero => exact ⟨n + 1, (Nat.zero_add _).symm, .cons c h⟩
      | succ k =>
          obtain ⟨m, rfl, hm⟩ := ih (Nat.le_of_succ_le_succ hk)
          exact ⟨m, Nat.add_right_comm k m 1, hm⟩

theorem take_eq (h : Alike n u u') (hk : k ≤ n) : u'.take k = u.take k := by
  induction h generalizing k with
  | stop hs u u' =>
      obtain rfl := Nat.le_zero.mp hk
      rfl
  | cons c h ih =>
      cases k with
      | zero => rfl
      | succ k => rw [List.take_succ_cons, List.take_succ_cons, ih (Nat.le_of_succ_le_succ hk)]

theorem head?_eq (h : Alike n u u') : u'.head? = u.head? := by
  cases h <;> rfl

/-- A mark without stops stands in front of both texts or of none. -/
theorem isPrefixOf_eq (h : Alike n u u') {mark : List Char} (hmark : ∀ c ∈ mark, ¬IsStop c) :
    mark.isPrefixOf u' = mark.isPrefixOf u :=
  h.eq_of_append_stop fun hs => isPrefixOf_append_stop hs hmark

/-! ## Runs -/

/-- A run that ends in front of the stop ends at the same place in both texts. -/
theorem extent_eq {step : Char → List Char → Option Nat}
    (hstep : ∀ {n c u u'}, Alike n (c :: u) (c :: u') → step c u' = step c u) (h : Alike n u u')
    (hle : extent step k u ≤ n) : extent step k u' = extent step k u := by
  induction h generalizing k with
  | @stop s hs u u' =>
      cases k with
      | succ k => exact absurd hle (Nat.not_succ_le_zero _)
      | zero =>
          rw [extent] at hle ⊢
          rw [extent, hstep (.stop hs u u')]
          cases hend : step s u with
          | none => rfl
          | some j => exact absurd (hend ▸ hle) (Nat.not_succ_le_zero _)
  | @cons c n u u' h ih =>
      cases k with
      | succ k => rw [extent, extent, ih (Nat.le_of_succ_le_succ hle)]
      | zero =>
          rw [extent] at hle ⊢
          rw [extent, hstep (.cons c h)]
          cases hgo : step c u with
          | none => rfl
          | some j =>
              rw [hgo] at hle
              exact congrArg (· + 1) (ih (Nat.le_of_succ_le_succ hle))

/-! ## Looking ahead -/

theorem startsLine_eq (h : Alike n u u') : startsLine u' = startsLine u :=
  h.eq_of_append_stop startsLine_append_stop

theorem startsNumber_eq (h : Alike n u u') : startsNumber u' = startsNumber u :=
  h.eq_of_append_stop startsNumber_append_stop

theorem startsName_eq (h : Alike n u u') : startsName u' = startsName u :=
  h.eq_of_append_stop startsName_append_stop

theorem newlineExtent_eq (h : Alike n u u') : newlineExtent u' = newlineExtent u :=
  h.eq_of_append_stop_of_ne_nil (by rintro s (rfl | rfl) v v' <;> rfl) newlineExtent_append_stop

/-- The digits of an escape end in front of the stop, and so does the blank behind them. -/
theorem escapeExtent_eq (h : Alike n u u') : escapeExtent u' = escapeExtent u :=
  h.eq_of_append_stop_of_ne_nil (by rintro s (rfl | rfl) v v' <;> rfl) escapeExtent_append_stop

theorem nameStep_eq (h : Alike n (c :: u) (c :: u')) : nameStep c u' = nameStep c u := by
  cases h with
  | stop hs u u' => rcases hs with rfl | rfl <;> rfl
  | cons c h => rw [nameStep, nameStep, h.startsLine_eq, h.escapeExtent_eq]

theorem stringStep_eq (quote : Char) (h : Alike n (c :: u) (c :: u')) :
    stringStep quote c u' = stringStep quote c u := by
  cases h with
  | stop hs u u' => rcases hs with rfl | rfl <;> rfl
  | cons c h =>
      rw [stringStep, stringStep, h.startsLine_eq, h.escapeExtent_eq, h.newlineExtent_eq]

theorem commentStep_eq (h : Alike n (c :: u) (c :: u')) : commentStep c u' = commentStep c u := by
  cases h with
  | stop hs u u' => rcases hs with rfl | rfl <;> rfl
  | cons c h => rw [commentStep, commentStep, h.head?_eq]

theorem addressStep_eq (h : Alike n (c :: u) (c :: u')) : addressStep c u' = addressStep c u := by
  cases h with
  | stop hs u u' => rcases hs with rfl | rfl <;> rfl
  | cons c h => rw [addressStep, addressStep, h.startsLine_eq, h.escapeExtent_eq]

theorem brokenAddressStep_eq (h : Alike n (c :: u) (c :: u')) :
    brokenAddressStep c u' = brokenAddressStep c u := by
  cases h with
  | stop hs u u' => rcases hs with rfl | rfl <;> rfl
  | cons c h => rw [brokenAddressStep, brokenAddressStep, h.head?_eq]

end Alike

/-! ## Lexemes of more than one character -/

/-- What ends in front of the stop in any case, at the same place in both texts. -/
def Bounded (f : List Char → Nat) : Prop :=
  ∀ ⦃n : Nat⦄ ⦃u u' : List Char⦄, Alike n u u' → f u' = f u ∧ f u ≤ n

theorem Plain.bounded {f : List Char → Nat} (hf : Plain f) : Bounded f := by
  intro n u u' h
  obtain ⟨s, front, v, v', hs, rfl, rfl, rfl⟩ := h.exists_append
  rw [hf.same hs, hf.same hs]
  exact ⟨rfl, hf.le_length front⟩

/-- The unit behind a number. -/
def unitExtent (cs : List Char) : Nat :=
  if cs.head? = some '%' then 1 else if startsName cs then nameExtent cs else 0

theorem numberLexeme_eq_unit (cs : List Char) :
    numberLexeme cs = (.number, numberExtent cs + unitExtent (cs.drop (numberExtent cs))) := by
  rw [numberLexeme]
  generalize numberExtent cs = n
  split
  · next heq => simp only [heq, unitExtent, List.head?_cons, if_true]
  · next hpercent =>
      have hhead : (cs.drop n).head? ≠ some '%' := fun hhead => by
        obtain ⟨more, hmore⟩ := List.head?_eq_some_iff.mp hhead
        exact hpercent more hmore
      rw [unitExtent, if_neg hhead]
      split <;> rfl

/-- The rest of an unquoted address after its leading blanks, and whether it is well formed. -/
def unquotedExtent (cs : List Char) : Bool × Nat :=
  let body := extent addressStep 0 cs
  let gap := body + blankExtent (cs.drop body)
  match cs.drop gap with
  | [] => (true, gap)
  | d :: more => if d = ')' then (true, gap + 1) else (false, gap + 1 + brokenAddressExtent more)

theorem addressExtent?_eq_unquoted (cs : List Char) :
    addressExtent? cs =
      if (cs.drop (blankExtent cs)).head?.any isQuote then none
      else some ((unquotedExtent (cs.drop (blankExtent cs))).1,
        blankExtent cs + (unquotedExtent (cs.drop (blankExtent cs))).2) := by
  obtain ⟨lead, hlead⟩ : ∃ lead, extent (whileChar isAsciiBlank) 0 cs = lead := ⟨_, rfl⟩
  simp only [addressExtent?, blankExtent, hlead]
  cases hrest : cs.drop lead with
  | nil => rfl
  | cons c v =>
      have hdrop : ∀ k, cs.drop (lead + k) = (c :: v).drop k := fun k => by
        rw [← List.drop_drop, hrest]
      simp only [List.head?_cons, Option.any_some, hdrop, Nat.add_assoc, unquotedExtent, blankExtent]
      refine ite_congr rfl (fun _ => rfl) fun _ => ?_
      cases (c :: v).drop (extent addressStep 0 (c :: v) + extent (whileChar isAsciiBlank) 0
        ((c :: v).drop (extent addressStep 0 (c :: v)))) with
      | nil => rfl
      | cons d more =>
          simp only
          split <;> rfl

namespace Alike

variable {n m : Nat} {kind : Kind} {c : Char} {u u' : List Char}

theorem nameExtent_eq (h : Alike n u u') (hle : nameExtent u ≤ n) : nameExtent u' = nameExtent u :=
  h.extent_eq nameStep_eq hle

theorem unitExtent_eq (h : Alike n u u') (hle : unitExtent u ≤ n) :
    unitExtent u' = unitExtent u := by
  rw [unitExtent] at hle
  rw [unitExtent, unitExtent, h.head?_eq, h.startsName_eq]
  refine ite_congr rfl (fun _ => rfl) fun hpercent => ite_congr rfl (fun hname => ?_) fun _ => rfl
  rw [if_neg hpercent, if_pos hname] at hle
  exact h.nameExtent_eq hle

theorem numberLexeme_eq (h : Alike n u u') (hle : (numberLexeme u).2 ≤ n) :
    numberLexeme u' = numberLexeme u := by
  obtain ⟨hnumber, hnumber'⟩ := plain_numberExtent.bounded h
  obtain ⟨m, rfl, hrest⟩ := h.drop hnumber'
  rw [numberLexeme_eq_unit] at hle ⊢
  rw [numberLexeme_eq_unit, hnumber, hrest.unitExtent_eq (Nat.le_of_add_le_add_left hle)]

theorem stringLexeme_eq (quote : Char) (h : Alike n u u') (hle : (stringLexeme quote u).2 ≤ n + 1) :
    stringLexeme quote u' = stringLexeme quote u := by
  have hbody' : extent (stringStep quote) 0 u ≤ n := by
    simp only [stringLexeme] at hle
    split at hle
    · omega
    · split at hle <;> omega
  have hbody := h.extent_eq (fun h => h.stringStep_eq quote) hbody'
  obtain ⟨m, -, hrest⟩ := h.drop hbody'
  simp only [stringLexeme, hbody]
  generalize u.drop (extent (stringStep quote) 0 u) = v at hrest ⊢
  generalize u'.drop (extent (stringStep quote) 0 u) = v' at hrest ⊢
  cases hrest <;> rfl

theorem brokenAddressExtent_eq (h : Alike n u u') (hle : brokenAddressExtent u ≤ n) :
    brokenAddressExtent u' = brokenAddressExtent u := by
  have hbody' : extent brokenAddressStep 0 u ≤ n := by
    simp only [brokenAddressExtent] at hle
    split at hle <;> omega
  have hbody := h.extent_eq brokenAddressStep_eq hbody'
  obtain ⟨m, -, hrest⟩ := h.drop hbody'
  simp only [brokenAddressExtent, hbody]
  generalize u.drop (extent brokenAddressStep 0 u) = v at hrest ⊢
  generalize u'.drop (extent brokenAddressStep 0 u) = v' at hrest ⊢
  cases hrest <;> rfl

theorem unquotedExtent_eq (h : Alike n u u') (hle : (unquotedExtent u).2 ≤ n) :
    unquotedExtent u' = unquotedExtent u := by
  have hbody' : extent addressStep 0 u ≤ n := by
    simp only [unquotedExtent] at hle
    split at hle
    · simp only at hle
      omega
    · split at hle <;> simp only at hle <;> omega
  have hbody := h.extent_eq addressStep_eq hbody'
  obtain ⟨m, rfl, hrest⟩ := h.drop hbody'
  obtain ⟨hgap, hgap'⟩ := plain_blankExtent.bounded hrest
  obtain ⟨k, hk, hrest⟩ := h.drop (Nat.add_le_add_left hgap' _)
  simp only [unquotedExtent, hbody, hgap] at hle ⊢
  rw [hk] at hle
  generalize extent addressStep 0 u + blankExtent (u.drop (extent addressStep 0 u)) = gap
    at hrest hle ⊢
  generalize u.drop gap = v at hrest hle ⊢
  generalize u'.drop gap = v' at hrest ⊢
  cases hrest with
  | stop hs w w' =>
      rcases hs with rfl | rfl <;> exact absurd hle (by simp only [Char.reduceEq, if_false]; omega)
  | cons d hmore =>
      by_cases hd : d = ')'
      · simp only [hd, if_true]
      · simp only [hd, if_false] at hle ⊢
        rw [hmore.brokenAddressExtent_eq (by omega)]

theorem addressExtent?_eq (h : Alike n u u') (hle : ∀ x ∈ addressExtent? u, x.2 ≤ n) :
    addressExtent? u' = addressExtent? u := by
  obtain ⟨hlead, hlead'⟩ := plain_blankExtent.bounded h
  obtain ⟨m, rfl, hrest⟩ := h.drop hlead'
  rw [addressExtent?_eq_unquoted] at hle
  rw [addressExtent?_eq_unquoted, addressExtent?_eq_unquoted, hlead, hrest.head?_eq]
  refine ite_congr rfl (fun _ => rfl) fun hquote => ?_
  rw [if_neg hquote] at hle
  rw [hrest.unquotedExtent_eq (Nat.le_of_add_le_add_left (hle _ rfl))]

theorem nameLexeme_eq (h : Alike n u u') (hle : (nameLexeme u).2 ≤ n) :
    nameLexeme u' = nameLexeme u := by
  have hname' : nameExtent u ≤ n := by
    simp only [nameLexeme] at hle
    split at hle
    · split at hle
      · split at hle <;> simp only at hle <;> omega
      · simp only at hle
        omega
    · exact hle
  obtain ⟨m, rfl, hrest⟩ := h.drop hname'
  simp only [nameLexeme, h.nameExtent_eq hname', h.take_eq hname'] at hle ⊢
  generalize u.drop (nameExtent u) = v at hrest hle ⊢
  generalize u'.drop (nameExtent u) = v' at hrest ⊢
  cases hrest with
  | stop hs w w' => rcases hs with rfl | rfl <;> rfl
  | cons d hmore =>
      by_cases hd : d = '('
      · subst hd
        simp only at hle ⊢
        split
        · next hurl =>
            rw [if_pos hurl] at hle
            rw [hmore.addressExtent?_eq fun x hx => by
              rw [Option.mem_def.mp hx] at hle
              simp only at hle
              omega]
        · rfl
      · simp [hd]

/-- What is settled in every case is settled. -/
theorem ite_settled {test : Prop} [Decidable test] {x x' y y' : Kind × Nat}
    (hx : x.2 ≤ n → x' = x) (hy : y.2 ≤ n → y' = y) (hle : (if test then x else y).2 ≤ n) :
    (if test then x' else y') = if test then x else y := by
  split at hle
  · next htest => rw [if_pos htest, if_pos htest, hx hle]
  · next htest => rw [if_neg htest, if_neg htest, hy hle]

/-- A lexeme that ends in front of the stop is the same in both texts. -/
theorem measure_eq (h : Alike n (c :: u) (c :: u')) (hle : (measure c u).2 ≤ n) :
    measure c u' = measure c u := by
  cases h with
  | stop hs u u' => rcases hs with rfl | rfl <;> rfl
  | @cons c n u u' h =>
      have hself := Alike.cons c h
      have hname : 1 + nameExtent u ≤ n + 1 → 1 + nameExtent u' = 1 + nameExtent u := fun hle => by
        rw [h.nameExtent_eq (by omega)]
      have hclose : ['-', '>'].isPrefixOf u' = ['-', '>'].isPrefixOf u :=
        h.isPrefixOf_eq (by simp [IsStop])
      have hopen : ['!', '-', '-'].isPrefixOf u' = ['!', '-', '-'].isPrefixOf u :=
        h.isPrefixOf_eq (by simp [IsStop])
      rw [measure] at hle
      rw [measure, measure, hself.startsNumber_eq, hself.startsName_eq, h.startsName_eq, h.head?_eq,
        hclose, hopen]
      refine ite_settled (fun hle => ?blank) (ite_settled (fun hle => ?string) (ite_settled
        (fun hle => ?number) (ite_settled (fun _ => rfl) (ite_settled (fun hle => ?name) (ite_settled
        (fun hle => ?hash) (ite_settled (fun hle => ?hash') (ite_settled (fun hle => ?comment)
        (ite_settled (fun hle => ?atName) (ite_settled (fun _ => rfl) fun _ => rfl))))))))) hle
      case blank => exact congrArg (fun k => (Kind.blank, 1 + k)) (plain_blankExtent.bounded h).1
      case string => exact h.stringLexeme_eq c hle
      case number => exact hself.numberLexeme_eq hle
      case name => exact hself.nameLexeme_eq hle
      case hash => exact congrArg (Kind.hash, ·) (hname hle)
      case hash' => exact congrArg (Kind.hash, ·) (hname hle)
      case atName => exact congrArg (Kind.atName, ·) (hname hle)
      case comment =>
        simp only at hle ⊢
        obtain ⟨m, rfl, hrest⟩ := h.drop (k := 1) (by omega)
        rw [hrest.extent_eq commentStep_eq (by omega)]

theorem firstLexeme_eq (h : Alike n (c :: u) (c :: u'))
    (hle : (firstLexeme c u).text.length ≤ n) : firstLexeme c u' = firstLexeme c u := by
  have hlength := h.lt_length
  rw [firstLexeme] at hle
  simp only [List.length_cons, List.length_take] at hle hlength
  have hmeasure := h.measure_eq (by omega)
  cases h with
  | stop => exact absurd hle (Nat.not_succ_le_zero _)
  | @cons c n u u' h =>
      have htake : u'.take ((measure c u).2 - 1) = u.take ((measure c u).2 - 1) :=
        h.take_eq (by omega)
      rw [firstLexeme, firstLexeme, hmeasure]
      simp only [htake]

end Alike

end WidgetStyle.Source
