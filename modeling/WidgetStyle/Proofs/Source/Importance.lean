import WidgetStyle.Proofs.Source.Comments
import WidgetStyle.Proofs.Source.Declared
import WidgetStyle.Proofs.Source.Endings

/-!
# WidgetStyle.Proofs.Source.Importance — the value of a declaration and its lexemes

What a declaration says can be told from the lexemes of its value: each comment counts as a space, and
the value is important when its last two lexemes, apart from blanks and comments, are a `!` and the
name `important` (`tokenValue`).  It is read from the characters instead, in two passes: one takes out
what looks like a comment, and the other looks for an `important` behind the last `!`.

Both give the same just in case the lexemes show their comments and the characters end in `!important`
when the lexemes do (`splitImportant_eq_tokenValue_iff`).
-/

namespace WidgetStyle.Source

open Text Value

/-! ## Trimming around a character -/

section

variable {c : Char}

theorem trimStart_append_cons (hc : isBlank c = false) (front back : List Char) :
    trimStart (front ++ c :: back) = trimStart front ++ c :: back := by
  induction front with
  | nil => exact List.dropWhile_cons_of_neg (by simp [hc])
  | cons d front ih =>
      rw [trimStart, trimStart, List.cons_append, List.dropWhile_cons, List.dropWhile_cons]
      split
      · exact ih
      · rfl

theorem trimEnd_append_cons (hc : isBlank c = false) (front back : List Char) :
    trimEnd (front ++ c :: back) = front ++ c :: trimEnd back := by
  have hreverse : (front ++ c :: back).reverse = back.reverse ++ c :: front.reverse := by simp
  have hstart := trimStart_append_cons hc back.reverse front.reverse
  rw [trimStart, trimStart] at hstart
  rw [trimEnd, hreverse, hstart, trimEnd]
  simp

theorem trim_append_cons (hc : isBlank c = false) (front back : List Char) :
    trim (front ++ c :: back) = trimStart front ++ c :: trimEnd back := by
  rw [trim, trimStart_append_cons hc, trimEnd_append_cons hc]

end

theorem trimStart_trimEnd (cs : List Char) : trimStart (trimEnd cs) = trim cs := by
  by_cases h : ∀ c ∈ cs, isBlank c = true
  · have hstart : trimStart cs = [] := List.dropWhile_eq_nil_iff.mpr h
    have hend : trimEnd cs = [] := by
      rw [trimEnd, List.reverse_eq_nil_iff, List.dropWhile_eq_nil_iff]
      exact fun c hc => h c (List.mem_reverse.mp hc)
    rw [hend, trim, hstart, trimEnd]
    rfl
  · obtain ⟨c, hc, hblank⟩ : ∃ c ∈ cs, isBlank c = false := by simpa using h
    obtain ⟨front, back, rfl⟩ := List.append_of_mem hc
    rw [trimEnd_append_cons hblank, trimStart_append_cons hblank, trim_append_cons hblank]

theorem trimEnd_isPrefix (cs : List Char) : trimEnd cs <+: cs := by
  have h := List.dropWhile_suffix isBlank (l := cs.reverse)
  simpa [trimEnd] using List.reverse_prefix.mpr h

theorem trimStart_isPrefix {cs ds : List Char} (h : cs <+: ds) : trimStart cs <+: trimStart ds := by
  obtain ⟨more, rfl⟩ := h
  induction cs with
  | nil => exact List.nil_prefix
  | cons c cs ih =>
      rw [trimStart, trimStart, List.cons_append, List.dropWhile_cons, List.dropWhile_cons]
      split
      · exact ih
      · exact List.prefix_append (c :: cs) more

/-- A character that trimming leaves out is blank. -/
theorem mem_trim_of_mem {c : Char} {cs : List Char} (hc : isBlank c = false) (h : c ∈ cs) :
    c ∈ trim cs := by
  obtain ⟨front, back, rfl⟩ := List.append_of_mem h
  rw [trim_append_cons hc]
  simp

/-! ## The mark at the end of a text -/

/-- The text ends in `!` and the word, with blanks around it. -/
def EndsImportant (cs : List Char) : Prop :=
  ∃ front tail, cs = front ++ '!' :: tail ∧ (trim tail).map Char.toLower = importantWord

theorem not_mem_of_trim_eq_important {c : Char} (hc : isBlank c = false)
    (hword : c.toLower ∉ importantWord) {tail : List Char}
    (h : (trim tail).map Char.toLower = importantWord) : c ∉ tail := by
  intro hmem
  refine hword ?_
  rw [← h]
  exact List.mem_map_of_mem (mem_trim_of_mem hc hmem)

theorem splitImportant_of_not_mem {cs : List Char} (h : '!' ∉ cs) :
    splitImportant cs = (trim cs, false) := by
  have hmem : '!' ∉ (trim cs).reverse := fun hmem =>
    h ((trim_sublist cs).subset (List.mem_reverse.mp hmem))
  have hdrop : (trim cs).reverse.dropWhile (· != '!') = [] :=
    List.dropWhile_eq_nil_iff.mpr fun c hc => by
      rw [bne_iff_ne]
      rintro rfl
      exact hmem hc
  simp only [splitImportant, hdrop]

/-- What is read from a text is told by what stands behind its last mark. -/
theorem splitImportant_of_last {front tail : List Char} (h : '!' ∉ tail) :
    splitImportant (front ++ '!' :: tail) =
      if (trim tail).map Char.toLower = importantWord then (trim front, true)
      else (trim (front ++ '!' :: tail), false) := by
  have hvalue : trim (front ++ '!' :: tail) = trimStart front ++ '!' :: trimEnd tail :=
    trim_append_cons (by decide) front tail
  have hreverse : (trimStart front ++ '!' :: trimEnd tail).reverse =
      (trimEnd tail).reverse ++ '!' :: (trimStart front).reverse := by simp
  have hmem : ∀ c ∈ (trimEnd tail).reverse, (c != '!') = true := by
    intro c hc
    rw [bne_iff_ne]
    rintro rfl
    exact h ((trimEnd_sublist tail).subset (List.mem_reverse.mp hc))
  simp only [splitImportant, hvalue, hreverse, List.takeWhile_append_of_pos hmem,
    List.dropWhile_append_of_pos hmem]
  simp only [trimStart_trimEnd, List.takeWhile_cons, List.dropWhile_cons, bne_self_eq_false,
    Bool.false_eq_true, if_false, List.append_nil, List.reverse_reverse]
  rfl

theorem exists_last {c : Char} {cs : List Char} (h : c ∈ cs) :
    ∃ front tail, cs = front ++ c :: tail ∧ c ∉ tail := by
  obtain ⟨front, back, hreverse, hfront⟩ := List.eq_append_cons_of_mem (List.mem_reverse.mpr h)
  refine ⟨back.reverse, front.reverse, ?_, fun hmem => hfront (List.mem_reverse.mp hmem)⟩
  rw [← List.reverse_reverse cs, hreverse]
  simp

/-- A text is read as important just in case it ends so. -/
theorem splitImportant_snd_iff (cs : List Char) :
    (splitImportant cs).2 = true ↔ EndsImportant cs := by
  constructor
  · intro h
    by_cases hmem : '!' ∈ cs
    · obtain ⟨front, tail, rfl, htail⟩ := exists_last hmem
      rw [splitImportant_of_last htail] at h
      split at h
      · next hword => exact ⟨front, tail, rfl, hword⟩
      · exact absurd h Bool.false_ne_true
    · rw [splitImportant_of_not_mem hmem] at h
      exact absurd h Bool.false_ne_true
  · rintro ⟨front, tail, rfl, hword⟩
    have htail : '!' ∉ tail := not_mem_of_trim_eq_important (by decide) (by decide) hword
    rw [splitImportant_of_last htail, if_pos hword]

theorem splitImportant_of_not_endsImportant {cs : List Char} (h : ¬EndsImportant cs) :
    splitImportant cs = (trim cs, false) := by
  by_cases hmem : '!' ∈ cs
  · obtain ⟨front, tail, rfl, htail⟩ := exists_last hmem
    rw [splitImportant_of_last htail, if_neg fun hword => h ⟨front, tail, rfl, hword⟩]
  · exact splitImportant_of_not_mem hmem

/-! ## Characters of names -/

theorem nameValueFrom_eq (n : Nat) (cs : List Char) :
    nameValueFrom n cs = nameValueFrom 0 (cs.drop n) := by
  induction cs generalizing n with
  | nil => cases n <;> rfl
  | cons c cs ih =>
      cases n with
      | zero => rfl
      | succ n => rw [nameValueFrom, ih, List.drop_succ_cons]

/-- A character that no escape with digits takes in stands for itself in a name, also behind a
backslash. -/
theorem mem_nameValueFrom {c : Char} (hhex : isHexDigit c = false) (hblank : isAsciiBlank c = false)
    (hback : c ≠ '\\') (hnull : c ≠ '\x00') {cs : List Char} (h : c ∈ cs) :
    c ∈ nameValueFrom 0 cs := by
  induction hn : cs.length using Nat.strongRecOn generalizing cs with
  | ind n ih =>
      subst hn
      cases cs with
      | nil => exact absurd h List.not_mem_nil
      | cons d cs =>
          rw [nameValueFrom]
          by_cases hd : d = '\\'
          · subst hd
            rw [if_pos rfl, nameValueFrom_eq]
            have hmem : c ∈ cs := (List.mem_cons.mp h).resolve_left hback
            rw [← List.take_append_drop (escapeExtent cs) cs, List.mem_append] at hmem
            rcases hmem with hmem | hmem
            · -- The escape has no digits, and stands for the character behind the backslash.
              have hdigits : (escapeDigits cs).length = 0 := by
                by_contra hdigits
                rcases isHexDigit_or_isAsciiBlank_of_mem_escape hdigits c hmem with hc | hc
                · exact absurd (hhex.symm.trans hc) Bool.false_ne_true
                · exact absurd (hblank.symm.trans hc) Bool.false_ne_true
              cases cs with
              | nil => exact absurd hmem List.not_mem_nil
              | cons e cs =>
                  rw [escapeExtent_cons, if_pos hdigits] at hmem
                  obtain rfl : c = e := by simpa using hmem
                  have hescaped : escapedChar (c :: cs) = c := by
                    rw [escapedChar, List.length_eq_zero_iff.mp hdigits]
                    exact if_neg hnull
                  rw [hescaped]
                  exact List.mem_cons_self
            · refine List.mem_cons_of_mem _ (ih _ ?_ hmem rfl)
              rw [List.length_drop, List.length_cons]
              omega
          · rw [if_neg hd]
            rcases List.mem_cons.mp h with rfl | hmem
            · rw [if_neg hnull]
              exact List.mem_cons_self
            · exact List.mem_cons_of_mem _ (ih _ (Nat.lt_succ_self _) hmem rfl)

/-- Whether a lexeme is the name `important`. -/
def Lexeme.isImportantWord (x : Lexeme) : Bool :=
  x.kind = .name && lower (nameValue x.text) = "important"

/-- A character that the word does not have is not in its lexeme either, however it is written. -/
theorem not_mem_of_isImportantWord {x : Lexeme} (hx : x.isImportantWord = true) {c : Char}
    (hhex : isHexDigit c = false) (hblank : isAsciiBlank c = false) (hback : c ≠ '\\')
    (hnull : c ≠ '\x00') (hword : c.toLower ∉ importantWord) : c ∉ x.text := by
  intro hmem
  simp only [Lexeme.isImportantWord, Bool.and_eq_true, decide_eq_true_eq] at hx
  have hlower : (nameValueFrom 0 x.text).map Char.toLower = importantWord := by
    have htext := congrArg String.toList hx.2
    rw [toList_lower, nameValue, String.toList_ofList] at htext
    exact htext
  refine hword ?_
  rw [← hlower]
  exact List.mem_map_of_mem (mem_nameValueFrom hhex hblank hback hnull hmem)

/-! ## What the lexemes of a value say -/

/-- Whether the lexeme is blank space or a comment. -/
def Lexeme.isGap (x : Lexeme) : Bool := x.kind = .blank || x.kind = .comment

/-- What stands before a `!` and the name `important`, when these are the last two lexemes apart from
gaps. -/
def beforeImportant? (xs : List Lexeme) : Option (List Lexeme) :=
  match xs.reverse.dropWhile Lexeme.isGap with
  | [] => none
  | word :: back =>
    if word.isImportantWord then
      match back.dropWhile Lexeme.isGap with
      | [] => none
      | mark :: front => if mark.text = ['!'] then some front.reverse else none
    else none

/-- The value and the importance that the lexemes of a value tell. -/
def tokenValue (xs : List Lexeme) : List Char × Bool :=
  match beforeImportant? xs with
  | some front => (trim (spaced front), true)
  | none => (trim (spaced xs), false)

/-- The lexemes behind what stands before. -/
theorem exists_of_beforeImportant? {xs front : List Lexeme} (h : beforeImportant? xs = some front) :
    ∃ mark gap word back, xs = front ++ mark :: (gap ++ word :: back) ∧ mark.text = ['!'] ∧
      (∀ x ∈ gap, x.isGap = true) ∧ word.isImportantWord = true ∧ ∀ x ∈ back, x.isGap = true := by
  have hback := List.takeWhile_append_dropWhile (p := Lexeme.isGap) (l := xs.reverse)
  rw [beforeImportant?] at h
  cases hword : xs.reverse.dropWhile Lexeme.isGap with
  | nil => rw [hword] at h; cases h
  | cons word rest =>
      rw [hword] at h hback
      simp only at h
      split at h
      · next himportant =>
          have hgap := List.takeWhile_append_dropWhile (p := Lexeme.isGap) (l := rest)
          cases hmark : rest.dropWhile Lexeme.isGap with
          | nil => rw [hmark] at h; cases h
          | cons mark before =>
              rw [hmark] at h hgap
              simp only at h
              split at h
              · next htext =>
                  obtain rfl := Option.some.inj h
                  refine ⟨mark, (rest.takeWhile Lexeme.isGap).reverse, word,
                    (xs.reverse.takeWhile Lexeme.isGap).reverse, ?_, htext, fun x hx => ?_, himportant,
                    fun x hx => ?_⟩
                  · calc
                      xs = (xs.reverse.takeWhile Lexeme.isGap ++ word :: rest).reverse := by
                        rw [hback, List.reverse_reverse]
                      _ = (xs.reverse.takeWhile Lexeme.isGap ++
                            word :: (rest.takeWhile Lexeme.isGap ++ mark :: before)).reverse := by
                        rw [hgap]
                      _ = _ := by simp
                  · exact List.mem_takeWhile_imp (List.mem_reverse.mp hx)
                  · exact List.mem_takeWhile_imp (List.mem_reverse.mp hx)
              · cases h
      · cases h

section

variable {xs : List Lexeme} {more : List Char}

/-- Gaps hold nothing but blanks. -/
theorem isBlank_of_mem_spaced_gap {x : Lexeme} (h : Leads [x] more) (hx : x.isGap = true) :
    ∀ c ∈ x.spaced, isBlank c = true := by
  by_cases hcomment : x.kind = .comment
  · rw [spaced_of_comment hcomment]
    exact List.forall_mem_singleton.mpr (by decide)
  · have hblank : x.kind = .blank := by simpa [Lexeme.isGap, hcomment] using hx
    rw [spaced_of_not_comment hcomment]
    exact fun c hc => isBlank_of_isAsciiBlank (isAsciiBlank_of_mem_blank h hblank c hc)

theorem isBlank_of_mem_spaced_gaps (h : Leads xs more) (hxs : ∀ x ∈ xs, x.isGap = true) :
    ∀ c ∈ spaced xs, isBlank c = true := by
  induction xs with
  | nil => exact List.forall_mem_nil _
  | cons x xs ih =>
      rw [leads_cons_iff] at h
      rw [List.forall_mem_cons] at hxs
      rw [spaced_cons]
      intro c hc
      rcases List.mem_append.mp hc with hc | hc
      · exact isBlank_of_mem_spaced_gap h.1 hxs.1 c hc
      · exact ih h.2 hxs.2 c hc

/-- Behind what stands before the mark, the lexemes have neither a second mark nor a slash. -/
theorem spaced_of_beforeImportant? (h : Leads xs more) {front : List Lexeme}
    (hfront : beforeImportant? xs = some front) :
    ∃ tail, spaced xs = spaced front ++ '!' :: tail ∧ '!' ∉ tail ∧ '/' ∉ tail := by
  obtain ⟨mark, gap, word, back, rfl, hmark, hgap, hword, hback⟩ := exists_of_beforeImportant? hfront
  obtain ⟨hmarkLeads, h⟩ := leads_cons_iff.mp (leads_append_iff.mp h).2
  obtain ⟨hgapLeads, h⟩ := leads_append_iff.mp h
  have hbackLeads := (leads_cons_iff.mp h).2
  have hmarkSpaced : mark.spaced = ['!'] := by
    by_cases hcomment : mark.kind = .comment
    · obtain ⟨c, cs, htext, -, hbegins⟩ := hmarkLeads.begins
      rw [hcomment] at hbegins
      obtain ⟨rfl, -⟩ := hbegins
      rw [hmark] at htext
      exact absurd (List.cons.inj htext).1 (by decide)
    · rw [spaced_of_not_comment hcomment, hmark]
  have hwordSpaced : word.spaced = word.text := by
    refine spaced_of_not_comment fun hcomment => ?_
    simp [Lexeme.isImportantWord, hcomment] at hword
  have hgaps := isBlank_of_mem_spaced_gaps hgapLeads hgap
  have hbacks := isBlank_of_mem_spaced_gaps hbackLeads hback
  have hnot : ∀ c, isBlank c = false → c ∉ word.text →
      c ∉ spaced gap ++ (word.text ++ spaced back) := by
    intro c hc hc' hmem
    rcases List.mem_append.mp hmem with hmem | hmem
    · exact absurd (hc.symm.trans (hgaps c hmem)) Bool.false_ne_true
    · rcases List.mem_append.mp hmem with hmem | hmem
      · exact hc' hmem
      · exact absurd (hc.symm.trans (hbacks c hmem)) Bool.false_ne_true
  refine ⟨spaced gap ++ (word.text ++ spaced back), ?_, hnot _ (by decide) ?_, hnot _ (by decide) ?_⟩
  · simp only [spaced, List.flatMap_append, List.flatMap_cons] at hmarkSpaced hwordSpaced ⊢
    rw [hmarkSpaced, hwordSpaced]
    rfl
  all_goals
    exact not_mem_of_isImportantWord hword (by decide) (by decide) (by decide) (by decide) (by decide)

/-! ## The characters against the lexemes -/

/-- Without the comments, the characters tell what the lexemes tell just in case both end in the
mark or none does. -/
theorem splitImportant_spaced_iff (h : Leads xs more) :
    splitImportant (spaced xs) = tokenValue xs ↔
      (EndsImportant (spaced xs) ↔ (beforeImportant? xs).isSome = true) := by
  rw [← splitImportant_snd_iff, tokenValue]
  cases hfront : beforeImportant? xs with
  | none =>
      simp only [Option.isSome_none, Bool.false_eq_true, iff_false]
      constructor
      · intro heq
        rw [heq]
        exact Bool.false_ne_true
      · intro hends
        rw [splitImportant_snd_iff] at hends
        exact splitImportant_of_not_endsImportant hends
  | some front =>
      simp only [Option.isSome_some, iff_true]
      constructor
      · intro heq
        rw [heq]
      · intro hends
        obtain ⟨tail, htail, hmark, -⟩ := spaced_of_beforeImportant? h hfront
        rw [htail, splitImportant_of_last hmark] at hends ⊢
        split at hends
        · next hword => rw [if_pos hword]
        · exact absurd hends Bool.false_ne_true

/-- What is cut off from a text has no slash. -/
theorem exists_splitImportant (cs : List Char) :
    ∃ front tail, cs = front ++ tail ∧ (splitImportant cs).1 = trim front ∧ '/' ∉ tail := by
  by_cases h : EndsImportant cs
  · obtain ⟨front, tail, rfl, hword⟩ := h
    have hmark : '!' ∉ tail := not_mem_of_trim_eq_important (by decide) (by decide) hword
    have hslash : '/' ∉ tail := not_mem_of_trim_eq_important (by decide) (by decide) hword
    refine ⟨front, '!' :: tail, rfl, ?_, by simpa using hslash⟩
    rw [splitImportant_of_last hmark, if_pos hword]
  · exact ⟨cs, [], (List.append_nil cs).symm, by rw [splitImportant_of_not_endsImportant h],
      List.not_mem_nil⟩

theorem exists_tokenValue (h : Leads xs more) :
    ∃ front tail, spaced xs = front ++ tail ∧ (tokenValue xs).1 = trim front ∧ '/' ∉ tail := by
  rw [tokenValue]
  cases hfront : beforeImportant? xs with
  | none => exact ⟨spaced xs, [], (List.append_nil _).symm, rfl, List.not_mem_nil⟩
  | some front =>
      obtain ⟨tail, htail, -, hslash⟩ := spaced_of_beforeImportant? h hfront
      exact ⟨spaced front, '!' :: tail, htail, rfl, by simpa using hslash⟩

/-- A slash against a space is seen after trimming, if something stands before it and the slash is not
cut off. -/
theorem trim_ne_of_slash {p s t front tail front' tail' : List Char}
    (hp : ∃ c ∈ p, isBlank c = false) (hslash : p ++ '/' :: s = front ++ tail) (htail : '/' ∉ tail)
    (hspace : p ++ ' ' :: t = front' ++ tail') : trim front ≠ trim front' := by
  obtain ⟨s', rfl⟩ : ∃ s', front = p ++ '/' :: s' := by
    rcases List.append_eq_append_iff.mp hslash with ⟨more, hfront, hmore⟩ | ⟨more, rfl, hmore⟩
    · cases more with
      | nil =>
          rw [show tail = '/' :: s from hmore.symm] at htail
          exact absurd List.mem_cons_self htail
      | cons c more =>
          obtain ⟨rfl, -⟩ := List.cons.inj hmore
          exact ⟨more, hfront⟩
    · rw [hmore] at htail
      exact absurd (List.mem_append_right _ List.mem_cons_self) htail
  have hstart : ∀ ds, trimStart (p ++ ds) = trimStart p ++ ds := by
    intro ds
    obtain ⟨c, hc, hblank⟩ := hp
    obtain ⟨a, b, rfl⟩ := List.append_of_mem hc
    rw [List.append_assoc, List.cons_append, trimStart_append_cons hblank,
      trimStart_append_cons hblank, List.append_assoc, List.cons_append]
  have hprefix : trim front' <+: trimStart p ++ ' ' :: t := by
    rw [← hstart]
    refine (trimEnd_isPrefix _).trans (trimStart_isPrefix ?_)
    rw [hspace]
    exact List.prefix_append _ _
  intro heq
  rw [← heq, trim_append_cons (by decide), List.prefix_append_right_inj,
    List.cons_prefix_cons] at hprefix
  exact absurd hprefix.1 (by decide)

/-- The characters of some lexemes show what the lexemes are: the walk sees their comments and no
others, and they end in the mark when the lexemes do. -/
structure Unambiguous (xs : List Lexeme) : Prop where
  comment : ShowsComments xs
  mark : EndsImportant (spaced xs) ↔ (beforeImportant? xs).isSome = true

/-- **Characters and lexemes.**  Reading a value from its characters gives what its lexemes tell just in
case they are unambiguous. -/
theorem splitImportant_eq_tokenValue_iff (h : Leads xs more) :
    splitImportant (blankComments (xs.flatMap Lexeme.text)) = tokenValue xs ↔ Unambiguous xs := by
  rcases walks h .outside with ⟨hshows, heq⟩ | ⟨hshows, p, hparts⟩
  · have heq : blankComments (xs.flatMap Lexeme.text) = spaced xs := heq
    rw [heq, splitImportant_spaced_iff h]
    exact ⟨fun hmark => ⟨hshows, hmark⟩, Unambiguous.mark⟩
  · refine iff_of_false (fun hvalue => ?_) fun hboth => hshows hboth.comment
    have hp := hparts.exists_not_isBlank h
    obtain ⟨front, tail, hcut, hfront, htail⟩ :=
      exists_splitImportant (blankComments (xs.flatMap Lexeme.text))
    obtain ⟨front', tail', hcut', hfront', htail'⟩ := exists_tokenValue h
    have htrim : trim front = trim front' := by rw [← hfront, hvalue, hfront']
    have hparts : Parts .outside p (blankComments (xs.flatMap Lexeme.text)) (spaced xs) := hparts
    rw [hcut, hcut'] at hparts
    generalize hs : front ++ tail = s at hparts
    generalize ht : front' ++ tail' = t at hparts
    cases hparts with
    | kept => exact trim_ne_of_slash hp hs.symm htail ht.symm htrim
    | taken => exact trim_ne_of_slash hp ht.symm htail' hs.symm htrim.symm

end

/-! ## Declarations of a text -/

/-- The declaration has the value and the importance that the lexemes of its value tell. -/
def Declaration.AgreesWith (d : Declaration) (xs : List Lexeme) : Prop :=
  (d.value.toList, d.important) = tokenValue xs

/-- Consecutive lexemes of a text stand in front of the rest of it. -/
theorem exists_leads_of_isInfix {xs : List Lexeme} {text : List Char} (h : xs <:+: lexemes text) :
    ∃ more, Leads xs more := by
  obtain ⟨front, back, heq⟩ := h
  have hall : lexemes ((front ++ (xs ++ back)).flatMap Lexeme.text ++ []) =
      front ++ (xs ++ back) ++ [] := by
    rw [← List.append_assoc, heq, flatMap_text_lexemes, List.append_nil, List.append_nil]
  exact ⟨_, (leads_append_iff.mp (leads_append_iff.mp (leads_of_lexemes_eq hall)).2).1⟩

/-- The lexemes of a value are consecutive lexemes of its list. -/
theorem Declares.lexemesOf_isInfix {cs : List Component} {name : Component} {value : List Component}
    (h : Declares cs name value) : lexemesOf value <:+: lexemesOf cs := by
  obtain ⟨front, gaps, colon, rest, rfl, -⟩ := h
  refine ⟨lexemesOf front ++ name.lexemes ++ lexemesOf gaps ++ colon.lexemes, lexemesOf rest, ?_⟩
  simp [lexemesOf]

/-- Where a declaration stands in a list inside a text, and when it agrees with the lexemes. -/
theorem Level.exists_declares {text : List Char} {cs : List Component}
    (hcs : Level (lexemes text) cs) {d : Declaration} (hd : d ∈ declarationsIn cs) :
    ∃ name value, Declares cs name value ∧ d = .read name value ∧
      (d.AgreesWith (lexemesOf value) ↔ Unambiguous (lexemesOf value)) := by
  obtain ⟨name, value, h, rfl⟩ := Source.exists_declares hd
  obtain ⟨more, hleads⟩ := exists_leads_of_isInfix (h.lexemesOf_isInfix.trans hcs.lexemesOf_isInfix)
  refine ⟨name, value, h, rfl, ?_⟩
  rw [← splitImportant_eq_tokenValue_iff hleads, text_lexemesOf, Declaration.AgreesWith,
    Declaration.read, String.toList_ofList]

/-- **Declarations and lexemes.**  Every declaration of a declaration list or of a style sheet stands in
the text as a name, a colon and a value, and says what the lexemes of the value tell just in case these
are unambiguous. -/
theorem declarations_agree_iff_unambiguous (text : String) (d : Declaration) :
    (d ∈ declarations text →
      ∃ name value, Declares (componentsOf text.toList) name value ∧ d = .read name value ∧
        (d.AgreesWith (lexemesOf value) ↔ Unambiguous (lexemesOf value))) ∧
    ∀ rule ∈ (Sheet.parse text).allRules, d ∈ rule.declarations →
      ∃ cs, Level (lexemes (dropByteOrderMark text.toList)) cs ∧
        ∃ name value, Declares cs name value ∧ d = .read name value ∧
          (d.AgreesWith (lexemesOf value) ↔ Unambiguous (lexemesOf value)) := by
  refine ⟨fun hd => Level.top.exists_declares hd, fun rule hrule hd => ?_⟩
  obtain ⟨cs, hcs, hlist⟩ := Sheet.exists_level hrule
  rw [hlist] at hd
  exact ⟨cs, hcs, hcs.exists_declares hd⟩

/-- A declaration list whose value is read otherwise than its lexemes tell, and a style sheet. -/
theorem declarations_agree_iff_unambiguous_address :
    (∃ name value, Declares (componentsOf "a:url(x/*y)".toList) name value ∧
      (⟨"a", "url(x", false⟩ : Declaration) = .read name value ∧
      (Declaration.AgreesWith ⟨"a", "url(x", false⟩ (lexemesOf value) ↔
        Unambiguous (lexemesOf value))) ∧
    ∃ cs, Level (lexemes (dropByteOrderMark "p\x7ba:/*c*/b!important\x7d".toList)) cs ∧
      ∃ name value, Declares cs name value ∧ (⟨"a", "b", true⟩ : Declaration) = .read name value ∧
        (Declaration.AgreesWith ⟨"a", "b", true⟩ (lexemesOf value) ↔
          Unambiguous (lexemesOf value)) :=
  ⟨(declarations_agree_iff_unambiguous "a:url(x/*y)" _).1 (by decide +kernel),
    (declarations_agree_iff_unambiguous "p\x7ba:/*c*/b!important\x7d" _).2 ⟨"p", [⟨"a", "b", true⟩]⟩
      (by decide +kernel) (by decide +kernel)⟩

/-- **What looks like a comment or a mark** may be a part of a lexeme: of an address without quotation
marks, of a name with an escape, or of a string that goes on to the end of the text.  The values that
are read are others than the lexemes tell. -/
theorem declarations_differ_from_lexemes :
    (declarations "a:url(x/*y)" = [⟨"a", "url(x", false⟩] ∧
        tokenValue (lexemes "url(x/*y)".toList) = ("url(x/*y)".toList, false)) ∧
      (declarations "a:\\!important" = [⟨"a", "\\", true⟩] ∧
        tokenValue (lexemes "\\!important".toList) = ("\\!important".toList, false)) ∧
      (declarations "a:\"x!important" = [⟨"a", "\"x", true⟩] ∧
        tokenValue (lexemes "\"x!important".toList) = ("\"x!important".toList, false)) ∧
      declarations "a:x !im\\70ortant" = [⟨"a", "x !im\\70ortant", false⟩] ∧
        tokenValue (lexemes "x !im\\70ortant".toList) = ("x".toList, true) := by
  refine ⟨⟨?_, ?_⟩, ⟨?_, ?_⟩, ⟨?_, ?_⟩, ?_, ?_⟩ <;> decide +kernel

end WidgetStyle.Source
