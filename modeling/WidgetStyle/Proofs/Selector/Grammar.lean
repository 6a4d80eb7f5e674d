import WidgetStyle.Proofs.Selector.NormalText
import WidgetStyle.Proofs.Variable.Reference

/-!
# WidgetStyle.Proofs.Selector.Grammar — every chain that the grammar writes is read back

The grammar says how a chain of compounds is written: a compound has at most one type, in front,
then classes, ids, pseudo-classes and attributes in any number and order; blanks join two compounds,
and so does a sign, with blanks on either side or none.  `Spells` is that relation between a chain
and its texts, and `parse_of_spells` says that reading such a text gives the chain.

Reading first collapses the blanks, so the proof goes over normal texts.  Compounds are solid, they
stay as they are; what joins them has a normal form of its own (`IsNormalJoint`).  A normal text is
then followed mark by mark (`SelectorDraft.after`).
-/

namespace WidgetStyle

open Text

namespace SelectorGrammar

/-! ## The grammar -/

/-- A name: ASCII letters, digits, `-`, `_` and characters beyond ASCII, none of them blank. -/
structure IsIdentifier (name : String) : Prop where
  nonempty : name.toList ≠ []
  isIdentChar : ∀ c ∈ name.toList, SelectorMark.isIdentChar c = true
  not_blank : ∀ c ∈ name.toList, isBlank c = false

/-- Whether the letters of a name are in lower case. -/
def IsLower (name : String) : Prop := lower name = name

/-- An attribute value that can stand between double quotes: its only blanks are single spaces. -/
structure IsQuotable (value : String) : Prop where
  no_quote : '"' ∉ value.toList
  space_of_blank : ∀ c ∈ value.toList, isBlank c = true → c = ' '
  isolated : value.toList.IsChain fun c d => ¬ (c = ' ' ∧ d = ' ')

instance (name : String) : Decidable (IsIdentifier name) :=
  decidable_of_iff (name.toList ≠ [] ∧ name.toList.all SelectorMark.isIdentChar = true ∧
      name.toList.all (fun c => !isBlank c) = true)
    ⟨fun h => ⟨h.1, List.all_eq_true.mp h.2.1, by simpa using h.2.2⟩,
      fun h => ⟨h.nonempty, List.all_eq_true.mpr h.isIdentChar, by simpa using h.not_blank⟩⟩

instance (name : String) : Decidable (IsLower name) :=
  inferInstanceAs (Decidable (lower name = name))

instance (value : String) : Decidable (IsQuotable value) :=
  decidable_of_iff ('"' ∉ value.toList ∧ value.toList.all (fun c => !isBlank c || c == ' ') = true ∧
      value.toList.IsChain fun c d => ¬ (c = ' ' ∧ d = ' '))
    ⟨fun h => ⟨h.1, by simpa [Bool.or_eq_true, ← Bool.not_eq_true, imp_iff_not_or] using h.2.1, h.2.2⟩,
      fun h => ⟨h.no_quote,
        by simpa [Bool.or_eq_true, ← Bool.not_eq_true, imp_iff_not_or] using h.space_of_blank,
        h.isolated⟩⟩

/-- How the type in front of a compound is written. -/
inductive SpellsType : SimpleSelector → List Char → Prop
  | universal : SpellsType .universal ['*']
  | tag (name : String) (identifier : IsIdentifier name) (lower : IsLower name) :
      SpellsType (.hasTag name) name.toList

/-- How any other simple selector is written. -/
inductive SpellsDetail : SimpleSelector → List Char → Prop
  | hasClass (name : String) (identifier : IsIdentifier name) :
      SpellsDetail (.hasClass name) ('.' :: name.toList)
  | hasId (name : String) (identifier : IsIdentifier name) :
      SpellsDetail (.hasId name) ('#' :: name.toList)
  | pseudo (name : String) {p : PseudoClass} (known : PseudoClass.ofName? name = some p) :
      SpellsDetail (.pseudo p) (':' :: name.toList)
  | hasAttribute (name : String) (identifier : IsIdentifier name) (lower : IsLower name) :
      SpellsDetail (.hasAttribute name) ('[' :: (name.toList ++ [']']))
  | attributeIs (name value : String) (identifier : IsIdentifier name) (lower : IsLower name)
      (quotable : IsQuotable value) :
      SpellsDetail (.attributeIs name value)
        ('[' :: (name.toList ++ '=' :: '"' :: (value.toList ++ ['"', ']'])))

/-- How simple selectors without a type are written, one after the other. -/
inductive SpellsDetails : List SimpleSelector → List Char → Prop
  | nil : SpellsDetails [] []
  | cons {s : SimpleSelector} {ss : List SimpleSelector} {cs ds : List Char}
      (detail : SpellsDetail s cs) (more : SpellsDetails ss ds) : SpellsDetails (s :: ss) (cs ++ ds)

/-- How a compound is written; it has a simple selector. -/
inductive SpellsCompound : Compound → List Char → Prop
  | typed {s : SimpleSelector} {ss : List SimpleSelector} {cs ds : List Char}
      (type : SpellsType s cs) (details : SpellsDetails ss ds) :
      SpellsCompound ⟨s :: ss⟩ (cs ++ ds)
  | untyped {s : SimpleSelector} {ss : List SimpleSelector} {cs ds : List Char}
      (detail : SpellsDetail s cs) (details : SpellsDetails ss ds) :
      SpellsCompound ⟨s :: ss⟩ (cs ++ ds)

/-- The sign of a combinator other than the descendant one. -/
inductive IsSign : Combinator → Char → Prop
  | child : IsSign .child '>'
  | adjacentSibling : IsSign .adjacentSibling '+'
  | generalSibling : IsSign .generalSibling '~'

/-- How a combinator is written between two compounds. -/
inductive SpellsJoint : Combinator → List Char → Prop
  | descendant (blanks : List Char) (nonempty : blanks ≠ [])
      (blank : ∀ c ∈ blanks, isBlank c = true) : SpellsJoint .descendant blanks
  | sign {k : Combinator} {sign : Char} (before after : List Char) (isSign : IsSign k sign)
      (blankBefore : ∀ c ∈ before, isBlank c = true) (blankAfter : ∀ c ∈ after, isBlank c = true) :
      SpellsJoint k (before ++ sign :: after)

/-- How the compounds behind the first one are written, each with its combinator. -/
inductive SpellsLinks : List (Combinator × Compound) → List Char → Prop
  | nil : SpellsLinks [] []
  | cons {k : Combinator} {compound : Compound} {links : List (Combinator × Compound)}
      {cs ds es : List Char} (joint : SpellsJoint k cs) (spelled : SpellsCompound compound ds)
      (more : SpellsLinks links es) : SpellsLinks ((k, compound) :: links) (cs ++ (ds ++ es))

/-- How a whole chain is written, with blanks on both sides or none. -/
inductive Spells : Compound → List (Combinator × Compound) → List Char → Prop
  | chain {first : Compound} {links : List (Combinator × Compound)} {cs ds : List Char}
      (before after : List Char) (blankBefore : ∀ c ∈ before, isBlank c = true)
      (spelled : SpellsCompound first cs) (rest : SpellsLinks links ds)
      (blankAfter : ∀ c ∈ after, isBlank c = true) :
      Spells first links (before ++ (cs ++ ds) ++ after)

end SelectorGrammar

/-! ## Marks at the front of a text -/

namespace SelectorMark

/-- Whether a name ends in front of the text, and takes no arguments there. -/
def Stops (cs : List Char) : Prop := ∀ c ∈ cs.head?, isIdentChar c = false ∧ c ≠ '('

theorem stops_nil : Stops [] := nofun

theorem stops_cons {c : Char} (h : isIdentChar c = false ∧ c ≠ '(') (cs : List Char) :
    Stops (c :: cs) := by
  intro d hd
  obtain rfl := Option.some.inj hd
  exact h

theorem isAsciiBlank_of_isIdentChar {c : Char} (h : isIdentChar c = true) : isAsciiBlank c = false := by
  rw [Bool.eq_false_iff]
  intro hblank
  simp only [isAsciiBlank, Bool.or_eq_true, beq_iff_eq] at hblank
  rcases hblank with (((rfl | rfl) | rfl) | rfl) | rfl <;> exact absurd h (by decide)

theorem takeWhile_isAsciiBlank_append {name : List Char} (hne : name ≠ [])
    (h : ∀ c ∈ name, isIdentChar c = true) (rest : List Char) :
    (name ++ rest).takeWhile isAsciiBlank = [] := by
  cases name with
  | nil => exact absurd rfl hne
  | cons c name =>
      have hc := isAsciiBlank_of_isIdentChar (h c List.mem_cons_self)
      rw [List.cons_append, List.takeWhile_cons_of_neg (by simp [hc])]

theorem ident_append {name rest : List Char} (h : ∀ c ∈ name, isIdentChar c = true)
    (hrest : ∀ c ∈ rest.head?, isIdentChar c = false) : ident (name ++ rest) = name := by
  have hend : rest.takeWhile isIdentChar = [] := by
    cases rest with
    | nil => rfl
    | cons c rest => exact List.takeWhile_cons_of_neg (by simp [hrest c rfl])
  rw [ident, List.takeWhile_append_of_pos h, hend, List.append_nil]

theorem Stops.ident_append {name rest : List Char} (hrest : Stops rest)
    (h : ∀ c ∈ name, isIdentChar c = true) : ident (name ++ rest) = name :=
  SelectorMark.ident_append h fun c hc => (hrest c hc).1

theorem named_toList {name : String} (h : name.toList ≠ []) (build : String → SimpleSelector) :
    named build name.toList = .simple (build name) := by
  rw [named, if_neg (by simpa using h), String.ofList_toList]

/-! ### Known pseudo-classes -/

theorem isWordChar_name (p : PseudoClass) :
    p.name.toList ≠ [] ∧ p.name.toList.all isWordChar = true := by
  cases p <;> decide

/-- The names of pseudo-classes are words of ASCII. -/
theorem isWordChar_of_ofName? {name : String} {p : PseudoClass}
    (h : PseudoClass.ofName? name = some p) :
    name.toList ≠ [] ∧ ∀ c ∈ name.toList, isWordChar c = true := by
  have hlower : (lower name).toList ≠ [] ∧ (lower name).toList.all isWordChar = true := by
    rw [PseudoClass.ofName?] at h
    by_cases hactive : lower name = "active"
    · rw [hactive]
      decide
    · rw [if_neg hactive] at h
      have hname := List.find?_some (p := fun p : PseudoClass => decide (p.name = lower name)) h
      rw [← of_decide_eq_true hname]
      exact isWordChar_name p
  rw [toList_lower] at hlower
  refine ⟨fun hnil => hlower.1 (by rw [hnil]; rfl), fun c hc => ?_⟩
  exact isWordChar_of_toLower (List.all_eq_true.mp hlower.2 _ (List.mem_map_of_mem hc))

/-! ### One mark -/

section First

variable {name : String} {rest : List Char}

/-- What stands behind the sign of a class or an id. -/
theorem named_ident_append (hname : SelectorGrammar.IsIdentifier name) (hrest : Stops rest)
    (build : String → SimpleSelector) :
    (named build (ident (name.toList ++ rest)), (ident (name.toList ++ rest)).length) =
      (.simple (build name), name.toList.length) := by
  rw [hrest.ident_append hname.isIdentChar, named_toList hname.nonempty]

theorem first_hasClass (hname : SelectorGrammar.IsIdentifier name) (hrest : Stops rest) :
    first '.' (name.toList ++ rest) = (.simple (.hasClass name), name.toList.length) :=
  named_ident_append hname hrest .hasClass

theorem first_hasId (hname : SelectorGrammar.IsIdentifier name) (hrest : Stops rest) :
    first '#' (name.toList ++ rest) = (.simple (.hasId name), name.toList.length) :=
  named_ident_append hname hrest .hasId

theorem first_pseudo {p : PseudoClass} (h : PseudoClass.ofName? name = some p) (hrest : Stops rest) :
    first ':' (name.toList ++ rest) = (.simple (.pseudo p), name.toList.length) := by
  obtain ⟨hne, hword⟩ := isWordChar_of_ofName? h
  have hident : ∀ c ∈ name.toList, isIdentChar c = true := fun c hc => by
    rw [isIdentChar, hword c hc, Bool.true_or]
  have hcolon : (name.toList ++ rest).head? ≠ some ':' := by
    rw [List.head?_append_of_ne_nil _ hne]
    intro hhead
    exact absurd (hident ':' (List.mem_of_head? hhead)) (by decide)
  have hopen : rest.head? ≠ some '(' := fun hhead => (hrest '(' hhead).2 rfl
  have hfirst : first ':' (name.toList ++ rest) = pseudo (name.toList ++ rest) := rfl
  rw [hfirst, pseudo]
  simp only [hcolon, if_false, List.drop_zero, hrest.ident_append hident, Nat.zero_add,
    List.drop_left, hopen, String.ofList_toList, h]

theorem map_toLower (hlower : SelectorGrammar.IsLower name) :
    name.toList.map Char.toLower = name.toList :=
  (toList_lower name).symm.trans (congrArg String.toList hlower)

theorem first_hasTag (hname : SelectorGrammar.IsIdentifier name)
    (hlower : SelectorGrammar.IsLower name) (hrest : Stops rest) {c : Char} {cs : List Char}
    (hcons : name.toList = c :: cs) :
    first c (cs ++ rest) = (.simple (.hasTag name), cs.length) := by
  have hident : ∀ d ∈ c :: cs, isIdentChar d = true := hcons ▸ hname.isIdentChar
  have hc := hident c List.mem_cons_self
  have hne : ∀ d, isIdentChar d = false → c ≠ d := by
    rintro d hd rfl
    exact absurd hc (by simp [hd])
  rw [first, if_neg (by simp [isAsciiBlank_of_isIdentChar hc]), if_neg (hne '*' (by decide)),
    if_neg (hne '.' (by decide)), if_neg (hne '#' (by decide)), if_neg (hne '[' (by decide)),
    if_neg (hne ':' (by decide)), if_neg (hne '>' (by decide)), if_neg (hne '+' (by decide)),
    if_neg (hne '~' (by decide)), if_pos hc,
    hrest.ident_append fun d hd => hident d (List.mem_cons_of_mem _ hd), ← hcons,
    map_toLower hlower, named_toList hname.nonempty]

theorem first_bracket (cs : List Char) : first '[' cs = bracketed cs := rfl

theorem toList_lower_ne_nil (hname : SelectorGrammar.IsIdentifier name) :
    (lower name).toList ≠ [] := by
  simpa using hname.nonempty

/-- An attribute is asked for under its name in lower case. -/
theorem first_hasAttribute (hname : SelectorGrammar.IsIdentifier name) (rest : List Char) :
    first '[' (name.toList ++ ']' :: rest) =
      (.simple (.hasAttribute (lower name)), name.toList.length + 1) := by
  have hident : ident (name.toList ++ ']' :: rest) = name.toList :=
    ident_append hname.isIdentChar (by rintro c hc; obtain rfl := Option.some.inj hc; decide)
  have hlead : (name.toList ++ ']' :: rest).takeWhile isAsciiBlank = [] :=
    takeWhile_isAsciiBlank_append hname.nonempty hname.isIdentChar _
  have hclose : (']' :: rest).takeWhile isAsciiBlank = [] := rfl
  rw [first_bracket, bracketed]
  simp [hlead, hident, hclose, ← toList_lower, named_toList (toList_lower_ne_nil hname)]

theorem attributeValue_quoted {value : List Char} (h : '"' ∉ value) (rest : List Char) :
    attributeValue ('"' :: (value ++ '"' :: rest)) = (value, value.length + 2) := by
  have hlead : ('"' :: (value ++ '"' :: rest)).takeWhile isAsciiBlank = [] := rfl
  have hvalue : (value ++ '"' :: rest).takeWhile (· != '"') = value := by
    rw [List.takeWhile_append_of_pos (by simpa using fun c hc => ne_of_mem_of_not_mem hc h),
      List.takeWhile_cons_of_neg (by simp), List.append_nil]
  have hquote : isQuote '"' = true := rfl
  simp [attributeValue, hlead, hvalue, hquote, Nat.add_comm 1]

theorem first_attributeIs {value : String} (hname : SelectorGrammar.IsIdentifier name)
    (hvalue : '"' ∉ value.toList) (rest : List Char) :
    first '[' (name.toList ++ '=' :: '"' :: (value.toList ++ '"' :: ']' :: rest)) =
      (.simple (.attributeIs (lower name) value),
        name.toList.length + value.toList.length + 4) := by
  have hident : ident (name.toList ++ '=' :: '"' :: (value.toList ++ '"' :: ']' :: rest)) =
      name.toList :=
    ident_append hname.isIdentChar (by rintro c hc; obtain rfl := Option.some.inj hc; decide)
  have hlead := takeWhile_isAsciiBlank_append hname.nonempty hname.isIdentChar
    ('=' :: '"' :: (value.toList ++ '"' :: ']' :: rest))
  have hequals : ('=' :: '"' :: (value.toList ++ '"' :: ']' :: rest)).takeWhile isAsciiBlank = [] :=
    rfl
  have hjunk : (name.toList ++ '=' :: '"' :: (value.toList ++ '"' :: ']' :: rest)).drop
      (name.toList.length + 1 + (value.toList.length + 2)) = ']' :: rest := by
    have hsplit : name.toList ++ '=' :: '"' :: (value.toList ++ '"' :: ']' :: rest) =
        (name.toList ++ '=' :: '"' :: (value.toList ++ ['"'])) ++ ']' :: rest := by simp
    rw [hsplit, List.drop_left']
    simp
    omega
  rw [first_bracket, bracketed]
  simp [hlead, hident, hequals, ← toList_lower, attributeValue_quoted hvalue, hjunk,
    named_toList (toList_lower_ne_nil hname)]
  omega

end First

theorem readFrom_eq (n : Nat) (cs : List Char) (found : List SelectorMark) :
    readFrom n cs found = found.reverse ++ read (cs.drop n) := by
  induction cs generalizing n found with
  | nil => cases n <;> exact (List.append_nil _).symm
  | cons c cs ih =>
      cases n with
      | succ n => exact ih n found
      | zero =>
          have hread : read (c :: cs) = readFrom (first c cs).2 cs [(first c cs).1] := rfl
          change readFrom (first c cs).2 cs ((first c cs).1 :: found) = found.reverse ++ read (c :: cs)
          rw [hread, ih, ih _ [(first c cs).1], List.reverse_cons, List.append_assoc]
          rfl

theorem read_cons (c : Char) (cs : List Char) :
    read (c :: cs) = (first c cs).1 :: read (cs.drop (first c cs).2) :=
  readFrom_eq (first c cs).2 cs [(first c cs).1]

end SelectorMark

/-! ## Drafts along a text -/

namespace SelectorDraft

/-- The draft after the marks of one more piece of text. -/
def after (d : SelectorDraft) (cs : List Char) : SelectorDraft :=
  (SelectorMark.read cs).foldl step d

theorem after_of_first {d : SelectorDraft} {c : Char} (cs : List Char) {rest : List Char}
    {mark : SelectorMark} (h : SelectorMark.first c (cs ++ rest) = (mark, cs.length)) :
    d.after (c :: (cs ++ rest)) = (d.step mark).after rest := by
  rw [after, SelectorMark.read_cons, h, List.foldl_cons, List.drop_left]
  rfl

theorem after_space (d : SelectorDraft) (rest : List Char) :
    d.after (' ' :: rest) = (d.step .gap).after rest :=
  after_of_first [] rfl

/-- The draft while the compound is being read, behind the links given. -/
def reading (links : List (Option Combinator × Compound)) (joint : Option Combinator)
    (compound : Compound) : SelectorDraft :=
  { links, simples := compound.simples.reverse, joint }

/-- The draft between two compounds. -/
def between (links : List (Option Combinator × Compound)) (k : Combinator) : SelectorDraft :=
  { links, pending := some k }

/-- The draft behind a combinator. -/
def joined (d : SelectorDraft) : Combinator → SelectorDraft
  | .descendant => d.step .gap
  | k => d.step (.combinator k)

theorem close_of_simples_eq_nil {d : SelectorDraft} (h : d.simples = []) : d.close = d := by
  rw [close, h, List.isEmpty_nil, if_pos rfl]

theorem simples_close (d : SelectorDraft) : d.close.simples = [] := by
  cases h : d.simples <;> simp [close, h]

/-- A blank ends the compound, and may leave a combinator pending. -/
theorem exists_step_gap (d : SelectorDraft) : ∃ pending, d.step .gap = { d.close with pending } := by
  rw [step]
  split
  · exact ⟨_, rfl⟩
  · exact ⟨d.close.pending, rfl⟩

/-- Whatever the blank makes of the pending combinator, a sign replaces it. -/
theorem step_gap_step_combinator (d : SelectorDraft) (k : Combinator) :
    (d.step .gap).step (.combinator k) = d.step (.combinator k) := by
  obtain ⟨pending, hgap⟩ := exists_step_gap d
  have hclosed : { d.close with pending }.close = { d.close with pending } :=
    close_of_simples_eq_nil (simples_close d)
  rw [hgap]
  exact congrArg (fun e : SelectorDraft => { e with pending := some k }) hclosed

theorem step_gap_of_pending {d : SelectorDraft} {k : Combinator} (hclosed : d.simples = [])
    (hpending : d.pending = some k) : d.step .gap = d := by
  rw [step, close_of_simples_eq_nil hclosed]
  exact if_neg (by simp [hpending])

theorem step_combinator_step_gap (d : SelectorDraft) (k : Combinator) :
    (d.step (.combinator k)).step .gap = d.step (.combinator k) :=
  step_gap_of_pending (simples_close d) rfl

theorem finish_of_links {d : SelectorDraft} {joint : Option Combinator} {first : Compound}
    {rest : List (Option Combinator × Compound)} (h : d.close.links.reverse = (joint, first) :: rest)
    (text : String) :
    d.finish text = ⟨first, rest.map fun (joint, c) => (joint.getD .descendant, c), text⟩ := by
  rw [finish, h]

/-- What joins the next compound to the links of the draft. -/
def nextJoint (d : SelectorDraft) : Option Combinator :=
  if d.links.isEmpty then none else some (d.pending.getD .descendant)

end SelectorDraft

open SelectorMark SelectorDraft

namespace SelectorGrammar

variable {s : SimpleSelector} {ss : List SimpleSelector} {cs ds rest : List Char}

/-! ## Compounds -/

theorem SpellsType.after (h : SpellsType s cs) (hrest : Stops rest) (d : SelectorDraft) :
    d.after (cs ++ rest) = (d.step (.simple s)).after rest := by
  cases h with
  | universal => exact after_of_first [] rfl
  | tag name hname hlower =>
      cases hcons : name.toList with
      | nil => exact absurd hcons hname.nonempty
      | cons c cs => exact after_of_first _ (first_hasTag hname hlower hrest hcons)

theorem SpellsDetail.after (h : SpellsDetail s cs) (hrest : Stops rest) (d : SelectorDraft) :
    d.after (cs ++ rest) = (d.step (.simple s)).after rest := by
  cases h with
  | hasClass name hname => exact after_of_first _ (first_hasClass hname hrest)
  | hasId name hname => exact after_of_first _ (first_hasId hname hrest)
  | pseudo name known => exact after_of_first _ (first_pseudo known hrest)
  | hasAttribute name hname hlower =>
      refine after_of_first (name.toList ++ [']']) ?_
      rw [List.append_assoc, List.singleton_append, first_hasAttribute hname, hlower]
      simp
  | attributeIs name value hname hlower hvalue =>
      refine after_of_first (name.toList ++ '=' :: '"' :: (value.toList ++ ['"', ']'])) ?_
      rw [List.append_assoc, List.cons_append, List.cons_append, List.append_assoc,
        List.cons_append, List.singleton_append, first_attributeIs hname hvalue.no_quote, hlower]
      simp
      omega

theorem SpellsDetail.stops (h : SpellsDetail s cs) (rest : List Char) : Stops (cs ++ rest) := by
  cases h <;> exact stops_cons (by decide) _

theorem SpellsDetails.stops (h : SpellsDetails ss cs) (hrest : Stops rest) : Stops (cs ++ rest) := by
  cases h with
  | nil => exact hrest
  | cons detail more =>
      rw [List.append_assoc]
      exact detail.stops _

theorem SpellsDetails.after (h : SpellsDetails ss cs) (hrest : Stops rest) (d : SelectorDraft) :
    d.after (cs ++ rest) = (ss.foldl (fun d s => d.step (.simple s)) d).after rest := by
  induction h generalizing d with
  | nil => rfl
  | cons detail more ih =>
      rw [List.append_assoc, detail.after (more.stops hrest), ih, List.foldl_cons]

/-- Simple selectors that follow the first one of a compound. -/
theorem foldl_step_reading (links : List (Option Combinator × Compound)) (joint : Option Combinator)
    {front : List SimpleSelector} (hfront : front ≠ []) (ss : List SimpleSelector) :
    ss.foldl (fun d s => d.step (.simple s)) (reading links joint ⟨front⟩) =
      reading links joint ⟨front ++ ss⟩ := by
  induction ss generalizing front with
  | nil => rw [List.append_nil]; rfl
  | cons s ss ih =>
      have hstep : (reading links joint ⟨front⟩).step (.simple s) =
          reading links joint ⟨front ++ [s]⟩ := by
        simp [step, reading, hfront]
      rw [List.foldl_cons, hstep, ih (by simp), List.append_assoc, List.singleton_append]

variable {compound : Compound}

theorem SpellsCompound.nonempty (h : SpellsCompound compound cs) : compound.simples ≠ [] := by
  cases h <;> exact List.cons_ne_nil _ _

/-- Where no compound is being read, the next one is read as a whole. -/
theorem SpellsCompound.after (h : SpellsCompound compound cs) (hrest : Stops rest)
    {d : SelectorDraft} (hd : d.simples = []) :
    d.after (cs ++ rest) = (reading d.links d.nextJoint compound).after rest := by
  have hstep : ∀ s, d.step (.simple s) = reading d.links d.nextJoint ⟨[s]⟩ := by
    intro s
    simp [step, reading, nextJoint, hd]
  cases h with
  | typed type details =>
      rw [List.append_assoc, type.after (details.stops hrest), details.after hrest, hstep,
        foldl_step_reading _ _ (List.cons_ne_nil _ _), List.singleton_append]
  | untyped detail details =>
      rw [List.append_assoc, detail.after (details.stops hrest), details.after hrest, hstep,
        foldl_step_reading _ _ (List.cons_ne_nil _ _), List.singleton_append]

/-! ### Compounds are solid -/

theorem IsIdentifier.isSolid {name : String} (h : IsIdentifier name) : IsSolid name.toList :=
  isSolid_of_no_blank h.nonempty h.not_blank

theorem SpellsType.isSolid (h : SpellsType s cs) : IsSolid cs := by
  cases h with
  | universal => exact isSolid_singleton rfl
  | tag name hname _ => exact hname.isSolid

/-- A quoted value goes from word to word. -/
theorem IsQuotable.isSolid {value : String} (h : IsQuotable value) :
    IsSolid ('=' :: '"' :: (value.toList ++ ['"', ']'])) := by
  have hend : IsSolid ['"', ']'] := (isSolid_singleton rfl).cons rfl
  have hstart : IsSolid ['=', '"'] := (isSolid_singleton rfl).cons rfl
  exact hstart.spaced h.space_of_blank h.isolated hend

theorem SpellsDetail.isSolid (h : SpellsDetail s cs) : IsSolid cs := by
  cases h with
  | hasClass name hname => exact hname.isSolid.cons rfl
  | hasId name hname => exact hname.isSolid.cons rfl
  | pseudo name known =>
      obtain ⟨hne, hword⟩ := isWordChar_of_ofName? known
      exact (isSolid_of_no_blank hne fun c hc => (IsPlain.of_isWordChar (hword c hc)).blank).cons rfl
  | hasAttribute name hname _ => exact (hname.isSolid.append (isSolid_singleton rfl)).cons rfl
  | attributeIs name value hname _ hvalue => exact (hname.isSolid.append hvalue.isSolid).cons rfl

theorem SpellsDetails.isSolid_append (h : SpellsDetails ss ds) (hcs : IsSolid cs) :
    IsSolid (cs ++ ds) := by
  induction h generalizing cs with
  | nil => rwa [List.append_nil]
  | cons detail _ ih =>
      rw [← List.append_assoc]
      exact ih (hcs.append detail.isSolid)

theorem SpellsCompound.isSolid (h : SpellsCompound compound cs) : IsSolid cs := by
  cases h with
  | typed type details => exact details.isSolid_append type.isSolid
  | untyped detail details => exact details.isSolid_append detail.isSolid

/-! ## Joints -/

/-- A text between two compounds that is in normal form and read as the combinator. -/
structure IsNormalJoint (k : Combinator) (cs : List Char) : Prop where
  stops : ∀ rest, Stops (cs ++ rest)
  tidy : ∀ {ds}, IsSolid ds → ∀ rest, tidyFrom true (cs ++ (ds ++ rest)) = tidyFrom true rest
  after : ∀ d rest, SelectorDraft.after d (cs ++ rest) = (d.joined k).after rest

section Joint

variable {k : Combinator} {sign : Char}

theorem joined_reading (links : List (Option Combinator × Compound)) (joint : Option Combinator)
    (hne : compound.simples ≠ []) (k : Combinator) :
    (reading links joint compound).joined k = between ((joint, compound) :: links) k := by
  cases k <;> simp [joined, step, close, reading, between, hne]

theorem IsSign.joined_eq (h : IsSign k sign) (d : SelectorDraft) :
    d.joined k = d.step (.combinator k) := by
  cases h <;> rfl

theorem IsSign.first (h : IsSign k sign) (cs : List Char) :
    SelectorMark.first sign cs = (.combinator k, 0) := by
  cases h <;> rfl

theorem IsSign.not_blank (h : IsSign k sign) : isBlank sign = false := by
  cases h <;> rfl

theorem IsSign.stops (h : IsSign k sign) (cs : List Char) : Stops (sign :: cs) := by
  cases h <;> exact stops_cons (by decide) cs

/-- The sign of a combinator, with a blank on either side or none. -/
theorem IsSign.after (h : IsSign k sign) (before after rest : List Char) (d : SelectorDraft) :
    d.after (squeezed before ++ sign :: (squeezed after ++ rest)) = (d.joined k).after rest := by
  have hsign : ∀ (d : SelectorDraft) rest, d.after (sign :: rest) = (d.step (.combinator k)).after rest :=
    fun d rest => after_of_first [] (h.first rest)
  have hbefore : d.after (squeezed before ++ sign :: (squeezed after ++ rest)) =
      (d.step (.combinator k)).after (squeezed after ++ rest) := by
    cases before with
    | nil => exact hsign d _
    | cons =>
        refine (after_space d _).trans ((hsign _ _).trans ?_)
        rw [step_gap_step_combinator]
  have hafter : (d.step (.combinator k)).after (squeezed after ++ rest) =
      (d.step (.combinator k)).after rest := by
    cases after with
    | nil => rfl
    | cons =>
        refine (after_space _ rest).trans ?_
        rw [step_combinator_step_gap]
  rw [hbefore, hafter, h.joined_eq]

end Joint

/-- What joins two compounds has a normal form with the same words. -/
theorem SpellsJoint.exists_normal {k : Combinator} (h : SpellsJoint k cs) :
    ∃ ds, SameWords cs ds ∧ IsNormalJoint k ds := by
  cases h with
  | descendant blanks hne hblank =>
      refine ⟨[' '], ?_, ?_⟩
      · have hsame := sameWords_squeezed hblank
        rwa [squeezed, if_neg (by simpa using hne)] at hsame
      · constructor
        case stops => exact fun rest => stops_cons (by decide) rest
        case tidy => exact fun hds rest => hds false rest
        case after => exact after_space
  | @sign _ sign before after hsign hbefore hafter =>
      refine ⟨squeezed before ++ sign :: squeezed after, ?_, ?_⟩
      · exact (sameWords_squeezed hbefore).append
          (.append (.refl [sign]) (sameWords_squeezed hafter))
      · constructor
        case stops =>
          intro rest
          rw [squeezed]
          cases before with
          | nil => exact hsign.stops _
          | cons => exact stops_cons (by decide) _
        case tidy =>
          intro ds hds rest
          rw [List.append_assoc, ← List.singleton_append, List.append_assoc,
            tidyFrom_squeezed before (isSolid_singleton hsign.not_blank),
            tidyFrom_squeezed after hds]
        case after =>
          intro d rest
          rw [List.append_assoc, List.cons_append, hsign.after]

/-! ## Chains -/

/-- A text behind the first compound that is in normal form and read as the links. -/
structure IsNormalLinks (links : List (Combinator × Compound)) (cs : List Char) : Prop where
  stops : Stops cs
  tidy : tidyFrom true cs = true
  links_eq : ∀ {compound : Compound}, compound.simples ≠ [] → ∀ front joint,
    ((reading front joint compound).after cs).close.links.reverse =
      front.reverse ++ (joint, compound) :: links.map fun (k, compound) => (some k, compound)

theorem SpellsLinks.exists_normal {links : List (Combinator × Compound)} (h : SpellsLinks links cs) :
    ∃ ds, SameWords cs ds ∧ IsNormalLinks links ds := by
  induction h with
  | nil =>
      refine ⟨[], .refl [], stops_nil, rfl, ?_⟩
      intro compound hcompound front joint
      have hafter : (reading front joint compound).after [] = reading front joint compound := rfl
      rw [hafter]
      simp [close, reading, hcompound]
  | @cons k compound links cs ds es joint spelled more ih =>
      obtain ⟨cs', hcs, hjoint⟩ := joint.exists_normal
      obtain ⟨es', hes, hmore⟩ := ih
      refine ⟨cs' ++ (ds ++ es'), hcs.append (.append (.refl ds) hes), hjoint.stops _, ?_, ?_⟩
      · rw [hjoint.tidy spelled.isSolid, hmore.tidy]
      · intro first hfirst front joint
        rw [hjoint.after, joined_reading _ _ hfirst, spelled.after hmore.stops rfl]
        have hlinks := hmore.links_eq spelled.nonempty ((joint, first) :: front) (some k)
        rw [List.reverse_cons, List.append_assoc] at hlinks
        exact hlinks

end SelectorGrammar

/-- Reading a text that the grammar writes gives the chain it writes. -/
theorem Selector.parse_of_spells {s : String} {first : Compound} {links : List (Combinator × Compound)}
    (h : SelectorGrammar.Spells first links s.toList) :
    parse s = ⟨first, links, normalText s⟩ := by
  generalize hs : s.toList = text at h
  obtain @⟨cs, ds, before, after, hbefore, spelled, rest, hafter⟩ := h
  obtain ⟨ds', hds, hnormal⟩ := rest.exists_normal
  have htext : collapseBlanks s.toList = cs ++ ds' := by
    have hwords : words (before ++ (cs ++ ds) ++ after) = words (cs ++ ds') := by
      rw [words_append_blanks hafter, words_blanks_append hbefore,
        (SameWords.append (.refl cs) hds).words_eq]
    rw [hs, collapseBlanks, hwords]
    refine collapseBlanks_of_tidy ?_
    rw [spelled.isSolid, hnormal.tidy]
  have hlinks := hnormal.links_eq spelled.nonempty [] none
  have hparse : parse s = (SelectorDraft.after {} (cs ++ ds')).finish (normalText s) := by
    rw [← htext]
    rfl
  rw [hparse, spelled.after hnormal.stops rfl]
  refine (SelectorDraft.finish_of_links hlinks (normalText s)).trans ?_
  simp [Function.comp_def]

/-- Every kind of simple selector and combinator, with blanks in some places and none in others. -/
theorem Selector.parse_of_spells_mixed :
    Selector.parse " item.done:Hover[title=\"a b\"] >*#x\t~  p+[lang]\n.é " =
      ⟨⟨[.hasTag "item", .hasClass "done", .pseudo .hover, .attributeIs "title" "a b"]⟩,
        [(.child, ⟨[.universal, .hasId "x"]⟩), (.generalSibling, ⟨[.hasTag "p"]⟩),
          (.adjacentSibling, ⟨[.hasAttribute "lang"]⟩), (.descendant, ⟨[.hasClass "é"]⟩)],
        Selector.normalText " item.done:Hover[title=\"a b\"] >*#x\t~  p+[lang]\n.é "⟩ := by
  refine Selector.parse_of_spells ?_
  have item : SelectorGrammar.SpellsCompound
      ⟨[.hasTag "item", .hasClass "done", .pseudo .hover, .attributeIs "title" "a b"]⟩
      "item.done:Hover[title=\"a b\"]".toList :=
    .typed (.tag "item" (by decide) (by decide))
      (.cons (.hasClass "done" (by decide))
        (.cons (.pseudo "Hover" (by decide))
          (.cons (.attributeIs "title" "a b" (by decide) (by decide)
            (by decide)) .nil)))
  have anyX : SelectorGrammar.SpellsCompound ⟨[.universal, .hasId "x"]⟩ "*#x".toList :=
    .typed .universal (.cons (.hasId "x" (by decide)) .nil)
  have p : SelectorGrammar.SpellsCompound ⟨[.hasTag "p"]⟩ "p".toList :=
    .typed (.tag "p" (by decide) (by decide)) .nil
  have lang : SelectorGrammar.SpellsCompound ⟨[.hasAttribute "lang"]⟩ "[lang]".toList :=
    .untyped (.hasAttribute "lang" (by decide) (by decide)) .nil
  have é : SelectorGrammar.SpellsCompound ⟨[.hasClass "é"]⟩ ".é".toList :=
    .untyped (.hasClass "é" (by decide)) .nil
  exact .chain [' '] [' '] (List.all_eq_true.mp rfl) item
    (.cons (.sign [' '] [] .child (List.all_eq_true.mp rfl) nofun) anyX
      (.cons (.sign ['\t'] [' ', ' '] .generalSibling (List.all_eq_true.mp rfl)
          (List.all_eq_true.mp rfl)) p
        (.cons (.sign [] [] .adjacentSibling nofun nofun) lang
          (.cons (.descendant ['\n'] (by decide) (List.all_eq_true.mp rfl)) é .nil))))
    (List.all_eq_true.mp rfl)

end WidgetStyle
