import WidgetStyle.Proofs.Selector.Grammar

/-!
# WidgetStyle.Proofs.Selector.Dropped — what remains of a chain

Reading drops pseudo-classes that it does not know, and those with arguments.  Here such pieces are
part of the grammar: a compound consists of simple selectors and of pieces that are dropped (`none`),
and a compound of the latter alone vanishes as a whole.

What remains is a chain again (`remaining`).  The combinators on both sides of a vanished compound
become one: the last sign among them, and the descendant combinator if there is none
(`Combinator.over`).  In front of the first compound that remains, and behind the last one, combinators
are dropped.  `Selector.parse_of_spellsPartly` says that this is what a text is read as.

Arguments may have parentheses of their own, as long as they match; reading counts those in quotations
too (`parenthesesMatch`).
-/

namespace WidgetStyle

open Text

/-- The pieces of a compound, each a simple selector or one that is dropped. -/
abbrev Pieces := List (Option SimpleSelector)

namespace SelectorGrammar

/-! ## The grammar -/

/-- Whether the parentheses of a text match, those in quotations as well.  The number counts the
parentheses open before. -/
def parenthesesMatch : Nat → List Char → Bool
  | depth, [] => depth = 0
  | depth, c :: cs =>
    if c = '(' then parenthesesMatch (depth + 1) cs
    else if c = ')' then depth ≠ 0 && parenthesesMatch (depth - 1) cs
    else parenthesesMatch depth cs

/-- What stands in front of the name of a pseudo-class, behind the first colon. -/
inductive SpellsColon : List Char → Prop
  | none : SpellsColon []
  | second : SpellsColon [':']

/-- How a piece is written that is dropped: an unknown pseudo-class, or any one with arguments. -/
inductive SpellsDropped : List Char → Prop
  | unknown {colon : List Char} (name : String) (spelled : SpellsColon colon)
      (identifier : IsIdentifier name) (unknown : PseudoClass.ofName? name = none) :
      SpellsDropped (':' :: (colon ++ name.toList))
  | functional {colon : List Char} (name : String) (arguments : List Char)
      (spelled : SpellsColon colon) (identifier : IsIdentifier name)
      (matching : parenthesesMatch 0 arguments = true) :
      SpellsDropped (':' :: (colon ++ (name.toList ++ '(' :: (arguments ++ [')']))))

/-- How any piece but a type is written. -/
inductive SpellsPiece : Option SimpleSelector → List Char → Prop
  | known {s : SimpleSelector} {cs : List Char} (detail : SpellsDetail s cs) : SpellsPiece (some s) cs
  | dropped {cs : List Char} (spelled : SpellsDropped cs) : SpellsPiece none cs

/-- How pieces are written, one after the other. -/
inductive SpellsPieces : Pieces → List Char → Prop
  | nil : SpellsPieces [] []
  | cons {p : Option SimpleSelector} {ps : Pieces} {cs ds : List Char} (piece : SpellsPiece p cs)
      (more : SpellsPieces ps ds) : SpellsPieces (p :: ps) (cs ++ ds)

/-- How a compound is written some pieces of which may be dropped, even all; it has one at least. -/
inductive SpellsPartial : Pieces → List Char → Prop
  | typed {s : SimpleSelector} {ps : Pieces} {cs ds : List Char} (type : SpellsType s cs)
      (pieces : SpellsPieces ps ds) : SpellsPartial (some s :: ps) (cs ++ ds)
  | untyped {p : Option SimpleSelector} {ps : Pieces} {cs ds : List Char} (piece : SpellsPiece p cs)
      (pieces : SpellsPieces ps ds) : SpellsPartial (p :: ps) (cs ++ ds)

/-- How the compounds behind the first one are written, each with its combinator. -/
inductive SpellsPartialLinks : List (Combinator × Pieces) → List Char → Prop
  | nil : SpellsPartialLinks [] []
  | cons {k : Combinator} {ps : Pieces} {links : List (Combinator × Pieces)} {cs ds es : List Char}
      (joint : SpellsJoint k cs) (spelled : SpellsPartial ps ds) (more : SpellsPartialLinks links es) :
      SpellsPartialLinks ((k, ps) :: links) (cs ++ (ds ++ es))

/-- How a whole chain is written, with blanks on both sides or none. -/
inductive SpellsPartly : Pieces → List (Combinator × Pieces) → List Char → Prop
  | chain {first : Pieces} {links : List (Combinator × Pieces)} {cs ds : List Char}
      (before after : List Char) (blankBefore : ∀ c ∈ before, isBlank c = true)
      (spelled : SpellsPartial first cs) (rest : SpellsPartialLinks links ds)
      (blankAfter : ∀ c ∈ after, isBlank c = true) :
      SpellsPartly first links (before ++ (cs ++ ds) ++ after)

end SelectorGrammar

/-! ## What remains -/

/-- The simple selectors of a compound that are not dropped. -/
def Pieces.known (ps : Pieces) : Compound := ⟨ps.filterMap id⟩

/-- What two combinators come to when the compound between them vanishes: a blank changes nothing. -/
def Combinator.over (pending k : Combinator) : Combinator := if k = .descendant then pending else k

/-- What remains of the compounds behind one that remains.  The pending combinator is the one in front
of a compound that has vanished just before. -/
def remainingLinks : Option Combinator → List (Combinator × Pieces) → List (Combinator × Compound)
  | _, [] => []
  | pending, (k, ps) :: links =>
    let joint := pending.elim k (·.over k)
    if ps.known.simples.isEmpty then remainingLinks (some joint) links
    else (joint, ps.known) :: remainingLinks none links

/-- What remains of a chain; no simple selector, if no compound does. -/
def remaining : Pieces → List (Combinator × Pieces) → Compound × List (Combinator × Compound)
  | ps, [] => (ps.known, [])
  | ps, (k, qs) :: links =>
    if ps.known.simples.isEmpty then remaining qs links
    else (ps.known, remainingLinks none ((k, qs) :: links))

/-! ## Marks that are skipped -/

namespace SelectorMark

open SelectorGrammar

variable {colon name : List Char}

/-- The closing parenthesis is found behind matching ones. -/
theorem groupExtent_of_match {depth : Nat} {cs : List Char} (h : parenthesesMatch depth cs = true)
    (count : Nat) (rest : List Char) :
    groupExtent (depth + 1) count (cs ++ ')' :: rest) = count + cs.length + 1 := by
  induction cs generalizing depth count with
  | nil =>
      obtain rfl : depth = 0 := of_decide_eq_true h
      rfl
  | cons c cs ih =>
      rw [List.cons_append, groupExtent, List.length_cons]
      rw [parenthesesMatch] at h
      by_cases hopen : c = '('
      case pos =>
        rw [if_pos hopen] at h ⊢
        rw [ih h]
        omega
      case neg =>
        rw [if_neg hopen] at h ⊢
        by_cases hclose : c = ')'
        case pos =>
          simp only [hclose, if_true, Bool.and_eq_true, decide_eq_true_eq, ne_eq] at h
          have hih := ih h.2 (count + 1)
          rw [Nat.sub_add_cancel (Nat.one_le_iff_ne_zero.mpr h.1)] at hih
          rw [if_pos hclose, if_neg (by omega), Nat.add_sub_cancel, hih]
          omega
        case neg =>
          rw [if_neg hclose] at h ⊢
          rw [ih h]
          omega

/-- A colon, or two, with a name and what follows it. -/
theorem first_colon (hcolon : SpellsColon colon) {name : String} (hname : IsIdentifier name)
    {more : List Char} (hmore : ∀ c ∈ more.head?, isIdentChar c = false) :
    first ':' (colon ++ (name.toList ++ more)) =
      if more.head? = some '(' then
        (.skipped, colon.length + name.toList.length + groupExtent 0 0 more)
      else
        ((PseudoClass.ofName? name).elim .skipped fun p => .simple (.pseudo p),
          colon.length + name.toList.length) := by
  have hident : ident (name.toList ++ more) = name.toList := ident_append hname.isIdentChar hmore
  have hfirst : first ':' (colon ++ (name.toList ++ more)) = pseudo (colon ++ (name.toList ++ more)) :=
    rfl
  have hcount : (if (colon ++ (name.toList ++ more)).head? = some ':' then 1 else 0) = colon.length := by
    cases hcolon with
    | second => rfl
    | none =>
        rw [List.nil_append, List.head?_append_of_ne_nil _ hname.nonempty, List.length_nil, if_neg]
        intro hhead
        exact absurd (hname.isIdentChar ':' (List.mem_of_head? hhead)) (by decide)
  have hdrop : (colon ++ (name.toList ++ more)).drop (colon.length + name.toList.length) = more := by
    rw [← List.append_assoc, ← List.length_append, List.drop_left]
  rw [hfirst, pseudo]
  simp only [hcount, List.drop_left, hident, hdrop, String.ofList_toList]
  cases PseudoClass.ofName? name <;> rfl

theorem first_unknown (hcolon : SpellsColon colon) {name : String} (hname : IsIdentifier name)
    (hunknown : PseudoClass.ofName? name = none) {rest : List Char} (hrest : Stops rest) :
    first ':' (colon ++ name.toList ++ rest) = (.skipped, (colon ++ name.toList).length) := by
  have hopen : rest.head? ≠ some '(' := fun hhead => (hrest '(' hhead).2 rfl
  rw [List.append_assoc, first_colon hcolon hname fun c hc => (hrest c hc).1, if_neg hopen, hunknown,
    Option.elim_none, List.length_append]

theorem first_functional (hcolon : SpellsColon colon) {name : String} (hname : IsIdentifier name)
    {arguments : List Char} (hmatch : parenthesesMatch 0 arguments = true) (rest : List Char) :
    first ':' (colon ++ (name.toList ++ '(' :: (arguments ++ [')'])) ++ rest) =
      (.skipped, (colon ++ (name.toList ++ '(' :: (arguments ++ [')']))).length) := by
  have hextent : groupExtent 0 0 ('(' :: (arguments ++ ')' :: rest)) = arguments.length + 2 := by
    have hinner := groupExtent_of_match hmatch 1 rest
    rw [groupExtent, if_pos rfl, hinner]
    omega
  have hmore : ∀ c ∈ ('(' :: (arguments ++ ')' :: rest)).head?, isIdentChar c = false := by
    intro c hc
    obtain rfl := Option.some.inj hc
    decide
  simp only [List.append_assoc, List.cons_append, List.nil_append]
  rw [first_colon hcolon hname hmore, List.head?_cons, if_pos rfl, hextent]
  simp
  omega

end SelectorMark

/-! ## Drafts along pieces -/

namespace SelectorDraft

/-- The mark of a piece. -/
def pieceMark : Option SimpleSelector → SelectorMark
  | some s => .simple s
  | none => .skipped

/-- The draft behind the pieces of a compound. -/
def takes (d : SelectorDraft) (ps : Pieces) : SelectorDraft :=
  ps.foldl (fun d p => d.step (pieceMark p)) d

/-- The draft behind combinators and compounds. -/
def takesLinks (d : SelectorDraft) (links : List (Combinator × Pieces)) : SelectorDraft :=
  links.foldl (fun d link => (d.joined link.1).takes link.2) d

theorem takes_eq (d : SelectorDraft) (ps : Pieces) :
    d.takes ps = ps.known.simples.foldl (fun d s => d.step (.simple s)) d := by
  induction ps generalizing d with
  | nil => rfl
  | cons p ps ih =>
      cases p with
      | none => exact ih d
      | some s => exact ih (d.step (.simple s))

theorem takes_of_known_eq_nil {ps : Pieces} (h : ps.known.simples = []) (d : SelectorDraft) :
    d.takes ps = d := by
  rw [takes_eq, h, List.foldl_nil]

/-- Where no compound is being read, the simple selectors that are kept are the next one. -/
theorem takes_of_known_ne_nil {ps : Pieces} (h : ps.known.simples ≠ []) {d : SelectorDraft}
    (hd : d.simples = []) : d.takes ps = reading d.links d.nextJoint ps.known := by
  obtain ⟨s, ss, hknown⟩ := List.exists_cons_of_ne_nil h
  have hstep : d.step (.simple s) = reading d.links d.nextJoint ⟨[s]⟩ := by
    simp [step, reading, nextJoint, hd]
  have hcompound : ps.known = ⟨s :: ss⟩ := congrArg Compound.mk hknown
  rw [takes_eq, hknown, List.foldl_cons, hstep,
    SelectorGrammar.foldl_step_reading _ _ (List.cons_ne_nil _ _), List.singleton_append, hcompound]

/-- Where a compound has vanished, its two combinators come to one. -/
theorem joined_between (links : List (Option Combinator × Compound)) (pending k : Combinator) :
    (between links pending).joined k = between links (pending.over k) := by
  cases k <;> simp [joined, step, close, between, Combinator.over]

/-- What is read behind a compound, and behind one that has vanished. -/
theorem links_takesLinks (links : List (Combinator × Pieces)) :
    (∀ (front : List (Option Combinator × Compound)) joint (c : Compound), c.simples ≠ [] →
      ((reading front joint c).takesLinks links).close.links.reverse = front.reverse ++
        (joint, c) :: (remainingLinks none links).map fun (k, c) => (some k, c)) ∧
    ∀ (front : List (Option Combinator × Compound)) pending, front ≠ [] →
      ((between front pending).takesLinks links).close.links.reverse = front.reverse ++
        (remainingLinks (some pending) links).map fun (k, c) => (some k, c) := by
  induction links with
  | nil =>
      refine ⟨fun front joint c hc => ?_, fun front pending _ => ?_⟩
      · simp [takesLinks, remainingLinks, close, reading, hc]
      · simp [takesLinks, remainingLinks, close, between]
  | cons link links ih =>
      obtain ⟨k, ps⟩ := link
      obtain ⟨ihreading, ihbetween⟩ := ih
      -- Behind the combinator the next compound is read or vanishes, whatever was in front of it.
      have next : ∀ front joint, front ≠ [] →
          (((between front joint).takes ps).takesLinks links).close.links.reverse =
            front.reverse ++ (if ps.known.simples.isEmpty then remainingLinks (some joint) links
              else (joint, ps.known) :: remainingLinks none links).map fun (k, c) => (some k, c) := by
        intro front joint hfront
        by_cases hknown : ps.known.simples = []
        case pos =>
          rw [takes_of_known_eq_nil hknown, ihbetween front joint hfront, if_pos (by simp [hknown])]
        case neg =>
          have hjoint : (between front joint).nextJoint = some joint := by
            simp [nextJoint, between, hfront]
          rw [takes_of_known_ne_nil hknown rfl, hjoint, ihreading _ _ _ hknown,
            if_neg (by simpa using hknown)]
          rfl
      refine ⟨fun front joint c hc => ?_, fun front pending hfront => ?_⟩
      · have hjoined := SelectorGrammar.joined_reading front joint hc k
        have hnext := next ((joint, c) :: front) k (List.cons_ne_nil _ _)
        rw [takesLinks, List.foldl_cons, hjoined]
        rw [List.reverse_cons, List.append_assoc] at hnext
        exact hnext
      · rw [takesLinks, List.foldl_cons, joined_between]
        exact next front (pending.over k) hfront

/-- A chain whose first compound remains. -/
theorem finish_takesLinks_of_known (text : String) {ps : Pieces} (links : List (Combinator × Pieces))
    {d : SelectorDraft} (hlinks : d.links = []) (hsimples : d.simples = [])
    (hknown : ps.known.simples ≠ []) :
    ((d.takes ps).takesLinks links).finish text = ⟨ps.known, remainingLinks none links, text⟩ := by
  have hjoint : d.nextJoint = none := by simp [nextJoint, hlinks]
  have hread := (links_takesLinks links).1 [] none ps.known hknown
  rw [takes_of_known_ne_nil hknown hsimples, hlinks, hjoint]
  refine (finish_of_links hread text).trans ?_
  simp [Function.comp_def]

/-- What a chain is read as, from the front on: compounds vanish with the combinators behind them until
one remains. -/
theorem finish_takesLinks (text : String) (ps : Pieces) (links : List (Combinator × Pieces))
    {d : SelectorDraft} (hlinks : d.links = []) (hsimples : d.simples = []) :
    ((d.takes ps).takesLinks links).finish text =
      ⟨(remaining ps links).1, (remaining ps links).2, text⟩ := by
  induction links generalizing d ps with
  | nil =>
      by_cases hknown : ps.known.simples = []
      case pos =>
        have hempty : ps.known = ⟨[]⟩ := congrArg Compound.mk hknown
        rw [takes_of_known_eq_nil hknown, remaining, hempty]
        simp [takesLinks, finish, close_of_simples_eq_nil hsimples, hlinks]
      case neg => exact finish_takesLinks_of_known text [] hlinks hsimples hknown
  | cons link links ih =>
      obtain ⟨k, qs⟩ := link
      rw [remaining]
      by_cases hknown : ps.known.simples = []
      case pos =>
        have hjoined : (d.joined k).links = [] ∧ (d.joined k).simples = [] := by
          cases k <;> simp [joined, step, close_of_simples_eq_nil hsimples, hlinks, hsimples]
        rw [takes_of_known_eq_nil hknown, if_pos (by simp [hknown])]
        exact ih qs hjoined.1 hjoined.2
      case neg =>
        rw [if_neg (by simpa using hknown)]
        exact finish_takesLinks_of_known text _ hlinks hsimples hknown

end SelectorDraft

/-! ## Normal texts -/

namespace SelectorGrammar

open SelectorMark SelectorDraft

variable {p : Option SimpleSelector} {ps : Pieces} {cs : List Char}

/-- Blanks do not matter for parentheses. -/
theorem parenthesesMatch_singleSpaced (depth : Nat) (cs : List Char) :
    parenthesesMatch depth (singleSpaced cs) = parenthesesMatch depth cs := by
  have hpasses : ∀ {c}, isBlank c = true → ∀ depth cs,
      parenthesesMatch depth (c :: cs) = parenthesesMatch depth cs := by
    intro c hc depth cs
    have hopen : c ≠ '(' := by rintro rfl; exact absurd hc (by decide)
    have hclose : c ≠ ')' := by rintro rfl; exact absurd hc (by decide)
    rw [parenthesesMatch, if_neg hopen, if_neg hclose]
  induction cs using singleSpaced_induction generalizing depth with
  | nil => rfl
  | solid c cs hc ih =>
      rw [singleSpaced_cons_of_not_blank hc, parenthesesMatch, parenthesesMatch]
      simp only [ih]
  | inside c cs hc hnext ih => rw [singleSpaced_cons_of_blank_blank hc hnext, hpasses hc, ih]
  | last c cs hc hnext ih =>
      rw [singleSpaced_cons_of_blank hc hnext, hpasses hc, hpasses rfl, ih]

/-- A text of one piece in normal form. -/
structure IsNormalPiece (p : Option SimpleSelector) (cs : List Char) : Prop where
  solid : IsSolid cs
  stops : ∀ rest, Stops (cs ++ rest)
  after : ∀ (d : SelectorDraft) rest, Stops rest → d.after (cs ++ rest) = (d.step (pieceMark p)).after rest

theorem SpellsColon.isSolid_append {colon : List Char} (h : SpellsColon colon) {cs : List Char}
    (hcs : IsSolid cs) : IsSolid (':' :: (colon ++ cs)) := by
  cases h with
  | none => exact hcs.cons rfl
  | second => exact (hcs.cons rfl).cons rfl

theorem SpellsDropped.exists_normal (h : SpellsDropped cs) :
    ∃ ds, SameWords cs ds ∧ IsNormalPiece none ds := by
  cases h with
  | @unknown colon name hcolon hname hunknown =>
      refine ⟨_, .refl _, hcolon.isSolid_append hname.isSolid, fun rest => stops_cons (by decide) _, ?_⟩
      intro d rest hrest
      exact after_of_first _ (first_unknown hcolon hname hunknown hrest)
  | @functional colon name arguments hcolon hname hmatch =>
      refine ⟨':' :: (colon ++ (name.toList ++ '(' :: (singleSpaced arguments ++ [')']))), ?same, ?solid,
        fun rest => stops_cons (by decide) _, ?after⟩
      case same =>
        have hsame : SameWords (':' :: colon ++ name.toList ++ ['('] ++ (arguments ++ [')']))
            (':' :: colon ++ name.toList ++ ['('] ++ (singleSpaced arguments ++ [')'])) :=
          .append (.refl _) (.append (sameWords_singleSpaced arguments) (.refl _))
        simpa using hsame
      case solid =>
        have hopen : IsSolid ['('] := isSolid_singleton rfl
        have harguments := hopen.singleSpaced (isSolid_singleton (c := ')') rfl) arguments
        exact hcolon.isSolid_append (hname.isSolid.append harguments)
      case after =>
        intro d rest _
        have hspaced := (parenthesesMatch_singleSpaced 0 arguments).trans hmatch
        exact after_of_first _ (first_functional hcolon hname hspaced rest)

theorem SpellsPiece.exists_normal (h : SpellsPiece p cs) : ∃ ds, SameWords cs ds ∧ IsNormalPiece p ds := by
  cases h with
  | known detail =>
      exact ⟨cs, .refl cs, detail.isSolid, detail.stops, fun d rest hrest => detail.after hrest d⟩
  | dropped spelled => exact spelled.exists_normal

/-- A text of pieces in normal form. -/
structure IsNormalPieces (ps : Pieces) (cs : List Char) : Prop where
  solid_append : ∀ {front}, IsSolid front → IsSolid (front ++ cs)
  stops : ∀ {rest}, Stops rest → Stops (cs ++ rest)
  after : ∀ (d : SelectorDraft) rest, Stops rest → d.after (cs ++ rest) = (d.takes ps).after rest

theorem SpellsPieces.exists_normal (h : SpellsPieces ps cs) :
    ∃ ds, SameWords cs ds ∧ IsNormalPieces ps ds := by
  induction h with
  | nil =>
      exact ⟨[], .refl [], fun hfront => by rwa [List.append_nil], fun hrest => hrest, fun d rest _ => rfl⟩
  | @cons p ps cs ds piece more ih =>
      obtain ⟨cs', hcs, hpiece⟩ := piece.exists_normal
      obtain ⟨ds', hds, hmore⟩ := ih
      refine ⟨cs' ++ ds', hcs.append hds, fun hfront => ?_, fun hrest => ?_, fun d rest hrest => ?_⟩
      · rw [← List.append_assoc]
        exact hmore.solid_append (hfront.append hpiece.solid)
      · rw [List.append_assoc]
        exact hpiece.stops _
      · rw [List.append_assoc, hpiece.after d _ (hmore.stops hrest), hmore.after _ rest hrest]
        rfl

/-- A text of a compound in normal form. -/
structure IsNormalPartial (ps : Pieces) (cs : List Char) : Prop where
  solid : IsSolid cs
  after : ∀ (d : SelectorDraft) rest, Stops rest → d.after (cs ++ rest) = (d.takes ps).after rest

theorem SpellsPartial.exists_normal (h : SpellsPartial ps cs) :
    ∃ ds, SameWords cs ds ∧ IsNormalPartial ps ds := by
  cases h with
  | @typed s ps cs ds type pieces =>
      obtain ⟨ds', hds, hpieces⟩ := pieces.exists_normal
      refine ⟨cs ++ ds', .append (.refl cs) hds, hpieces.solid_append type.isSolid, fun d rest hrest => ?_⟩
      rw [List.append_assoc, type.after (hpieces.stops hrest), hpieces.after _ rest hrest]
      rfl
  | @untyped p ps cs ds piece pieces =>
      obtain ⟨cs', hcs, hpiece⟩ := piece.exists_normal
      obtain ⟨ds', hds, hpieces⟩ := pieces.exists_normal
      refine ⟨cs' ++ ds', hcs.append hds, hpieces.solid_append hpiece.solid, fun d rest hrest => ?_⟩
      rw [List.append_assoc, hpiece.after d _ (hpieces.stops hrest), hpieces.after _ rest hrest]
      rfl

/-- A text of the compounds behind the first one in normal form. -/
structure IsNormalPartialLinks (links : List (Combinator × Pieces)) (cs : List Char) : Prop where
  stops : Stops cs
  tidy : tidyFrom true cs = true
  after : ∀ d : SelectorDraft, d.after cs = d.takesLinks links

theorem SpellsPartialLinks.exists_normal {links : List (Combinator × Pieces)}
    (h : SpellsPartialLinks links cs) : ∃ ds, SameWords cs ds ∧ IsNormalPartialLinks links ds := by
  induction h with
  | nil => exact ⟨[], .refl [], stops_nil, rfl, fun d => rfl⟩
  | @cons k ps links cs ds es joint spelled more ih =>
      obtain ⟨cs', hcs, hjoint⟩ := joint.exists_normal
      obtain ⟨ds', hds, hcompound⟩ := spelled.exists_normal
      obtain ⟨es', hes, hmore⟩ := ih
      refine ⟨cs' ++ (ds' ++ es'), hcs.append (hds.append hes), hjoint.stops _, ?_, fun d => ?_⟩
      · rw [hjoint.tidy hcompound.solid, hmore.tidy]
      · rw [hjoint.after, hcompound.after _ _ hmore.stops, hmore.after]
        rfl

end SelectorGrammar

/-- A text with pieces that are dropped is read as the chain that remains. -/
theorem Selector.parse_of_spellsPartly {s : String} {first : Pieces} {links : List (Combinator × Pieces)}
    (h : SelectorGrammar.SpellsPartly first links s.toList) :
    parse s = ⟨(remaining first links).1, (remaining first links).2, normalText s⟩ := by
  generalize hs : s.toList = text at h
  obtain @⟨cs, ds, before, after, hbefore, spelled, rest, hafter⟩ := h
  obtain ⟨cs', hcs, hcompound⟩ := spelled.exists_normal
  obtain ⟨ds', hds, hnormal⟩ := rest.exists_normal
  have htext : collapseBlanks s.toList = cs' ++ ds' := by
    have hwords : words (before ++ (cs ++ ds) ++ after) = words (cs' ++ ds') := by
      rw [words_append_blanks hafter, words_blanks_append hbefore, (hcs.append hds).words_eq]
    rw [hs, collapseBlanks, hwords]
    refine collapseBlanks_of_tidy ?_
    rw [hcompound.solid, hnormal.tidy]
  have hparse : parse s = (SelectorDraft.after {} (cs' ++ ds')).finish (normalText s) := by
    rw [← htext]
    rfl
  rw [hparse, hcompound.after _ _ hnormal.stops, hnormal.after]
  exact SelectorDraft.finish_takesLinks (normalText s) first links rfl rfl

end WidgetStyle
