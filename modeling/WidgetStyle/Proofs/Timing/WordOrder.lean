import WidgetStyle.Proofs.Value.Words
import WidgetStyle.Timing.Animation
import WidgetStyle.Timing.Transition

/-!
# WidgetStyle.Proofs.Timing.WordOrder — the words of a shorthand in any order

An item of the shorthands `transition` and `animation` is read word by word.  What a word says does
not depend on the words around it (`Transition.Word.ofText`, `Animation.Word.ofText`); what depends on
them is where it is written: the second time is the delay, a later keyword of a field replaces an
earlier one, and a second name is too much.

So two neighbours can change places when they are of different kinds (`take?_comm`), and then reading
goes by the order within each kind alone (`foldlM_eq_of_filter_eq`).  With one word of each kind, times
and names apart, every order that keeps the times in theirs reads the same.  Two names are too much in
every order.
-/

namespace WidgetStyle

open Text Value

/-! ## Steps that can be swapped -/

section Steps

variable {α β κ : Type} [DecidableEq κ] {f : β → α → Option β} {kind : α → κ}

/-- A step that can be swapped with all before it can be taken first. -/
theorem foldlM_append_cons {x : α} {front : List α}
    (h : ∀ y ∈ front, ∀ b, (f b y).bind (f · x) = (f b x).bind (f · y)) (back : List α) (b : β) :
    (front ++ x :: back).foldlM f b = (x :: (front ++ back)).foldlM f b := by
  induction front generalizing b with
  | nil => rfl
  | cons y front ih =>
      have hy := h y List.mem_cons_self b
      have ih := fun b => ih (fun z hz => h z (List.mem_cons_of_mem _ hz)) b
      calc ((y :: front) ++ x :: back).foldlM f b
          = (f b y).bind fun b => (x :: (front ++ back)).foldlM f b :=
            congrArg (f b y).bind (funext ih)
        _ = ((f b y).bind (f · x)).bind fun b => (front ++ back).foldlM f b :=
            (Option.bind_assoc _ _ _).symm
        _ = ((f b x).bind (f · y)).bind fun b => (front ++ back).foldlM f b := by rw [hy]
        _ = (x :: (y :: front ++ back)).foldlM f b := Option.bind_assoc _ _ _

/-- Where steps of different kinds can be swapped, a run goes by the steps of each kind in their
order. -/
theorem foldlM_eq_of_filter_eq
    (hswap : ∀ x y, kind x ≠ kind y → ∀ b, (f b x).bind (f · y) = (f b y).bind (f · x))
    {l l' : List α} (h : ∀ k, l.filter (kind · = k) = l'.filter (kind · = k)) (b : β) :
    l.foldlM f b = l'.foldlM f b := by
  induction l generalizing l' b with
  | nil =>
      cases l' with
      | nil => rfl
      | cons y l' => simpa using h (kind y)
  | cons x l ih =>
      -- the first step of its kind in the other run is the same one, and it can be taken first
      have hx : l'.filter (kind · = kind x) = x :: l.filter (kind · = kind x) := by
        rw [← h, List.filter_cons_of_pos (by simp)]
      obtain ⟨front, back, rfl, hfront, -, hback⟩ := List.filter_eq_cons_iff.mp hx
      have hfront : ∀ y ∈ front, kind y ≠ kind x := fun y hy => by simpa using hfront y hy
      have hrest : ∀ k, l.filter (kind · = k) = (front ++ back).filter (kind · = k) := by
        intro k
        rw [List.filter_append]
        by_cases hk : kind x = k
        · subst hk
          have hnone : front.filter (kind · = kind x) = [] :=
            List.filter_eq_nil_iff.mpr fun y hy => by simpa using hfront y hy
          rw [hnone, List.nil_append, hback]
        · have := h k
          rw [List.filter_append, List.filter_cons_of_neg (by simpa using hk),
            List.filter_cons_of_neg (by simpa using hk)] at this
          exact this
      rw [foldlM_append_cons (fun y hy => hswap y x (hfront y hy))]
      exact congrArg (f b x).bind (funext fun b => ih hrest b)

/-- What at most one member of a list passes is the same in every order of the list. -/
theorem filter_eq_of_perm {l l' : List α} {p : α → Bool} (h : l.Perm l') (hp : l.countP p ≤ 1) :
    l.filter p = l'.filter p := by
  have hperm : (l.filter p).Perm (l'.filter p) := h.filter p
  rw [List.countP_eq_length_filter] at hp
  match hl : l.filter p with
  | [] => exact (List.nil_perm.mp (hl ▸ hperm)).symm
  | [x] => exact (List.perm_singleton.mp (hl ▸ hperm).symm).symm
  | _ :: _ :: _ => simp [hl] at hp

/-- A number that each step keeps, or raises by one when it is of a kind, counts the steps of this
kind. -/
theorem count_of_foldlM (p : α → Bool) (count : β → Nat)
    (hstep : ∀ b x b', f b x = some b' → count b' = count b + if p x then 1 else 0) {l : List α}
    {b b' : β} (h : l.foldlM f b = some b') : count b' = count b + l.countP p := by
  induction l generalizing b with
  | nil =>
      obtain rfl : b = b' := Option.some_inj.mp h
      rfl
  | cons x l ih =>
      obtain ⟨c, hc, hl⟩ := Option.bind_eq_some_iff.mp h
      rw [ih hl, hstep b x c hc, List.countP_cons]
      omega

/-- Runs in which the steps of one kind come in the same order, and of all other kinds there is one
step at most, come to the same.  Of a kind that cannot be taken twice there may be more. -/
theorem foldlM_eq_of_perm {time name : κ} {taken : β → Bool}
    (hswap : ∀ x y, kind x ≠ kind y → ∀ b, (f b x).bind (f · y) = (f b y).bind (f · x))
    (htaken : ∀ b x b', f b x = some b' →
      (taken b').toNat = (taken b).toNat + if kind x = name then 1 else 0)
    {l l' : List α} (h : l.Perm l')
    (htime : l.filter (kind · = time) = l'.filter (kind · = time))
    (hone : ∀ k, k ≠ time → k ≠ name → l.countP (kind · = k) ≤ 1) (b : β) :
    l.foldlM f b = l'.foldlM f b := by
  by_cases hname : l.countP (kind · = name) ≤ 1
  · refine foldlM_eq_of_filter_eq hswap (fun k => ?_) b
    by_cases hk : k = time
    · rw [hk, htime]
    · refine filter_eq_of_perm h ?_
      by_cases hkname : k = name
      · rw [hkname]
        exact hname
      · exact hone k hk hkname
  · have hnone : ∀ l : List α, ¬l.countP (kind · = name) ≤ 1 → l.foldlM f b = none := by
      intro l hl
      refine Option.eq_none_iff_forall_ne_some.mpr fun b' hb' => hl ?_
      have hcount := count_of_foldlM (kind · = name) (fun b => (taken b).toNat)
        (by simpa using htaken) hb'
      have := Bool.toNat_le (taken b')
      omega
    rw [hnone l hname, hnone l' (h.countP_eq _ ▸ hname)]

end Steps

/-- Whether the word is a time. -/
def isTime (word : List Char) : Bool := (Duration.parse? (String.ofList word)).isSome

/-! ## Transitions -/

namespace Transition

/-- What a word of the shorthand says. -/
inductive Word where
  | time (duration : Duration)
  | timing (f : TimingFunction)
  | property (name : String)

/-- The kinds of words. -/
inductive WordKind where
  | time | timing | property
  deriving DecidableEq

/-- The kind of what a word says. -/
def Word.kind : Word → WordKind
  | time _ => .time
  | timing _ => .timing
  | property _ => .property

/-- What a word says, whatever stands around it. -/
def Word.ofText (text : String) : Word :=
  match Duration.parse? text with
  | some duration => .time duration
  | none =>
    match TimingFunction.parse? text with
    | some f => .timing f
    | none => .property (lower text)

/-- The kind of a word. -/
def kindOf (word : List Char) : WordKind := (Word.ofText (String.ofList word)).kind

theorem kindOf_eq_time_iff {word : List Char} : kindOf word = .time ↔ isTime word = true := by
  unfold kindOf Word.ofText isTime
  cases Duration.parse? (String.ofList word) with
  | some duration => exact iff_of_true rfl rfl
  | none => cases TimingFunction.parse? (String.ofList word) <;> exact iff_of_false nofun nofun

namespace Draft

/-- Writes a time: the first one is the duration and the second one the delay. -/
def takeTime (d : Draft) (time : Duration) : Draft :=
  if !d.hasDuration then
    { d with entry := { d.entry with duration := time }, hasDuration := true }
  else if !d.hasDelay then { d with entry := { d.entry with delay := time }, hasDelay := true }
  else d

theorem hasProperty_takeTime (d : Draft) (time : Duration) :
    (d.takeTime time).hasProperty = d.hasProperty := by
  unfold takeTime
  split
  · rfl
  · split <;> rfl

/-- Writes what a word says. -/
def take? (d : Draft) : Word → Option Draft
  | .time time => some (d.takeTime time)
  | .timing timing => some { d with entry := { d.entry with timing } }
  | .property property =>
    if d.hasProperty then none
    else some { d with entry := { d.entry with property }, hasProperty := true }

theorem step?_eq (d : Draft) (word : List Char) :
    d.step? word = d.take? (Word.ofText (String.ofList word)) := by
  unfold step? Word.ofText
  dsimp only
  cases Duration.parse? (String.ofList word) with
  | some time =>
      show _ = some (d.takeTime time)
      obtain ⟨entry, hasDuration, hasDelay, hasProperty⟩ := d
      cases hasDuration <;> cases hasDelay <;> rfl
  | none => cases TimingFunction.parse? (String.ofList word) <;> rfl

/-- Words of different kinds write different parts of the draft. -/
theorem take?_comm {v w : Word} (h : v.kind ≠ w.kind) (d : Draft) :
    (d.take? v).bind (·.take? w) = (d.take? w).bind (·.take? v) := by
  obtain ⟨entry, hasDuration, hasDelay, hasProperty⟩ := d
  cases v <;> cases w <;>
    first
    | exact absurd rfl h
    | cases hasDuration <;> cases hasDelay <;> cases hasProperty <;> rfl

/-- A draft has a property when one was written. -/
theorem hasProperty_of_take? {d d' : Draft} {w : Word} (h : d.take? w = some d') :
    d'.hasProperty.toNat = d.hasProperty.toNat + if w.kind = .property then 1 else 0 := by
  cases w with
  | time time =>
      obtain rfl := Option.some_inj.mp h
      rw [hasProperty_takeTime]
      rfl
  | timing timing =>
      obtain rfl := Option.some_inj.mp h
      rfl
  | property property =>
      obtain ⟨hnone, hsome⟩ := Option.ite_none_left_eq_some.mp h
      obtain rfl := Option.some_inj.mp hsome
      rw [Bool.eq_false_iff.mpr hnone]
      rfl

end Draft

theorem ofItem?_of_perm {words words' : List (List Char)} {item item' : String}
    (hitem : splitWords item.toList = words) (hitem' : splitWords item'.toList = words')
    (hperm : words.Perm words') (htime : words.filter isTime = words'.filter isTime)
    (hone : ∀ kind, kind ≠ .time → kind ≠ .property → words.countP (kindOf · = kind) ≤ 1) :
    ofItem? item = ofItem? item' := by
  have hisTime : (fun word => decide (kindOf word = .time)) = isTime :=
    funext fun word => by simp [kindOf_eq_time_iff]
  have hswap : ∀ v w, kindOf v ≠ kindOf w → ∀ d : Draft,
      (d.step? v).bind (·.step? w) = (d.step? w).bind (·.step? v) := fun v w h d => by
    simpa only [Draft.step?_eq] using Draft.take?_comm h d
  have htaken : ∀ (d : Draft) (w : List Char) (d' : Draft), d.step? w = some d' →
      d'.hasProperty.toNat = d.hasProperty.toNat + if kindOf w = .property then 1 else 0 :=
    fun d w d' h => Draft.hasProperty_of_take? (d.step?_eq w ▸ h)
  unfold ofItem?
  rw [hitem, hitem', foldlM_eq_of_perm hswap htaken hperm (by rw [hisTime, htime]) hone]

end Transition

/-! ## Animations -/

namespace Animation

/-- What a keyword says of one of the fields. -/
inductive Keyword where
  | playState (paused : Bool)
  | direction (direction : PlayDirection)
  | fill (fill : FillMode)
  | iterations (iterations : Iterations)
  | timing (f : TimingFunction)

/-- What a word of the shorthand says. -/
inductive Word where
  | time (duration : Duration)
  | keyword (keyword : Keyword)
  | name (name : String)

/-- The kinds of words. -/
inductive WordKind where
  | time | playState | direction | fill | iterations | timing | name
  deriving DecidableEq

/-- The kind of a keyword. -/
def Keyword.kind : Keyword → WordKind
  | playState _ => .playState
  | direction _ => .direction
  | fill _ => .fill
  | iterations _ => .iterations
  | timing _ => .timing

/-- The kind of what a word says. -/
def Word.kind : Word → WordKind
  | time _ => .time
  | keyword k => k.kind
  | name _ => .name

/-- The keyword of a text.  A text that could be more than one is the first of them in this order. -/
def Keyword.ofText? (text : String) : Option Keyword :=
  if text = "paused" then some (.playState true)
  else if text = "running" then some (.playState false)
  else
    ((PlayDirection.parse? text).map .direction).or <|
      ((FillMode.parse? text).map .fill).or <|
        ((Iterations.parse? text).map .iterations).or ((TimingFunction.parse? text).map .timing)

/-- What a word says, whatever stands around it. -/
def Word.ofText (text : String) : Word :=
  match Duration.parse? text with
  | some duration => .time duration
  | none =>
    match Keyword.ofText? (lower text) with
    | some k => .keyword k
    | none => .name text

/-- The kind of a word. -/
def kindOf (word : List Char) : WordKind := (Word.ofText (String.ofList word)).kind

/-- Writes what a keyword says. -/
def Keyword.write (x : Animation) : Keyword → Animation
  | .playState b => { x with paused := b }
  | .direction d => { x with direction := d }
  | .fill m => { x with fill := m }
  | .iterations n => { x with iterations := n }
  | .timing f => { x with timing := f }

theorem Keyword.kind_ne_time (k : Keyword) : k.kind ≠ .time := by
  cases k <;> exact nofun

theorem Keyword.kind_ne_name (k : Keyword) : k.kind ≠ .name := by
  cases k <;> exact nofun

/-- Keywords of different kinds write different fields. -/
theorem Keyword.write_comm {j k : Keyword} (h : j.kind ≠ k.kind) (x : Animation) :
    Keyword.write (Keyword.write x j) k = Keyword.write (Keyword.write x k) j := by
  cases j <;> cases k <;> first | exact absurd rfl h | rfl

theorem kindOf_eq_time_iff {word : List Char} : kindOf word = .time ↔ isTime word = true := by
  unfold kindOf Word.ofText isTime
  cases Duration.parse? (String.ofList word) with
  | some duration => exact iff_of_true rfl rfl
  | none =>
      refine iff_of_false ?_ nofun
      cases Keyword.ofText? (lower (String.ofList word)) with
      | some k => exact k.kind_ne_time
      | none => exact nofun

namespace Draft

/-- Writes a time: the first one is the duration and the second one the delay. -/
def takeTime (d : Draft) (time : Duration) : Draft :=
  if !d.hasDuration then
    { d with entry := { d.entry with duration := time }, hasDuration := true }
  else if !d.hasDelay then { d with entry := { d.entry with delay := time }, hasDelay := true }
  else d

/-- Writes what a keyword says. -/
def takeKeyword (d : Draft) (k : Keyword) : Draft := { d with entry := k.write d.entry }

/-- Writes what a word says. -/
def take? (d : Draft) : Word → Option Draft
  | .time time => some (d.takeTime time)
  | .keyword k => some (d.takeKeyword k)
  | .name name =>
    if d.hasName then none else some { d with entry := { d.entry with name }, hasName := true }

theorem keyword?_eq (d : Draft) (word : String) :
    d.keyword? word = (Keyword.ofText? (lower word)).map d.takeKeyword := by
  unfold keyword? Keyword.ofText?
  dsimp only
  split
  · rfl
  split
  · rfl
  cases PlayDirection.parse? (lower word) with
  | some direction => rfl
  | none =>
      cases FillMode.parse? (lower word) with
      | some fill => rfl
      | none =>
          cases Iterations.parse? (lower word) with
          | some iterations => rfl
          | none => cases TimingFunction.parse? (lower word) <;> rfl

theorem step?_eq (d : Draft) (word : List Char) :
    d.step? word = d.take? (Word.ofText (String.ofList word)) := by
  unfold step? Word.ofText
  dsimp only
  cases Duration.parse? (String.ofList word) with
  | some time =>
      show _ = some (d.takeTime time)
      obtain ⟨entry, hasDuration, hasDelay, hasName⟩ := d
      cases hasDuration <;> cases hasDelay <;> rfl
  | none =>
      rw [keyword?_eq]
      cases Keyword.ofText? (lower (String.ofList word)) <;> rfl

theorem takeTime_takeKeyword (d : Draft) (time : Duration) (keyword : Keyword) :
    (d.takeKeyword keyword).takeTime time = (d.takeTime time).takeKeyword keyword := by
  obtain ⟨entry, hasDuration, hasDelay, hasName⟩ := d
  cases keyword <;> cases hasDuration <;> cases hasDelay <;> rfl

theorem take?_name_takeTime (d : Draft) (time : Duration) (name : String) :
    (d.takeTime time).take? (.name name) = (d.take? (.name name)).map (·.takeTime time) := by
  obtain ⟨entry, hasDuration, hasDelay, hasName⟩ := d
  cases hasName <;> cases hasDuration <;> cases hasDelay <;> rfl

theorem take?_name_takeKeyword (d : Draft) (keyword : Keyword) (name : String) :
    (d.takeKeyword keyword).take? (.name name) =
      (d.take? (.name name)).map (·.takeKeyword keyword) := by
  obtain ⟨entry, hasDuration, hasDelay, hasName⟩ := d
  cases keyword <;> cases hasName <;> rfl

/-- Words of different kinds write different parts of the draft. -/
theorem take?_comm {v w : Word} (h : v.kind ≠ w.kind) (d : Draft) :
    (d.take? v).bind (·.take? w) = (d.take? w).bind (·.take? v) := by
  cases v with
  | time s =>
      cases w with
      | time t => exact absurd rfl h
      | keyword k => exact congrArg some (d.takeTime_takeKeyword s k).symm
      | name n => exact (d.take?_name_takeTime s n).trans Option.map_eq_bind
  | keyword j =>
      cases w with
      | time t => exact congrArg some (d.takeTime_takeKeyword t j)
      | keyword k =>
          show some _ = some _
          unfold takeKeyword
          rw [Keyword.write_comm h]
      | name n => exact (d.take?_name_takeKeyword j n).trans Option.map_eq_bind
  | name m =>
      cases w with
      | time t => exact Option.map_eq_bind.symm.trans (d.take?_name_takeTime t m).symm
      | keyword k => exact Option.map_eq_bind.symm.trans (d.take?_name_takeKeyword k m).symm
      | name n => exact absurd rfl h

/-- A draft has a name when one was written. -/
theorem hasName_of_take? {d d' : Draft} {w : Word} (h : d.take? w = some d') :
    d'.hasName.toNat = d.hasName.toNat + if w.kind = .name then 1 else 0 := by
  cases w with
  | time time =>
      obtain rfl := Option.some_inj.mp h
      unfold takeTime
      split
      · rfl
      · split <;> rfl
  | keyword keyword =>
      obtain rfl := Option.some_inj.mp h
      rw [Word.kind, if_neg keyword.kind_ne_name]
      rfl
  | name name =>
      obtain ⟨hnone, hsome⟩ := Option.ite_none_left_eq_some.mp h
      obtain rfl := Option.some_inj.mp hsome
      rw [Bool.eq_false_iff.mpr hnone]
      rfl

end Draft

theorem ofItem?_of_perm {words words' : List (List Char)} {item item' : String}
    (hitem : splitWords item.toList = words) (hitem' : splitWords item'.toList = words')
    (hperm : words.Perm words') (htime : words.filter isTime = words'.filter isTime)
    (hone : ∀ kind, kind ≠ .time → kind ≠ .name → words.countP (kindOf · = kind) ≤ 1) :
    ofItem? item = ofItem? item' := by
  have hisTime : (fun word => decide (kindOf word = .time)) = isTime :=
    funext fun word => by simp [kindOf_eq_time_iff]
  have hswap : ∀ v w, kindOf v ≠ kindOf w → ∀ d : Draft,
      (d.step? v).bind (·.step? w) = (d.step? w).bind (·.step? v) := fun v w h d => by
    simpa only [Draft.step?_eq] using Draft.take?_comm h d
  have htaken : ∀ (d : Draft) (w : List Char) (d' : Draft), d.step? w = some d' →
      d'.hasName.toNat = d.hasName.toNat + if kindOf w = .name then 1 else 0 :=
    fun d w d' h => Draft.hasName_of_take? (d.step?_eq w ▸ h)
  unfold ofItem?
  rw [hitem, hitem', foldlM_eq_of_perm hswap htaken hperm (by rw [hisTime, htime]) hone]

end Animation

/-- **The words of an item may come in any order.**  Of two texts made of the same balanced words, with
the times in the same order in both, one is read as the same transition as the other if there is one
timing function at most, and as the same animation if there is one keyword at most of each kind.  How
many names there are does not matter: where one of the texts is dropped, so is the other. -/
theorem ofItem?_reorder {words words' : List (List Char)} {item item' : String}
    (hitem : Spaced words item.toList) (hitem' : Spaced words' item'.toList)
    (hperm : words.Perm words') (htime : words.filter isTime = words'.filter isTime) :
    ((∀ kind, kind ≠ .time → kind ≠ .property →
        words.countP (Transition.kindOf · = kind) ≤ 1) →
      Transition.ofItem? item = Transition.ofItem? item') ∧
    ((∀ kind, kind ≠ .time → kind ≠ .name → words.countP (Animation.kindOf · = kind) ≤ 1) →
      Animation.ofItem? item = Animation.ofItem? item') := by
  have hwords := splitWords_of_spaced hitem
  have hwords' := splitWords_of_spaced hitem'
  exact ⟨Transition.ofItem?_of_perm hwords hwords' hperm htime,
    Animation.ofItem?_of_perm hwords hwords' hperm htime⟩

/-- The statement at two orders of a time, a stepped curve, a name and a second time. -/
theorem ofItem?_reorder_pulse :
    let words := ["0".toList, "steps(3, start)".toList, "pulse".toList, "-0.0".toList]
    let words' := ["pulse".toList, "0".toList, "-0.0".toList, "steps(3, start)".toList]
    Spaced words "0 steps(3, start) pulse -0.0".toList ∧
      Spaced words' "pulse  0 -0.0 steps(3, start)".toList ∧ words.Perm words' ∧
      words.filter isTime = words'.filter isTime ∧
      Transition.ofItem? "0 steps(3, start) pulse -0.0" =
        Transition.ofItem? "pulse  0 -0.0 steps(3, start)" ∧
      Animation.ofItem? "0 steps(3, start) pulse -0.0" =
        Animation.ofItem? "pulse  0 -0.0 steps(3, start)" := by
  intro words words'
  have hbalanced : ∀ word ∈ words, BalancedWord word := by decide +kernel
  simp only [words, List.forall_mem_cons] at hbalanced
  obtain ⟨hzero, hsteps, hname, hdelay, -⟩ := hbalanced
  have hblank : isAsciiBlank ' ' = true := by decide
  have hitem : Spaced words "0 steps(3, start) pulse -0.0".toList :=
    .word hzero hblank (.word hsteps hblank (.word hname hblank (.single hdelay)))
  have hitem' : Spaced words' "pulse  0 -0.0 steps(3, start)".toList :=
    .word hname hblank (.blank hblank (.word hzero hblank (.word hdelay hblank (.single hsteps))))
  have hperm : words.Perm words' := by decide +kernel
  have htime : words.filter isTime = words'.filter isTime := by decide +kernel
  have hsame := ofItem?_reorder hitem hitem' hperm htime
  refine ⟨hitem, hitem', hperm, htime, hsame.1 ?_, hsame.2 ?_⟩ <;>
    intro kind <;> cases kind <;> decide +kernel

end WidgetStyle
