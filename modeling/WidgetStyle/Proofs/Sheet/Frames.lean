import WidgetStyle.Proofs.Double.Unit
import WidgetStyle.Sheet.Keyframes

/-!
# WidgetStyle.Proofs.Sheet.Frames — the frames of a keyframe set

Frames are written one at a time: a block goes into the frame that stands at its offset, or a new
frame is put where a halving search finds its place.  As long as every offset is a number, the
frames are `Ordered` after any number of writes (`Ordered.writeAll`): they stand between 0 and 1, in
ascending order, and no two of them at the same place.  The search is right on such frames because
those up to an offset come first (`partitionPoint_append`), and `Written` tells everything that one
write can do.

What is no number stays none when it is kept between 0 and 1, stands at no place, not even its own,
and is put somewhere among the frames (`not_inUnit_of_isNaN`).  So offsets that are numbers are just
what keeps the frames in order (`writeAll_in_order_iff`).
-/

namespace WidgetStyle

open Double

/-! ## The halving search -/

/-- The search for the last of the first `n` positions, where just these pass the test. -/
theorem searchFrom_eq {test : Nat → Bool} {n : Nat} (htest : ∀ i, test i = decide (i < n))
    (base size : Nat) (h : n ≤ base + size) : searchFrom test base size = max base (n - 1) := by
  fun_induction searchFrom test base size with
  | case1 base size hsize => omega
  | case2 base size hsize half ih =>
      have hhalf : test (base + half) = decide (base + half < n) := htest _
      by_cases hlt : base + half < n
      · simp only [hhalf, hlt, decide_true, ↓reduceIte, ↓reduceDIte] at ih ⊢
        rw [ih (by omega)]
        omega
      · simp only [hhalf, hlt, decide_false, Bool.false_eq_true, ↓reduceIte, ↓reduceDIte] at ih ⊢
        exact ih (by omega)

/-- The elements that pass the test are counted when they come first. -/
theorem partitionPoint_append {α : Type} {test : α → Bool} {l₁ l₂ : List α}
    (h₁ : ∀ x ∈ l₁, test x) (h₂ : ∀ x ∈ l₂, test x = false) :
    partitionPoint test (l₁ ++ l₂) = l₁.length := by
  have htest (i : Nat) : ((l₁ ++ l₂)[i]?).any test = decide (i < l₁.length) := by
    by_cases hi : i < l₁.length
    · rw [List.getElem?_append_left hi, List.getElem?_eq_getElem hi, decide_eq_true hi]
      exact h₁ _ (List.getElem_mem hi)
    · rw [List.getElem?_append_right (Nat.not_lt.mp hi), decide_eq_false hi]
      cases hx : l₂[i - l₁.length]? with
      | none => rfl
      | some x => exact h₂ x (List.mem_of_getElem? hx)
  rw [partitionPoint, searchFrom_eq htest 0 _ (by simp)]
  simp only [htest]
  split
  · next h =>
      have := of_decide_eq_true h
      omega
  · next h =>
      have : ¬max 0 (l₁.length - 1) < l₁.length := fun hlt => h (decide_eq_true hlt)
      omega

/-- Elements that pass the test come first when nothing that passes stands behind what fails. -/
theorem exists_partition {α : Type} {test : α → Bool} {l : List α}
    (h : l.Pairwise fun x y => test y → test x) :
    ∃ l₁ l₂, l = l₁ ++ l₂ ∧ (∀ x ∈ l₁, test x) ∧ ∀ x ∈ l₂, test x = false := by
  induction l with
  | nil => exact ⟨[], [], rfl, nofun, nofun⟩
  | cons x l ih =>
      obtain ⟨hx, hl⟩ := List.pairwise_cons.mp h
      cases htest : test x with
      | true =>
          obtain ⟨l₁, l₂, rfl, h₁, h₂⟩ := ih hl
          exact ⟨x :: l₁, l₂, rfl, List.forall_mem_cons.mpr ⟨htest, h₁⟩, h₂⟩
      | false =>
          refine ⟨[], x :: l, rfl, nofun, List.forall_mem_cons.mpr ⟨htest, fun y hy => ?_⟩⟩
          exact Bool.eq_false_iff.mpr fun hpass => by simp [hx y hy hpass] at htest

namespace Keyframe

/-! ## Standing at an offset -/

/-- How close two offsets are that pass for the same.  The distance of doubles is rounded, so this
is less than the distance between 1 and the next double, by half of the smallest step below it. -/
def tolerance : ℚ := 2 ^ (-52 : Int) - 2 ^ (-106 : Int)

theorem tolerance_pos : 0 < tolerance := by norm_num [tolerance]

theorem tolerance_lt : tolerance < 2 ^ (-52 : Int) := by norm_num [tolerance]

/-- The frame and the offset are in range, so their distance is known. -/
theorem standsAt_iff {f : Keyframe} {o : Float} (hf : InUnit f.offset) (ho : InUnit o) :
    f.standsAt o ↔ |value f.offset - value o| < tolerance :=
  decide_eq_true_iff.trans (abs_sub_lt_epsilon_iff hf ho)

/-- No frame stands at what is no number. -/
theorem standsAt_nan {f : Keyframe} {o : Float} (ho : o.isNaN) : f.standsAt o = false :=
  decide_eq_false (not_lt_of_isNaN (isNaN_abs_sub ho))

end Keyframe

namespace KeyframeSet

/-! ## One write -/

/-- What writing a block at an offset does: it goes into the first frame that stands there, or it
makes a new frame, behind the frames before the offset. -/
inductive Written (s : KeyframeSet) (o : Float) (block : Block) : KeyframeSet → Prop
  | merged {l₁ l₂ : List Keyframe} {f : Keyframe} (hframes : s.frames = l₁ ++ f :: l₂)
      (hat : f.standsAt o) :
      Written s o block { s with frames := l₁ ++ { f with block := f.block.merge block } :: l₂ }
  | placed {l₁ l₂ : List Keyframe} (hframes : s.frames = l₁ ++ l₂)
      (hat : ∀ f ∈ s.frames, f.standsAt o = false) (hbefore : ∀ f ∈ l₁, f.offset ≤ o)
      (hbehind : ∀ f ∈ l₂, ¬f.offset ≤ o) :
      Written s o block { s with frames := l₁ ++ ⟨o, block⟩ :: l₂ }

variable {s : KeyframeSet} {o : Float} {block : Block}

theorem mergeAt?_eq_none {l : List Keyframe} (h : mergeAt? o block l = none) :
    ∀ f ∈ l, f.standsAt o = false := by
  induction l with
  | nil => exact fun _ hf => absurd hf List.not_mem_nil
  | cons g l ih =>
      rw [mergeAt?] at h
      split at h
      · exact absurd h (Option.some_ne_none _)
      · next hg =>
          rw [List.forall_mem_cons]
          exact ⟨Bool.eq_false_iff.mpr hg, ih (Option.map_eq_none_iff.mp h)⟩

theorem mergeAt?_eq_some {l l' : List Keyframe} (h : mergeAt? o block l = some l') :
    ∃ l₁ f l₂, l = l₁ ++ f :: l₂ ∧ f.standsAt o ∧
      l' = l₁ ++ { f with block := f.block.merge block } :: l₂ := by
  induction l generalizing l' with
  | nil => exact nomatch h
  | cons g l ih =>
      rw [mergeAt?] at h
      split at h
      · next hg =>
          obtain rfl := Option.some_inj.mp h
          exact ⟨[], g, l, rfl, hg, rfl⟩
      · obtain ⟨l'', hl'', rfl⟩ := Option.map_eq_some_iff.mp h
        obtain ⟨l₁, f, l₂, rfl, hf, rfl⟩ := ih hl''
        exact ⟨g :: l₁, f, l₂, rfl, hf, rfl⟩

/-! ## Frames in order -/

/-- The frames stand between 0 and 1, in ascending order and at different places. -/
structure Ordered (s : KeyframeSet) : Prop where
  inUnit : ∀ f ∈ s.frames, InUnit f.offset
  apart : s.frames.Pairwise fun f g => Keyframe.tolerance ≤ value g.offset - value f.offset

theorem Ordered.empty (name : String) : ({ name } : KeyframeSet).Ordered where
  inUnit _ hf := absurd hf List.not_mem_nil
  apart := List.Pairwise.nil

namespace Ordered

/-- Frames at different places are in ascending order as doubles. -/
theorem ascending (h : s.Ordered) : s.frames.Pairwise fun f g => f.offset < g.offset := by
  refine h.apart.imp_of_mem fun {f g} hf hg hfg => ?_
  rw [lt_iff_value_lt (h.inUnit f hf).isFinite (h.inUnit g hg).isFinite]
  linarith [Keyframe.tolerance_pos]

/-- What a write does to frames in order. -/
theorem written (h : s.Ordered) (ho : o.isNaN = false) :
    s.Written (clampUnit o) block (s.writeAt o block) := by
  rw [writeAt]
  cases hmerge : mergeAt? (clampUnit o) block s.frames with
  | some frames =>
      obtain ⟨l₁, f, l₂, hframes, hf, rfl⟩ := mergeAt?_eq_some hmerge
      exact .merged hframes hf
  | none =>
      have hunit := inUnit_clampUnit ho
      have hpart : s.frames.Pairwise fun f g =>
          decide (g.offset ≤ clampUnit o) = true → decide (f.offset ≤ clampUnit o) = true := by
        refine h.apart.imp_of_mem fun {f g} hf hg hfg hle => ?_
        rw [decide_eq_true_iff] at hle ⊢
        rw [le_iff_value_le (h.inUnit _ ‹_›).isFinite hunit.isFinite] at hle ⊢
        linarith [Keyframe.tolerance_pos]
      obtain ⟨l₁, l₂, hframes, hbefore, hbehind⟩ := exists_partition hpart
      have hplace := partitionPoint_append hbefore hbehind
      dsimp only
      rw [hframes, hplace, List.take_left, List.drop_left]
      exact .placed hframes (mergeAt?_eq_none hmerge) (fun f hf => of_decide_eq_true (hbefore f hf))
        fun f hf => of_decide_eq_false (hbehind f hf)

theorem of_offsets_eq {s' : KeyframeSet} (h : s.Ordered)
    (heq : s'.frames.map Keyframe.offset = s.frames.map Keyframe.offset) : s'.Ordered where
  inUnit := by
    have := List.forall_mem_map.mpr h.inUnit
    rw [← heq] at this
    exact List.forall_mem_map.mp this
  apart := by
    have := (List.pairwise_map (f := Keyframe.offset)
      (R := fun o p => Keyframe.tolerance ≤ value p - value o)).mpr h.apart
    rw [← heq] at this
    exact List.pairwise_map.mp this

/-- The step of `writeAll`. -/
theorem of_written {s' : KeyframeSet} (h : s.Ordered) (ho : InUnit o) (hw : s.Written o block s') :
    s'.Ordered := by
  cases hw with
  | merged hframes hat => exact h.of_offsets_eq (by simp [hframes])
  | @placed l₁ l₂ hframes hat hbefore hbehind =>
      have hfar (f) (hf : f ∈ s.frames) : Keyframe.tolerance ≤ |value f.offset - value o| := by
        have := hat f hf
        rwa [Bool.eq_false_iff, Ne, Keyframe.standsAt_iff (h.inUnit f hf) ho, not_lt] at this
      have hunit := h.inUnit
      have hapart := h.apart
      rw [hframes] at hfar hunit hapart
      obtain ⟨h₁, h₂, h₁₂⟩ := List.pairwise_append.mp hapart
      have hleft (f) (hf : f ∈ l₁) : Keyframe.tolerance ≤ value o - value f.offset := by
        have hmem := List.mem_append_left l₂ hf
        have hle := (le_iff_value_le (hunit f hmem).isFinite ho.isFinite).mp (hbefore f hf)
        have := hfar f hmem
        rwa [abs_of_nonpos (sub_nonpos.mpr hle), neg_sub] at this
      have hright (f) (hf : f ∈ l₂) : Keyframe.tolerance ≤ value f.offset - value o := by
        have hmem := List.mem_append_right l₁ hf
        have hlt := (le_iff_value_le (hunit f hmem).isFinite ho.isFinite).not.mp (hbehind f hf)
        have := hfar f hmem
        rwa [abs_of_pos (sub_pos.mpr (not_le.mp hlt))] at this
      constructor
      · intro f hf
        rcases List.mem_append.mp hf with hf | hf
        · exact hunit f (List.mem_append_left _ hf)
        · rcases List.mem_cons.mp hf with rfl | hf
          · exact ho
          · exact hunit f (List.mem_append_right _ hf)
      · refine List.pairwise_append.mpr ⟨h₁, List.pairwise_cons.mpr ⟨hright, h₂⟩, ?_⟩
        intro f hf g hg
        rcases List.mem_cons.mp hg with rfl | hg
        · exact hleft f hf
        · exact h₁₂ f hf g hg

end Ordered

/-! ## All writes -/

/-- Writes blocks at offsets, one after the other. -/
def writeAll (s : KeyframeSet) (writes : List (Float × Block)) : KeyframeSet :=
  writes.foldl (fun s w => s.writeAt w.1 w.2) s

theorem writeAll_append (s : KeyframeSet) (l₁ l₂ : List (Float × Block)) :
    s.writeAll (l₁ ++ l₂) = (s.writeAll l₁).writeAll l₂ := List.foldl_append

theorem Ordered.writeAll (h : s.Ordered) {writes : List (Float × Block)}
    (hnum : ∀ w ∈ writes, w.1.isNaN = false) : (s.writeAll writes).Ordered := by
  induction writes generalizing s with
  | nil => exact h
  | cons w writes ih =>
      obtain ⟨hw, hnum⟩ := List.forall_mem_cons.mp hnum
      exact ih (h.of_written (inUnit_clampUnit hw) (h.written hw)) hnum

/-- The offsets of a set stay, and the written one is among them or a frame stood there. -/
theorem offsets_writeAt (s : KeyframeSet) (o : Float) (block : Block) :
    (∀ f ∈ s.frames, ∃ g ∈ (s.writeAt o block).frames, g.offset = f.offset) ∧
      ((∃ f ∈ s.frames, f.standsAt (clampUnit o)) ∨
        ∃ g ∈ (s.writeAt o block).frames, g.offset = clampUnit o) := by
  rw [writeAt]
  cases hmerge : mergeAt? (clampUnit o) block s.frames with
  | some frames =>
      obtain ⟨l₁, f, l₂, hframes, hf, rfl⟩ := mergeAt?_eq_some hmerge
      rw [hframes]
      refine ⟨fun g hg => ?_, Or.inl ⟨f, List.mem_append_right _ List.mem_cons_self, hf⟩⟩
      rcases List.mem_append.mp hg with hg | hg
      · exact ⟨g, List.mem_append_left _ hg, rfl⟩
      · rcases List.mem_cons.mp hg with rfl | hg
        · exact ⟨_, List.mem_append_right _ List.mem_cons_self, rfl⟩
        · exact ⟨g, List.mem_append_right _ (List.mem_cons_of_mem _ hg), rfl⟩
  | none =>
      dsimp only
      generalize partitionPoint _ s.frames = place
      refine ⟨fun g hg => ⟨g, ?_, rfl⟩,
        Or.inr ⟨_, List.mem_append_right _ List.mem_cons_self, rfl⟩⟩
      rw [← List.take_append_drop place s.frames] at hg
      rcases List.mem_append.mp hg with hg | hg
      · exact List.mem_append_left _ hg
      · exact List.mem_append_right _ (List.mem_cons_of_mem _ hg)

/-- The frames that are there stay through any number of writes, with their offsets. -/
theorem exists_offset_writeAll {f : Keyframe} (hf : f ∈ s.frames)
    (writes : List (Float × Block)) : ∃ g ∈ (s.writeAll writes).frames, g.offset = f.offset := by
  induction writes generalizing s f with
  | nil => exact ⟨f, hf, rfl⟩
  | cons w writes ih =>
      obtain ⟨g, hg, hoffset⟩ := (offsets_writeAt s w.1 w.2).1 f hf
      obtain ⟨g', hg', hoffset'⟩ := ih hg
      exact ⟨g', hg', hoffset'.trans hoffset⟩

/-- Wherever something was written, a frame stands, or has just this offset. -/
theorem exists_frame_writeAll {w : Float × Block} {writes : List (Float × Block)}
    (hw : w ∈ writes) : ∃ f ∈ (s.writeAll writes).frames,
      f.standsAt (clampUnit w.1) ∨ f.offset = clampUnit w.1 := by
  obtain ⟨l₁, l₂, rfl⟩ := List.append_of_mem hw
  rw [writeAll_append]
  change ∃ f ∈ (((s.writeAll l₁).writeAt w.1 w.2).writeAll l₂).frames, _
  have hframe : ∃ f ∈ ((s.writeAll l₁).writeAt w.1 w.2).frames,
      f.standsAt (clampUnit w.1) ∨ f.offset = clampUnit w.1 := by
    obtain ⟨hstay, ⟨f, hf, hat⟩ | ⟨g, hg, hoffset⟩⟩ := offsets_writeAt (s.writeAll l₁) w.1 w.2
    · obtain ⟨g, hg, hoffset⟩ := hstay f hf
      exact ⟨g, hg, Or.inl (by rwa [Keyframe.standsAt, hoffset])⟩
    · exact ⟨g, hg, Or.inr hoffset⟩
  obtain ⟨f, hf, hat⟩ := hframe
  obtain ⟨g, hg, hoffset⟩ := exists_offset_writeAll hf l₂
  exact ⟨g, hg, by rwa [Keyframe.standsAt, hoffset]⟩

theorem exists_standsAt_writeAll {w : Float × Block} {writes : List (Float × Block)}
    (h : s.Ordered) (hnum : ∀ w ∈ writes, w.1.isNaN = false) (hw : w ∈ writes) :
    ∃ f ∈ (s.writeAll writes).frames, f.standsAt (clampUnit w.1) := by
  have hunit := (h.writeAll hnum).inUnit
  obtain ⟨f, hf, hat | hoffset⟩ := exists_frame_writeAll (s := s) hw
  · exact ⟨f, hf, hat⟩
  · refine ⟨f, hf, (Keyframe.standsAt_iff (hunit f hf) (inUnit_clampUnit (hnum w hw))).mpr ?_⟩
    rw [hoffset, sub_self, abs_zero]
    exact Keyframe.tolerance_pos

/-- A frame that stands at an offset takes up what is written there. -/
theorem merges_of_standsAt (h : ∃ f ∈ s.frames, f.standsAt (clampUnit o)) (block : Block) :
    ∃ l₁ f l₂, s.frames = l₁ ++ f :: l₂ ∧ f.standsAt (clampUnit o) ∧
      (s.writeAt o block).frames = l₁ ++ { f with block := f.block.merge block } :: l₂ := by
  obtain ⟨g, hg, hat⟩ := h
  rw [writeAt]
  cases hmerge : mergeAt? (clampUnit o) block s.frames with
  | none => simp [mergeAt?_eq_none hmerge g hg] at hat
  | some frames =>
      obtain ⟨l₁, f, l₂, hframes, hf, rfl⟩ := mergeAt?_eq_some hmerge
      exact ⟨l₁, f, l₂, hframes, hf, rfl⟩

/-- Writing at what is no number always makes a new frame. -/
theorem length_writeAt_of_isNaN (s : KeyframeSet) (ho : o.isNaN) (block : Block) :
    (s.writeAt o block).frames.length = s.frames.length + 1 := by
  rw [writeAt, clampUnit_of_isNaN ho]
  cases hmerge : mergeAt? o block s.frames with
  | some frames =>
      obtain ⟨l₁, f, l₂, -, hf, -⟩ := mergeAt?_eq_some hmerge
      exact absurd hf (by rw [Keyframe.standsAt_nan ho]; decide)
  | none =>
      simp only [List.length_append, List.length_cons, List.length_take, List.length_drop]
      omega

/-- What is no number stays none, at the offset of a frame. -/
theorem not_inUnit_of_isNaN {w : Float × Block} {writes : List (Float × Block)}
    (hw : w ∈ writes) (hnan : w.1.isNaN) : ¬∀ f ∈ (s.writeAll writes).frames, InUnit f.offset := by
  intro hunit
  obtain ⟨f, hf, hat | hoffset⟩ := exists_frame_writeAll (s := s) hw
  · rw [clampUnit_of_isNaN hnan, Keyframe.standsAt_nan hnan] at hat
    exact Bool.false_ne_true hat
  · have := (hunit f hf).isNaN_eq_false
    rw [hoffset, clampUnit_of_isNaN hnan, hnan] at this
    exact Bool.noConfusion this

/-- However often blocks are written to a new set, and at whatever offsets: the frames stand
between 0 and 1, in ascending order, and writing once more where something was written merges into
a frame and adds none, just in case none of the offsets is NaN. -/
theorem writeAll_in_order_iff (name : String) (writes : List (Float × Block)) :
    ((∀ f ∈ (writeAll { name } writes).frames, InUnit f.offset) ∧
      (writeAll { name } writes).frames.Pairwise (fun f g => f.offset < g.offset) ∧
      ∀ w ∈ writes, ∀ block, ∃ l₁ f l₂, (writeAll { name } writes).frames = l₁ ++ f :: l₂ ∧
        f.standsAt (clampUnit w.1) ∧ ((writeAll { name } writes).writeAt w.1 block).frames =
          l₁ ++ { f with block := f.block.merge block } :: l₂) ↔
      ∀ w ∈ writes, w.1.isNaN = false := by
  constructor
  · rintro ⟨hunit, -, -⟩ w hw
    exact Bool.eq_false_iff.mpr fun hnan => not_inUnit_of_isNaN hw hnan hunit
  · intro hnum
    have hord := (Ordered.empty name).writeAll hnum
    exact ⟨hord.inUnit, hord.ascending, fun w hw =>
      merges_of_standsAt (exists_standsAt_writeAll (Ordered.empty name) hnum hw)⟩

/-- Two writes at NaN make two frames, and these are not between 0 and 1. -/
theorem nan_is_not_merged :
    (writeAll { name := "pulse" } [(0.0 / 0.0, {}), (0.0 / 0.0, {})]).frames.length = 2 ∧
      ¬∀ f ∈ (writeAll { name := "pulse" } [(0.0 / 0.0, {}), (0.0 / 0.0, {})]).frames,
        InUnit f.offset := by
  have hnan : (0.0 / 0.0 : Float).isNaN := by decide
  constructor
  · simp only [writeAll, List.foldl_cons, List.foldl_nil, length_writeAt_of_isNaN _ hnan,
      List.length_nil]
  · exact not_inUnit_of_isNaN List.mem_cons_self hnan

end KeyframeSet

end WidgetStyle
