import Mathlib.Data.List.Induction
import WidgetStyle.Proofs.Sheet.Blocks
import WidgetStyle.Proofs.Sheet.Frames

/-!
# WidgetStyle.Proofs.Sheet.FrameSources — keyframe sets from their written form

A written keyframe set lists offsets, in any order and with repetitions, and gives declarations for
them.  What can be told of the set from the text alone (`areFramesOf_ofSource`):

* offsets are `from`, `to` and percentages from 0 to 100 (`parseOffset?_eq_some_iff`), and nothing
  else leaves a trace;
* the frames are in order, and every offset that is listed has its frame;
* when listed offsets that differ are not too close, the frame of an offset holds for every name
  what the last of the written frames that list the offset and declare the name says.

The set is made by writes (`ofSource_eq_writeAll`), so the frames are those of `writeAll`; the last
point is an induction over the writes, which holds for whatever is looked up in blocks as long as
merging blocks prefers the later one (`lookup_writeAll`).
-/

namespace WidgetStyle

open Double Text

/-! ## Offsets -/

namespace Keyframe

/-- The offset that a text stands for. -/
inductive IsOffset (text : String) : Float → Prop
  | first (h : sameLetters (trimmed text) "from") : IsOffset text 0.0
  | last (h : sameLetters (trimmed text) "to") : IsOffset text 1.0
  | percentage {number : List Char} {percent : Float}
      (htext : (trimmed text).toList = number ++ ['%'])
      (hnumber : Decimal.readFloat? (trim number) = some percent) (hmin : 0.0 ≤ percent)
      (hmax : percent ≤ 100.0) : IsOffset text (percent / 100.0)

theorem dropEnding?_eq_some_iff {ending cs rest : List Char} :
    dropEnding? ending cs = some rest ↔ cs = rest ++ ending := by
  rw [dropEnding?]
  split
  · next h =>
      obtain ⟨front, rfl⟩ := List.isSuffixOf_iff_suffix.mp h
      simp [eq_comm]
  · next h =>
      refine iff_of_false (Option.some_ne_none _).symm fun hcs => h ?_
      exact List.isSuffixOf_iff_suffix.mpr ⟨rest, hcs.symm⟩

/-- A text that ends in a percent sign is none of the words. -/
theorem not_sameLetters_of_percent {text : String} {number : List Char}
    (h : text.toList = number ++ ['%']) {word : String}
    (hword : (lower word).toList.getLast? ≠ some '%') : sameLetters text word = false := by
  rw [sameLetters, beq_eq_false_iff_ne]
  rintro heq
  rw [← heq, toList_lower, h, List.map_append, List.map_singleton, List.getLast?_concat] at hword
  exact hword rfl

theorem parseOffset?_eq_some_iff {text : String} {o : Float} :
    parseOffset? text = some o ↔ IsOffset text o := by
  rw [parseOffset?]
  constructor
  · intro h
    split at h
    · next hfrom =>
        obtain rfl := Option.some_inj.mp h
        exact .first hfrom
    · split at h
      · next hto =>
          obtain rfl := Option.some_inj.mp h
          exact .last hto
      · split at h
        · exact absurd h (Option.some_ne_none _).symm
        · next number hnumber =>
            split at h
            · exact absurd h (Option.some_ne_none _).symm
            · next percent hpercent =>
                obtain ⟨hrange, ho⟩ := Option.ite_none_right_eq_some.mp h
                obtain rfl := Option.some_inj.mp ho
                rw [Bool.and_eq_true, decide_eq_true_iff, decide_eq_true_iff] at hrange
                exact .percentage (dropEnding?_eq_some_iff.mp hnumber) hpercent hrange.1 hrange.2
  · intro h
    cases h with
    | first hfrom => rw [if_pos hfrom]
    | last hto =>
        have hfrom : sameLetters (trimmed text) "from" = false := by
          rw [sameLetters, beq_iff_eq] at hto
          rw [sameLetters, hto]
          decide
        simp only [hfrom, hto, Bool.false_eq_true, if_false, if_true]
    | percentage htext hnumber hmin hmax =>
        have hfrom : sameLetters (trimmed text) "from" = false :=
          not_sameLetters_of_percent htext (by decide)
        have hto : sameLetters (trimmed text) "to" = false :=
          not_sameLetters_of_percent htext (by decide)
        simp only [hfrom, hto, Bool.false_eq_true, if_false, dropEnding?_eq_some_iff.mpr htext,
          hnumber, hmin, hmax, decide_true, Bool.and_self, if_true]

theorem IsOffset.inUnit {text : String} {o : Float} (h : IsOffset text o) : InUnit o := by
  cases h with
  | first => decide
  | last => decide
  | percentage htext hnumber hmin hmax => exact inUnit_div_hundred hmin hmax

end Keyframe

/-! ## Looking up what was merged -/

namespace Block

theorem declaration?_merge {b : Block} (h : b.NamesDistinct) (c : Block) (n : String) :
    (c.merge b).declaration? n = (b.declaration? n).or (c.declaration? n) := by
  rw [declaration?, merge_eq]
  exact find?_foldl_putByName h.declarations n c.declarations

theorem find?_vars_merge {b : Block} (h : b.NamesDistinct) (c : Block) (n : String) :
    (c.merge b).vars.find? (fun v => v.name = n) =
      (b.vars.find? fun v => v.name = n).or (c.vars.find? fun v => v.name = n) := by
  rw [merge_eq]
  exact find?_foldl_putByName h.vars n c.vars

end Block

namespace KeyframeSet

/-! ## Where frames and their declarations come from -/

variable {s s' : KeyframeSet} {o : Float} {block : Block} {f : Keyframe}

/-- The frames behind a write: those that it does not concern, the one that took it up, or a new
one. -/
theorem Ordered.mem_written (h : s.Ordered) (ho : InUnit o) (hw : s.Written o block s')
    (hf : f ∈ s'.frames) :
    (f ∈ s.frames ∧ value f.offset ≠ value o) ∨
      (∃ g ∈ s.frames, g.standsAt o ∧ f = { g with block := g.block.merge block }) ∨
      f = ⟨o, block⟩ ∧ ∀ g ∈ s.frames, g.standsAt o = false := by
  have hstands (g) (hg : g ∈ s.frames) := Keyframe.standsAt_iff (h.inUnit g hg) ho
  cases hw with
  | @merged l₁ l₂ g hframes hat =>
      have hapart := h.apart
      rw [hframes] at hapart hstands ⊢
      obtain ⟨-, hright, hleft⟩ := List.pairwise_append.mp hapart
      have hat' := abs_lt.mp ((hstands g (List.mem_append_right _ List.mem_cons_self)).mp hat)
      rcases List.mem_append.mp hf with hf | hf
      · refine Or.inl ⟨List.mem_append_left _ hf, fun heq => ?_⟩
        have := hleft f hf g List.mem_cons_self
        linarith [hat'.2]
      · rcases List.mem_cons.mp hf with rfl | hf
        · exact Or.inr (Or.inl ⟨g, List.mem_append_right _ List.mem_cons_self, hat, rfl⟩)
        · refine Or.inl ⟨List.mem_append_right _ (List.mem_cons_of_mem _ hf), fun heq => ?_⟩
          have := (List.pairwise_cons.mp hright).1 f hf
          linarith [hat'.1]
  | @placed l₁ l₂ hframes hat =>
      have hne (g) (hg : g ∈ s.frames) : value g.offset ≠ value o := fun heq => by
        have := (hstands g hg).mpr (by rw [heq, sub_self, abs_zero]; exact Keyframe.tolerance_pos)
        exact Bool.false_ne_true ((hat g hg).symm.trans this)
      rcases List.mem_append.mp hf with hf | hf
      · have hmem : f ∈ s.frames := hframes ▸ List.mem_append_left _ hf
        exact Or.inl ⟨hmem, hne f hmem⟩
      · rcases List.mem_cons.mp hf with rfl | hf
        · exact Or.inr (Or.inr ⟨rfl, hat⟩)
        · have hmem : f ∈ s.frames := hframes ▸ List.mem_append_right _ hf
          exact Or.inl ⟨hmem, hne f hmem⟩

/-- What a frame of a set that was written holds: it stands at an offset that was written, and the
names in it come from what was written there. -/
structure ComesFrom (f : Keyframe) (writes : List (Float × Block)) : Prop where
  offset : ∃ w ∈ writes, f.offset = clampUnit w.1
  declarations : ∀ d ∈ f.block.declarations, ∃ w ∈ writes, d ∈ w.2.declarations ∧
    |value f.offset - value (clampUnit w.1)| < Keyframe.tolerance
  vars : ∀ v ∈ f.block.vars, ∃ w ∈ writes, v ∈ w.2.vars ∧
    |value f.offset - value (clampUnit w.1)| < Keyframe.tolerance

theorem ComesFrom.append {writes : List (Float × Block)} (h : ComesFrom f writes)
    (more : List (Float × Block)) : ComesFrom f (writes ++ more) where
  offset := by
    obtain ⟨w, hw, h⟩ := h.offset
    exact ⟨w, List.mem_append_left _ hw, h⟩
  declarations d hd := by
    obtain ⟨w, hw, h⟩ := h.declarations d hd
    exact ⟨w, List.mem_append_left _ hw, h⟩
  vars v hv := by
    obtain ⟨w, hw, h⟩ := h.vars v hv
    exact ⟨w, List.mem_append_left _ hw, h⟩

theorem comesFrom_writeAll {name : String} {writes : List (Float × Block)}
    (hnum : ∀ w ∈ writes, w.1.isNaN = false) (hf : f ∈ (writeAll { name } writes).frames) :
    ComesFrom f writes := by
  induction writes using List.reverseRecOn generalizing f with
  | nil => exact absurd hf List.not_mem_nil
  | append_singleton writes w ih =>
      obtain ⟨hnum, hw⟩ := List.forall_mem_append.mp hnum
      have hord := (Ordered.empty name).writeAll hnum
      have hunit := inUnit_clampUnit (hw w List.mem_cons_self)
      have hmem : w ∈ writes ++ [w] := List.mem_append_right _ List.mem_cons_self
      rw [writeAll_append] at hf
      rcases hord.mem_written hunit (hord.written (hw w List.mem_cons_self)) hf with
        ⟨hf, -⟩ | ⟨g, hg, hat, rfl⟩ | ⟨rfl, -⟩
      · exact (ih hnum hf).append _
      · have hclose := (Keyframe.standsAt_iff (hord.inUnit g hg) hunit).mp hat
        have hg := (ih hnum hg).append [w]
        refine ⟨hg.offset, fun d hd => ?_, fun v hv => ?_⟩
        · rcases Block.mem_declarations_merge hd with hd | hd
          · exact hg.declarations d hd
          · exact ⟨w, hmem, hd, hclose⟩
        · rcases Block.mem_vars_merge hv with hv | hv
          · exact hg.vars v hv
          · exact ⟨w, hmem, hv, hclose⟩
      · have hclose : |value (clampUnit w.1) - value (clampUnit w.1)| < Keyframe.tolerance := by
          rw [sub_self, abs_zero]
          exact Keyframe.tolerance_pos
        exact ⟨⟨w, hmem, rfl⟩, fun d hd => ⟨w, hmem, hd, hclose⟩, fun v hv => ⟨w, hmem, hv, hclose⟩⟩

/-- Where no frame stands, nothing was written. -/
theorem value_ne_of_standsAt_eq_false {name : String} {writes : List (Float × Block)}
    (hnum : ∀ w ∈ writes, w.1.isNaN = false) (ho : InUnit o)
    (hnone : ∀ g ∈ (writeAll { name } writes).frames, g.standsAt o = false) :
    ∀ w ∈ writes, value (clampUnit w.1) ≠ value o := by
  intro w hw heq
  have hord := (Ordered.empty name).writeAll hnum
  obtain ⟨g, hg, hat⟩ := exists_standsAt_writeAll (Ordered.empty name) hnum hw
  rw [Keyframe.standsAt_iff (hord.inUnit g hg) (inUnit_clampUnit (hnum w hw)), heq,
    ← Keyframe.standsAt_iff (hord.inUnit g hg) ho, hnone g hg] at hat
  exact Bool.noConfusion hat

/-- What the frames say when offsets that differ are not too close: the last word at the offset. -/
theorem lookup_writeAll {β : Type} (get : Block → Option β) {name : String}
    {writes : List (Float × Block)} (hnum : ∀ w ∈ writes, w.1.isNaN = false)
    (hget : ∀ b, ∀ w ∈ writes, get (b.merge w.2) = (get w.2).or (get b))
    (hapart : ∀ v ∈ writes, ∀ w ∈ writes, value (clampUnit v.1) = value (clampUnit w.1) ∨
      Keyframe.tolerance ≤ |value (clampUnit v.1) - value (clampUnit w.1)|)
    (hf : f ∈ (writeAll { name } writes).frames) :
    get f.block = writes.reverse.findSome? fun w =>
      if value (clampUnit w.1) = value f.offset then get w.2 else none := by
  induction writes using List.reverseRecOn generalizing f with
  | nil => exact absurd hf List.not_mem_nil
  | append_singleton writes w ih =>
      have hmem : w ∈ writes ++ [w] := List.mem_append_right _ List.mem_cons_self
      have hearlier {v} (hv : v ∈ writes) : v ∈ writes ++ [w] := List.mem_append_left _ hv
      have hnum' (v) (hv : v ∈ writes) : v.1.isNaN = false := hnum v (hearlier hv)
      have hord := (Ordered.empty name).writeAll hnum'
      have hunit := inUnit_clampUnit (hnum w hmem)
      have ih {g} (hg : g ∈ (writeAll { name } writes).frames) :=
        ih hnum' (fun b v hv => hget b v (hearlier hv))
          (fun u hu v hv => hapart u (hearlier hu) v (hearlier hv)) hg
      rw [writeAll_append] at hf
      rw [List.reverse_append, List.findSome?_append, List.reverse_singleton,
        List.findSome?_singleton]
      rcases hord.mem_written hunit (hord.written (hnum w hmem)) hf with
        ⟨hf, hne⟩ | ⟨g, hg, hat, rfl⟩ | ⟨rfl, hnone⟩
      · rw [if_neg hne.symm, Option.none_or]
        exact ih hf
      · -- the frame stands at the offset of an earlier write, so at the same as this one
        have hclose := (Keyframe.standsAt_iff (hord.inUnit g hg) hunit).mp hat
        obtain ⟨v, hv, hoffset⟩ := (comesFrom_writeAll hnum' hg).offset
        have hsame : value (clampUnit w.1) = value g.offset := by
          rw [hoffset] at hclose ⊢
          exact ((hapart v (hearlier hv) w hmem).resolve_right (not_le.mpr hclose)).symm
        rw [if_pos hsame, hget _ w hmem, ih hg]
      · -- nothing was written at the offset before, or a frame would stand there
        have hfirst : (writes.reverse.findSome? fun v =>
            if value (clampUnit v.1) = value (clampUnit w.1) then get v.2 else none) = none :=
          List.findSome?_eq_none_iff.mpr fun v hv =>
            if_neg (value_ne_of_standsAt_eq_false hnum' hunit hnone v (List.mem_reverse.mp hv))
        rw [if_pos rfl, hfirst, Option.or_none]

/-! ## Written sets -/

/-- The writes that a written set stands for. -/
def writesOf (r : Registry) (source : Source.Keyframes) : List (Float × Block) :=
  source.frames.flatMap fun frame => (frameOffsets frame).map fun o => (o, frameBlock r frame)

theorem ofSource_eq_writeAll (r : Registry) (source : Source.Keyframes) :
    ofSource r source = writeAll { name := source.name } (writesOf r source) := by
  rw [ofSource, writeAll, writesOf, List.foldl_flatMap]
  simp only [List.foldl_map]

theorem mem_writesOf {r : Registry} {source : Source.Keyframes} {w : Float × Block} :
    w ∈ writesOf r source ↔
      ∃ frame ∈ source.frames, ∃ o ∈ frameOffsets frame, w = (o, frameBlock r frame) := by
  simp [writesOf, eq_comm]

/-- The offsets of a frame are those that its heading lists. -/
theorem mem_frameOffsets {frame : Source.Rule} {o : Float} :
    o ∈ frameOffsets frame ↔ ∃ piece ∈ Value.splitList ',' frame.heading.toList,
      Keyframe.IsOffset (String.ofList piece) o := by
  simp [frameOffsets, Keyframe.parseOffset?_eq_some_iff]

theorem inUnit_of_mem_frameOffsets {frame : Source.Rule} {o : Float} (h : o ∈ frameOffsets frame) :
    InUnit o := by
  obtain ⟨_, -, h⟩ := mem_frameOffsets.mp h
  exact h.inUnit

theorem namesDistinct_frameBlock (r : Registry) (frame : Source.Rule) :
    (frameBlock r frame).NamesDistinct :=
  List.foldlRecOn _ _ Block.NamesDistinct.empty fun _ h d _ => h.push r d

theorem findSome?_ite {α β : Type} (p : α → Bool) (answer : Option β) (l : List α) :
    l.findSome? (fun x => if p x then answer else none) = if l.any p then answer else none := by
  induction l with
  | nil => rfl
  | cons x l ih =>
      rw [List.findSome?_cons, ih, List.any_cons]
      cases p x <;> cases answer <;> simp

/-- The last write at an offset is that of the last frame that lists it. -/
theorem findSome?_writesOf {β : Type} (get : Block → Option β) (r : Registry)
    (source : Source.Keyframes) (x : Float) :
    (writesOf r source).reverse.findSome? (fun w =>
        if value (clampUnit w.1) = value x then get w.2 else none) =
      source.frames.reverse.findSome? fun frame =>
        if (frameOffsets frame).any (fun o => value o = value x) then get (frameBlock r frame)
        else none := by
  rw [writesOf]
  induction source.frames with
  | nil => rfl
  | cons frame frames ih =>
      have hframe : ((frameOffsets frame).map fun o => (o, frameBlock r frame)).reverse.findSome?
          (fun w => if value (clampUnit w.1) = value x then get w.2 else none) =
            if (frameOffsets frame).any (fun o => value o = value x) then get (frameBlock r frame)
            else none := by
        rw [← List.map_reverse, List.findSome?_map]
        simp only [Function.comp_def]
        have := findSome?_ite (fun o => decide (value (clampUnit o) = value x))
          (get (frameBlock r frame)) (frameOffsets frame).reverse
        simp only [decide_eq_true_iff] at this
        have hclamp : (frameOffsets frame).map clampUnit = frameOffsets frame :=
          (List.map_congr_left fun o ho =>
            clampUnit_of_inUnit (inUnit_of_mem_frameOffsets ho)).trans (List.map_id' _)
        rw [this, List.any_reverse]
        conv_rhs => rw [← hclamp, List.any_map]
        rfl
      rw [List.flatMap_cons, List.reverse_append, List.findSome?_append, ih, List.reverse_cons,
        List.findSome?_append, hframe, List.findSome?_singleton]

section OfSource

variable {r : Registry} {source : Source.Keyframes} {f : Keyframe}

theorem inUnit_of_mem_writesOf {w : Float × Block} (hw : w ∈ writesOf r source) : InUnit w.1 := by
  obtain ⟨frame, -, o, ho, rfl⟩ := mem_writesOf.mp hw
  exact inUnit_of_mem_frameOffsets ho

theorem isNaN_of_mem_writesOf (w : Float × Block) (hw : w ∈ writesOf r source) :
    w.1.isNaN = false := (inUnit_of_mem_writesOf hw).isNaN_eq_false

theorem clampUnit_of_mem_writesOf {w : Float × Block} (hw : w ∈ writesOf r source) :
    clampUnit w.1 = w.1 := clampUnit_of_inUnit (inUnit_of_mem_writesOf hw)

/-- The frames of a written set are in order. -/
theorem ordered_ofSource (r : Registry) (source : Source.Keyframes) :
    (ofSource r source).Ordered := by
  rw [ofSource_eq_writeAll]
  exact (Ordered.empty source.name).writeAll isNaN_of_mem_writesOf

theorem comesFrom_ofSource (hf : f ∈ (ofSource r source).frames) :
    ComesFrom f (writesOf r source) := by
  rw [ofSource_eq_writeAll] at hf
  exact comesFrom_writeAll isNaN_of_mem_writesOf hf

/-- Every offset that is listed has its frame. -/
theorem exists_close_of_mem_frameOffsets {frame : Source.Rule} (hframe : frame ∈ source.frames)
    {o : Float} (ho : o ∈ frameOffsets frame) :
    ∃ f ∈ (ofSource r source).frames, |value f.offset - value o| < 2 ^ (-52 : Int) := by
  have hw : (o, frameBlock r frame) ∈ writesOf r source :=
    mem_writesOf.mpr ⟨frame, hframe, o, ho, rfl⟩
  obtain ⟨f, hf, hat⟩ :=
    exists_standsAt_writeAll (Ordered.empty source.name) isNaN_of_mem_writesOf hw
  rw [← ofSource_eq_writeAll] at hf
  rw [clampUnit_of_mem_writesOf hw] at hat
  have hunit := (ordered_ofSource r source).inUnit f hf
  exact ⟨f, hf, ((Keyframe.standsAt_iff hunit (inUnit_of_mem_writesOf hw)).mp hat).trans
    Keyframe.tolerance_lt⟩

/-- A write that is close to a frame comes from a written frame that lists an offset close to it. -/
theorem exists_frame_of_mem_writesOf {w : Float × Block} (hw : w ∈ writesOf r source) {x : ℚ}
    (hclose : |x - value (clampUnit w.1)| < Keyframe.tolerance) :
    ∃ frame ∈ source.frames, w.2 = frameBlock r frame ∧
      ∃ o ∈ frameOffsets frame, |x - value o| < 2 ^ (-52 : Int) := by
  rw [clampUnit_of_mem_writesOf hw] at hclose
  obtain ⟨frame, hframe, o, ho, rfl⟩ := mem_writesOf.mp hw
  exact ⟨frame, hframe, rfl, o, ho, hclose.trans Keyframe.tolerance_lt⟩

/-- Whether the valid offsets of a written set are equal or far enough apart. -/
def FarApart (source : Source.Keyframes) : Prop :=
  ∀ frame₁ ∈ source.frames, ∀ frame₂ ∈ source.frames, ∀ o₁ ∈ frameOffsets frame₁,
    ∀ o₂ ∈ frameOffsets frame₂, value o₁ = value o₂ ∨ 2 ^ (-52 : Int) ≤ |value o₁ - value o₂|

/-- The last word at an offset prevails, for whatever is looked up in blocks. -/
theorem lookup_ofSource {β : Type} (get : Block → Option β)
    (hget : ∀ b frame, get (b.merge (frameBlock r frame)) = (get (frameBlock r frame)).or (get b))
    (hfar : FarApart source) (hf : f ∈ (ofSource r source).frames) :
    get f.block = source.frames.reverse.findSome? fun frame =>
      if (frameOffsets frame).any (fun o => value o = value f.offset) then get (frameBlock r frame)
      else none := by
  rw [ofSource_eq_writeAll] at hf
  rw [← findSome?_writesOf get]
  refine lookup_writeAll get isNaN_of_mem_writesOf ?merge ?apart hf
  case merge =>
    intro b w hw
    obtain ⟨frame, -, o, -, rfl⟩ := mem_writesOf.mp hw
    exact hget b frame
  case apart =>
    intro v hv w hw
    rw [clampUnit_of_mem_writesOf hv, clampUnit_of_mem_writesOf hw]
    obtain ⟨frame₁, hframe₁, o₁, ho₁, rfl⟩ := mem_writesOf.mp hv
    obtain ⟨frame₂, hframe₂, o₂, ho₂, rfl⟩ := mem_writesOf.mp hw
    exact (hfar frame₁ hframe₁ frame₂ hframe₂ o₁ ho₁ o₂ ho₂).imp_right Keyframe.tolerance_lt.le.trans

end OfSource

/-- What the frames of a written set are. -/
structure AreFramesOf (frames : List Keyframe) (r : Registry) (source : Source.Keyframes) :
    Prop where
  /-- They stand between 0 and 1. -/
  inUnit : ∀ f ∈ frames, InUnit f.offset
  ascending : frames.Pairwise fun f g => f.offset < g.offset
  /-- Doubles tell them apart, if not by the full distance between 1 and the next double. -/
  apart : frames.Pairwise fun f g => ¬(g.offset - f.offset).abs < Duration.epsilon ∧
    2 ^ (-52 : Int) - 2 ^ (-106 : Int) ≤ value g.offset - value f.offset
  /-- The offsets of a written frame are the valid ones among the pieces of its heading. -/
  offsets : ∀ frame ∈ source.frames, ∀ o, o ∈ frameOffsets frame ↔
    ∃ piece ∈ Value.splitList ',' frame.heading.toList,
      Keyframe.IsOffset (String.ofList piece) o
  /-- Each of them has its frame. -/
  covered : ∀ frame ∈ source.frames, ∀ o ∈ frameOffsets frame,
    ∃ f ∈ frames, |value f.offset - value o| < 2 ^ (-52 : Int)
  /-- Nothing else has one, or is in one. -/
  listed : ∀ f ∈ frames, ∃ frame ∈ source.frames, f.offset ∈ frameOffsets frame
  declarations : ∀ f ∈ frames, ∀ d ∈ f.block.declarations,
    ∃ frame ∈ source.frames, d ∈ (frameBlock r frame).declarations ∧
      ∃ o ∈ frameOffsets frame, |value f.offset - value o| < 2 ^ (-52 : Int)
  vars : ∀ f ∈ frames, ∀ v ∈ f.block.vars,
    ∃ frame ∈ source.frames, v ∈ (frameBlock r frame).vars ∧
      ∃ o ∈ frameOffsets frame, |value f.offset - value o| < 2 ^ (-52 : Int)
  /-- When offsets that differ are not too close, the last word at an offset prevails. -/
  last : FarApart source → ∀ f ∈ frames, ∀ name,
      (f.block.declaration? name = source.frames.reverse.findSome? fun frame =>
        if (frameOffsets frame).any (fun o => value o = value f.offset) then
          (frameBlock r frame).declaration? name
        else none) ∧
      f.block.vars.find? (fun v => v.name = name) = source.frames.reverse.findSome? fun frame =>
        if (frameOffsets frame).any (fun o => value o = value f.offset) then
          (frameBlock r frame).vars.find? (fun v => v.name = name)
        else none

/-- **Keyframe sets from their written form** have the frames that the text asks for. -/
theorem areFramesOf_ofSource (r : Registry) (source : Source.Keyframes) :
    AreFramesOf (ofSource r source).frames r source := by
  have hord := ordered_ofSource r source
  refine ⟨hord.inUnit, hord.ascending, ?apart, fun _ _ _ => mem_frameOffsets,
    fun _ hframe _ ho => exists_close_of_mem_frameOffsets hframe ho, ?listed, ?declarations, ?vars,
    ?last⟩
  case apart =>
    refine hord.apart.imp_of_mem fun {f g} hf hg hfg => ⟨?_, hfg⟩
    rw [abs_sub_lt_epsilon_iff (hord.inUnit g hg) (hord.inUnit f hf), not_lt]
    exact hfg.trans (le_abs_self _)
  case listed =>
    intro f hf
    obtain ⟨w, hw, hoffset⟩ := (comesFrom_ofSource hf).offset
    rw [clampUnit_of_mem_writesOf hw] at hoffset
    obtain ⟨frame, hframe, o, ho, rfl⟩ := mem_writesOf.mp hw
    exact ⟨frame, hframe, hoffset ▸ ho⟩
  case declarations =>
    intro f hf d hd
    obtain ⟨w, hw, hmem, hclose⟩ := (comesFrom_ofSource hf).declarations d hd
    obtain ⟨frame, hframe, hblock, ho⟩ := exists_frame_of_mem_writesOf hw hclose
    exact ⟨frame, hframe, hblock ▸ hmem, ho⟩
  case vars =>
    intro f hf v hv
    obtain ⟨w, hw, hmem, hclose⟩ := (comesFrom_ofSource hf).vars v hv
    obtain ⟨frame, hframe, hblock, ho⟩ := exists_frame_of_mem_writesOf hw hclose
    exact ⟨frame, hframe, hblock ▸ hmem, ho⟩
  case last =>
    intro hfar f hf name
    have hdistinct := namesDistinct_frameBlock r
    exact ⟨lookup_ofSource (fun b => b.declaration? name)
        (fun b frame => Block.declaration?_merge (hdistinct frame) b name) hfar hf,
      lookup_ofSource (fun b => b.vars.find? fun v => v.name = name)
        (fun b frame => Block.find?_vars_merge (hdistinct frame) b name) hfar hf⟩

/-- The declaration of a frame that is listed twice is the later one. -/
theorem areFramesOf_ofSource_pulse :
    ∀ f ∈ (ofSource .empty ⟨"pulse", [⟨"from, 50%", [⟨"color", "red", false⟩]⟩,
        ⟨"0%", [⟨"color", "blue", false⟩]⟩]⟩).frames, value f.offset = 0 →
      f.block.declaration? "color" = some ⟨"color", none, "blue", .zero, false⟩ := by
  intro f hf hzero
  have hfirst : frameOffsets ⟨"from, 50%", [⟨"color", "red", false⟩]⟩ = [0.0, 0.5] := by
    decide +kernel
  have hsecond : frameOffsets ⟨"0%", [⟨"color", "blue", false⟩]⟩ = [0.0] := by decide +kernel
  have hhalf : value 0.5 = 1 / 2 := by
    have : (0.5 : Float).toModel.unpack = .finite .positive (2 ^ 52) (-53) (by decide) := rfl
    rw [value, this, exact_positive]
    norm_num
  have hvalues : ∀ frame ∈ ([⟨"from, 50%", [⟨"color", "red", false⟩]⟩,
      ⟨"0%", [⟨"color", "blue", false⟩]⟩] : List Source.Rule), ∀ o ∈ frameOffsets frame,
        value o = 0 ∨ value o = 1 / 2 := by
    simp [hfirst, hsecond, hhalf]
  refine ((areFramesOf_ofSource .empty _).last ?_ f hf "color").1.trans ?_
  · intro frame₁ h₁ frame₂ h₂ o₁ ho₁ o₂ ho₂
    rcases hvalues frame₁ h₁ o₁ ho₁ with h₁ | h₁ <;>
    rcases hvalues frame₂ h₂ o₂ ho₂ with h₂ | h₂ <;>
      rw [h₁, h₂] <;> norm_num
  · have hblue : (frameBlock .empty ⟨"0%", [⟨"color", "blue", false⟩]⟩).declaration? "color" =
        some ⟨"color", none, "blue", .zero, false⟩ := by decide +kernel
    simp [hsecond, hzero, hblue]

/-- Frames whose exact distance is less than that between 1 and the next double are kept apart when
the difference is rounded to it. -/
theorem frames_within_epsilon :
    ¬(ofSource .empty ⟨"pulse", [⟨"1e-300%", []⟩, ⟨"2.220446049250313e-14%", []⟩]⟩).frames.Pairwise
      fun f g => (2 : ℚ) ^ (-52 : Int) ≤ |value g.offset - value f.offset| := by
  intro h
  have hoffsets : (ofSource .empty
      ⟨"pulse", [⟨"1e-300%", []⟩, ⟨"2.220446049250313e-14%", []⟩]⟩).frames.map Keyframe.offset =
        [Float.ofBits 88785826515146292, Duration.epsilon] := by decide +kernel
  have h := (List.pairwise_map (f := Keyframe.offset)
    (R := fun o p => (2 : ℚ) ^ (-52 : Int) ≤ |value p - value o|)).mpr h
  rw [hoffsets] at h
  have hle := (List.pairwise_cons.mp h).1 Duration.epsilon List.mem_cons_self
  have htiny : (Float.ofBits 88785826515146292).isFinite := by decide
  have hpos : (0.0 : Float) < Float.ofBits 88785826515146292 := by decide
  have hlt : Float.ofBits 88785826515146292 < Duration.epsilon := by decide
  rw [lt_iff_value_lt isFinite_zero htiny, value_zero] at hpos
  rw [lt_iff_value_lt htiny isFinite_epsilon] at hlt
  rw [value_epsilon] at hle hlt
  rw [abs_of_pos (sub_pos.mpr hlt)] at hle
  linarith

end KeyframeSet

end WidgetStyle
