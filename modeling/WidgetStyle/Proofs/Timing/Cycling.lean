import WidgetStyle.Proofs.Entries
import WidgetStyle.Proofs.Timing.Permutation

/-!
# WidgetStyle.Proofs.Timing.Cycling — longhand lists over the entries

The transitions of a node are made in passes over a list of entries, one for each declared longhand.
No pass moves an entry, so entry `i` can be told on its own, from item `i` of every list that has a say
in it (`Transition.entryAt?`): the lists repeat themselves, each with its own length, and an item that
cannot be read leaves the field as it is.  The result is then made of the entries that stand for a
transition, with the last one of every property in the place of the first
(`Transition.ofDeclarations_entries`).
-/

namespace WidgetStyle

open Text Value

/-- With distinct names, the last value of a name is its only one. -/
theorem lastValue?_eq_lookup {ds : List (String × String)} (h : (ds.map Prod.fst).Nodup)
    (name : String) : lastValue? ds name = ds.lookup name := by
  refine Option.ext fun value => ?_
  rw [lastValue?_eq_some_iff h, Assoc.lookup_eq_some_iff h]

namespace Transition

/-! ## Entries one by one -/

/-- The entries of the shorthand, if it is declared. -/
def shorthandEntries (ds : List (String × String)) : List Transition :=
  ((ds.lookup "transition").map ofShorthand).getD []

/-- What falls to entry `i` from a longhand list, which repeats itself.  Nothing does when the longhand
is not declared, or its list is empty. -/
def longhandItem? (ds : List (String × String)) (name : String) (i : Nat) : Option String :=
  (ds.lookup name).bind fun list => (listItems list)[i % (listItems list).length]?

/-- Entry `i` as it starts.  Declared properties decide how many entries there are, and each starts
from the entry of the shorthand that falls to it, or from nothing but its property. -/
def startAt? (ds : List (String × String)) (i : Nat) : Option Transition :=
  match ds.lookup "transition-property" with
  | some list => (listItems list)[i]?.map fun property =>
      { (shorthandEntries ds)[i % (shorthandEntries ds).length]?.getD { property } with
        property := lower property }
  | none => (shorthandEntries ds)[i]?

/-- Entry `i`: every field is the item that falls to it, when that can be read, and stays as it starts
otherwise. -/
def entryAt? (ds : List (String × String)) (i : Nat) : Option Transition :=
  (startAt? ds i).map fun x =>
    { property := x.property
      timing := ((longhandItem? ds "transition-timing-function" i).bind TimingFunction.parse?).getD
        x.timing
      delay := ((longhandItem? ds "transition-delay" i).bind Duration.parse?).getD x.delay
      duration := ((longhandItem? ds "transition-duration" i).bind Duration.parse?).getD x.duration }

/-! ## Passes over the entries -/

variable {ds : List (String × String)}

theorem getElem?_renameEach (entries : List Transition) (properties : List String) (i : Nat) :
    (renameEach entries properties)[i]? = properties[i]?.map fun property =>
      { entries[i % entries.length]?.getD { property } with property := lower property } := by
  rw [renameEach, List.getElem?_map, List.getElem?_zipIdx, Option.map_map, Nat.zero_add]
  rfl

/-- A longhand changes each entry by the item that falls to it. -/
theorem getElem?_applyLonghand (h : (ds.map Prod.fst).Nodup) (name : String)
    (change : Transition → String → Transition) (entries : List Transition) (i : Nat) :
    (applyLonghand ds name change entries)[i]? =
      entries[i]?.map fun x => (longhandItem? ds name i).elim x (change x) := by
  rw [applyLonghand, lastValue?_eq_lookup h, longhandItem?]
  cases ds.lookup name with
  | some list => exact getElem?_overrideEach change (listItems list) entries i
  | none => exact (congrFun Option.map_id entries[i]?).symm

theorem elim_withDuration (x : Transition) (item? : Option String) :
    item?.elim x (withDuration x) =
      { x with duration := (item?.bind Duration.parse?).getD x.duration } := by
  cases item? <;> simp [withDuration]

theorem elim_withDelay (x : Transition) (item? : Option String) :
    item?.elim x (withDelay x) = { x with delay := (item?.bind Duration.parse?).getD x.delay } := by
  cases item? <;> simp [withDelay]

theorem elim_withTiming (x : Transition) (item? : Option String) :
    item?.elim x (withTiming x) =
      { x with timing := (item?.bind TimingFunction.parse?).getD x.timing } := by
  cases item? <;> simp [withTiming]

/-- The entries before any longhand but that of the properties. -/
def started (ds : List (String × String)) : List Transition :=
  match ds.lookup "transition-property" with
  | some list => renameEach (shorthandEntries ds) (listItems list)
  | none => shorthandEntries ds

theorem getElem?_started (ds : List (String × String)) (i : Nat) :
    (started ds)[i]? = startAt? ds i := by
  rw [started, startAt?]
  cases ds.lookup "transition-property" with
  | some list => exact getElem?_renameEach (shorthandEntries ds) (listItems list) i
  | none => rfl

/-- The entries after all longhands. -/
def overridden (ds : List (String × String)) : List Transition :=
  applyLonghand ds "transition-timing-function" withTiming
    (applyLonghand ds "transition-delay" withDelay
      (applyLonghand ds "transition-duration" withDuration (started ds)))

theorem getElem?_overridden (h : (ds.map Prod.fst).Nodup) (i : Nat) :
    (overridden ds)[i]? = entryAt? ds i := by
  rw [overridden, getElem?_applyLonghand h, getElem?_applyLonghand h, getElem?_applyLonghand h,
    getElem?_started, entryAt?, Option.map_map, Option.map_map]
  refine congrArg (Option.map · _) (funext fun x => ?_)
  simp only [Function.comp, elim_withDuration, elim_withDelay, elim_withTiming]

theorem ofDeclarations_eq_collect (h : (ds.map Prod.fst).Nodup) :
    ofDeclarations ds = collectByName property ((overridden ds).filter fun x => !x.isNone) := by
  simp only [ofDeclarations, lastValue?_eq_lookup h]
  rfl

/-! ## All entries -/

/-- **Longhand lists repeat themselves over the entries.**  The transitions of a node are its entries,
each made of what falls to it, without those that stand for no transition, and with the last entry of
every property in the place of the first one. -/
theorem ofDeclarations_entries (h : (ds.map Prod.fst).Nodup) :
    ∃ entries : List Transition,
      (∀ i, entries[i]? = entryAt? ds i) ∧
        ofDeclarations ds =
          lastOfEach property (entries.filter fun x => x.property ≠ "none" ∧ x.property ≠ "") ∧
        ((ofDeclarations ds).map property).Nodup := by
  have hkept : (overridden ds).filter (fun x => !x.isNone) =
      (overridden ds).filter fun x => x.property ≠ "none" ∧ x.property ≠ "" := by
    refine List.filter_congr fun x _ => ?_
    simp [isNone]
  refine ⟨overridden ds, getElem?_overridden h, ?_, ?_⟩
  · rw [ofDeclarations_eq_collect h, collectByName_eq_lastOfEach, hkept]
  · rw [ofDeclarations_eq_collect h]
    exact nodup_collectByName _

/-- The statement where three properties share two entries of the shorthand and two timing functions, of
which the second cannot be read.  The third entry gets the first timing function, and takes the place of
the first entry. -/
theorem ofDeclarations_entries_three_over_two :
    let ds := [("transition", "all 0 linear, height steps(2)"),
      ("transition-timing-function", "steps(3, start), wobble"),
      ("transition-property", "color, width, Color")]
    (ds.map Prod.fst).Nodup ∧
      (∃ entries : List Transition,
        (∀ i, entries[i]? = entryAt? ds i) ∧
          ofDeclarations ds =
            lastOfEach property (entries.filter fun x => x.property ≠ "none" ∧ x.property ≠ "") ∧
          ((ofDeclarations ds).map property).Nodup) ∧
      (ofDeclarations ds).map (fun x => (x.property, x.timing.curve, x.timing.parameters)) =
        [("color", .steps, [3.0, 1.0]), ("width", .steps, [2.0, 0.0])] := by
  intro ds
  have hnames : (ds.map Prod.fst).Nodup := by decide
  exact ⟨hnames, ofDeclarations_entries hnames, by decide +kernel⟩

end Transition

end WidgetStyle
