import WidgetStyle.Proofs.Engine.Answers
import WidgetStyle.Proofs.Source.QuotedNames
import WidgetStyle.Proofs.Timing.Names

/-!
# WidgetStyle.Proofs.Engine.Bindings — animations and their keyframe sets

An engine that is asked for the animations of a node tells those that have a keyframe set, each with
the set stored under its own name (`Engine.bindsByName_animationsOf`).  After any run these are the
animations of the plain style, and their names are the items that `animation-name` lists, as they
are written there.

A set may be named by a string, and is then stored without the quotation marks.  An item of
`animation-name` may be a string too, but keeps them.  So a string in both places gives two names
that differ, and the set is not found (`Session.animations_bind_names_as_written`).
-/

namespace WidgetStyle

open Text Value

/-! ## The names that the cascade gives -/

namespace Cascaded

/-- Whether the winners give a property this value: there is one of its name, and all of its name
have the value. -/
def Gives (c : Cascaded) (name value : String) : Prop :=
  (∃ d ∈ c.declarations, d.name = name) ∧ ∀ d ∈ c.declarations, d.name = name → d.value = value

instance (c : Cascaded) (name value : String) : Decidable (c.Gives name value) :=
  inferInstanceAs (Decidable (_ ∧ _))

theorem lookup_eq_some_of_forall {ds : List (String × String)} {name value : String}
    (hmem : ∃ d ∈ ds, d.1 = name) (h : ∀ d ∈ ds, d.1 = name → d.2 = value) :
    ds.lookup name = some value := by
  induction ds with
  | nil =>
      obtain ⟨d, hd, -⟩ := hmem
      cases hd
  | cons d ds ih =>
      rw [List.lookup_cons]
      by_cases hd : d.1 = name
      · simp [hd, h d List.mem_cons_self hd]
      · obtain ⟨x, hx, hname⟩ := hmem
        have hrest : x ∈ ds := by
          rcases List.mem_cons.mp hx with rfl | hx
          · exact absurd hname hd
          · exact hx
        rw [beq_false_of_ne (Ne.symm hd)]
        exact ih ⟨x, hrest, hname⟩ fun y hy => h y (List.mem_cons_of_mem _ hy)

theorem Gives.lastValue? {c : Cascaded} {name value : String} (h : c.Gives name value)
    (resolver : Resolver) {keep : String → Bool} (hkeep : keep name = true) :
    lastValue? (StyleContext.substitutedDeclarations c resolver keep) name =
      some (resolver.substitute value) := by
  obtain ⟨⟨d, hd, hname⟩, hvalue⟩ := h
  refine lookup_eq_some_of_forall ⟨(d.name, resolver.substitute d.value), ?_, hname⟩ ?_
  · refine List.mem_reverse.mpr (List.mem_map.mpr ⟨d, ?_, rfl⟩)
    exact List.mem_filter.mpr ⟨hd, by rw [hname]; exact hkeep⟩
  · intro x hx hxname
    obtain ⟨y, hy, rfl⟩ := List.mem_map.mp (List.mem_reverse.mp hx)
    exact congrArg resolver.substitute (hvalue y (List.mem_filter.mp hy).1 hxname)

end Cascaded

/-- The animations of a style have the names that `animation-name` lists. -/
theorem StyleContext.map_name_animations (x : StyleContext) {c : Cascaded} {list : String}
    (h : c.Gives "animation-name" list) :
    (x.compute c).animations.map Animation.name =
      ((listItems (Resolver.substitute ⟨[(x.compute c).scope, x.globals], x.maxDepth⟩ list)).filter
        Animation.standsForOne).eraseDups :=
  Animation.map_name_ofDeclarations (h.lastValue? _ (by decide))

/-- The animations of a node's plain style have the names that the cascade gives it. -/
theorem Engine.map_name_plainStyle {e : Engine} {t : Tree} {n : NodeId} {list : String}
    (h : (e.cascaded t n).Gives "animation-name" list) :
    (e.plainStyle t n).animations.map Animation.name =
      ((listItems (Resolver.substitute
        ⟨[(e.plainStyle t n).scope, e.globals], e.config.maxDepth⟩ list)).filter
          Animation.standsForOne).eraseDups :=
  StyleContext.map_name_animations (e.context _) h

/-! ## Sets by the names of animations -/

/-- The bindings are the animations that have a keyframe set, in order and each with the set stored
under its own name. -/
structure BindsByName (sheet : Stylesheet) (animations : List Animation)
    (bindings : List (Animation × KeyframeSet)) : Prop where
  animations : bindings.map Prod.fst = animations.filter fun x => sheet.keyframes.contains x.name
  stored : ∀ b ∈ bindings, sheet.keyframes.get? b.1.name = some b.2
  named : sheet.Reachable → ∀ b ∈ bindings, b.2.name = b.1.name

namespace Engine

theorem bindsByName_animationsOf (e : Engine) (style : ComputedStyle) :
    BindsByName e.sheet style.animations (e.animationsOf style) := by
  have hstored : ∀ b ∈ e.animationsOf style, e.sheet.keyframes.get? b.1.name = some b.2 := by
    intro b hb
    obtain ⟨x, -, hx⟩ := List.mem_filterMap.mp hb
    obtain ⟨set, hset, rfl⟩ := Option.map_eq_some_iff.mp hx
    exact hset
  refine ⟨?_, hstored, fun hsheet b hb => (hsheet.keyframesNamed _ _ (hstored b hb)).1⟩
  rw [animationsOf]
  induction style.animations with
  | nil => rfl
  | cons x animations ih =>
      cases hset : e.sheet.keyframes.get? x.name with
      | none =>
          rw [List.filterMap_cons_none (by rw [hset]; rfl), ih,
            List.filter_cons_of_neg (by simp [Assoc.contains, hset])]
      | some set =>
          rw [List.filterMap_cons_some (by rw [hset]; rfl), List.map_cons, ih,
            List.filter_cons_of_pos (by simp [Assoc.contains, hset])]

/-- The sets that are bound are those found under the names of the animations. -/
theorem map_snd_animationsOf (e : Engine) (style : ComputedStyle) :
    (e.animationsOf style).map Prod.snd =
      (style.animations.map Animation.name).filterMap e.sheet.keyframes.get? := by
  rw [animationsOf, List.map_filterMap, List.filterMap_map]
  refine List.filterMap_congr fun x _ => ?_
  rw [Option.map_map]
  exact Option.map_id'

/-- A single name binds the set that is stored under it. -/
theorem map_snd_animationsOf_of_item {e : Engine} {style : ComputedStyle} {item : String}
    (h : style.animations.map Animation.name =
      ((listItems item).filter Animation.standsForOne).eraseDups)
    (hitem : listItems item = [item]) (hname : Animation.standsForOne item = true) :
    (e.animationsOf style).map Prod.snd = (e.sheet.keyframes.get? item).toList := by
  rw [map_snd_animationsOf, h, hitem, List.filter_cons_of_pos hname]
  change [item].filterMap e.sheet.keyframes.get? = _
  cases hset : e.sheet.keyframes.get? item with
  | none => exact List.filterMap_cons_none hset
  | some set => exact List.filterMap_cons_some hset

end Engine

/-! ## Names as they are written -/

theorem standsForOne_quoted {quote : Char} (hquote : isQuote quote = true) (inside : List Char) :
    Animation.standsForOne (String.ofList (Source.quoted quote inside)) = true := by
  have hempty : String.ofList (Source.quoted quote inside) ≠ "" := by
    intro h
    have hlist := congrArg String.toList h
    rw [String.toList_ofList] at hlist
    cases hlist
  have hnone : sameLetters (String.ofList (Source.quoted quote inside)) "none" = false := by
    rw [sameLetters, beq_eq_false_iff_ne]
    intro h
    have hlist := congrArg String.toList h
    rw [toList_lower, String.toList_ofList, Source.quoted, List.map_cons] at hlist
    have hfirst : quote.toLower = 'n' := (List.cons.inj hlist).1
    rcases eq_of_isQuote hquote with rfl | rfl <;> exact absurd hfirst (by decide)
  simp [Animation.standsForOne, hempty, hnone]

/-- A string is not the text between its quotation marks. -/
theorem ofList_quoted_ne (quote : Char) (inside : List Char) :
    String.ofList (Source.quoted quote inside) ≠ String.ofList inside := by
  intro h
  have hlength := congrArg (fun name : String => name.toList.length) h
  simp only [String.toList_ofList, Source.quoted, List.length_cons, List.length_append,
    List.length_nil] at hlength
  omega

namespace Session

/-- The animations that are told after a run are those of the plain style. -/
theorem keptStyle?_animations {registry : Registry} {config : EngineConfig} {t : Tree}
    (ht : t.IsForest) {actions : List Action} {n : NodeId}
    (h : (start registry config t).Follows (actions ++ [.animations n])) :
    let s := (start registry config t).run actions
    (s.step (.animations n)).engine.keptStyle? n = some (s.engine.plainStyle s.tree n) ∧
      (s.step (.animations n)).engine.sheet = s.engine.sheet := by
  intro s
  obtain ⟨hactions, hallows, hu, -⟩ := follows_append.mp h
  have hs : s.Coherent := coherent_run ht hactions
  have hrefreshed := hs.refreshed rfl hallows hu
  obtain ⟨k, hk, hstyle, -⟩ := hrefreshed.kept_eq (s.tree.mem_lineage_self n)
  refine ⟨?_, (Engine.bare_eq_bare_iff.mp hrefreshed.bare).2.2.1⟩
  show ((s.engine.refresh s.tree n).kept.get? n).map KeptStyle.style = _
  rw [hk, Option.map_some, hstyle]

/-- Where `animation-name` is a single name that substitution leaves alone, the set that is stored
under it is bound. -/
theorem map_snd_animationsOf_of_gives {registry : Registry} {config : EngineConfig} {t : Tree}
    (ht : t.IsForest) {actions : List Action} {n : NodeId}
    (h : (start registry config t).Follows (actions ++ [.animations n])) {item : String}
    (hitem : listItems item = [item]) (hname : Animation.standsForOne item = true)
    (hsubstitute : ∀ resolver : Resolver, resolver.substitute item = item) :
    let s := (start registry config t).run actions
    (s.engine.cascaded s.tree n).Gives "animation-name" item →
      ((s.step (.animations n)).engine.animationsOf (s.engine.plainStyle s.tree n)).map Prod.snd =
        (s.engine.sheet.keyframes.get? item).toList := by
  intro s hgives
  have hnames := Engine.map_name_plainStyle hgives
  rw [hsubstitute] at hnames
  have hbound :=
    Engine.map_snd_animationsOf_of_item (e := (s.step (.animations n)).engine) hnames hitem hname
  rwa [(keptStyle?_animations ht h).2] at hbound

/-- **Animations are bound by their names as they are written.**  Let an engine start beside a
forest and be asked for the animations of a node after any run.  What it tells are the animations of
the plain style that have a keyframe set, in order, each with the set stored under its own name; and
where the cascade gives `animation-name` a value, their names are the items of that value.

So a bare name binds the set that is stored under it.  A string without escapes binds the set stored
under the string with its quotation marks, and never one that is named by what the string stands
for.  But that is the name under which a sheet stores a keyframe set that is headed by the string,
while a declaration keeps the quotation marks. -/
theorem animations_bind_names_as_written {registry : Registry} {config : EngineConfig} {t : Tree}
    (ht : t.IsForest) {actions : List Action} {n : NodeId}
    (h : (start registry config t).Follows (actions ++ [.animations n])) :
    let s := (start registry config t).run actions
    let style := s.engine.plainStyle s.tree n
    let asked := (s.step (.animations n)).engine
    let bindings := asked.animationsOf style
    let sets := s.engine.sheet.keyframes
    let gives := (s.engine.cascaded s.tree n).Gives "animation-name"
    let resolver : Resolver := ⟨[style.scope, s.engine.globals], s.engine.config.maxDepth⟩
    (asked.keptStyle? n = some style ∧ BindsByName s.engine.sheet style.animations bindings ∧
      ∀ list, gives list → style.animations.map Animation.name =
        ((listItems (resolver.substitute list)).filter Animation.standsForOne).eraseDups) ∧
    (∀ name, IsBareName name → Animation.standsForOne name = true → gives name →
      bindings.map Prod.snd = (sets.get? name).toList) ∧
    ∀ quote inside, Source.IsPlainString quote inside → ReadsTwoWays quote inside ∧
      (gives (String.ofList (Source.quoted quote inside)) →
        bindings.map Prod.snd = (sets.get? (String.ofList (Source.quoted quote inside))).toList ∧
          (s.engine.sheet.Reachable → ∀ b ∈ bindings, b.2.name ≠ String.ofList inside)) := by
  intro s style asked bindings sets gives resolver
  obtain ⟨hkept, hsheet⟩ := keptStyle?_animations ht h
  have hbinds : BindsByName s.engine.sheet style.animations bindings := by
    rw [← hsheet]
    exact asked.bindsByName_animationsOf style
  refine ⟨⟨hkept, hbinds, fun list => Engine.map_name_plainStyle⟩, ?bare,
    fun quote inside hplain => ⟨hplain.readsTwoWays, ?string⟩⟩
  case bare =>
    intro name hbare hname hgives
    have hne : name ≠ "" := by
      rintro rfl
      exact absurd hname (by decide)
    exact map_snd_animationsOf_of_gives ht h (hbare.listItems_eq hne) hname
      (fun resolver => resolver.substitute_bareName hbare) hgives
  case string =>
    intro hgives
    have hquotation := hplain.isQuotation
    have hbound := map_snd_animationsOf_of_gives ht h (listItems_quotation hquotation)
      (standsForOne_quoted hplain.isQuote inside)
      (fun resolver => resolver.substitute_quotation hquotation) hgives
    refine ⟨hbound, fun hreachable b hb => ?_⟩
    have hmem : b.2 ∈ bindings.map Prod.snd := List.mem_map_of_mem hb
    rw [hbound, Option.mem_toList] at hmem
    rw [(hreachable.keyframesNamed _ _ hmem).1]
    exact ofList_quoted_ne quote inside

/-- The statement for a keyframe set that is named by a string, and a bare name. -/
theorem animations_bind_names_as_written_pulse :
    let t := Tree.empty.addRoot "button"
    let text := "@keyframes \"pulse\"\x7bto\x7bopacity:0\x7d\x7dbutton\x7banimation-name:pulse\x7d"
    let sheet := Stylesheet.parse .empty text
    let s := (start .empty {} t).run [.replaceSheet sheet]
    let body := Source.lexemes "to\x7bopacity:0\x7d".toList
    t.IsForest ∧ (start .empty {} t).Follows [.replaceSheet sheet, .animations 0] ∧
      Source.IsPlainString '"' "pulse".toList ∧ Source.StoresAs text '"' "pulse".toList body ∧
      (s.engine.cascaded s.tree 0).Gives "animation-name" "pulse" ∧
      ((s.step (.animations 0)).engine.animationsOf (s.engine.plainStyle s.tree 0)).map Prod.snd =
        [KeyframeSet.ofSource .empty
          ⟨"pulse", (Source.items body).filterMap Source.Item.rule?⟩] := by
  intro t text sheet s body
  have ht : t.IsForest := Tree.isForest_empty.addRoot "button"
  have hfollows : (start .empty {} t).Follows ([.replaceSheet sheet] ++ [.animations 0]) :=
    ⟨trivial, by decide +kernel, ⟨rfl, by decide⟩, by decide +kernel, trivial⟩
  have hplain : Source.IsPlainString '"' "pulse".toList := by decide
  have hstores : Source.StoresAs text '"' "pulse".toList body := by
    refine ⟨[], .atRule "keyframes" [⟨⟨.blank, [' ']⟩, [], none⟩,
        ⟨⟨.string, Source.quoted '"' "pulse".toList⟩, [], none⟩] (some body),
      (Source.itemsIn (Source.componentsOf text.toList)).drop 1, by decide +kernel,
      ⟨_, _, rfl, by decide, by decide⟩, by decide +kernel⟩
  have hgives : (s.engine.cascaded s.tree 0).Gives "animation-name" "pulse" := by decide +kernel
  obtain ⟨-, hbare, hquoted⟩ := animations_bind_names_as_written ht hfollows
  have hset := (hquoted '"' "pulse".toList hplain).1.stored .empty text body
    ⟨by decide, by decide⟩ hstores
  refine ⟨ht, hfollows, hplain, hstores, hgives, ?_⟩
  rw [hbare "pulse" (by decide) (by decide) hgives]
  exact congrArg Option.toList hset

/-- A keyframe set that is named by a string is stored, and the same string as the name of an
animation does not find it. -/
theorem quoted_name_finds_no_keyframes :
    let t := Tree.empty.addRoot "button"
    let sheet := Stylesheet.parse .empty
      "@keyframes \"pulse\"\x7bto\x7bopacity:0\x7d\x7dbutton\x7banimation-name:\"pulse\"\x7d"
    let s := ((start .empty {} t).run [.replaceSheet sheet]).step (.animations 0)
    (sheet.keyframes.get? "pulse").isSome = true ∧
      (s.engine.rulesFor t .strict 0).map (fun rule => rule.block.declarations.map
        fun d => (d.name, d.value)) = [[("animation-name", "\"pulse\"")]] ∧
      (s.engine.keptStyle? 0).map (fun style => (style.animations.map Animation.name,
        (s.engine.animationsOf style).length)) = some (["\"pulse\""], 0) := by
  decide +kernel

end Session

end WidgetStyle
