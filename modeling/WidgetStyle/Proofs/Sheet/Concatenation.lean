import WidgetStyle.Proofs.Sheet.Combination
import WidgetStyle.Proofs.Source.Boundary

/-!
# WidgetStyle.Proofs.Sheet.Concatenation — a text behind another, a sheet behind another

Combining two sheets that were read from texts gives what the two texts give when they are read one
behind the other, as long as the first ends at the end of an item.  The items are then those of
both texts (`Source.Sheet.parse_newline`), and a sheet is made of them in order; so what is left
to compare are two ways of numbering rules and of storing keyframe sets by name.
-/

namespace WidgetStyle

namespace Stylesheet

/-- The rules of a text before they have places. -/
def writtenRules (r : Registry) (text : String) : List StyleRule :=
  (Source.Sheet.parse text).rules.flatMap (rulesOfSource r)

/-- The keyframe sets of a text. -/
def writtenKeyframes (r : Registry) (text : String) : List KeyframeSet :=
  (Source.Sheet.parse text).keyframes.map (KeyframeSet.ofSource r)

theorem parse_eq (r : Registry) (text : String) :
    parse r text =
      (writtenKeyframes r text).foldl putKeyframes ((writtenRules r text).foldl append empty) := rfl

/-- The rules of a text stand at the first places. -/
theorem rules_parse (r : Registry) (text : String) :
    (parse r text).rules = placeFrom 0 (declaring (writtenRules r text)) ∧
      (parse r text).nextOrder = placeAfter 0 (declaring (writtenRules r text)).length := by
  obtain ⟨hrules, -, hnext⟩ := sameRules_foldl_putKeyframes
    ((writtenRules r text).foldl append empty) (writtenKeyframes r text)
  obtain ⟨hfold, hnext'⟩ := rules_foldl_append empty (writtenRules r text)
  rw [parse_eq, hrules, hnext]
  exact ⟨hfold, hnext'⟩

/-- The keyframe set of a name is the last one written. -/
theorem get?_keyframes_parse (r : Registry) (text : String) {name : String} (h : KeepsName name) :
    (parse r text).keyframes.get? name =
      ((writtenKeyframes r text).filter fun set => set.name = name).getLast? := by
  rw [parse_eq, get?_keyframes_foldl_putKeyframes _ _ h, keyframes_foldl_append]
  exact Option.or_none

/-- **Combining is reading one behind the other.**  For any two texts, the second without a byte
order mark in front: when reading both, the second on a new line behind the first, comes to stand
between two items at the end of the first, then the rules, with their blocks and places, and the
keyframe set of every name are those of the combined sheets.  What stands in the texts, also what
is skipped in them, makes no difference. -/
theorem parse_newline_eq_combine (r : Registry) (first second : String)
    (hmark : second.toList.head? ≠ some '\uFEFF')
    (h : Source.StandsBetween (Source.dropByteOrderMark first.toList) ('\n' :: second.toList)) :
    (parse r (first ++ "\n" ++ second)).rules =
        ((parse r first).combine (parse r second)).rules ∧
      ∀ name, (parse r (first ++ "\n" ++ second)).keyframes.get? name =
        ((parse r first).combine (parse r second)).keyframes.get? name := by
  obtain ⟨hrules, hkeyframes⟩ := Source.Sheet.parse_newline hmark h
  have hwritten : writtenRules r (first ++ "\n" ++ second) =
      writtenRules r first ++ writtenRules r second := by
    rw [writtenRules, hrules, List.flatMap_append]
    rfl
  have hstored : writtenKeyframes r (first ++ "\n" ++ second) =
      writtenKeyframes r first ++ writtenKeyframes r second := by
    rw [writtenKeyframes, hkeyframes, List.map_append]
    rfl
  have hfirst := Reachable.parse r first
  have hsecond := Reachable.parse r second
  refine ⟨?_, fun name => ?_⟩
  · rw [(rules_parse r _).1, hwritten, declaring, List.filter_append, placeFrom_append,
      (hsecond.rules_combine _).1, (rules_parse r first).1, (rules_parse r first).2,
      (rules_parse r second).1, declaring_placeFrom, placeFrom_placeFrom]
    rfl
  · rw [hfirst.get?_keyframes_combine hsecond]
    by_cases hname : KeepsName name
    · rw [get?_keyframes_parse r _ hname, get?_keyframes_parse r first hname,
        get?_keyframes_parse r second hname, hstored, List.filter_append, List.getLast?_append]
    · rw [(Reachable.parse r _).get?_keyframes_eq_none hname, hfirst.get?_keyframes_eq_none hname,
        hsecond.get?_keyframes_eq_none hname]
      rfl

/-- The statement behind an at-rule that is skipped and a rule: the text of the first sheet ends at
the end of the rule. -/
theorem parse_newline_eq_combine_skipped :
    let first := "@m;a{x:1}"
    let second := "b{y:2}"
    second.toList.head? ≠ some '\uFEFF' ∧
      Source.StandsBetween (Source.dropByteOrderMark first.toList) ('\n' :: second.toList) ∧
      (parse .empty (first ++ "\n" ++ second)).rules =
        ((parse .empty first).combine (parse .empty second)).rules ∧
      (parse .empty (first ++ "\n" ++ second)).keyframes.get? "spin" =
        ((parse .empty first).combine (parse .empty second)).keyframes.get? "spin" := by
  intro first second
  have hmark : second.toList.head? ≠ some '\uFEFF' := by decide +kernel
  have hstands : Source.StandsBetween (Source.dropByteOrderMark first.toList)
      ('\n' :: second.toList) := by
    refine ⟨Source.componentsOf ('\n' :: second.toList), [], ?_, by decide +kernel, nofun⟩
    have hcomponents : Source.componentsOf
        (Source.dropByteOrderMark first.toList ++ '\n' :: second.toList) =
          ⟨⟨.atName, ['@', 'm']⟩, [], none⟩ :: ⟨⟨.semicolon, [';']⟩, [], none⟩ ::
            ⟨⟨.name, ['a']⟩, [], none⟩ ::
            ⟨⟨.opening .curly, ['\x7b']⟩,
              [⟨.name, ['x']⟩, ⟨.colon, [':']⟩, ⟨.number, ['1']⟩], some ⟨.closing .curly, ['\x7d']⟩⟩ ::
            Source.componentsOf ('\n' :: second.toList) := by decide +kernel
    rw [hcomponents]
    refine .atRule (by decide) rfl (.rule (by decide) (by decide) ?_)
    exact .here _
  obtain ⟨hrules, hkeyframes⟩ := parse_newline_eq_combine .empty first second hmark hstands
  exact ⟨hmark, hstands, hrules, hkeyframes "spin"⟩

end Stylesheet

end WidgetStyle
