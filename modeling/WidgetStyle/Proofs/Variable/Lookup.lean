import WidgetStyle.Proofs.Enumeration
import WidgetStyle.Variable.Substitution

/-!
# WidgetStyle.Proofs.Variable.Lookup — variables are found by name only

Substitution asks a resolver for variables by name.  Two resolvers that find the same under every name
expand every value in the same way (`Resolver.Agrees.expand`), however their scopes are kept.

Scopes are laid over one another by going through the upper one.  Its variables have different names,
so they may be met in any order (`Scope.overlay_reorders`), and what is found in the result is what
the upper scope has, or else the lower one (`Scope.get?_overlay`).
-/

namespace WidgetStyle

open Value

/-! ## Scopes -/

theorem Scope.set_keeps (v : Variable) {s t : Scope} (h : s.Reorders t) :
    (set s v).Reorders (set t v) := Assoc.Reorders.insert h v.name v

/-- Scopes in any order of their variables, laid over one another, are scopes in some order. -/
theorem Scope.overlay_reorders {s t other other' : Scope} (hs : s.Reorders t)
    (hother : other.Reorders other') (hnamed : other.KeyedBy Variable.name) :
    (overlay s other).Reorders (overlay t other') := by
  refine foldl_perm ⟨.refl, .symm, .trans⟩ Scope.set_keeps hother.values ?_ hs
  exact hnamed.pairwise_values.imp fun hne b => Assoc.insert_insert_reorders b hne _ _

/-- Laid over one another, scopes have what the upper one has, and else what the lower one has. -/
theorem Scope.get?_overlay (s : Scope) {other : Scope} (hnamed : other.KeyedBy Variable.name)
    (name : String) : (overlay s other).get? name = (other.get? name).or (s.get? name) := by
  -- The last variable written to a name is the only one, since the keys of the entries are different.
  have entries : ∀ (es : List (String × Variable)) (s : Scope), (∀ e ∈ es, e.2.name = e.1) →
      (es.map Prod.fst).Nodup →
      ((es.map Prod.snd).foldl set s).get? name = (es.lookup name).or (s.get? name) := by
    intro es
    induction es with
    | nil => exact fun _ _ _ => rfl
    | cons e es ih =>
        intro s hes hnodup
        obtain ⟨hnew, hnodup⟩ := List.nodup_cons.mp hnodup
        rw [List.map_cons, List.foldl_cons, ih _ (fun e he => hes e (List.mem_cons_of_mem _ he)) hnodup,
          set, Assoc.get?_insert, hes e List.mem_cons_self, List.lookup_cons]
        by_cases hname : name = e.1
        · have hnone : es.lookup name = none := by
            refine List.lookup_eq_none_iff.mpr fun e' he' => bne_iff_ne.mpr fun heq => hnew ?_
            exact List.mem_map.mpr ⟨e', he', heq ▸ hname ▸ rfl⟩
          simp [hname ▸ hnone, hname]
        · rw [if_neg hname, beq_false_of_ne hname]
  exact entries other.entries s
    (fun e he => hnamed e.1 e.2 (Assoc.get?_eq_some_iff.mpr he)) other.nodup

namespace Resolver

/-! ## Resolvers -/

/-- The same variables are found, under the same bound. -/
structure Agrees (r r' : Resolver) : Prop where
  maxDepth : r.maxDepth = r'.maxDepth
  lookup? : ∀ name, r.lookup? name = r'.lookup? name

/-- Resolvers agree whose scopes are reorderings of one another. -/
theorem agrees_of_reorders {scopes scopes' : List Scope}
    (h : List.Forall₂ Assoc.Reorders scopes scopes') (maxDepth : Nat) :
    Agrees ⟨scopes, maxDepth⟩ ⟨scopes', maxDepth⟩ := by
  refine ⟨rfl, fun name => ?_⟩
  show scopes.findSome? (fun s => s.get? name) = scopes'.findSome? fun s => s.get? name
  induction h with
  | nil => rfl
  | cons hs _ ih => rw [List.findSome?_cons, List.findSome?_cons, Assoc.Reorders.get?_eq hs, ih]

theorem mapM_congr {α β ε : Type} {f g : α → Except ε β} {l : List α}
    (h : ∀ x ∈ l, f x = g x) : l.mapM f = l.mapM g := by
  have hmap : ∀ f : α → Except ε β, l.mapM f = (l.map f).mapM id := fun f => by
    rw [List.mapM_map]
    rfl
  rw [hmap f, hmap g, List.map_congr_left h]

variable {r r' : Resolver}

/-- A reference stands for the same, if longer stacks and shorter texts do. -/
theorem Agrees.expandReference (h : r.Agrees r') {stack : List String} {text : List Char}
    (longer : ∀ name value, r.expand (name :: stack) value = r'.expand (name :: stack) value)
    (shorter : ∀ call fallback, Call.parse? text = some call → call.fallback? = some fallback →
      r.expand stack fallback = r'.expand stack fallback) :
    r.expandReference stack text = r'.expandReference stack text := by
  rw [Resolver.expandReference, Resolver.expandReference]
  cases hcall : Call.parse? text with
  | none => rfl
  | some call =>
      simp only [h.lookup?]
      split
      · rfl
      cases r'.lookup? (referredName call) with
      | some v => exact longer (referredName call) v.value.toList
      | none =>
          cases hfallback : call.fallback? with
          | none => rfl
          | some fallback => exact shorter call fallback hcall hfallback

/-- Every value expands in the same way.  Expansion goes on with the value of a variable, on a longer
stack, or with a fallback, which has fewer parentheses. -/
theorem Agrees.expand (h : r.Agrees r') (stack : List String) (value : List Char) :
    r.expand stack value = r'.expand stack value := by
  rw [expand_eq, expand_eq r', ← h.maxDepth]
  split
  · rfl
  · have hsegment : ∀ segment ∈ segments value,
        r.expandSegment stack segment = r'.expandSegment stack segment := by
      intro segment hmem
      cases segment with
      | text cs => rfl
      | reference text =>
          exact h.expandReference (fun name v => h.expand (name :: stack) v)
            fun call fallback hcall hfallback => h.expand stack fallback
    rw [mapM_congr hsegment]
termination_by (r.maxDepth + 1 - stack.length, value.count '(')
decreasing_by
  · apply Prod.Lex.left
    simp only [List.length_cons]
    omega
  · apply Prod.Lex.right
    exact Nat.lt_of_lt_of_le (Call.count_fallback_lt hcall hfallback)
      (count_reference_le hmem '(')

theorem Agrees.substitute (h : r.Agrees r') (value : String) :
    r.substitute value = r'.substitute value := by
  rw [Resolver.substitute, Resolver.substitute, h.expand]

end Resolver

end WidgetStyle
