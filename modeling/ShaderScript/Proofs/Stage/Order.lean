import ShaderScript.Builder
import ShaderScript.Proofs.Stage.Closure

/-!
# What comes first in a stage

An item depends on another one when something it needs goes by the mark of that one. The walk lists
an item once all it needs has been visited, so what an item depends on stands before it. Recursion
is the exception: where two items depend on each other, one of them has to come first.

* `Graph.DependsOn`: one item of a list depends on another.
* `ahead_of_dependsOn`: what an item depends on is listed before it or depends on it in turn.
* **`reachable_dependencies_first`**: dependencies come before dependents.
-/

namespace ShaderScript

open Relation

/-- One item of a list depends on another: something it needs goes by the mark of the other. -/
def Graph.DependsOn (g : Graph) (items : List Item) (a b : Item) : Prop :=
  a ∈ items ∧ b ∈ items ∧ ∃ needed, g.Needs a needed ∧ needed.mark? g = b.mark? g

instance (g : Graph) (items : List Item) (a b : Item) : Decidable (g.DependsOn items a b) :=
  decidable_of_iff (a ∈ items ∧ b ∈ items ∧
      ∃ needed ∈ (Surroundings.of g (CallTable.resolve g)).needsOf a,
        needed.mark? g = b.mark? g) <| by
    simp only [Graph.DependsOn, Surroundings.mem_needsOf_iff]

variable {g : Graph} {items : List Item} {a b : Item}

theorem Surroundings.Leads.dependsOn (h : (of g (CallTable.resolve g)).Leads items b a) :
    ReflTransGen (g.DependsOn items) b a := by
  refine ReflTransGen.mono (fun x y hs => ?_) _ _ h
  exact ⟨hs.1, hs.2.1, y, mem_needsOf_iff.mp hs.2.2, rfl⟩

theorem nodup_reachable (g : Graph) (roots : List Id) :
    (reachable g roots (CallTable.resolve g)).Nodup := by
  obtain ⟨r, hw⟩ := exists_walked_reachable g roots
  refine hw.distinct.imp fun hne he => hne ?_
  rw [he]

/-- **What an item depends on is listed ahead of it.** No two items have the same mark, so the item
that the walk has gone to is the one that the dependency is about. -/
theorem ahead_of_dependsOn {roots : List Id}
    (h : g.DependsOn (reachable g roots (CallTable.resolve g)) a b) :
    (Surroundings.of g (CallTable.resolve g)).Ahead (reachable g roots (CallTable.resolve g))
      b a := by
  obtain ⟨r, hw⟩ := exists_walked_reachable g roots
  obtain ⟨ha, hb, needed, hneeds, hmark⟩ := h
  obtain ⟨m, hm⟩ := hneeds.exists_mark
  rcases hw.ordered a ha needed (Surroundings.mem_needsOf_iff.mpr hneeds) m hm with
    hr | ⟨b', hb', hm', hahead⟩
  · cases m <;> exact absurd hr List.not_mem_nil
  · have hmarks : ((reachable g roots (CallTable.resolve g)).map (Item.mark? g)).Nodup :=
      List.pairwise_map.mpr hw.distinct
    have hbb : b' = b := List.inj_on_of_nodup_map hmarks hb' hb (by rw [← hmark, hm, ← hm']; rfl)
    exact hbb ▸ hahead

theorem idxOf_lt_idxOf_of_sublist (hnodup : items.Nodup) (h : [b, a].Sublist items) :
    items.idxOf b < items.idxOf a := by
  obtain ⟨before, after, rfl, hb, ha⟩ := List.cons_sublist_iff.mp h
  have ha' : a ∉ before := fun hmem =>
    List.disjoint_of_nodup_append hnodup hmem (List.singleton_sublist.mp ha)
  rw [List.idxOf_append_of_mem hb, List.idxOf_append_of_notMem ha']
  exact Nat.lt_add_right _ (List.idxOf_lt_length_of_mem hb)

/-- **Dependencies come before dependents.** In a stage, what an item depends on stands strictly
before it, unless it depends on that item in turn. So where no two items depend on each other, the
items of a stage are in a topological order; a variable that is mentioned in its own declaration
makes no difference to that. -/
theorem reachable_dependencies_first (g : Graph) (roots : List Id) :
    let items := reachable g roots (CallTable.resolve g)
    items.Nodup ∧
    (∀ a b, g.DependsOn items a b → ¬ ReflTransGen (g.DependsOn items) b a →
      items.idxOf b < items.idxOf a) ∧
    ((∀ a b, ReflTransGen (g.DependsOn items) a b → ReflTransGen (g.DependsOn items) b a → a = b) →
      ∀ a b, g.DependsOn items a b → a ≠ b → items.idxOf b < items.idxOf a) := by
  intro items
  have hnodup : items.Nodup := nodup_reachable g roots
  have hfirst : ∀ a b, g.DependsOn items a b → ¬ ReflTransGen (g.DependsOn items) b a →
      items.idxOf b < items.idxOf a := by
    intro a b hab hba
    rcases ahead_of_dependsOn hab with hs | hl
    · exact idxOf_lt_idxOf_of_sublist hnodup hs
    · exact absurd hl.dependsOn hba
  refine ⟨hnodup, hfirst, fun hrec a b hab hne => hfirst a b hab fun hba => ?_⟩
  exact hne (hrec a b (.single hab) hba)

/-- The program
`function base() { return 1; } var k = base(); function loop(n) { return loop(n * k); }`
with entry points that call `loop` and read `k`. -/
def recursiveReader : Graph := Build.finish do
  let _ ← Build.function "base" [] [← Build.ret (some (← Build.num "1"))]
  Build.statement (← Build.var "k" (some (← Build.call (← Build.ident "base") [])))
  let product ← Build.binary .mul (← Build.ident "n") (← Build.ident "k")
  let again ← Build.call (← Build.ident "loop") [product]
  let _ ← Build.function "loop" ["n"] [← Build.ret (some again)]
  let entry ← Build.call (← Build.ident "loop") [← Build.ident "k"]
  let _ ← Build.function "VertexPosition" [] [← Build.ret (some entry)]
  let _ ← Build.function "FragmentColor" [] [← Build.ret (some (← Build.ident "k"))]

theorem reachable_recursiveReader :
    reachable recursiveReader [26] (CallTable.resolve recursiveReader) =
      [.function 4, .global 9, .function 19, .function 26] ∧
    reachable recursiveReader [31] (CallTable.resolve recursiveReader) =
      [.function 4, .global 9, .function 31] := by
  decide +kernel

/-- In the vertex stage `loop` depends on itself and on `k`, which does not depend on `loop`. In the
fragment stage no two items depend on each other. -/
theorem reachable_dependencies_first_recursiveReader :
    (let items := reachable recursiveReader [26] (CallTable.resolve recursiveReader)
     recursiveReader.DependsOn items (.function 19) (.function 19) ∧
     recursiveReader.DependsOn items (.function 19) (.global 9) ∧
     ¬ ReflTransGen (recursiveReader.DependsOn items) (.global 9) (.function 19) ∧
     items.idxOf (.global 9) < items.idxOf (.function 19)) ∧
    (let items := reachable recursiveReader [31] (CallTable.resolve recursiveReader)
     (∀ a b, ReflTransGen (recursiveReader.DependsOn items) a b →
       ReflTransGen (recursiveReader.DependsOn items) b a → a = b) ∧
     recursiveReader.DependsOn items (.global 9) (.function 4) ∧
     items.idxOf (.function 4) < items.idxOf (.global 9)) := by
  obtain ⟨-, hvertex, -⟩ := reachable_dependencies_first recursiveReader [26]
  obtain ⟨-, -, hfragment⟩ := reachable_dependencies_first recursiveReader [31]
  rw [reachable_recursiveReader.1] at hvertex ⊢
  rw [reachable_recursiveReader.2] at hfragment ⊢
  constructor
  · intro items
    have hself : recursiveReader.DependsOn items (.function 19) (.function 19) := by decide +kernel
    have hread : recursiveReader.DependsOn items (.function 19) (.global 9) := by decide +kernel
    have hclosed : ∀ x ∈ [Item.global 9, .function 4], ∀ y ∈ items,
        recursiveReader.DependsOn items x y → y ∈ [Item.global 9, .function 4] := by decide +kernel
    have hmem : ∀ x, ReflTransGen (recursiveReader.DependsOn items) (.global 9) x →
        x ∈ [Item.global 9, .function 4] := by
      intro x hx
      induction hx with
      | refl => exact List.mem_cons_self
      | tail _ hs ih => exact hclosed _ ih _ hs.2.1 hs
    have hback : ¬ ReflTransGen (recursiveReader.DependsOn items) (.global 9) (.function 19) :=
      fun h => absurd (hmem _ h) (by decide)
    exact ⟨hself, hread, hback, hvertex _ _ hread hback⟩
  · intro items
    have hcall : recursiveReader.DependsOn items (.global 9) (.function 4) := by decide +kernel
    -- here what is needed was built first, so numbers go down along dependencies
    have hdown : ∀ x ∈ items, ∀ y ∈ items, recursiveReader.DependsOn items x y →
        x = y ∨ y.node?.getD 0 < x.node?.getD 0 := by decide +kernel
    have hle : ∀ a b, ReflTransGen (recursiveReader.DependsOn items) a b →
        a = b ∨ b.node?.getD 0 < a.node?.getD 0 := by
      intro a b h
      induction h with
      | refl => exact .inl rfl
      | tail _ hs ih =>
        rcases ih with rfl | hlt
        · exact hdown _ hs.1 _ hs.2.1 hs
        · rcases hdown _ hs.1 _ hs.2.1 hs with rfl | hlt'
          · exact .inr hlt
          · exact .inr (hlt'.trans hlt)
    have hrec : ∀ a b, ReflTransGen (recursiveReader.DependsOn items) a b →
        ReflTransGen (recursiveReader.DependsOn items) b a → a = b := by
      intro a b hab hba
      rcases hle a b hab with he | hlt
      · exact he
      · rcases hle b a hba with he | hlt'
        · exact he.symm
        · exact absurd hlt hlt'.asymm
    exact ⟨hrec, hcall, hfragment hrec _ _ hcall (by decide)⟩

end ShaderScript
