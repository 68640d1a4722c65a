import ShaderScript.Proofs.Estree.Unshared

/-!
# How documents are numbered

A node of a document gets its number after all its parts, and the parts get theirs in source order.
So the numbers are those of a walk in post-order, and no number is left over.

* `Draft.postorder_finish`: the numbers of a draft that has been wrapped in a program.
* **`ofJson_postorder`**: the program of a document is numbered in post-order, without loose and
  without shared nodes, and its parents are the nodes that hold them.
-/

namespace ShaderScript

namespace Draft

variable {d : Draft} (h : d.graph.Sown d.body)

include h

theorem child_lt_finish (i : Id) : ∀ c ∈ d.finish.children i, c < i := fun c hc =>
  (sown_program h).child_lt i c ((Graph.sameShape_link _).children i ▸ hc)

theorem postorder_finish : d.finish.postorder d.finish.root = List.range d.finish.size := by
  have hs := Graph.sameShape_link
    { nodes := d.nodes.push { kind := .program d.body }, root := d.nodes.size }
  have horder := (sown_program h).order
  rw [List.flatMap_singleton] at horder
  unfold finish
  rw [Graph.postorder_congr hs.size hs.children, hs.root, hs.size]
  exact horder

omit h in
theorem size_finish : d.finish.root + 1 = d.finish.size := by
  have hs := Graph.sameShape_link
    { nodes := d.nodes.push { kind := .program d.body }, root := d.nodes.size }
  unfold finish
  rw [hs.root, hs.size]
  simp [Graph.size]

end Draft

namespace Estree

/-- **The program of a document is numbered in post-order.** The walk comes to every number once and
in order, so every node comes after its children and the root is last, every number is that of
exactly one live node, and the parent of a node is the only node that lists it. -/
theorem ofJson_postorder {v : Json} {g : Graph} (hg : ofJson v = .ok g) :
    g.postorder g.root = List.range g.size ∧
    (∀ i < g.size, g.postorder i = (g.children i).flatMap g.postorder ++ [i]) ∧
    (∀ i, ∀ c ∈ g.children i, c < i) ∧ g.root + 1 = g.size ∧
    g.live.Nodup ∧ g.live.Perm (List.range g.size) ∧
    (∀ i p, g.parent? i = some p ↔ i ∈ g.children p) ∧
    ∀ i < g.size, g.parent? i = none ↔ i = g.root := by
  have ht := isTree_ofJson hg
  obtain ⟨d, hd, rfl⟩ := exists_draft_ofJson hg
  set g := d.finish
  have hlt := d.child_lt_finish hd
  have hlive : g.live.Perm (List.range g.size) :=
    d.postorder_finish hd ▸ (Graph.walkUp_perm g.size g.root).symm
  have mem_live : ∀ {i}, i < g.size → i ∈ g.live := fun hi =>
    hlive.mem_iff.mpr (List.mem_range.mpr hi)
  have hparent : ∀ i p, g.parent? i = some p ↔ i ∈ g.children p := by
    refine fun i p => ⟨fun hp => ?_, fun hi => ?_⟩
    · have hi : i < g.size := by
        by_contra hge
        rw [Graph.parent?, Graph.node_of_size_le (not_lt.mp hge)] at hp
        cases hp
      exact (ht.parent_live (mem_live hi) hp).2
    · exact ht.parent_child p (mem_live (Graph.lt_size_of_mem_children hi)) i hi
  refine ⟨d.postorder_finish hd, fun i hi => Graph.postorder_eq hlt hi, hlt, d.size_finish,
    hlive.nodup_iff.mpr List.nodup_range, hlive, hparent, fun i hi => ⟨fun hnone => ?_, ?_⟩⟩
  · obtain ⟨n, hn⟩ := ht.mem_live_iff.mp (mem_live hi)
    cases hn with
    | refl => rfl
    | step _ hc => exact nomatch hnone.symm.trans ((hparent _ _).mpr hc)
  · rintro rfl
    exact ht.parent_root

/-- The document of `for (var i, j = i; ; i++) ; ; if (i) ; else return;`. -/
def emptyBodies : Json :=
  let i := .obj [("name", .str "i"), ("type", .str "Identifier")]
  let j := .obj [("name", .str "j"), ("type", .str "Identifier")]
  let empty := .obj [("type", .str "EmptyStatement")]
  let declarator (fields : List (String × Json)) : Json :=
    .obj (fields ++ [("type", .str "VariableDeclarator")])
  .obj [("body", .arr [
      .obj [("body", empty),
        ("init", .obj [("declarations", .arr [declarator [("id", i), ("init", .null)],
            declarator [("id", j), ("init", i)]]), ("type", .str "VariableDeclaration")]),
        ("type", .str "ForStatement"),
        ("update", .obj [("argument", i), ("operator", .str "++"), ("prefix", .bool false),
          ("type", .str "UpdateExpression")])],
      empty,
      .obj [("alternate", .obj [("type", .str "ReturnStatement")]), ("consequent", empty),
        ("test", i), ("type", .str "IfStatement")]]),
    ("type", .str "Program")]

/-- The empty statements that are bodies have numbers, and the one between the other statements has
none. -/
theorem ofJson_postorder_emptyBodies : ∃ g, ofJson emptyBodies = .ok g ∧ g.size = 15 ∧
    g.postorder g.root = List.range 15 ∧ g.children 9 = [5, 7, 8] ∧ g.parent? 8 = some 9 ∧
    g.parent? 14 = none := by
  let g : Graph := (ofJson emptyBodies).toOption.getD default
  have hg : ofJson emptyBodies = .ok g := by decide +kernel
  have hsize : g.size = 15 := by decide +kernel
  have hloop : g.kind 9 = .forLoop (some 5) none (some 7) 8 := by decide +kernel
  obtain ⟨horder, -, -, hroot, -, -, hparent, hnone⟩ := ofJson_postorder hg
  have hchildren : g.children 9 = [5, 7, 8] := by
    rw [Graph.children, hloop]
    rfl
  refine ⟨g, hg, hsize, hsize ▸ horder, hchildren, (hparent 8 9).mpr (hchildren ▸ by decide), ?_⟩
  exact (hnone 14 (by omega)).mpr (Nat.succ.inj (hsize.symm.trans hroot.symm))

end Estree

end ShaderScript
