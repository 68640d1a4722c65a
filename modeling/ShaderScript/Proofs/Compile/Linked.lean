import ShaderScript.Proofs.Compile.Passes
import ShaderScript.Proofs.Estree.Unshared

/-!
# Every pass keeps the program a linked tree

Passes replace nodes, drop some and add others, and a later pass trusts what it finds on the way up
from a node. It may: each of them leaves a tree in which every node is linked to the one that holds
it, under the program node that was there before.

* `Graph.WellLinked`: a linked tree, said node by node, with `Graph.isTree_iff_wellLinked`.
* `Graph.SameProgram`: two graphs with one program node and the same functions.
* `Definition.isTree_discarded`: the one pass that no lemma speaks of yet.
* `Definition.sameProgram_desugared`, …: the program node after each pass.
* **`passes_wellLinked`**: the program stays a linked tree from pass to pass.
-/

namespace ShaderScript

namespace Graph

variable {g x y : Graph}

/-! ## Linked trees -/

/-- The node is part of the program. -/
def IsPart (g : Graph) (i : Id) : Prop := ∃ d, g.Below g.root d i

/-- Every number that the program refers to is that of a node, every node but the root stands once
in one node of the program, which is its parent, and the root stands in none and has no parent. -/
structure WellLinked (g : Graph) : Prop where
  lt_size : ∀ i, g.IsPart i → i < g.size
  held_once : ∀ i, g.IsPart i → i ≠ g.root → ∃ p, g.IsPart p ∧ g.parent? i = some p ∧
    (g.children p).count i = 1 ∧ ∀ q, g.IsPart q → i ∈ g.children q → q = p
  root_free : ∀ i, g.IsPart i → g.root ∉ g.children i
  parent_root : g.parent? g.root = none

theorem IsTree.wellLinked (h : g.IsTree) : g.WellLinked where
  lt_size i hi := h.lt_size (h.mem_live_iff.mpr hi)
  held_once i hi hne := by
    obtain ⟨d, hd⟩ := hi
    cases hd with
    | refl => exact absurd rfl hne
    | @step d p _ hp hc =>
      have hlive := h.mem_live_iff.mpr ⟨d, hp⟩
      refine ⟨p, ⟨d, hp⟩, h.parent_child p hlive i hc,
        List.count_eq_one_of_mem (h.children_nodup p hlive) hc, fun q hq hcq => ?_⟩
      exact h.unshared.holder_unique q (h.mem_live_iff.mpr hq) p hlive i hcq hc
  root_free i hi := h.unshared.root_free i (h.mem_live_iff.mpr hi)
  parent_root := h.parent_root

theorem WellLinked.isTree (h : g.WellLinked) : g.IsTree := by
  have reached : ∀ {i}, i ∈ g.live → g.IsPart i := fun hi => by
    obtain ⟨d, -, hd⟩ := mem_walk.mp hi
    exact ⟨d, hd⟩
  have child : ∀ {i c}, i ∈ g.live → c ∈ g.children i → g.IsPart c := fun hi hc => by
    obtain ⟨d, hd⟩ := reached hi
    exact ⟨d + 1, .step hd hc⟩
  have held : ∀ {i c}, i ∈ g.live → c ∈ g.children i →
      g.parent? c = some i ∧ (g.children i).count c = 1 := by
    intro i c hi hc
    have hne : c ≠ g.root := fun he => h.root_free i (reached hi) (he ▸ hc)
    obtain ⟨p, -, hparent, hcount, honly⟩ := h.held_once c (child hi hc) hne
    rw [honly i (reached hi) hc]
    exact ⟨hparent, hcount⟩
  refine ⟨h.lt_size g.root ⟨0, .refl⟩, fun i hi c hc => h.lt_size c (child hi hc),
    fun i hi => List.nodup_iff_count_le_one.mpr fun c => ?_, h.parent_root,
    fun i hi c hc => (held hi hc).1⟩
  by_cases hc : c ∈ g.children i
  · exact (held hi hc).2.le
  · rw [List.count_eq_zero_of_not_mem hc]
    exact Nat.zero_le 1

/-- **What is said node by node is being a tree.** -/
theorem isTree_iff_wellLinked : g.IsTree ↔ g.WellLinked := ⟨IsTree.wellLinked, WellLinked.isTree⟩

/-! ## Program nodes -/

/-- The two graphs have one program node, with the same statements and functions. -/
structure SameProgram (g x : Graph) : Prop where
  root : x.root = g.root
  program : ∃ body, g.kind g.root = .program body ∧ x.kind x.root = .program body
  functions : x.functions = g.functions

namespace SameProgram

theorem trans (h : SameProgram g x) (h' : SameProgram x y) : SameProgram g y := by
  obtain ⟨body, hg, hx⟩ := h.program
  obtain ⟨body', hx', hy⟩ := h'.program
  rw [hx] at hx'
  cases hx'
  exact ⟨h'.root.trans h.root, ⟨body, hg, hy⟩, h'.functions.trans h.functions⟩

/-- It is enough that the program node stays and that nothing starts or ceases to be a function. -/
theorem of_kinds {body : List Id} (hroot : x.root = g.root) (hg : g.kind g.root = .program body)
    (hx : x.kind g.root = .program body) (hf : ∀ i, x.isFunction i = g.isFunction i) :
    SameProgram g x := by
  refine ⟨hroot, ⟨body, hg, hroot ▸ hx⟩, ?_⟩
  unfold Graph.functions Graph.body
  rw [hroot, hg, hx, funext hf]

theorem of_sameShape {body : List Id} (hg : g.kind g.root = .program body) (h : SameShape g x) :
    SameProgram g x :=
  of_kinds h.root hg ((h.kind _).trans hg) h.isFunction

theorem of_renamed {body : List Id} (hg : g.kind g.root = .program body)
    (h : Changed Kind.Renamed g x) : SameProgram g x := by
  refine of_kinds h.root hg ((h.kind_eq_iff _ rfl).mpr hg) fun i => ?_
  have hi := h.kind i
  unfold isFunction
  generalize g.kind i = k, x.kind i = k' at hi ⊢
  cases hi <;> rfl

theorem of_lowered {p : Kind → Bool} {body : List Id} (ht : g.IsTree)
    (hg : g.kind g.root = .program body) (hp : ∀ body, p (.program body) = false)
    (h : Lowered p g x) : SameProgram g x := by
  refine of_kinds h.root hg ?_ fun i => Bool.eq_iff_iff.mpr ?_
  · rw [h.other g.root ht.root_lt (by rw [hg]; exact hp body), hg]
  · have function_iff : ∀ {y : Graph},
        y.isFunction i = true ↔ ∃ name params body, y.kind i = .function name params body := by
      intro y
      unfold isFunction
      cases y.kind i <;> simp
    rw [function_iff, function_iff]
    simp only [h.lasting i (.function _ _ _) rfl]

end SameProgram

/-- The graph is a linked tree, with the program node of another one. -/
structure LinkedAs (x g : Graph) : Prop where
  linked : x.WellLinked
  same : SameProgram g x

end Graph

open Graph

namespace Definition

variable {g : Graph} {d : Definition} (hd : ofGraph g = .ok d)

/-! ## Passes -/

/-- The program after returns without value have become discards. -/
def discarded (d : Definition) : Graph := d.inferred.graph.lowerDiscards d.entries.fragmentColor

theorem isTree_discarded (ht : d.inferred.graph.IsTree)
    (hcolor : d.entries.fragmentColor ∈ d.inferred.graph.live) : d.discarded.IsTree := by
  obtain ⟨owner, hgrown⟩ := (lowered_lowerDiscards ht hcolor).grown
  unfold discarded lowerDiscards at *
  split at hgrown
  case h_2 => exact ht
  case h_1 =>
    dsimp only at hgrown ⊢
    split at hgrown
    case h_2 => exact ht
    case h_1 => exact ((hgrown.sameShape (sameShape_link _).symm).unshared ht).isTree_link

include hd

theorem exists_program : ∃ body, g.kind g.root = .program body := by
  have hf : d.entries.fragmentColor ∈ g.functions := by
    refine EntryPoints.locate_functions (ofGraph_eq_ok hd).2 _ ?_
    exact List.mem_append_right _ List.mem_cons_self
  have hbody := (mem_functions.mp hf).1
  unfold body at hbody
  split at hbody
  case h_1 body hk => exact ⟨body, hk⟩
  case h_2 => cases hbody

theorem changed_flattened : Changed Kind.Renamed (g.flat d.entries) d.flattened.graph := by
  unfold flattened
  rw [(ofGraph_eq_ok hd).1, flatten_graph]
  exact (marked_marked (g.flat d.entries)).changed

variable (h : g.IsTree)

include h

theorem sameProgram_flattened : SameProgram g d.flattened.graph := by
  obtain ⟨body, hg⟩ := exists_program hd
  have hflat := changed_flat h d.entries
  have hprogram : (g.flat d.entries).kind g.root = .program body := by
    have hk := hflat.kind g.root
    rw [hg] at hk
    generalize (g.flat d.entries).kind g.root = k at hk
    cases hk
    rfl
  refine (SameProgram.of_kinds hflat.root hg hprogram fun i => ?_).trans
    (.of_renamed (hflat.root ▸ hprogram) (changed_flattened hd))
  have hi := hflat.kind i
  unfold isFunction
  generalize g.kind i = k, (g.flat d.entries).kind i = k' at hi ⊢
  cases hi <;> rfl

theorem sameProgram_inferred : SameProgram g d.inferred.graph := by
  have hflat := sameProgram_flattened hd h
  obtain ⟨body, -, hprogram⟩ := hflat.program
  refine hflat.trans (.of_sameShape hprogram ?_)
  exact (EntryPoints.changed_attachHints d.entries _).sameShape.trans
    (changed_infer d.desugared d.calls).sameShape

end Definition

/-- **Every pass keeps the program a linked tree.** A document gives a linked tree, and then each of
the five programs that a compilation goes through is a linked tree with the program node and the
functions of the first. Inference leaves one also where it fails; the passes after it follow only
where it succeeds. -/
theorem passes_wellLinked :
    (∀ v g, Estree.ofJson v = .ok g → g.WellLinked) ∧
    ∀ g d, g.WellLinked → Definition.ofGraph g = .ok d →
      d.flattened.graph.LinkedAs g ∧ d.inferred.graph.LinkedAs g ∧
      (d.inferred.failure = none →
        d.discarded.LinkedAs g ∧ d.lowered.LinkedAs g ∧ d.printed.LinkedAs g) := by
  refine ⟨fun v g hg => (Estree.isTree_ofJson hg).wellLinked, fun g d hg hd => ?_⟩
  have h := hg.isTree
  have hinfer := changed_infer d.desugared d.calls
  have hinferred : d.inferred.graph.IsTree :=
    hinfer.renamed_of_eq.isTree_of_renamed (d.isTree_desugared hd h)
  have hsame := d.sameProgram_inferred hd h
  obtain ⟨body, -, hprogram⟩ := hsame.program
  refine ⟨⟨IsTree.wellLinked ?_, d.sameProgram_flattened hd h⟩, ⟨hinferred.wellLinked, hsame⟩,
    fun hok => ?_⟩
  · exact (d.changed_flattened hd).isTree_of_renamed (isTree_flat h d.entries)
  have hcolor : d.entries.fragmentColor ∈ d.inferred.graph.live :=
    hinfer.renamed_of_eq.live_eq ▸ d.color_live hd h
  have hlow : SameProgram g d.lowered := hsame.trans
    (.of_lowered hinferred hprogram (fun _ => rfl) (d.callsLowered_lowered hd h hok).lowered)
  have hprint := (d.renames_printed).changed
  obtain ⟨body', -, hprogram'⟩ := hlow.program
  refine ⟨⟨(d.isTree_discarded hinferred hcolor).wellLinked, ?_⟩,
    ⟨(d.isTree_lowered hd h hok).wellLinked, hlow⟩, IsTree.wellLinked ?_, ?_⟩
  · exact hsame.trans (.of_lowered hinferred hprogram (fun _ => rfl)
      (lowered_lowerDiscards hinferred hcolor))
  · exact hprint.isTree_of_renamed (d.isTree_lowered hd h hok)
  · exact hlow.trans (.of_renamed hprogram' hprint)

/-- The program `function VertexPosition() { return vec3.add(vec3.create(), attributes.p,
attributes.p); } function FragmentColor(v) { if (varyings.v) return; return [1, 1, 1, 1]; }`, with
its entry points. -/
def discardedSum : Definition where
  graph := Build.finish do
    let created ← Build.call (← Build.field (← Build.ident "vec3") "create") []
    let left ← Build.field (← Build.ident "attributes") "p"
    let right ← Build.field (← Build.ident "attributes") "p"
    let sum ← Build.call (← Build.field (← Build.ident "vec3") "add") [created, left, right]
    let _ ← Build.function "VertexPosition" [] [← Build.ret (some sum)]
    let test ← Build.field (← Build.ident "varyings") "v"
    let guard ← Build.ifElse test (← Build.ret none) none
    let ones ← (List.replicate 4 "1").mapM Build.num
    let _ ← Build.function "FragmentColor" ["v"] [guard, ← Build.ret (some (← Build.array ones))]
  entries := { vertexPosition := 17, fragmentColor := 32, pointSize := none }

/-- A program that has a parameter dropped, accesses flattened, a discard added and a call written
as a sum is a linked tree in the end. -/
theorem passes_wellLinked_discardedSum :
    Definition.ofGraph discardedSum.graph = .ok discardedSum ∧ discardedSum.graph.WellLinked ∧
    discardedSum.failure? = none ∧ discardedSum.printed.size ≠ discardedSum.graph.size ∧
    discardedSum.printed.LinkedAs discardedSum.graph := by
  have hpasses : discardedSum.graph.IsTree ∧
      EntryPoints.locate discardedSum.graph = .ok discardedSum.entries ∧
      discardedSum.failure? = none ∧ discardedSum.inferred.failure = none ∧
      discardedSum.printed.size ≠ discardedSum.graph.size := by
    decide +kernel
  obtain ⟨h, he, hf, hok, hsize⟩ := hpasses
  have hd := Definition.ofGraph_of_locate he
  have hlinked := (passes_wellLinked.2 discardedSum.graph discardedSum h.wellLinked hd).2.2 hok
  exact ⟨hd, h.wellLinked, hf, hsize, hlinked.2.2⟩

end ShaderScript
