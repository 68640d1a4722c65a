import ShaderScript.Glsl.Program
import ShaderScript.Proofs.Glsl.Shown

/-!
# Effects in the text of an item

A call, an assignment or an increment happens as often as it is written. In the text of a function
or a top-level variable none is lost, and only the unknown position of a matrix is written more than
once.

* `Contributes`: a printer shows a node in a number of places.
* `Graph.Unshared.exprAt_stable`: the text of an effect does not depend on the depth that is left.
* **`itemText_contributes`**: how often the text of an item shows an effect in it.
* `itemText_not_once`: a call in the unknown position of a matrix is not written once.
-/

namespace ShaderScript

open Graph

/-- The text that `print` gives for a graph shows node `i` in `n` places: it is a template with `n`
holes, filled with the text of the node. Where another text takes the place of the node, that text
is shown in the same places, and the rest stays. The other text starts with the same character,
because a sign looks at it, and leaves every function its value or lack of one, because the head of
the function shows it. -/
def Contributes (g : Graph) (indent : String) (i : Id) (n : Nat) (print : Graph → String) : Prop :=
  ∃ t : Template, t.holes = n ∧ print g = t.fill (Glsl.exprAt g indent g.textDepth i) ∧
    ∀ s : String, s.front? = (Glsl.exprAt g indent g.textDepth i).front? →
      (∀ f, (g.replace i (.raw s)).returnsValue f = g.returnsValue f) →
      print (g.replace i (.raw s)) = t.fill s

variable {g : Graph} {i : Id}

theorem lt_size_of_isEffect (hi : (g.kind i).isEffect = true) : i < g.size := by
  refine lt_size_of_kind fun hk => ?_
  rw [hk] at hi
  cases hi

theorem Graph.Unshared.exprAt_stable (hg : g.Unshared) (hl : i ∈ g.live)
    (hi : (g.kind i).isEffect = true) (indent : String) {n m : Nat}
    (hn : ∀ d k, g.Below i d k → 2 * d + 1 ≤ n) (hm : ∀ d k, g.Below i d k → 2 * d + 1 ≤ m) :
    Glsl.exprAt g indent n i = Glsl.exprAt g indent m i := by
  obtain ⟨n, rfl⟩ := Nat.exists_eq_add_of_le' (hn 0 i .refl)
  obtain ⟨m, rfl⟩ := Nat.exists_eq_add_of_le' (hm 0 i .refl)
  have hcopy : Copy False id g g := .refl g
  refine hcopy.exprStep indent (Kind.isStatement_of_isEffect hi) fun c hc => ?_
  -- nothing below the node shows the node, so the texts of its children are templates without holes
  have hnot := hg.notMem_descendants_child hl hc
  have hbound : ∀ b, (∀ d k, g.Below i d k → 2 * d + 1 ≤ b + 1) →
      ∀ d k, g.Below c d k → 2 * d + 2 ≤ b := fun b hb d k hd => by
    have := hb _ k (hd.cons hc)
    omega
  have hcl := hg.child_live hl hc
  have hshown := Shown.text (s := fun _ : Bool => "") (x := fun _ => g)
    (n := fun deep => if deep then n else m) hg hi (fun _ => .refl hi) indent (fun _ _ => rfl) hcl
    (hg.headsDeclare_of_notMem hcl hnot) (b := min n m)
    (fun d k hd => le_min (hbound n hn d k hd) (hbound m hm d k hd))
    (fun deep => by cases deep <;> simp) fun hic => absurd hic hnot
  rw [copies_of_notMem hnot] at hshown
  exact hshown.1.eq_of_zero true false

/-! ## The text of an item -/

/-- A variant of a graph, with the text that stands for the node in it. -/
structure Filling (g : Graph) (i : Id) (indent : String) where
  graph : Graph
  text : String
  variant : Variant g i graph
  front : text.front? = (Glsl.exprAt g indent g.textDepth i).front?
  site : ∀ m, (∀ d k, g.Below i d k → 2 * d + 1 ≤ m) → Glsl.exprAt graph indent m i = text

namespace Filling

variable {indent : String}

/-- The graph itself. -/
def self (hg : g.Unshared) (hl : i ∈ g.live) (hi : (g.kind i).isEffect = true) (indent : String) :
    Filling g i indent where
  graph := g
  text := Glsl.exprAt g indent g.textDepth i
  variant := .refl hi
  front := rfl
  site m hm := by
    refine hg.exprAt_stable hl hi indent hm fun d k hd => ?_
    have := hg.below_lt hl hd
    unfold textDepth
    omega

/-- Another text in place of the node. -/
def put (hlt : i < g.size) (hi : (g.kind i).isEffect = true) {s : String}
    (hfront : s.front? = (Glsl.exprAt g indent g.textDepth i).front?)
    (hret : ∀ f, (g.replace i (.raw s)).returnsValue f = g.returnsValue f) :
    Filling g i indent where
  graph := g.replace i (.raw s)
  text := s
  variant := .replace hi hlt hret
  front := hfront
  site m hm := by
    obtain ⟨m, rfl⟩ := Nat.exists_eq_add_of_le' (hm 0 i .refl)
    unfold Glsl.exprAt
    rw [kind_replace_self g _ hlt]

theorem textDepth (v : Filling g i indent) : v.graph.textDepth = g.textDepth := by
  unfold Graph.textDepth
  rw [v.variant.size]

theorem shown (hg : g.Unshared) (hi : (g.kind i).isEffect = true) (indent : String) {j : Id}
    (hj : j ∈ g.live) (hheads : g.HeadsDeclare i j) :
    Shown g i (fun v : Filling g i indent => v.text)
      (fun v => Glsl.exprAt v.graph indent v.graph.textDepth)
      (fun v => Glsl.linesAt v.graph indent v.graph.textDepth) j := by
  intro d k hd
  have hk := hg.live_of_below hj hd
  refine Shown.text hg hi (fun v : Filling g i indent => v.variant) indent
    (fun v w => v.front.trans w.front.symm) hk (hheads.below hg hj hd) (b := g.textDepth)
    (fun e a he => ?_) (fun v => v.textDepth.ge) fun _ v => v.site
  have := hg.below_lt hk he
  unfold Graph.textDepth
  omega

/-- **The text of an item shows an effect as often as it is copied**, in every filling. -/
theorem itemText (hg : g.Unshared) (hi : (g.kind i).isEffect = true) (e : EntryPoints)
    (o : Options) {item : Item} {root : Id} (hroot : item.node? = some root)
    (hlive : root ∈ g.live) (hfun : item = .function root → g.isFunction root = true)
    (hheads : g.HeadsDeclare i root) :
    Shows (fun v : Filling g i o.indent => v.text) (g.copies i root) fun v =>
      Glsl.itemText v.graph e o item := by
  refine (ShowsLines.intercalate "\n" ?_).append_const _
  have hshown := shown hg hi o.indent hlive hheads
  cases item with
  | function f =>
    obtain rfl := Option.some.inj hroot
    have hlines := Shown.functionText hg hi o.indent (e.contains f) hlive (hfun rfl)
      fun c hc => hshown.child hc
    simpa only [Glsl.itemLines, Graph.functionLines,
      fun v : Filling g i o.indent => v.variant.functionText] using hlines
  | global stmt =>
    obtain rfl := Option.some.inj hroot
    exact hshown.lines
  | library => cases hroot

end Filling

/-- **How often the text of an item shows an effect.** It is never lost. It is shown once, but three
times as often for each access around it to a matrix whose unknown position it is in. -/
theorem itemText_contributes (hg : g.Unshared) {item : Item} {root : Id}
    (hroot : item.node? = some root) (hlive : root ∈ g.live)
    (hfun : item = .function root → g.isFunction root = true) (hmem : i ∈ g.descendants root)
    (hi : (g.kind i).isEffect = true) (hheads : g.HeadsDeclare i root) (e : EntryPoints)
    (o : Options) :
    Contributes g o.indent i (3 ^ (g.descendants root).countP (g.repeats i)) fun x =>
      Glsl.itemText x e o item := by
  obtain ⟨d, hd⟩ := (hg.mem_descendants_iff hlive).mp hmem
  have hl := hg.live_of_below hlive hd
  obtain ⟨t, ht, hfill⟩ := Filling.itemText hg hi e o hroot hlive hfun hheads
  rw [copies_of_mem hmem] at ht
  refine ⟨t, ht, hfill (.self hg hl hi o.indent), fun s hfront hret => ?_⟩
  exact hfill (.put (lt_size_of_isEffect hi) hi hfront hret)

/-! ## A call in the position of a matrix -/

theorem returnsValue_of_size_le {f : Id} (hf : g.size ≤ f) : g.returnsValue f = false := by
  have hkind : g.kind f = .program [] := congrArg Node.kind (node_of_size_le hf)
  unfold returnsValue
  rw [List.any_eq_false]
  intro i hi
  obtain ⟨hdesc, hret⟩ := List.mem_filter.mp hi
  obtain ⟨d, -, hd⟩ := mem_walk.mp hdesc
  cases d with
  | zero =>
    cases hd
    simp [isReturn, hkind] at hret
  | succ d =>
    obtain ⟨c, hc, -⟩ := hd.uncons
    rw [children, hkind] at hc
    cases hc

theorem Contributes.length_eq {indent : String} {n : Nat} {print : Graph → String}
    (h : Contributes g indent i n print) {s : String}
    (hfront : s.front? = (Glsl.exprAt g indent g.textDepth i).front?)
    (hret : ∀ f, (g.replace i (.raw s)).returnsValue f = g.returnsValue f) :
    (print (g.replace i (.raw s))).length + n * (Glsl.exprAt g indent g.textDepth i).length =
      (print g).length + n * s.length := by
  obtain ⟨t, rfl, hprint, hput⟩ := h
  rw [hput s hfront hret, hprint, t.length_fill s, t.length_fill (Glsl.exprAt _ _ _ _)]
  omega

/-- `function F() { return m[next()]; }`, where `m` is a matrix of two columns. -/
def matrixAtCall : Graph :=
  link ⟨#[{ kind := .ident "F", ty := some .float }, { kind := .ident "m", ty := some .mat2 },
    { kind := .ident "next" }, { kind := .call 2 [], ty := some .float },
    { kind := .index 1 3, ty := some .float }, { kind := .ret (some 4) }, { kind := .block [5] },
    { kind := .function 0 [] 6 }, { kind := .program [7] }], 8⟩

example : Glsl.itemText matrixAtCall ⟨7, 7, none⟩ {} (.function 7) =
    "float F() \x7b\n    return m[(next() / 2)][(next() - ((next() / 2) * 2))];\n\x7d\n\n" := by
  decide +kernel

theorem shape_matrixAtCall : matrixAtCall.Unshared ∧ 7 ∈ matrixAtCall.live ∧
    matrixAtCall.isFunction 7 = true ∧ 3 ∈ matrixAtCall.descendants 7 ∧
    matrixAtCall.kind 3 = .call 2 [] := by
  decide +kernel

/-- The call is shown three times. -/
theorem itemText_contributes_matrixAtCall : matrixAtCall.Unshared ∧
    3 ∈ matrixAtCall.descendants 7 ∧ (matrixAtCall.kind 3).isEffect = true ∧
    Contributes matrixAtCall "    " 3 3 fun x => Glsl.itemText x ⟨7, 7, none⟩ {} (.function 7) := by
  obtain ⟨hg, hlive, hfun, hmem, hcall⟩ := shape_matrixAtCall
  have hcount : (matrixAtCall.descendants 7).countP (matrixAtCall.repeats 3) = 1 := by
    decide +kernel
  have hi : (matrixAtCall.kind 3).isEffect = true := by rw [hcall]; rfl
  have hheads : matrixAtCall.HeadsDeclare 3 7 := by decide +kernel
  have hshown := itemText_contributes hg (rfl : (Item.function 7).node? = some 7)
    hlive (fun _ => hfun) hmem hi hheads ⟨7, 7, none⟩ {}
  rw [hcount] at hshown
  exact ⟨hg, hmem, hi, hshown⟩

/-- **A call in the unknown position of a matrix is not shown once.** -/
theorem itemText_not_once : matrixAtCall.Unshared ∧ 7 ∈ matrixAtCall.live ∧
    matrixAtCall.isFunction 7 = true ∧ 3 ∈ matrixAtCall.descendants 7 ∧
    matrixAtCall.kind 3 = .call 2 [] ∧
    ¬ Contributes matrixAtCall "    " 3 1 fun x =>
      Glsl.itemText x ⟨7, 7, none⟩ {} (.function 7) := by
  obtain ⟨hg, hlive, hfun, hmem, hcall⟩ := shape_matrixAtCall
  refine ⟨hg, hlive, hfun, hmem, hcall, fun h => ?_⟩
  have hret : ∀ f, (matrixAtCall.replace 3 (.raw "n")).returnsValue f =
      matrixAtCall.returnsValue f := by
    intro f
    by_cases hf : f < 9
    · revert f
      decide +kernel
    · have hsize : matrixAtCall.size = 9 := by decide +kernel
      have hput : (matrixAtCall.replace 3 (.raw "n")).size = 9 := by decide +kernel
      rw [returnsValue_of_size_le (hput.trans_le (Nat.not_lt.mp hf)),
        returnsValue_of_size_le (hsize.trans_le (Nat.not_lt.mp hf))]
  have hlength := h.length_eq (by decide +kernel) hret
  revert hlength
  decide +kernel

end ShaderScript
