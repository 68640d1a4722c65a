import ShaderScript.Proofs.Renumber.Scope
import ShaderScript.Proofs.Renumber.Text
import ShaderScript.Proofs.Stage.Closure

/-!
# Calls and stages of a copy

A call of a copy refers to the copy of what the original refers to, and so the stages hold copies of
the same items in the same order.

* `CallTable.map`, `Item.map`: calls and items under other numbers.
* **`Graph.Copy.calls`**: the calls of a copy.
* `Surroundings.visit_of_le`: more depth than the nodes that are left makes no difference.
* `Graph.Copy.visit`: the walk through the items of a copy.
* **`Graph.Copy.stages`**, `Graph.Copy.firstError?`: the stages of a copy, and the error on a call.
-/

namespace ShaderScript

/-! ## Tables under other numbers -/

/-- A target under another number. -/
def Target.map (f : Id → Id) : Target → Target
  | user i => user (f i)
  | known e => known e

/-- A verdict under other numbers. -/
def Verdict.map (f : Id → Id) : Verdict → Verdict
  | target t => target (t.map f)
  | unlisted callee => unlisted callee

theorem Verdict.target?_map (f : Id → Id) (v : Verdict) :
    (v.map f).target? = v.target?.map (Target.map f) := by
  cases v <;> rfl

theorem Verdict.error?_map (f : Id → Id) (v : Verdict) : (v.map f).error? = v.error? := by
  cases v with
  | unlisted => rfl
  | target t => cases t <;> rfl

/-- Calls under other numbers. -/
def CallTable.map (f : Id → Id) (t : CallTable) : CallTable where
  targets := t.targets.map (Prod.map f (Target.map f))
  errors := t.errors.map (Prod.map f id)

theorem lookup_map {ι κ α β : Type} [DecidableEq ι] [DecidableEq κ] {f : ι → κ}
    (hf : Function.Injective f) (h : α → β) (ps : List (ι × α)) (i : ι) :
    (ps.map (Prod.map f h)).lookup (f i) = (ps.lookup i).map h := by
  induction ps with
  | nil => rfl
  | cons p ps ih =>
    rw [List.map_cons, List.lookup_cons, List.lookup_cons]
    have hp : (f i == (Prod.map f h p).1) = (i == p.1) := by
      rw [Bool.eq_iff_iff, beq_iff_eq, beq_iff_eq, Prod.map_fst, hf.eq_iff]
    rw [hp]
    cases i == p.1 with
    | true => rfl
    | false => exact ih

namespace CallTable

variable {f : Id → Id} (hf : Function.Injective f) (t : CallTable) (i : Id)

include hf

theorem target?_map : (t.map f).target? (f i) = (t.target? i).map (Target.map f) :=
  lookup_map hf (Target.map f) t.targets i

theorem error?_map : (t.map f).error? (f i) = t.error? i :=
  (lookup_map hf id t.errors i).trans (Option.map_id_apply)

theorem known?_map : (t.map f).known? (f i) = t.known? i := by
  unfold known?
  rw [target?_map hf]
  rcases t.target? i with _ | ⟨_ | _⟩ <;> rfl

end CallTable

theorem eraseDups_of_nodup {is : List Id} (h : is.Nodup) : is.eraseDups = is := by
  induction is with
  | nil => rfl
  | cons i is ih =>
    obtain ⟨hi, his⟩ := List.nodup_cons.mp h
    have hfilter : is.filter (fun j => !j == i) = is := by
      refine List.filter_eq_self.mpr fun j hj => ?_
      rw [Bool.not_eq_true', beq_eq_false_iff_ne]
      rintro rfl
      exact hi hj
    rw [List.eraseDups_cons, hfilter, ih his]

/-! ## Calls -/

namespace Graph.Copy

variable {linked : Prop} {f : Id → Id} {k g : Graph}

theorem userFunction? (r : Copy linked f k g) (i : Id) :
    g.userFunction? (f i) = (k.userFunction? i).map f := by
  unfold Graph.userFunction?
  rw [r.identName?]
  cases k.identName? i with
  | none => rfl
  | some name => exact r.findFunction? name

section Linked

variable (r : Copy True f k g)

include r

theorem verdict {i : Id} (hi : k.Bounded i) (n : Nat) :
    g.verdict (f i) n = (k.verdict i n).map f := by
  unfold Graph.verdict
  rw [r.userFunction?, r.dottedPath? hi, r.render hi]
  cases k.userFunction? i with
  | some j => rfl
  | none =>
    dsimp only [Option.map_none]
    cases (k.dottedPath? i).bind fun path => Known.lookup? path n <;> rfl

theorem verdict? {i : Id} (hi : k.Bounded i) :
    g.verdict? (f i) = (k.verdict? i).map (Verdict.map f) := by
  unfold Graph.verdict?
  rw [r.kind]
  cases hk : k.kind i with
  | call callee args =>
    have hc : callee ∈ k.children i := by
      rw [Graph.children, hk]
      exact List.mem_cons_self
    simp only [Kind.map, List.length_map, Option.map_some,
      r.verdict (hi.below (.step .refl hc))]
  | _ => rfl

/-- **The calls of a copy are those of the original.** -/
theorem calls (hk : k.Whole) : CallTable.resolve g = (CallTable.resolve k).map f := by
  have hnodup := hk.tree.nodup_live
  have hverdicts : CallTable.verdicts g =
      (CallTable.verdicts k).map (Prod.map f (Verdict.map f)) := by
    unfold CallTable.verdicts
    rw [r.live (hk.bounded _), eraseDups_of_nodup (hnodup.map r.inj), eraseDups_of_nodup hnodup,
      List.filterMap_map, List.map_filterMap]
    refine List.filterMap_congr fun i _ => ?_
    rw [Function.comp_apply, r.verdict? (hk.bounded i)]
    cases k.verdict? i <;> rfl
  unfold CallTable.resolve CallTable.map
  rw [hverdicts]
  refine congrArg₂ CallTable.mk ?_ ?_ <;>
    rw [List.filterMap_map, List.map_filterMap] <;>
    refine List.filterMap_congr fun p _ => ?_
  · simp only [Function.comp_apply, Prod.map_snd, Prod.map_fst, Verdict.target?_map]
    cases p.2.target? <;> rfl
  · simp only [Function.comp_apply, Prod.map_snd, Prod.map_fst, Verdict.error?_map]
    cases p.2.error? <;> rfl

end Linked

end Graph.Copy

/-! ## Items under other numbers -/

/-- An item under another number. -/
def Item.map (f : Id → Id) : Item → Item
  | function i => function (f i)
  | global i => global (f i)
  | library s => library s

theorem Item.node?_map (f : Id → Id) (item : Item) : (item.map f).node? = item.node?.map f := by
  cases item <;> rfl

/-- What has been reached, under other numbers. -/
def Reached.map (f : Id → Id) (r : Reached) : Reached where
  names := r.names
  globals := r.globals.map f
  items := r.items.map (Item.map f)

namespace Reached

variable {f : Id → Id} {r : Reached}

theorem has_map (hf : Function.Injective f) {m : String ⊕ Id} :
    (r.map f).Has (m.map id f) ↔ r.Has m := by
  cases m with
  | inl name => exact Iff.rfl
  | inr stmt => exact List.mem_map_of_injective hf

theorem add_map (m : String ⊕ Id) : (r.map f).add (m.map id f) = (r.add m).map f := by
  cases m <;> rfl

theorem emit_map (item : Item) : (r.emit item).map f = (r.map f).emit (item.map f) := by
  unfold emit Reached.map
  rw [List.map_append]
  rfl

end Reached

namespace Surroundings

variable {c : Surroundings} {r : Reached} {item : Item}

/-- **More depth than the nodes that are left makes no difference.** -/
theorem visit_of_le {n m : Nat} (hneeds : ∀ x, ∀ y ∈ c.needsOf x, y.Placed c.graph)
    (hp : item.Placed c.graph) (hn : c.left r < n) (hm : n ≤ m) :
    c.visit m r item = c.visit n r item := by
  induction n generalizing r item m with
  | zero => omega
  | succ n ih =>
    obtain ⟨m, rfl⟩ := Nat.exists_eq_add_of_le' (Nat.one_le_of_lt hm)
    cases hmark : item.mark? c.graph with
    | none => rw [visit_of_unnamed hmark, visit_of_unnamed hmark]
    | some mark =>
      by_cases hr : r.Has mark
      · rw [visit_of_has hmark hr, visit_of_has hmark hr]
      rw [visit_of_new hmark hr, visit_of_new hmark hr]
      refine congrArg (Reached.emit · item) ?_
      cases hi : item.node? with
      | none =>
        have hnil : c.needsOf item = [] := by rw [needsOf, hi]
        rw [hnil]
        rfl
      | some i =>
        have hleft := left_add_lt hp hmark hr hi
        -- the walk through what is needed leaves fewer and fewer nodes
        have fold : ∀ (xs : List Item) (r' : Reached), (∀ x ∈ xs, x.Placed c.graph) →
            c.left r' < n → xs.foldl (c.visit m) r' = xs.foldl (c.visit n) r' := by
          intro xs
          induction xs with
          | nil => exact fun _ _ _ => rfl
          | cons x xs ihxs =>
            intro r' hxs hr'
            have hx := hxs x List.mem_cons_self
            obtain ⟨new, hwalked⟩ := exists_walked_visit hneeds hx hr'
            have hle : c.left (c.visit n r' x) ≤ c.left r' := left_le fun _ => hwalked.mono
            rw [List.foldl_cons, List.foldl_cons, ih hx hr' (Nat.le_of_succ_le_succ hm)]
            exact ihxs _ (fun y hy => hxs y (List.mem_cons_of_mem _ hy)) (hle.trans_lt hr')
        exact fold _ _ (hneeds item) (by omega)

end Surroundings

namespace Graph.Copy

open Surroundings

variable {linked : Prop} {f : Id → Id} {k g : Graph}

/-! ## What items need -/

theorem globals (r : Copy linked f k g) : g.globals = k.globals.map (Prod.map id f) := by
  unfold Graph.globals
  rw [r.body, List.flatMap_map, List.map_reverse, List.map_flatMap]
  refine congrArg List.reverse (List.flatMap_congr fun stmt _ => ?_)
  rw [r.kind]
  cases k.kind stmt with
  | varDecl ds =>
    simp only [Kind.map, List.filterMap_map, List.map_filterMap]
    refine List.filterMap_congr fun d _ => ?_
    rw [Function.comp_apply, r.kind]
    cases k.kind d with
    | declarator name init =>
      simp only [Kind.map, r.identName?]
      cases k.identName? name <;> rfl
    | _ => rfl
  | _ => rfl

section Linked

variable (r : Copy True f k g) (calls : CallTable)

include r

theorem callNeed? (i : Id) : (of g (calls.map f)).callNeed? (f i) =
    ((of k calls).callNeed? i).map (Item.map f) := by
  unfold Surroundings.callNeed?
  simp only [of_calls, CallTable.target?_map r.inj]
  rcases calls.target? i with _ | ⟨j⟩ | ⟨e⟩
  · rfl
  · rfl
  · simp only [Option.map_some, Target.map, Option.map_map]
    rfl

variable (hk : ∀ i, k.Bounded i)

include hk

theorem globalNeed? (i : Id) : (of g (calls.map f)).globalNeed? (f i) =
    ((of k calls).globalNeed? i).map (Item.map f) := by
  have hlookup (name : String) : (k.globals.map (Prod.map id f)).lookup name =
      (k.globals.lookup name).map f := lookup_map Function.injective_id f k.globals name
  have hscope (b : Binding) : ((b.map f).scope == f k.root) = (b.scope == k.root) := by
    rw [Bool.eq_iff_iff, beq_iff_eq, beq_iff_eq]
    exact r.inj.eq_iff
  unfold Surroundings.globalNeed?
  simp only [of_graph, of_scopes, of_globals, r.identName?, r.isPropertyName, r.scopes hk,
    Scopes.bindingOf?_map r.inj, r.globals, r.root, Option.bind_eq_bind, Option.map_bind,
    Option.bind_map, Function.comp_def, hscope, hlookup]
  rfl

theorem need? (i : Id) : (of g (calls.map f)).need? (f i) =
    ((of k calls).need? i).map (Item.map f) := by
  unfold Surroundings.need?
  rw [of_graph, of_graph, r.kind]
  cases k.kind i with
  | call => exact r.callNeed? calls i
  | _ => exact r.globalNeed? calls hk i

theorem needs (i : Id) : (of g (calls.map f)).needs (f i) =
    ((of k calls).needs i).map (Item.map f) := by
  unfold Surroundings.needs
  rw [of_graph, of_graph, r.descendants (hk i), List.filterMap_map, List.map_filterMap]
  exact List.filterMap_congr fun j _ => r.need? calls hk j

theorem needsOf (item : Item) : (of g (calls.map f)).needsOf (item.map f) =
    ((of k calls).needsOf item).map (Item.map f) := by
  unfold Surroundings.needsOf
  rw [Item.node?_map]
  cases item.node? with
  | none => rfl
  | some i => exact r.needs calls hk i

/-! ## The walk -/

omit hk in
theorem mark? (item : Item) : (item.map f).mark? g = (item.mark? k).map (Sum.map id f) := by
  cases item with
  | function i =>
    simp only [Item.map, Item.mark?, r.functionName?, Option.map_map]
    rfl
  | global | library => rfl

/-- One step of the walk, and all that it leads to. -/
theorem visit (n : Nat) (s : Reached) (item : Item) :
    (of g (calls.map f)).visit n (s.map f) (item.map f) = ((of k calls).visit n s item).map f := by
  induction n generalizing s item with
  | zero => rfl
  | succ n ih =>
    have hmark := r.mark? item
    cases hm : item.mark? k with
    | none =>
      rw [hm, Option.map_none] at hmark
      rw [visit_of_unnamed (c := of g _) hmark, visit_of_unnamed (c := of k _) hm]
    | some m =>
      rw [hm, Option.map_some] at hmark
      by_cases hs : s.Has m
      · have hs' : (s.map f).Has (m.map id f) := (Reached.has_map r.inj).mpr hs
        rw [visit_of_has (c := of g _) hmark hs', visit_of_has (c := of k _) hm hs]
      · have hs' : ¬ (s.map f).Has (m.map id f) := fun h => hs ((Reached.has_map r.inj).mp h)
        rw [visit_of_new (c := of g _) hmark hs', visit_of_new (c := of k _) hm hs,
          Reached.emit_map, r.needsOf calls hk, Reached.add_map]
        refine congrArg (Reached.emit · _) ?_
        refine (foldl (R := fun a b => a.map f = b) (Item.map f) (s := s.add m) rfl ?_).symm
        rintro a _ x rfl
        exact (ih a x).symm

end Linked

/-- **A copy needs copies of the same items in the same order.** -/
theorem reachable (r : Copy True f k g) (hk : k.Whole) (roots : List Id) :
    ShaderScript.reachable g (roots.map f) (CallTable.resolve g) =
      (ShaderScript.reachable k roots (CallTable.resolve k)).map (Item.map f) := by
  have hvisit (s : Reached) (i : Id) :
      (of g ((CallTable.resolve k).map f)).visit (g.size + 1) (s.map f) (.function (f i)) =
        ((of k (CallTable.resolve k)).visit (k.size + 1) s (.function i)).map f := by
    have hplaced : (Item.function i).Placed k := trivial
    have hleft : (of k (CallTable.resolve k)).left s < k.size + 1 := Nat.lt_succ_of_le left_le_size
    rw [← visit_of_le (fun x y => placed_of_mem_needsOf) hplaced hleft
      (Nat.succ_le_succ r.size_le)]
    exact r.visit _ hk.bounded (g.size + 1) s (.function i)
  have hfold : ((roots.map Item.function).foldl
      ((of k (CallTable.resolve k)).visit (k.size + 1)) {}).map f =
        ((roots.map f).map Item.function).foldl
          ((of g ((CallTable.resolve k).map f)).visit (g.size + 1)) {} := by
    rw [List.foldl_map, List.foldl_map]
    refine foldl (R := fun a b => Reached.map f a = b) f (s := {}) rfl ?_
    rintro s _ i rfl
    exact (hvisit s i).symm
  rw [r.calls hk]
  exact (congrArg Reached.items hfold).symm

/-! ## Stages -/

end Graph.Copy

/-- Stages under other numbers. -/
def Stages.map (f : Id → Id) (s : Stages) : Stages where
  vertex := s.vertex.map (Item.map f)
  fragment := s.fragment.map (Item.map f)

namespace Graph.Copy

variable {f : Id → Id} {k g : Graph}

/-- **The stages of a copy.** -/
theorem stages (r : Copy True f k g) (hk : k.Whole) (e : EntryPoints) :
    Stages.extract g (e.map f) (CallTable.resolve g) =
      (Stages.extract k e (CallTable.resolve k)).map f := by
  unfold Stages.extract Stages.map
  refine congrArg₂ Stages.mk ?_ (r.reachable hk e.fragmentStage)
  rw [← r.reachable hk e.vertexStage]
  unfold EntryPoints.vertexStage EntryPoints.map
  cases e.pointSize <;> rfl

theorem firstError? (r : Copy True f k g) (hk : ∀ i, k.Bounded i) (calls : CallTable) (s : Stages) :
    (s.map f).firstError? g (calls.map f) = (s.firstError? k calls).map (Prod.map f id) := by
  unfold Stages.firstError? Stages.items Stages.map
  dsimp only
  rw [← List.map_append, List.findSome?_map, List.map_findSome?]
  refine congrArg (List.findSome? · _) (funext fun item => ?_)
  rw [Function.comp_apply, Function.comp_apply, Item.node?_map]
  cases item.node? with
  | none => rfl
  | some root =>
    rw [Option.map_some, Option.bind_some, Option.bind_some, r.descendants (hk root),
      List.findSome?_map, List.map_findSome?]
    refine congrArg (List.findSome? · _) (funext fun i => ?_)
    rw [Function.comp_apply, Function.comp_apply, CallTable.error?_map r.inj, Option.map_map]
    rfl

end Graph.Copy

end ShaderScript
