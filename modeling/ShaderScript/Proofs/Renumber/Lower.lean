import Mathlib.Data.List.InsertIdx
import ShaderScript.Proofs.Compile.Passes
import ShaderScript.Proofs.Renumber.Infer

/-!
# Lowering and naming a copy

Lowering adds nodes, and the new nodes of a copy correspond to those of the original.

* `Graph.Copy.lowerDiscard`, `Graph.Copy.lowerCall`: one return and one call.
* **`Graph.Copy.lowered`**: the lowered programs.
* `Graph.Copy.declarations`, **`Graph.Copy.bareNames`**: inputs and final names.
-/

namespace ShaderScript

theorem idxOf_map {f : Id → Id} (hf : Function.Injective f) (is : List Id) (i : Id) :
    (is.map f).idxOf (f i) = is.idxOf i := by
  induction is with
  | nil => rfl
  | cons j is ih =>
    rw [List.map_cons, List.idxOf_cons, List.idxOf_cons, ih]
    have hj : (f j == f i) = (j == i) := by rw [Bool.eq_iff_iff, beq_iff_eq, beq_iff_eq, hf.eq_iff]
    rw [hj]

namespace Graph.Copy

variable {linked : Prop} {f : Id → Id} {k g : Graph}

/-! ## Returns -/

theorem allocZeros (r : Copy linked f k g) (n : Nat) :
    (Graph.allocZeros n g).1 = (Graph.allocZeros n k).1.map f ∧
      Copy linked f (Graph.allocZeros n k).2 (Graph.allocZeros n g).2 := by
  induction n generalizing k g with
  | zero => exact ⟨rfl, r⟩
  | succ n ih =>
    obtain ⟨hid, rzero⟩ := r.allocTyped (.number "0") (some .float)
    obtain ⟨hids, rzeros⟩ := ih rzero
    unfold Graph.allocZeros Graph.allocZero
    exact ⟨congrArg₂ List.cons hid hids, rzeros⟩

theorem allocZeroOf (r : Copy linked f k g) (t : Ty) (width : Nat) :
    (g.allocZeroOf t width).1 = f (k.allocZeroOf t width).1 ∧
      Copy linked f (k.allocZeroOf t width).2 (g.allocZeroOf t width).2 := by
  unfold Graph.allocZeroOf
  split_ifs
  · exact r.allocTyped (.number "0") (some .float)
  · obtain ⟨hcallee, rcallee⟩ := r.allocTyped (.ident t.name) (some t)
    obtain ⟨hargs, rargs⟩ := rcallee.allocZeros width
    have hcall := rargs.allocTyped (.call (k.allocTyped (.ident t.name) (some t)).1
      (Graph.allocZeros width (k.allocTyped (.ident t.name) (some t)).2).1) (some t)
    rw [Kind.map, ← hargs, ← hcallee] at hcall
    exact hcall

theorem splitReturn (r : Copy True f k g) (value discard i : Id) :
    Copy True f
      (match (k.parent? i).map fun p => (p, k.kind p) with
      | some (p, .block body) =>
        (k.replace p (.block (body.insertIdx (body.idxOf i) discard))).replace i (.ret (some value))
      | _ =>
        let (returned, k) := k.alloc (.ret (some value))
        k.replace i (.block [discard, returned]))
      (match (g.parent? (f i)).map fun p => (p, g.kind p) with
      | some (p, .block body) =>
        (g.replace p (.block (body.insertIdx (body.idxOf (f i)) (f discard)))).replace (f i)
          (.ret (some (f value)))
      | _ =>
        let (returned, g) := g.alloc (.ret (some (f value)))
        g.replace (f i) (.block [f discard, returned])) := by
  have hblock : Copy True f
      ((k.alloc (.ret (some value))).2.replace i
        (.block [discard, (k.alloc (.ret (some value))).1]))
      ((g.alloc (.ret (some (f value)))).2.replace (f i)
        (.block [f discard, (g.alloc (.ret (some (f value)))).1])) := by
    obtain ⟨hid, rnew⟩ := r.alloc (.ret (some value))
    rw [Kind.map, Option.map_some] at hid rnew
    rw [hid]
    exact rnew.replace i (.block [discard, _])
  rw [r.parent?]
  cases k.parent? i with
  | none => exact hblock
  | some p =>
    dsimp only [Option.map_some]
    rw [r.kind]
    cases k.kind p with
    | block body =>
      have rholder := r.replace p (.block (body.insertIdx (body.idxOf i) discard))
      rw [Kind.map, List.map_insertIdx] at rholder
      dsimp only [Kind.map]
      rw [idxOf_map r.inj]
      exact rholder.replace i (.ret (some value))
    | _ => exact hblock

theorem lowerDiscard (r : Copy True f k g) (t : Ty) (width : Nat) (i : Id) :
    Copy True f (Graph.lowerDiscard t width k i) (Graph.lowerDiscard t width g (f i)) := by
  unfold Graph.lowerDiscard
  rw [r.kind]
  cases k.kind i with
  | ret argument =>
    cases argument with
    | some => exact r
    | none =>
      obtain ⟨hvalue, rvalue⟩ := r.allocZeroOf t width
      obtain ⟨hdiscard, rdiscard⟩ := rvalue.alloc .discard
      dsimp only [Kind.map, Option.map_none] at hdiscard rdiscard ⊢
      rw [hvalue, hdiscard]
      exact rdiscard.splitReturn _ _ i
  | _ => exact r

theorem lowerDiscards (r : Copy True f k g) (hk : k.Whole) {i : Id} (hlive : i ∈ k.live) :
    Copy True f (k.lowerDiscards i) (g.lowerDiscards (f i)) := by
  have hlowered := lowered_lowerDiscards hk.tree hlive
  unfold Graph.lowerDiscards at hlowered ⊢
  rw [r.kind]
  cases hi : k.kind i with
  | function name params body =>
    rw [hi] at hlowered
    dsimp only [Kind.map] at hlowered ⊢
    rw [r.ty?]
    cases hwidth : ((k.ty? name).getD .float).width? with
    | none => exact r
    | some width =>
      rw [hwidth] at hlowered
      obtain ⟨owner, hgrown⟩ := hlowered.grown
      dsimp only
      rw [r.returns (hk.bounded i)]
      refine (foldl f r fun _ _ j r => r.lowerDiscard _ width j).link ?_
      exact (hgrown.sameShape (sameShape_link _).symm).unshared hk.tree
  | _ => exact r

/-! ## Calls -/

theorem lowerOut (r : Copy linked f k g) (call out : Id) (plain : Kind) :
    Copy linked f (k.lowerOut call out plain) (g.lowerOut (f call) (f out) (plain.map f)) := by
  unfold Graph.lowerOut
  rw [r.isAssignable, r.ty?]
  split_ifs
  · obtain ⟨hright, rright⟩ := r.allocTyped plain (k.ty? call)
    dsimp only
    rw [hright]
    exact rright.replace call (.assign .set out _)
  · exact r.replace call plain

theorem lowerAs (r : Copy linked f k g) (call : Id) (form : Known.Form) (args : List Id) :
    Copy linked f (k.lowerAs call form args) (g.lowerAs (f call) form (args.map f)) := by
  cases form with
  | rename target =>
    obtain ⟨hcallee, rcallee⟩ := r.allocTyped (.ident target) (k.ty? call)
    dsimp only [Graph.lowerAs, Kind.map] at hcallee rcallee ⊢
    rw [r.ty?, hcallee]
    exact rcallee.replace call (.call _ args)
  | outRename target =>
    cases args with
    | nil => exact r
    | cons out args =>
      obtain ⟨hcallee, rcallee⟩ := r.allocTyped (.ident target) (k.ty? call)
      rw [List.map_cons]
      dsimp only [Graph.lowerAs, Kind.map] at hcallee rcallee ⊢
      rw [r.ty?, hcallee]
      exact rcallee.lowerOut call out (.call _ args)
  | splice source => exact r.replace call (.raw source)
  | keep | reject => exact r
  | binary op =>
    rcases args with _ | ⟨a, _ | ⟨b, _ | ⟨c, args⟩⟩⟩ <;>
      first | exact r | exact r.replace call (.binary op a b)
  | unary op =>
    rcases args with _ | ⟨a, _ | ⟨b, args⟩⟩ <;>
      first | exact r | exact r.replace call (.unary op a)
  | argument =>
    rcases args with _ | ⟨a, _ | ⟨b, args⟩⟩ <;>
      first | exact r | exact r.replace call (.sequence [a])
  | assign =>
    rcases args with _ | ⟨a, _ | ⟨b, _ | ⟨c, args⟩⟩⟩ <;>
      first | exact r | exact r.replace call (.assign .set a b)
  | outBinary op =>
    rcases args with _ | ⟨a, _ | ⟨b, _ | ⟨c, _ | ⟨d, args⟩⟩⟩⟩ <;>
      first | exact r | exact r.lowerOut call a (.binary op b c)
  | outUnary op =>
    rcases args with _ | ⟨a, _ | ⟨b, _ | ⟨c, args⟩⟩⟩ <;>
      first | exact r | exact r.lowerOut call a (.unary op b)

theorem lowerTarget (r : Copy linked f k g) (p : Id × Target) :
    Copy linked f (k.lowerTarget p) (g.lowerTarget (Prod.map f (Target.map f) p)) := by
  obtain ⟨i, j | e⟩ := p
  · exact r
  · change Copy linked f (k.lowerCall i e) (g.lowerCall (f i) e)
    unfold Graph.lowerCall
    rw [r.kind]
    cases k.kind i with
    | call callee args =>
      simp only [Kind.map, List.length_map]
      split_ifs
      · exact r.lowerAs i e.form args
      · exact r
    | _ => exact r

/-- **The lowered programs** of a program and its copy. -/
theorem lowered (r : Copy True f k g) (hk : k.Whole) {color : Id} (hcolor : color ∈ k.live)
    (hok : (ShaderScript.infer k (.resolve k)).failure = none) :
    Copy True f (k.lowered color) (g.lowered (f color)) := by
  have hcalls := r.calls hk
  have rinfer := (r.infer hk (.resolve k)).2 hok
  have hattached := (infer_attached hok).1
  have hwhole : (ShaderScript.infer k (.resolve k)).graph.Whole :=
    hk.renamed hattached.renamed_of_eq
  have hlive : color ∈ (ShaderScript.infer k (.resolve k)).graph.live := by
    rwa [hattached.sameShape.live]
  obtain ⟨owner, hgrown⟩ := (callsLowered_lowered hk.tree hcolor hok).lowered.grown
  unfold Graph.lowered Graph.lowerCalls at hgrown ⊢
  rw [hcalls]
  refine link (foldl (Prod.map f (Target.map f)) (rinfer.lowerDiscards hwhole hlive)
    fun _ _ p r => r.lowerTarget p) ?_
  exact (hgrown.sameShape (sameShape_link _).symm).unshared hwhole.tree

/-! ## Names -/

theorem typeOfName (r : Copy linked f k g) (hk : k.Bounded k.root) (name : String) :
    BucketFields.typeOfName g name = BucketFields.typeOfName k name := by
  unfold BucketFields.typeOfName
  rw [r.live hk, List.findSome?_map]
  refine congrArg (Option.getD · Ty.float) (congrArg (List.findSome? · k.live) (funext fun i => ?_))
  rw [Function.comp_apply, r.identName?, r.ty?]

theorem declarations (r : Copy linked f k g) (hk : k.Bounded k.root) (fs : BucketFields) :
    fs.declarations g = fs.declarations k := by
  unfold BucketFields.declarations
  exact congrArg (List.map · fs.toList) (funext fun p => by simp only [r.typeOfName hk])

theorem identifierNames (r : Copy True f k g) (hk : k.Bounded k.root) :
    g.identifierNames = k.identifierNames := by
  unfold Graph.identifierNames
  rw [r.live hk, List.filter_map, List.filterMap_map, show g.identName? ∘ f = k.identName? from
    funext r.identName?]
  refine congrArg List.eraseDups (congrArg (List.filterMap _) (List.filter_congr fun i _ => ?_))
  rw [Function.comp_apply, r.isPropertyName]

theorem renameEverywhere (r : Copy True f k g) (hk : k.Bounded k.root) (old new : String) :
    Copy True f (k.renameEverywhere old new) (g.renameEverywhere old new) := by
  unfold Graph.renameEverywhere
  rw [r.live hk]
  refine foldl f r fun x y i r => ?_
  rw [r.identName?, r.isPropertyName]
  split_ifs
  · exact r.rename i new
  · exact r

end Graph.Copy

/-- The second naming is the first in a copy of the program. -/
structure Naming.Copy (f : Id → Id) (n m : Naming) : Prop where
  tree : n.graph.IsTree
  graph : Graph.Copy True f n.graph m.graph
  used : m.used = n.used

namespace Naming.Copy

variable {f : Id → Id} {n m : Naming} (h : Naming.Copy f n m)

include h

theorem isFree (name : String) : m.isFree name = n.isFree name := by
  unfold Naming.isFree
  rw [h.used]

theorem rename (old new : String) : Naming.Copy f (n.rename old new) (m.rename old new) := by
  refine ⟨?_, h.graph.renameEverywhere (h.tree.bounded h.tree.root_live) old new,
    congrArg (· ++ [new]) h.used⟩
  exact (Graph.changed_renameEverywhere n.graph old new).isTree_of_renamed h.tree

theorem bareLocal (name : String) : Naming.Copy f (n.bareLocal name) (m.bareLocal name) := by
  unfold Naming.bareLocal
  cases after? localMark name with
  | none => exact h
  | some bare =>
    dsimp only
    rw [h.isFree]
    split_ifs
    · exact h.rename name bare
    · exact h

theorem bareLocals : Naming.Copy f n.bareLocals m.bareLocals := by
  unfold Naming.bareLocals
  rw [h.used]
  exact List.foldl_rel h fun name _ n m h => h.bareLocal name

theorem takesBareField (decls : List FieldDecl) (d : FieldDecl) :
    m.takesBareField decls d = n.takesBareField decls d := by
  unfold Naming.takesBareField
  rw [h.isFree]

omit h in
theorem bareField (decls : List FieldDecl) {s t : Naming × List FieldDecl}
    (h : Naming.Copy f s.1 t.1 ∧ t.2 = s.2) (d : FieldDecl) :
    Naming.Copy f (bareField decls s d).1 (bareField decls t d).1 ∧
      (Naming.bareField decls t d).2 = (Naming.bareField decls s d).2 := by
  unfold Naming.bareField
  rw [h.1.takesBareField]
  split_ifs
  · exact ⟨h.1.rename d.name d.field, congrArg (· ++ _) h.2⟩
  · exact ⟨h.1, congrArg (· ++ _) h.2⟩

end Naming.Copy

/-- **The final names of a program and its copy.** -/
theorem Graph.Copy.bareNames {f : Id → Id} {k g : Graph} (r : Copy True f k g) (hk : k.IsTree)
    (decls : List FieldDecl) :
    Copy True f (ShaderScript.bareNames k decls).1 (ShaderScript.bareNames g decls).1 ∧
      (ShaderScript.bareNames g decls).2 = (ShaderScript.bareNames k decls).2 := by
  have start : Naming.Copy f { graph := k, used := k.identifierNames }
      { graph := g, used := g.identifierNames } :=
    ⟨hk, r, r.identifierNames (hk.bounded hk.root_live)⟩
  obtain ⟨hn, hdecls⟩ := List.foldl_rel (l := decls) (f := Naming.bareField decls)
    (g := Naming.bareField decls) (r := fun s t => Naming.Copy f s.1 t.1 ∧ t.2 = s.2)
    (a := (⟨k, k.identifierNames⟩, [])) (b := (⟨g, g.identifierNames⟩, [])) ⟨start, rfl⟩
    fun d _ s t hst => Naming.Copy.bareField decls hst d
  exact ⟨hn.bareLocals.graph, hdecls⟩

end ShaderScript
