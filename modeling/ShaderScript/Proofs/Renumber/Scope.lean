import ShaderScript.Proofs.Flatten.Marks
import ShaderScript.Proofs.Renumber.Flatten

/-!
# Scopes and marks in a copy

The scopes of a copy are those of the original under the new numbers, and so the same identifiers
get marks.

* `Scopes.map`: bindings under other numbers.
* `Graph.Copy.declaringScope`: an identifier of a copy belongs to the copy of its scope.
* **`Graph.Copy.scopes`**: the bindings of a copy.
* `Scopes.bindingOf?_map`, `Scopes.occurrences_map`: looking up bindings.
* **`Graph.Copy.marked`**, `Graph.Copy.attachHints`: marks and hints in a copy.
-/

namespace ShaderScript

/-- A binding under other numbers. -/
def Binding.map (f : Id → Id) (b : Binding) : Binding where
  name := b.name
  scope := f b.scope
  occurrences := b.occurrences.map f

/-- Bindings under other numbers. -/
def Scopes.map (f : Id → Id) (s : Scopes) : Scopes := ⟨s.bindings.map (Binding.map f)⟩

theorem contains_map {f : Id → Id} (hf : Function.Injective f) (is : List Id) (i : Id) :
    (is.map f).contains (f i) = is.contains i := by
  rw [Bool.eq_iff_iff, List.contains_iff_mem, List.contains_iff_mem, List.mem_map_of_injective hf]

namespace Scopes

variable {f : Id → Id} (hf : Function.Injective f)

include hf

theorem insert_map (i scope : Id) (name : String) (bs : List Binding) :
    insert (f i) (f scope) name (bs.map (Binding.map f)) =
      (insert i scope name bs).map (Binding.map f) := by
  induction bs with
  | nil => rfl
  | cons b bs ih =>
    rw [List.map_cons]
    unfold insert
    have hb : (b.map f).scope = f scope ∧ (b.map f).name = name ↔
        b.scope = scope ∧ b.name = name := and_congr_left' hf.eq_iff
    simp only [hb]
    split_ifs
    · simp [Binding.map]
    · rw [ih, List.map_cons]

theorem bindingOf?_map (s : Scopes) (i : Id) :
    (s.map f).bindingOf? (f i) = (s.bindingOf? i).map (Binding.map f) := by
  unfold bindingOf? Scopes.map
  rw [List.find?_map]
  refine congrArg (Option.map (Binding.map f))
    (congrArg (List.find? · s.bindings) (funext fun b => ?_))
  exact contains_map hf b.occurrences i

theorem occurrences_map (s : Scopes) (i : Id) :
    (s.map f).occurrences (f i) = (s.occurrences i).map f := by
  unfold occurrences
  rw [bindingOf?_map hf]
  cases s.bindingOf? i <;> rfl

end Scopes

namespace Graph.Copy

variable {linked : Prop} {f : Id → Id} {k g : Graph}

/-! ## Scopes -/

theorem declaresVar (r : Copy linked f k g) (name : String) (i : Id) :
    g.declaresVar name (f i) = k.declaresVar name i := by
  unfold Graph.declaresVar
  rw [r.kind]
  cases k.kind i with
  | varDecl ds =>
    simp only [Kind.map, List.any_map]
    refine congrArg (List.any ds) (funext fun d => ?_)
    simp only [Function.comp_apply, r.kind]
    cases k.kind d with
    | declarator id init => simp only [Kind.map, r.identName?]
    | _ => rfl
  | _ => rfl

theorem declares (r : Copy linked f k g) (name : String) (i : Id) :
    g.declares name (f i) = k.declares name i := by
  unfold Graph.declares
  rw [r.kind]
  cases k.kind i with
  | function fname params body =>
    simp only [Kind.map, List.any_map]
    exact congrArg (List.any params) (funext fun p => congrArg (· == some name) (r.identName? p))
  | program body | block body =>
    simp only [Kind.map, List.any_map]
    exact congrArg (List.any body) (funext (r.declaresVar name))
  | forLoop init test step body =>
    cases init with
    | none => rfl
    | some init => exact r.declaresVar name init
  | _ => rfl

section Linked

variable (r : Copy True f k g)

include r

theorem declaringScope {i : Id} (hi : k.Bounded i) (name : String) :
    g.declaringScope (f i) name = f (k.declaringScope i name) := by
  unfold Graph.declaringScope
  rw [r.ancestors hi, List.find?_map, show g.declares name ∘ f = k.declares name from
    funext (r.declares name), r.root]
  cases (k.ancestors i).find? (k.declares name) <;> rfl

theorem addBinding {i : Id} (hi : k.Bounded i) (bs : List Binding) :
    Scopes.add g (bs.map (Binding.map f)) (f i) = (Scopes.add k bs i).map (Binding.map f) := by
  unfold Scopes.add
  rw [r.identName?, r.isPropertyName]
  cases k.identName? i with
  | none => rfl
  | some name =>
    dsimp only
    rw [r.declaringScope hi]
    split_ifs
    · rfl
    · exact Scopes.insert_map r.inj i _ name bs

/-- **The bindings of a copy are those of the original.** -/
theorem scopes (hk : ∀ i, k.Bounded i) : Scopes.resolve g = (Scopes.resolve k).map f := by
  unfold Scopes.resolve Scopes.map
  rw [r.live (hk k.root)]
  refine congrArg Scopes.mk (Eq.symm ?_)
  refine foldl (R := fun bs bs' => bs.map (Binding.map f) = bs') f (s := []) rfl ?_
  rintro bs _ i rfl
  exact (r.addBinding (hk i) bs).symm

end Linked

/-! ## Marks -/

theorem markOutParam (r : Copy linked f k g) (s : Scopes) (p : Id) :
    Copy linked f (k.markOutParam s p) (g.markOutParam (s.map f) (f p)) := by
  unfold Graph.markOutParam
  rw [Scopes.occurrences_map r.inj]
  refine renameAll (r.modify p fun _ _ h => ?_) _ _
  exact { h with out := rfl }

theorem outParams (r : Copy linked f k g) (i : Id) :
    g.outParams (f i) = (k.outParams i).map f := by
  unfold Graph.outParams
  rw [r.kind]
  cases k.kind i with
  | function name params body =>
    simp only [Kind.map, List.filter_map]
    refine congrArg (List.map f) (List.filter_congr fun p _ => ?_)
    rw [Function.comp_apply, r.identName?]
  | _ => rfl

theorem markOutParams (r : Copy linked f k g) (s : Scopes) :
    Copy linked f (k.markOutParams s) (g.markOutParams (s.map f)) := by
  unfold Graph.markOutParams
  rw [r.functions]
  refine foldl f r fun x y i r => ?_
  rw [r.outParams]
  exact foldl f r fun _ _ p r => r.markOutParam s p

theorem markLocal (r : Copy linked f k g) (s : Scopes) (i : Id) :
    Copy linked f (k.markLocal s i) (g.markLocal (s.map f) (f i)) := by
  unfold Graph.markLocal
  rw [r.kind]
  cases k.kind i with
  | declarator name init =>
    simp only [Kind.map, Scopes.bindingOf?_map r.inj]
    cases s.bindingOf? name with
    | none => exact r
    | some b => exact r.renameAll b.occurrences (localMark ++ b.name)
  | _ => exact r

/-- **The marks of a copy are those of the original.** -/
theorem marked (r : Copy True f k g) (hk : k.Whole) : Copy True f k.marked g.marked := by
  unfold Graph.marked
  rw [r.scopes hk.bounded]
  have hout := r.markOutParams (Scopes.resolve k)
  have hwhole := hk.renamed (outMarked_markOutParams k).changed
  unfold Graph.markLocals
  rw [hout.live (hwhole.bounded _)]
  exact foldl f hout fun _ _ i r => r.markLocal (Scopes.resolve k) i

/-! ## Hints -/

theorem attachHint (r : Copy linked f k g) (p : EntryPoint × Id) :
    Copy linked f (EntryPoints.attachHint k p) (EntryPoints.attachHint g (Prod.map id f p)) := by
  unfold EntryPoints.attachHint
  simp only [Prod.map_snd, Prod.map_fst, r.kind]
  cases k.kind p.2 with
  | function name params body => exact r.modify name fun _ _ h => { h with hint := rfl }
  | _ => exact r

theorem attachHints (r : Copy linked f k g) (e : EntryPoints) :
    Copy linked f (e.attachHints k) ((e.map f).attachHints g) := by
  unfold EntryPoints.attachHints
  rw [EntryPoints.toList_map]
  exact foldl (Prod.map id f) r fun _ _ p r => r.attachHint p

end Graph.Copy

end ShaderScript
