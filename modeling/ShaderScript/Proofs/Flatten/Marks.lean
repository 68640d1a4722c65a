import ShaderScript.Proofs.Flatten.Accesses
import ShaderScript.Proofs.Scope.Renaming

/-!
# Marks on names

Flattening ends by renaming: parameters spelled `out` get another name, and the variables that the
program declares get a mark. Names change binding by binding, so an identifier keeps its name unless
its own binding is renamed.

* `Graph.markLocal_cases`: what happens at one declarator.
* `OutMarked`, `Marked`: what holds after some of the parameters, and after some of the variables.
* `Graph.marked`: the program with all its marks.
* **`identName?_of_variable`**: the whole binding of a variable is marked.
* **`identName?_of_no_variable`**: no other binding is.
-/

namespace ShaderScript

open Graph

/-- After some parameters spelled `out` have been renamed. -/
structure OutMarked (g x : Graph) : Prop where
  changed : Changed Kind.Renamed g x
  name : ∀ j, x.identName? j = g.identName? j ∨
    g.identName? j = some "out" ∧ x.identName? j = some outParamName

/-- After some variables have been marked. -/
structure Marked (g x : Graph) : Prop where
  changed : Changed Kind.Renamed g x
  name : ∀ j, x.identName? j = g.identName? j ∨
    g.identName? j = some "out" ∧ x.identName? j = some outParamName ∨
    ∃ v k, g.IsVariable v ∧ g.key? v = some k ∧ g.key? j = some k ∧
      x.identName? j = some (localMark ++ k.2)

/-- The program with all its marks. -/
def Graph.marked (g : Graph) : Graph :=
  (g.markOutParams (Scopes.resolve g)).markLocals (Scopes.resolve g)

theorem flatten_graph (g : Graph) (e : EntryPoints) : (flatten g e).graph = (g.flat e).marked := by
  unfold flatten flat marked
  dsimp only

variable {g x : Graph}

/-! ## Parameters -/

theorem Graph.kind_flag (x : Graph) (p j : Id) :
    (x.modify p ({ · with out := true })).kind j = x.kind j := by
  refine node_modify_congr x _ Node.kind ?_ p j
  exact fun _ => rfl

theorem Graph.identName?_markOutParam (x : Graph) (s : Scopes) (p j : Id) :
    (x.markOutParam s p).identName? j =
      if j ∈ s.occurrences p ∧ (x.identName? j).isSome then some outParamName
      else x.identName? j := by
  have hname : (x.modify p ({ · with out := true })).identName? j = x.identName? j := by
    unfold identName?
    rw [kind_flag]
  unfold markOutParam
  rw [identName?_renameAll, hname]

theorem Graph.changed_markOutParam (s : Scopes) (x : Graph) (p : Id) :
    Changed Kind.Renamed x (x.markOutParam s p) := by
  have hflag : Changed Kind.Renamed x (x.modify p ({ · with out := true })) := by
    refine ⟨rfl, size_modify _ _ _, fun j => ?_, fun j => ?_⟩
    · refine node_modify_congr x _ Node.parent ?_ p j
      exact fun _ => rfl
    · rw [kind_flag]
      exact .refl _
  exact hflag.trans .trans (changed_renameAll _ _ _)

theorem OutMarked.markOutParam (hx : OutMarked g x) {p : Id} (hp : g.identName? p = some "out") :
    OutMarked g (x.markOutParam (Scopes.resolve g) p) := by
  refine ⟨hx.changed.trans .trans (changed_markOutParam _ x p), fun j => ?_⟩
  rw [identName?_markOutParam]
  split_ifs with hj
  · refine .inr ⟨?_, rfl⟩
    rcases Scopes.mem_occurrences_iff.mp hj.1 with rfl | ⟨-, -, k, hkp, hkj⟩
    · exact hp
    · obtain ⟨-, hnp, -⟩ := Graph.key?_eq_some.mp hkp
      obtain ⟨-, hnj, -⟩ := Graph.key?_eq_some.mp hkj
      rw [hnj, ← hnp, hp]
  · exact hx.name j

theorem outMarked_markOutParams (g : Graph) :
    OutMarked g (g.markOutParams (Scopes.resolve g)) := by
  have start : OutMarked g g := ⟨.refl .refl g, fun _ => .inl rfl⟩
  unfold Graph.markOutParams
  refine List.foldlRecOn (motive := OutMarked g) g.functions _ start fun x hx f _ => ?_
  refine List.foldlRecOn (motive := OutMarked g) (x.outParams f) _ hx fun y hy p hp => ?_
  refine hy.markOutParam ?_
  have hout : x.identName? p = some "out" := by
    unfold Graph.outParams at hp
    split at hp
    · exact eq_of_beq (List.mem_filter.mp hp).2
    · cases hp
  rcases hx.name p with he | ⟨he, -⟩
  · rw [← he, hout]
  · exact he

/-! ## Variables -/

theorem Graph.markLocal_cases (x : Graph) (s : Scopes) (d : Id) : x.markLocal s d = x ∨
    ∃ v init b, x.kind d = .declarator v init ∧ s.bindingOf? v = some b ∧
      x.markLocal s d = x.renameAll b.occurrences (localMark ++ b.name) := by
  unfold markLocal
  split
  case h_2 => exact .inl rfl
  case h_1 v init hk =>
    cases hb : s.bindingOf? v with
    | none => exact .inl rfl
    | some b => exact .inr ⟨v, init, b, hk, hb, rfl⟩

theorem Marked.markLocal (hx : Marked g x) {d : Id} (hd : d ∈ g.live) :
    Marked g (x.markLocal (Scopes.resolve g) d) := by
  rcases x.markLocal_cases (Scopes.resolve g) d with he | ⟨v, init, b, hk, hb, he⟩
  · rw [he]
    exact hx
  rw [he]
  refine ⟨hx.changed.trans .trans (changed_renameAll _ _ _), fun j => ?_⟩
  rw [identName?_renameAll]
  split_ifs with hj
  · have hv : g.IsVariable v := ⟨d, hd, init, (hx.changed.kind_eq_iff d rfl).mp hk⟩
    have hkj := ((Scopes.mem_binding_iff (Scopes.bindingOf?_eq_some hb).1).mp hj.1).2
    exact .inr (.inr ⟨v, b.key, hv, Scopes.bindingOf?_key hb, hkj, rfl⟩)
  · exact hx.name j

theorem marked_marked (g : Graph) : Marked g g.marked := by
  have hout := outMarked_markOutParams g
  have start : Marked g (g.markOutParams (Scopes.resolve g)) := by
    refine ⟨hout.changed, fun j => ?_⟩
    rcases hout.name j with he | he
    · exact .inl he
    · exact .inr (.inl he)
  unfold Graph.marked Graph.markLocals
  refine List.foldlRecOn (motive := Marked g) _ _ start fun x hx d hd => ?_
  exact hx.markLocal (hout.changed.live_eq ▸ hd)

/-- **The whole binding of a variable is marked.** -/
theorem identName?_of_variable (h : g.IsTree) {v j : Id} {k : Id × String} (hv : g.IsVariable v)
    (hkv : g.key? v = some k) (hj : j ∈ g.live) (hkj : g.key? j = some k) :
    g.marked.identName? j = some (localMark ++ k.2) := by
  have hout := outMarked_markOutParams g
  have hvl := hv.live h
  obtain ⟨d, hd, init, hkd⟩ := hv
  obtain ⟨-, hname, -⟩ := Graph.key?_eq_some.mp hkj
  -- renaming any binding that has `j` gives `j` its mark
  have hrename : ∀ {x : Graph} {b : Binding}, Changed Kind.Renamed g x →
      b ∈ (Scopes.resolve g).bindings → j ∈ b.occurrences →
      (x.renameAll b.occurrences (localMark ++ b.name)).identName? j =
        some (localMark ++ k.2) := by
    intro x b hx hb hjb
    have hkb := ((Scopes.mem_binding_iff hb).mp hjb).2
    rw [hkj] at hkb
    cases hkb
    rw [identName?_renameAll, if_pos ⟨hjb, by rw [hx.isSome_identName?, hname]; rfl⟩]
    rfl
  unfold Graph.marked Graph.markLocals
  refine foldl_reaches (a := d) (P := fun x : Graph => Changed Kind.Renamed g x)
    (Q := fun x : Graph => x.identName? j = some (localMark ++ k.2)) ?_ ?_ ?_ ?_ hout.changed
  · rw [hout.changed.live_eq]
    exact hd
  · intro x c _ hx
    rcases x.markLocal_cases (Scopes.resolve g) c with he | ⟨_, _, _, _, _, he⟩
    · rw [he]
      exact hx
    · rw [he]
      exact hx.trans .trans (changed_renameAll _ _ _)
  · intro x hx
    obtain ⟨b, hb, hbk⟩ := Scopes.exists_bindingOf? hvl hkv
    obtain ⟨hmem, -⟩ := Scopes.bindingOf?_eq_some hb
    have hjb : j ∈ b.occurrences := (Scopes.mem_binding_iff hmem).mpr ⟨hj, hbk ▸ hkj⟩
    unfold Graph.markLocal
    rw [(hx.kind_eq_iff d rfl).mpr hkd]
    dsimp only
    rw [hb]
    exact hrename hx hmem hjb
  · intro x c _ hx hxj
    rcases x.markLocal_cases (Scopes.resolve g) c with he | ⟨v', init', b, hk, hb, he⟩
    · rw [he, hxj]
    · rw [he]
      by_cases hjb : j ∈ b.occurrences
      · exact hrename hx (Scopes.bindingOf?_eq_some hb).1 hjb
      · rw [identName?_renameAll, if_neg fun hc => hjb hc.1, hxj]

/-- **A binding without variable keeps its name**, unless that is `out`. -/
theorem identName?_of_no_variable {j : Id} {name : String} (hj : g.identName? j = some name)
    (hout : name ≠ "out") (hno : ∀ v k, g.IsVariable v → g.key? v = some k → g.key? j ≠ some k) :
    g.marked.identName? j = some name := by
  rcases (marked_marked g).name j with he | ⟨ho, -⟩ | ⟨v, k, hv, hkv, hkj, -⟩
  · rw [he, hj]
  · rw [hj] at ho
    exact absurd (Option.some.inj ho) hout
  · exact absurd hkj (hno v k hv hkv)

end ShaderScript
