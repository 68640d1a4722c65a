import ShaderScript.Proofs.Compile.Builtins
import ShaderScript.Proofs.Compile.Declared
import ShaderScript.Proofs.Infer.Positions

/-!
# Literal positions in a shader

An access at a literal position is printed as it stands in the program. Where the program itself
fixes the type of the object, the position is not looked at. Everywhere else the object has it.

* `extends_bareNames`: final names leave the facts of nodes alone.
* `Definition.indexedAt_printed`: the accesses of a shader are accesses of the program.
* **`compile_positions`**: an object has the literal positions at which a shader indexes it, unless
  the program fixes its type.
* `compile_positions_past_end`: where it does, positions past the end are printed.
-/

namespace ShaderScript

open Graph

/-! ## Names and facts -/

theorem Graph.extends_renameEverywhere (x : Graph) (old new : String) :
    Extends x (x.renameEverywhere old new) := by
  refine Extends.foldl (fun y i => ?_) x.live x
  split_ifs
  · unfold rename
    split
    · exact .replace y i _
    · exact .refl y
  · exact .refl y

theorem extends_bareNames (g : Graph) (decls : List FieldDecl) :
    Extends g (bareNames g decls).1 := by
  have hfields : Extends g (decls.foldl (Naming.bareField decls)
      ({ graph := g, used := g.identifierNames }, [])).1.graph := by
    refine List.foldlRecOn (motive := fun s : Naming × _ => Extends g s.1.graph) decls _ (.refl g)
      fun s hs d _ => ?_
    unfold Naming.bareField
    split_ifs
    · exact hs.trans (extends_renameEverywhere _ _ _)
    · exact hs
  unfold bareNames
  dsimp only
  refine List.foldlRecOn (motive := fun n : Naming => Extends g n.graph) _ Naming.bareLocal hfields
    fun n hn name _ => ?_
  unfold Naming.bareLocal
  split
  case h_2 => exact hn
  case h_1 =>
    split_ifs
    · exact hn.trans (extends_renameEverywhere _ _ _)
    · exact hn

namespace Definition

section Trees

variable {g : Graph} {d : Definition} (hd : ofGraph g = .ok d) (h : g.IsTree)
  (hok : d.inferred.failure = none)

theorem ty?_printed {i : Id} (hi : i < d.inferred.graph.size) :
    d.printed.ty? i = d.inferred.graph.ty? i := by
  have hnames : Extends d.lowered d.printed :=
    extends_bareNames d.lowered (d.flattened.fields.declarations d.lowered)
  have hlowered : i < d.lowered.size :=
    hi.trans_le ((extends_lowerDiscards _ _).trans (extends_lowerCalls _ _)).size
  rw [hnames.ty? hlowered, ty?_lowered hi]

include hd h hok

theorem kind_desugared_of_number {i : Id} {raw : String} (hi : i < d.desugared.size)
    (hk : d.printed.kind i = .number raw) : d.desugared.kind i = .number raw := by
  have hs := (changed_inferred hok).sameShape
  rw [renames_printed.changed.kind_eq_iff i rfl] at hk
  have hlt : i < d.inferred.graph.size := by
    rw [hs.size]
    exact hi
  rw [← hs.kind]
  exact (callsLowered_lowered hd h hok).lowered.atom i hlt _ rfl hk

/-- **The accesses at literal positions in a shader are accesses of the program.** -/
theorem indexedAt_printed {a o p : Id} {k : Nat} (ha : a ∈ d.printed.live)
    (hk : d.printed.kind a = .index o p) (hlit : d.printed.literalIndex? p = some k) :
    d.desugared.context.IndexedAt o k := by
  rw [kind_printed_iff hd h hok rfl] at hk
  have hal := live_of_printed hd h hok ha (lt_size_of_kind (hk ▸ nofun))
  have hp : p < d.desugared.size := by
    refine (isTree_desugared hd h).child_lt a hal p ?_
    rw [children, hk]
    exact List.mem_cons_of_mem _ List.mem_cons_self
  have hlit' : d.desugared.literalIndex? p = some k := by
    unfold literalIndex? at hlit ⊢
    split at hlit
    case h_2 => cases hlit
    case h_1 raw hraw =>
      rw [kind_desugared_of_number hd h hok hp hraw]
      exact hlit
  exact indexedAt_context hal hk hlit'

end Trees

end Definition

open Definition

/-- **An object has the literal positions at which a shader indexes it, unless the program fixes its
type.** Then a matrix has the column that is printed, too. The program fixes the type where evidence
gives it to a node of the object's class, or such a node had it before inference. -/
theorem compile_positions {g : Graph} (h : g.IsTree) {d : Definition} (hd : ofGraph g = .ok d)
    {opts : Options} {s : Shader} (hs : (d.compile opts).1 = .ok s) {stage : Stage} {item : Item}
    {i a o p : Id} {k : Nat} (hitem : item ∈ d.itemsOf stage) (hi : item.node? = some i)
    (ha : a ∈ d.printed.descendants i) (hk : d.printed.kind a = .index o p)
    (hlit : d.printed.literalIndex? p = some k) :
    ∃ t, d.printed.ty? o = some t ∧
      (k < t.positions ∧ (∀ n, t.dimension? = some n → k / n < n) ∨
        d.desugared.context.Fixed o t) := by
  have hok := (d.failure?_of_compile hs).2
  have hx := indexedAt_printed hd h hok (live_of_item hd h hok hitem hi ha) hk hlit
  have ht := isTree_desugared hd h
  obtain ⟨t, hty, hroom⟩ := exists_room_infer ht hok hx
  refine ⟨t, ?_, hroom.imp_left fun hpos => ⟨hpos, fun n hn => Ty.column_lt hpos hn⟩⟩
  have hlt : o < d.inferred.graph.size := by
    rw [(changed_inferred hok).size]
    exact ht.lt_size (hx.live ht)
  rw [ty?_printed hlt]
  exact hty

/-- The program
`function VertexPosition() {
  var m = mat2.create(); var v = [1, 2];
  return [v[3], m[4], 0, 1];
}
function FragmentColor() { return [uniforms.c[2], 0, 0, 1]; }`. -/
def looseIndices : Definition where
  graph := Build.finish do
    let square ← Build.call (← Build.field (← Build.ident "mat2") "create") []
    let m ← Build.var "m" (some square)
    let v ← Build.var "v" (some (← Build.array (← ["1", "2"].mapM Build.num)))
    let component ← Build.index (← Build.ident "v") (← Build.num "3")
    let entry ← Build.index (← Build.ident "m") (← Build.num "4")
    let place ← Build.array [component, entry, ← Build.num "0", ← Build.num "1"]
    let _ ← Build.function "VertexPosition" [] [m, v, ← Build.ret (some place)]
    let input ← Build.field (← Build.ident "uniforms") "c"
    let blue ← Build.index input (← Build.num "2")
    let color ← Build.array [blue, ← Build.num "0", ← Build.num "0", ← Build.num "1"]
    let _ ← Build.function "FragmentColor" [] [← Build.ret (some color)]
  entries := { vertexPosition := 25, fragmentColor := 38, pointSize := none }

-- one evaluation of the passes for all that is said about the program below
theorem passes_looseIndices : looseIndices.graph.IsTree ∧
    EntryPoints.locate looseIndices.graph = .ok looseIndices.entries ∧
    looseIndices.failure? = none ∧
    (.function 25 ∈ looseIndices.itemsOf .vertex ∧
      15 ∈ looseIndices.printed.descendants 25 ∧ looseIndices.printed.kind 15 = .index 13 14 ∧
      looseIndices.printed.literalIndex? 14 = some 3 ∧
      looseIndices.printed.ty? 13 = some .vec2 ∧
      18 ∈ looseIndices.printed.descendants 25 ∧ looseIndices.printed.kind 18 = .index 16 17 ∧
      looseIndices.printed.literalIndex? 17 = some 4 ∧
      looseIndices.printed.ty? 16 = some .mat2) ∧
    .function 38 ∈ looseIndices.itemsOf .fragment ∧
      30 ∈ looseIndices.printed.descendants 38 ∧ looseIndices.printed.kind 30 = .index 28 29 ∧
      looseIndices.printed.literalIndex? 29 = some 2 := by
  decide +kernel

/-- Nothing but its position gives the uniform a type, so it has that position. -/
theorem compile_positions_looseIndices :
    looseIndices.graph.IsTree ∧ ofGraph looseIndices.graph = .ok looseIndices ∧
    (∃ s, (looseIndices.compile {}).1 = .ok s) ∧
    .function 38 ∈ looseIndices.itemsOf .fragment ∧ 30 ∈ looseIndices.printed.descendants 38 ∧
    looseIndices.printed.kind 30 = .index 28 29 ∧
    looseIndices.printed.literalIndex? 29 = some 2 ∧
    ∃ t, looseIndices.printed.ty? 28 = some t ∧
      (2 < t.positions ∧ (∀ n, t.dimension? = some n → 2 / n < n) ∨
        looseIndices.desugared.context.Fixed 28 t) := by
  obtain ⟨h, he, hf, -, hitem, ha, hk, hlit⟩ := passes_looseIndices
  have hd := ofGraph_of_locate he
  have hs := looseIndices.compile_of_failure? (o := {}) hf
  exact ⟨h, hd, ⟨_, hs⟩, hitem, ha, hk, hlit, compile_positions h hd hs hitem rfl ha hk hlit⟩

/-- **Positions past the end are printed where the program fixes the type**: the fourth component of
a vector of two, and an entry in the third column of a matrix of two. -/
theorem compile_positions_past_end :
    looseIndices.graph.IsTree ∧ ofGraph looseIndices.graph = .ok looseIndices ∧
    (∃ s, (looseIndices.compile {}).1 = .ok s) ∧ .function 25 ∈ looseIndices.itemsOf .vertex ∧
    (15 ∈ looseIndices.printed.descendants 25 ∧ looseIndices.printed.kind 15 = .index 13 14 ∧
      looseIndices.printed.literalIndex? 14 = some 3 ∧ looseIndices.printed.ty? 13 = some .vec2 ∧
      ¬ 3 < Ty.vec2.positions) ∧
    18 ∈ looseIndices.printed.descendants 25 ∧ looseIndices.printed.kind 18 = .index 16 17 ∧
      looseIndices.printed.literalIndex? 17 = some 4 ∧ looseIndices.printed.ty? 16 = some .mat2 ∧
      ¬ 4 < Ty.mat2.positions ∧ Ty.mat2.dimension? = some 2 ∧ ¬ 4 / 2 < 2 := by
  obtain ⟨h, he, hf, ⟨hitem, ha, hk, hlit, hty, ha', hk', hlit', hty'⟩, -⟩ := passes_looseIndices
  exact ⟨h, ofGraph_of_locate he, ⟨_, looseIndices.compile_of_failure? (o := {}) hf⟩, hitem,
    ⟨ha, hk, hlit, hty, by decide⟩, ha', hk', hlit', hty', by decide, rfl, by decide⟩

end ShaderScript
