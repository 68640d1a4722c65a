import ShaderScript.Builder
import ShaderScript.Proofs.Renumber.Compact
import ShaderScript.Proofs.Scope.Partition

/-!
# What resolving gives

The table of bindings is filled in one walk over the program. What it says in the end is a matter of
the tree alone: an identifier belongs to the nearest node around it that declares its name, and the
identifiers of one scope and name make one binding.

* `Graph.Encloses`, `Graph.IsUse`, `Graph.BelongsTo`: where an identifier belongs, said without
  parents and tables.
* `Graph.belongsTo_iff`: the declaring scope is where an identifier belongs.
* `Scopes.heads`: the first identifiers of the bindings, in the order of the walk.
* `Scopes.IsPartition`, **`resolve_isPartition`**: the table of a program.
* **`resolve_renamed_binding`**: the table after one binding has got a name of its own.
-/

namespace ShaderScript

namespace Graph

variable {g : Graph} {a b c i j : Id} {name : String} {s s' : Id}

/-! ## Where an identifier belongs -/

/-- The node `a` of the program lies somewhere above `i`. -/
def Encloses (g : Graph) (a i : Id) : Prop := a ∈ g.live ∧ ∃ d, g.Below a (d + 1) i

/-- The node `i` of the program is an identifier that stands for a variable: it is not the name in
an access by name. -/
structure IsUse (g : Graph) (i : Id) (name : String) : Prop where
  live : i ∈ g.live
  ident : g.kind i = .ident name
  not_property : ∀ p ∈ g.live, ∀ object, g.kind p ≠ .field object i

/-- A node declares a name: it has a parameter of that name, or holds a `var` of it. -/
def DeclaresName (g : Graph) (a : Id) (name : String) : Prop :=
  ∃ j, g.Declares a j ∧ g.kind j = .ident name

/-- At the node `i` a name belongs to `s`: the nearest node around it that declares the name, or the
program where none does. -/
inductive BelongsTo (g : Graph) (i : Id) (name : String) (s : Id) : Prop
  | nearest : g.Encloses s i → g.DeclaresName s name →
      (∀ a, g.Encloses a i → g.DeclaresName a name → a = s ∨ g.Encloses a s) → BelongsTo g i name s
  | global : s = g.root → (∀ a, g.Encloses a i → ¬ g.DeclaresName a name) → BelongsTo g i name s

theorem declares_iff_declaresName : g.declares name a = true ↔ g.DeclaresName a name := by
  simp only [declares_iff, identName?_eq_some, DeclaresName]

section Trees

variable (h : g.IsTree)

include h

theorem not_encloses_root : ¬ g.Encloses a g.root := by
  rintro ⟨ha, d, hd⟩
  cases hd with
  | step hp hc => exact h.unshared.root_free _ (h.live_of_below ha hp) hc

theorem encloses_child (hi : i ∈ g.live) (hc : c ∈ g.children i) :
    g.Encloses a c ↔ a = i ∨ g.Encloses a i := by
  constructor
  · rintro ⟨ha, d, hd⟩
    cases hd with
    | step hp hpc =>
      obtain rfl := h.unshared.holder_unique _ (h.live_of_below ha hp) i hi c hpc hc
      cases d with
      | zero =>
        cases hp
        exact .inl rfl
      | succ d => exact .inr ⟨ha, d, hp⟩
  · rintro (rfl | ⟨ha, d, hd⟩)
    · exact ⟨hi, 0, .step .refl hc⟩
    · exact ⟨ha, d + 1, .step hd hc⟩

theorem not_encloses_self : ¬ g.Encloses a a := by
  rintro ⟨ha, d, hd⟩
  exact h.unshared.loopless ha .refl d hd

theorem Encloses.asymm (hab : g.Encloses a b) : ¬ g.Encloses b a := by
  rintro ⟨-, e, he⟩
  obtain ⟨ha, d, hd⟩ := hab
  exact not_encloses_self h ⟨ha, d + 1 + e, hd.trans he⟩

/-- The search on the way up finds where an identifier belongs. -/
theorem belongsTo_declaringScope (hi : i ∈ g.live) :
    g.BelongsTo i name (g.declaringScope i name) := by
  obtain ⟨d, hd⟩ := h.mem_live_iff.mp hi
  induction hd with
  | refl =>
    have hroot : g.declaringScope g.root name = g.root := by
      unfold declaringScope ancestors
      rw [h.parent_root]
      cases g.size <;> rfl
    exact .global hroot fun a ha => absurd ha (not_encloses_root h)
  | @step d j c hd hc ih =>
    have hj : j ∈ g.live := h.mem_live_iff.mpr ⟨d, hd⟩
    rw [declaringScope_child h hj hc]
    split_ifs with hdecl
    · refine .nearest ((encloses_child h hj hc).mpr (.inl rfl))
        (declares_iff_declaresName.mp hdecl) fun a ha _ => (encloses_child h hj hc).mp ha
    · -- the holder declares nothing, so all that matters encloses the holder
      have hno : ¬ g.DeclaresName j name := fun hn => hdecl (declares_iff_declaresName.mpr hn)
      have hup : ∀ {a}, g.Encloses a c → g.DeclaresName a name → g.Encloses a j := fun ha hn =>
        ((encloses_child h hj hc).mp ha).resolve_left fun he => hno (he ▸ hn)
      cases ih hj with
      | nearest hs hn hfirst =>
        exact .nearest ((encloses_child h hj hc).mpr (.inr hs)) hn fun a ha hna =>
          hfirst a (hup ha hna) hna
      | global hs hnone => exact .global hs fun a ha hna => hnone a (hup ha hna) hna

theorem BelongsTo.unique (hs : g.BelongsTo i name s) (hs' : g.BelongsTo i name s') : s = s' := by
  cases hs with
  | nearest he hn hfirst =>
    cases hs' with
    | nearest he' hn' hfirst' =>
      rcases hfirst' s he hn with heq | hss'
      · exact heq
      · rcases hfirst s' he' hn' with heq | hs's
        · exact heq.symm
        · exact absurd hs's (hss'.asymm h)
    | global _ hnone' => exact absurd hn (hnone' s he)
  | global hs hnone =>
    cases hs' with
    | nearest he' hn' _ => exact absurd hn' (hnone s' he')
    | global hs' _ => exact hs.trans hs'.symm

/-- **The declaring scope is where an identifier belongs.** -/
theorem belongsTo_iff (hi : i ∈ g.live) : g.BelongsTo i name s ↔ g.declaringScope i name = s :=
  ⟨fun hs => (belongsTo_declaringScope h hi).unique h hs,
    fun hs => hs ▸ belongsTo_declaringScope h hi⟩

theorem isPropertyName_iff_live (hi : i ∈ g.live) :
    g.isPropertyName i = true ↔ ∃ p ∈ g.live, ∃ object, g.kind p = .field object i := by
  rw [isPropertyName_iff]
  constructor
  · rintro ⟨p, object, hparent, hk⟩
    exact ⟨p, (h.parent_live hi hparent).1, object, hk⟩
  · rintro ⟨p, hp, object, hk⟩
    have hc : i ∈ g.children p := by
      rw [children, hk]
      exact List.mem_cons_of_mem _ List.mem_cons_self
    exact ⟨p, object, h.parent_child p hp i hc, hk⟩

theorem key?_eq_some_iff (hi : i ∈ g.live) :
    g.key? i = some (s, name) ↔ g.IsUse i name ∧ g.BelongsTo i name s := by
  rw [key?_eq_some, identName?_eq_some, belongsTo_iff h hi, Bool.eq_false_iff, ne_eq,
    isPropertyName_iff_live h hi]
  constructor
  · rintro ⟨hp, hk, hs⟩
    exact ⟨⟨hi, hk, fun p hpl object hkp => hp ⟨p, hpl, object, hkp⟩⟩, hs⟩
  · rintro ⟨hu, hs⟩
    refine ⟨?_, hu.ident, hs⟩
    rintro ⟨p, hpl, object, hkp⟩
    exact hu.not_property p hpl object hkp

end Trees

end Graph

/-! ## The order of the bindings -/

namespace Scopes

variable {g : Graph} {bs : List Binding}

/-- The first identifiers of the bindings. -/
def heads (bs : List Binding) : List Id := bs.filterMap fun b => b.occurrences.head?

/-- An identifier is the first of its binding only where the binding is new. -/
theorem heads_insert (i scope : Id) (name : String) (hne : ∀ b ∈ bs, b.occurrences ≠ []) :
    heads (insert i scope name bs) = heads bs ∨
      heads (insert i scope name bs) = heads bs ++ [i] := by
  induction bs with
  | nil => exact .inr rfl
  | cons b bs ih =>
    obtain ⟨j, js, hj⟩ := List.exists_cons_of_ne_nil (hne b List.mem_cons_self)
    unfold insert
    split_ifs with hb
    · exact .inl (by simp [heads, hj])
    · have hrest := ih fun c hc => hne c (List.mem_cons_of_mem _ hc)
      simp only [heads, List.filterMap_cons, hj, List.head?_cons] at hrest ⊢
      exact hrest.imp (congrArg (j :: ·)) (congrArg (j :: ·))

theorem nonempty_insert (i scope : Id) (name : String) (hne : ∀ b ∈ bs, b.occurrences ≠ []) :
    ∀ b ∈ insert i scope name bs, b.occurrences ≠ [] := by
  induction bs with
  | nil => simp [insert]
  | cons b bs ih =>
    have hrest := ih fun c hc => hne c (List.mem_cons_of_mem _ hc)
    unfold insert
    split_ifs with hb
    · simp only [List.mem_cons, forall_eq_or_imp]
      exact ⟨by simp, fun c hc => hne c (List.mem_cons_of_mem _ hc)⟩
    · simp only [List.mem_cons, forall_eq_or_imp]
      exact ⟨hne b List.mem_cons_self, hrest⟩

theorem heads_foldl_add (is : List Id) :
    (heads (is.foldl (add g) [])).Sublist is ∧
      ∀ b ∈ is.foldl (add g) [], b.occurrences ≠ [] := by
  induction is using List.reverseRecOn with
  | nil => exact ⟨.slnil, by simp⟩
  | append_singleton is i ih =>
    obtain ⟨hsub, hne⟩ := ih
    rw [List.foldl_append, List.foldl_cons, List.foldl_nil, add_eq]
    cases g.key? i with
    | none => exact ⟨hsub.trans (List.sublist_append_left _ _), hne⟩
    | some k =>
      refine ⟨?_, nonempty_insert _ _ _ hne⟩
      rcases heads_insert i k.1 k.2 hne with he | he
      · rw [he]
        exact hsub.trans (List.sublist_append_left _ _)
      · rw [he]
        exact hsub.append (.refl _)

/-! ## The table -/

/-- The table says where the identifiers of a program belong. -/
structure IsPartition (g : Graph) (s : Scopes) : Prop where
  /-- A node has the binding that lists it, so no node is in two of them. -/
  bindingOf?_iff : ∀ i b, s.bindingOf? i = some b ↔ b ∈ s.bindings ∧ i ∈ b.occurrences
  /-- Every identifier that stands for a variable is in a binding. -/
  covers : ∀ i name, g.IsUse i name → ∃ b, s.bindingOf? i = some b
  /-- A binding lists the identifiers of its name that belong to its scope, and nothing else. -/
  mem_iff : ∀ b ∈ s.bindings, ∀ i,
    i ∈ b.occurrences ↔ g.IsUse i b.name ∧ g.BelongsTo i b.name b.scope
  /-- Identifiers share a binding if and only if they have the same scope and name. -/
  eq_iff : ∀ i j b c, s.bindingOf? i = some b → s.bindingOf? j = some c →
    (b = c ↔ b.scope = c.scope ∧ b.name = c.name)
  nonempty : ∀ b ∈ s.bindings, b.occurrences ≠ []
  /-- A binding lists its identifiers once each, in pre-order. -/
  preorder : ∀ b ∈ s.bindings, b.occurrences.Nodup ∧ b.occurrences.Sublist g.live
  /-- Bindings come in the order of their first identifiers. -/
  ordered : s.bindings.Pairwise fun b c =>
    ∃ i ∈ b.occurrences, ∀ j ∈ c.occurrences, g.position i < g.position j
  mem_occurrences : ∀ i, i ∈ s.occurrences i

end Scopes

open Graph Scopes

variable {g : Graph}

theorem occurrences_eq_filter {b : Binding} (hb : b ∈ (Scopes.resolve g).bindings) :
    b.occurrences = g.live.filter fun i => g.key? i = some b.key := by
  rw [← listed_key (nodup_keys g) hb, Scopes.resolve, listed_foldl_add]
  rfl

theorem binding_eq_of_key {b c : Binding} (hb : b ∈ (Scopes.resolve g).bindings)
    (hc : c ∈ (Scopes.resolve g).bindings) (he : b.key = c.key) : b = c :=
  List.inj_on_of_nodup_map (nodup_keys g) hb hc he

theorem bindingOf?_eq_some_iff {i : Id} {b : Binding} :
    (Scopes.resolve g).bindingOf? i = some b ↔
      b ∈ (Scopes.resolve g).bindings ∧ i ∈ b.occurrences := by
  refine ⟨bindingOf?_eq_some, fun ⟨hb, hi⟩ => ?_⟩
  obtain ⟨hlive, hk⟩ := (mem_binding_iff hb).mp hi
  obtain ⟨c, hc, hck⟩ := exists_bindingOf? hlive hk
  rw [hc, binding_eq_of_key (bindingOf?_eq_some hc).1 hb hck]

theorem occurrences_sublist {b : Binding} (hb : b ∈ (Scopes.resolve g).bindings) :
    b.occurrences.Sublist g.live := by
  rw [occurrences_eq_filter hb]
  exact List.filter_sublist

section Trees

variable (h : g.IsTree)

include h

theorem pairwise_position_live : g.live.Pairwise fun i j => g.position i < g.position j := by
  refine List.pairwise_iff_getElem.mpr fun m n hm hn hmn => ?_
  unfold position
  rwa [h.nodup_live.idxOf_getElem, h.nodup_live.idxOf_getElem]

theorem mem_binding_iff_belongsTo {b : Binding} (hb : b ∈ (Scopes.resolve g).bindings) {i : Id} :
    i ∈ b.occurrences ↔ g.IsUse i b.name ∧ g.BelongsTo i b.name b.scope := by
  rw [mem_binding_iff hb]
  constructor
  · rintro ⟨hi, hk⟩
    exact (key?_eq_some_iff h hi).mp hk
  · rintro ⟨hu, hs⟩
    exact ⟨hu.live, (key?_eq_some_iff h hu.live).mpr ⟨hu, hs⟩⟩

theorem position_head_le {b : Binding} (hb : b ∈ (Scopes.resolve g).bindings) {i j : Id}
    (hi : b.occurrences.head? = some i) (hj : j ∈ b.occurrences) :
    g.position i ≤ g.position j := by
  obtain ⟨is, his⟩ := List.head?_eq_some_iff.mp hi
  have hlist := (pairwise_position_live h).sublist (occurrences_sublist hb)
  rw [his] at hj hlist
  rcases List.mem_cons.mp hj with rfl | hj
  · exact le_rfl
  · exact ((List.pairwise_cons.mp hlist).1 j hj).le

theorem pairwise_bindings : (Scopes.resolve g).bindings.Pairwise fun b c =>
    ∃ i ∈ b.occurrences, ∀ j ∈ c.occurrences, g.position i < g.position j := by
  obtain ⟨hheads, hne⟩ := heads_foldl_add (g := g) g.live
  have hpairs := List.pairwise_filterMap.mp ((pairwise_position_live h).sublist hheads)
  refine hpairs.imp_of_mem fun {b c} hb hc hbc => ?_
  have hi := List.head?_eq_some_head (hne b hb)
  have hj := List.head?_eq_some_head (hne c hc)
  exact ⟨_, List.head_mem _, fun k hk => (hbc _ hi _ hj).trans_le (position_head_le h hc hj hk)⟩

end Trees

/-- **The table of a program** lists every identifier that stands for a variable once, under the
nearest node around it that declares its name. -/
theorem resolve_isPartition (h : g.IsTree) : (Scopes.resolve g).IsPartition g := by
  refine ⟨fun i b => bindingOf?_eq_some_iff, fun i name hu => ?_,
    fun b hb i => mem_binding_iff_belongsTo h hb, fun i j b c hb hc => ?_,
    (heads_foldl_add g.live).2,
    fun b hb => ⟨h.nodup_live.sublist (occurrences_sublist hb), occurrences_sublist hb⟩,
    pairwise_bindings h, self_mem_occurrences⟩
  · have hk := (key?_eq_some_iff h hu.live).mpr ⟨hu, belongsTo_declaringScope h hu.live⟩
    obtain ⟨b, hb, -⟩ := exists_bindingOf? hu.live hk
    exact ⟨b, hb⟩
  · refine ⟨fun he => he ▸ ⟨rfl, rfl⟩, fun ⟨hs, hn⟩ => ?_⟩
    exact binding_eq_of_key (bindingOf?_eq_some hb).1 (bindingOf?_eq_some hc).1 (Prod.ext hs hn)

/-- The program `var x = 1;` and `function f(x) { for (var i = x; ; i++) { var x = p.x; x; } x; }`:
one name in three scopes, and once as that of a property. -/
def shadowedNames : Graph := Build.finish do
  Build.statement (← Build.var "x" (some (← Build.num "1")))
  let head ← Build.var "i" (some (← Build.ident "x"))
  let step ← Build.update .increment false (← Build.ident "i")
  let inner ← Build.var "x" (some (← Build.field (← Build.ident "p") "x"))
  let body ← Build.block [inner, ← Build.exprStmt (← Build.ident "x")]
  let loop ← Build.forLoop (some head) none (some step) body
  let _ ← Build.function "f" ["x"] [loop, ← Build.exprStmt (← Build.ident "x")]

theorem isTree_shadowedNames : shadowedNames.IsTree := by
  decide +kernel

theorem bindings_shadowedNames : ((Scopes.resolve shadowedNames).bindings.map fun b =>
    (b.name, b.scope, b.occurrences)) =
      [("x", 26, [1]), ("f", 26, [22]), ("x", 25, [23, 4, 20]), ("i", 19, [5, 8]),
        ("x", 18, [13, 16]), ("p", 26, [10])] := by
  decide +kernel

/-- The program, the function and the body of the loop have an `x` of their own each. -/
theorem resolve_isPartition_shadowedNames : shadowedNames.IsTree ∧
    (Scopes.resolve shadowedNames).IsPartition shadowedNames ∧
    ((Scopes.resolve shadowedNames).bindings.filter fun b => b.name == "x").map Binding.scope =
      [26, 25, 18] :=
  ⟨isTree_shadowedNames, resolve_isPartition isTree_shadowedNames, by decide +kernel⟩

/-! ## A name for one binding -/

theorem renamedBy_renameAll {b : Binding} {name : String} (hb : b ∈ (Scopes.resolve g).bindings)
    (hfresh : ∀ i ∈ g.live, g.kind i ≠ .ident name) :
    RenamedBy (fun k => if k = b.key then name else k.2) g (g.renameAll b.occurrences name) := by
  refine ⟨changed_renameAll g b.occurrences name, fun {i k} hi hk => ?_,
    fun {i j k l} hi hj hk hl he => ?_⟩
  · have hname : g.identName? i = some k.2 := (key?_eq_some.mp hk).2.1
    have hmem : i ∈ b.occurrences ↔ k = b.key := by
      rw [mem_binding_iff hb, hk, Option.some.injEq]
      exact and_iff_right hi
    rw [identName?_renameAll, hname]
    by_cases hkb : k = b.key
    · rw [if_pos hkb, if_pos ⟨hmem.mpr hkb, rfl⟩]
    · rw [if_neg hkb, if_neg fun hc => hkb (hmem.mp hc.1)]
  · -- only one of them in the binding would mean that the other has the new name already
    have hnot : ∀ {i k}, i ∈ g.live → g.key? i = some k → k.2 ≠ name := fun hi hk he =>
      hfresh _ hi (identName?_eq_some.mp (he ▸ (key?_eq_some.mp hk).2.1))
    split_ifs at he with hkb hlb hlb
    · rw [hkb, hlb]
    · exact absurd he.symm (hnot hj hl)
    · exact absurd he (hnot hi hk)
    · exact he

/-- **Renaming a whole binding keeps the table valid.** Where a binding gets a name that no
identifier of the program has, resolving again gives the same bindings in the same order, with the
same scopes and identifiers, and no other identifier belongs to another node than before. -/
theorem resolve_renamed_binding (h : g.IsTree) {b : Binding} {name : String}
    (hb : b ∈ (Scopes.resolve g).bindings) (hfresh : ∀ i ∈ g.live, g.kind i ≠ .ident name) :
    let x := g.renameAll b.occurrences name
    (Scopes.resolve x).bindings = (Scopes.resolve g).bindings.map
        (fun c => if c = b then c.withName name else c) ∧
      ∀ i m, i ∉ b.occurrences → g.IsUse i m →
        x.IsUse i m ∧ ∀ s, x.BelongsTo i m s ↔ g.BelongsTo i m s := by
  intro x
  have hrenamed := renamedBy_renameAll hb hfresh
  have hx : x.IsTree := hrenamed.changed.isTree_of_renamed h
  refine ⟨?_, fun i m hi hu => ?_⟩
  · rw [hrenamed.bindings_resolve h]
    refine List.map_congr_left fun c hc => ?_
    by_cases hcb : c = b
    · rw [if_pos hcb, if_pos (congrArg Binding.key hcb)]
    · rw [if_neg hcb, if_neg fun he => hcb (binding_eq_of_key hc hb he)]
      rfl
  · have hxl : i ∈ x.live := hrenamed.changed.live_eq ▸ hu.live
    have hk := (key?_eq_some_iff h hu.live).mpr ⟨hu, belongsTo_declaringScope h hu.live⟩
    have hkx := hrenamed.key?_eq h hu.live
    have hkey : (g.declaringScope i m, m) ≠ b.key := fun he =>
      hi ((mem_binding_iff hb).mpr ⟨hu.live, hk.trans (congrArg some he)⟩)
    rw [hk, Option.map_some, if_neg hkey] at hkx
    obtain ⟨hux, hsx⟩ := (key?_eq_some_iff hx hxl).mp hkx
    refine ⟨hux, fun s => ?_⟩
    rw [belongsTo_iff hx hxl, belongsTo_iff h hu.live, (belongsTo_iff hx hxl).mp hsx]

/-- The `x` of the function becomes `y` in its parameter, in the head of the loop and at the end. -/
theorem resolve_renamed_binding_shadowedNames : shadowedNames.IsTree ∧
    (∀ i ∈ shadowedNames.live, shadowedNames.kind i ≠ .ident "y") ∧
    ∃ b ∈ (Scopes.resolve shadowedNames).bindings,
      (b.name, b.scope, b.occurrences) = ("x", 25, [23, 4, 20]) ∧
      let x := shadowedNames.renameAll b.occurrences "y"
      (Scopes.resolve x).bindings = (Scopes.resolve shadowedNames).bindings.map
          (fun c => if c = b then c.withName "y" else c) ∧
        ∀ i m, i ∉ b.occurrences → shadowedNames.IsUse i m →
          x.IsUse i m ∧ ∀ s, x.BelongsTo i m s ↔ shadowedNames.BelongsTo i m s := by
  have hfresh : ∀ i ∈ shadowedNames.live, shadowedNames.kind i ≠ .ident "y" := by decide +kernel
  have hlisted : ("x", 25, [23, 4, 20]) ∈ (Scopes.resolve shadowedNames).bindings.map fun b =>
      (b.name, b.scope, b.occurrences) := by
    rw [bindings_shadowedNames]
    decide
  obtain ⟨b, hb, he⟩ := List.mem_map.mp hlisted
  exact ⟨isTree_shadowedNames, hfresh, b, hb, he,
    resolve_renamed_binding isTree_shadowedNames hb hfresh⟩

end ShaderScript
