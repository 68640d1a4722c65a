import Mathlib.Data.Finset.Card
import Mathlib.Logic.Relation
import ShaderScript.Proofs.Call.Table
import ShaderScript.Proofs.Scope.Bindings
import ShaderScript.Stage

/-!
# What a stage needs

The walk from the entry points goes through functions, top-level variables and helpers, and knows
each of them by a mark: a name, which functions and helpers share, or a statement. What it returns
can be said without a walk: the closure of the entry points under what items need.

* `Graph.Needs`: one item needs another, through a call or by reading a top-level variable.
* `Item.mark?`: what the walk knows an item by.
* `Surroundings.visit_of_new`: what one step of the walk does.
* `Walked`: what a part of the walk adds, with `Walked.append` for two parts in a row and
  `Walked.visit` for the step around a part. What an item needs is added ahead of it.
* `exists_walked_visit`: the depth of the walk is never used up.
* **`reachable_isClosure`**: the items of a stage are the closure of its entry points.
-/

namespace ShaderScript

namespace Graph

variable (g : Graph)

/-- The statement is the last one of the program that declares `name`. -/
def LastDeclares (name : String) (stmt : Id) : Prop :=
  ∃ before after, g.body = before ++ stmt :: after ∧ g.declaresVar name stmt = true ∧
    ∀ s ∈ after, g.declaresVar name s = false

/-- One item needs another. -/
inductive Needs : Item → Item → Prop
  /-- It calls a function of the program. -/
  | call {a : Item} {i j callee f : Id} {args : List Id} :
      a.node? = some i → j ∈ g.descendants i → g.kind j = .call callee args →
      (CallTable.resolve g).target? j = some (.user f) → Needs a (.function f)
  /-- It calls a known function that is written as a call of a helper. -/
  | helper {a : Item} {i j callee : Id} {args : List Id} {e : Known.Entry} {target : String}
      {s : Known.Snippet} :
      a.node? = some i → j ∈ g.descendants i → g.kind j = .call callee args →
      (CallTable.resolve g).target? j = some (.known e) → e.form.target? = some target →
      Known.snippet? target = some s → Needs a (.library s)
  /-- It reads a variable that belongs to the program, which a top-level statement declares. -/
  | read {a : Item} {i j stmt : Id} {name : String} :
      a.node? = some i → j ∈ g.descendants i → j ∈ g.live → g.key? j = some (g.root, name) →
      g.LastDeclares name stmt → Needs a (.global stmt)

end Graph

/-- What the walk knows an item by: the name of a function or a helper, or the statement. -/
def Item.mark? (g : Graph) : Item → Option (String ⊕ Id)
  | function f => (g.functionName? f).map .inl
  | global stmt => some (.inr stmt)
  | library s => some (.inl s.name)

namespace Reached

variable (r : Reached)

/-- What the mark stands for is on its way or there. -/
def Has : String ⊕ Id → Prop
  | .inl name => name ∈ r.names
  | .inr stmt => stmt ∈ r.globals

/-- Notes that something is on its way. -/
def add : String ⊕ Id → Reached
  | .inl name => { r with names := name :: r.names }
  | .inr stmt => { r with globals := stmt :: r.globals }

/-- Appends an item. -/
def emit (item : Item) : Reached := { r with items := r.items ++ [item] }

variable {r}

theorem has_add {m k : String ⊕ Id} : (r.add m).Has k ↔ k = m ∨ r.Has k := by
  cases m <;> cases k <;> simp [add, Has]

theorem items_add (m : String ⊕ Id) : (r.add m).items = r.items := by cases m <;> rfl

theorem has_emit {item : Item} {k : String ⊕ Id} : (r.emit item).Has k ↔ r.Has k := by
  cases k <;> rfl

end Reached

namespace Surroundings

variable (c : Surroundings)

/-- What an item needs, in pre-order. -/
def needsOf (item : Item) : List Item :=
  match item.node? with
  | some i => c.needs i
  | none => []

/-! ## One step of the walk -/

variable {c} {n : Nat} {r : Reached} {item : Item} {m : String ⊕ Id}

theorem visit_of_unnamed (hm : item.mark? c.graph = none) : c.visit n r item = r := by
  cases n with
  | zero => rfl
  | succ n =>
    cases item with
    | function f =>
      have hf : c.graph.functionName? f = none := Option.map_eq_none_iff.mp hm
      simp only [visit, hf]
    | global stmt => cases hm
    | library s => cases hm

theorem visit_of_has (hm : item.mark? c.graph = some m) (hr : r.Has m) : c.visit n r item = r := by
  cases n with
  | zero => rfl
  | succ n =>
    cases item with
    | function f =>
      obtain ⟨name, hf, rfl⟩ := Option.map_eq_some_iff.mp hm
      have hc : r.names.contains name = true := List.contains_iff_mem.mpr hr
      simp only [visit, hf, hc, if_true]
    | global stmt =>
      cases hm
      have hc : r.globals.contains stmt = true := List.contains_iff_mem.mpr hr
      simp only [visit, hc, if_true]
    | library s =>
      cases hm
      have hc : r.names.contains s.name = true := List.contains_iff_mem.mpr hr
      simp only [visit, hc, if_true]

/-- **Anything else is noted, then what it needs is visited, and then it is there.** -/
theorem visit_of_new (hm : item.mark? c.graph = some m) (hr : ¬ r.Has m) :
    c.visit (n + 1) r item =
      ((c.needsOf item).foldl (c.visit n) (r.add m)).emit item := by
  cases item with
  | function f =>
    obtain ⟨name, hf, rfl⟩ := Option.map_eq_some_iff.mp hm
    have hc : r.names.contains name = false := by
      rw [Bool.eq_false_iff]
      exact fun hc => hr (List.contains_iff_mem.mp hc)
    simp only [visit, hf, hc, Bool.false_eq_true, if_false]
    rfl
  | global stmt =>
    cases hm
    have hc : r.globals.contains stmt = false := by
      rw [Bool.eq_false_iff]
      exact fun hc => hr (List.contains_iff_mem.mp hc)
    simp only [visit, hc, Bool.false_eq_true, if_false]
    rfl
  | library s =>
    cases hm
    have hc : r.names.contains s.name = false := by
      rw [Bool.eq_false_iff]
      exact fun hc => hr (List.contains_iff_mem.mp hc)
    simp only [visit, hc, Bool.false_eq_true, if_false]
    rfl

end Surroundings

/-! ## Parts of the walk -/

/-- An item leads to another through items of a list that need each other. -/
def Surroundings.Leads (c : Surroundings) (items : List Item) : Item → Item → Prop :=
  Relation.ReflTransGen fun a b => a ∈ items ∧ b ∈ items ∧ b ∈ c.needsOf a

/-- An item comes before another, or it leads to the other and may come after it. -/
def Surroundings.Ahead (c : Surroundings) (items : List Item) (b a : Item) : Prop :=
  [b, a].Sublist items ∨ c.Leads items b a

/-- Visiting the items of `starts` one after the other leads from `r` to `r'` and adds the items of
`new`. What an added item needs was on its way or there, or is added ahead of it. -/
structure Walked (c : Surroundings) (starts : List Item) (r r' : Reached) (new : List Item) :
    Prop where
  items : r'.items = r.items ++ new
  has : ∀ m, r'.Has m ↔ r.Has m ∨ ∃ x ∈ new, x.mark? c.graph = some m
  fresh : ∀ x ∈ new, ∃ m, x.mark? c.graph = some m ∧ ¬ r.Has m
  distinct : new.Pairwise fun x y => x.mark? c.graph ≠ y.mark? c.graph
  started : ∀ x ∈ starts, ∀ m, x.mark? c.graph = some m → r'.Has m
  ordered : ∀ x ∈ new, ∀ y ∈ c.needsOf x, ∀ m, y.mark? c.graph = some m →
    r.Has m ∨ ∃ b ∈ new, b.mark? c.graph = some m ∧ c.Ahead new b x
  connected : ∀ x ∈ new, ∃ a ∈ starts, a ∈ new ∧ c.Leads new a x

namespace Surroundings.Leads

variable {c : Surroundings} {items items' : List Item} {a b : Item}

theorem mono (h : c.Leads items a b) (hsub : ∀ x ∈ items, x ∈ items') : c.Leads items' a b := by
  refine Relation.ReflTransGen.mono (fun x y hs => ?_) _ _ h
  exact ⟨hsub x hs.1, hsub y hs.2.1, hs.2.2⟩

end Surroundings.Leads

theorem Surroundings.Ahead.mono {c : Surroundings} {items items' : List Item} {a b : Item}
    (h : c.Ahead items b a) (hsub : items.Sublist items') : c.Ahead items' b a :=
  h.imp (fun hs => hs.trans hsub) fun hl => hl.mono fun _ hx => hsub.subset hx

namespace Walked

variable {c : Surroundings} {n : Nat} {r r₁ r₂ : Reached} {item : Item} {m : String ⊕ Id}
  {starts starts' new new' : List Item}

theorem mono (h : Walked c starts r r₁ new) (hr : r.Has m) : r₁.Has m := (h.has m).mpr (.inl hr)

/-- Whatever an added item needs is there or on its way. -/
theorem closed (h : Walked c starts r r₁ new) {x y : Item} (hx : x ∈ new) (hy : y ∈ c.needsOf x)
    (hm : y.mark? c.graph = some m) : r₁.Has m := by
  rcases h.ordered x hx y hy m hm with hr | ⟨b, hb, hbm, -⟩
  · exact h.mono hr
  · exact (h.has m).mpr (.inr ⟨b, hb, hbm⟩)

theorem idle (hs : ∀ x ∈ starts, ∀ m, x.mark? c.graph = some m → r.Has m) :
    Walked c starts r r [] where
  items := (List.append_nil _).symm
  has m := by simp
  fresh x hx := by cases hx
  distinct := .nil
  started := hs
  ordered x hx := by cases hx
  connected x hx := by cases hx

theorem append (h : Walked c starts r r₁ new) (h' : Walked c starts' r₁ r₂ new') :
    Walked c (starts ++ starts') r r₂ (new ++ new') where
  items := by rw [h'.items, h.items, List.append_assoc]
  has m := by simp only [h'.has, h.has, List.mem_append, or_assoc, or_and_right, exists_or]
  fresh x hx := by
    rcases List.mem_append.mp hx with hx | hx
    · exact h.fresh x hx
    · obtain ⟨m, hm, hn⟩ := h'.fresh x hx
      exact ⟨m, hm, fun hr => hn (h.mono hr)⟩
  distinct := by
    refine List.pairwise_append.mpr ⟨h.distinct, h'.distinct, fun x hx y hy he => ?_⟩
    obtain ⟨m, hm, hn⟩ := h'.fresh y hy
    exact hn ((h.has m).mpr (.inr ⟨x, hx, he.trans hm⟩))
  started x hx := by
    rcases List.mem_append.mp hx with hx | hx
    · exact fun m hm => h'.mono (h.started x hx m hm)
    · exact h'.started x hx
  ordered x hx y hy m hm := by
    rcases List.mem_append.mp hx with hx | hx
    · refine (h.ordered x hx y hy m hm).imp_right ?_
      rintro ⟨b, hb, hbm, hbx⟩
      exact ⟨b, List.mem_append_left _ hb, hbm, hbx.mono (List.sublist_append_left _ _)⟩
    · rcases h'.ordered x hx y hy m hm with hr | ⟨b, hb, hbm, hbx⟩
      · -- what was there before the second part may have been added by the first
        refine ((h.has m).mp hr).imp_right ?_
        rintro ⟨b, hb, hbm⟩
        refine ⟨b, List.mem_append_left _ hb, hbm, .inl ?_⟩
        exact (List.singleton_sublist.mpr hb).append (List.singleton_sublist.mpr hx)
      · exact .inr ⟨b, List.mem_append_right _ hb, hbm, hbx.mono (List.sublist_append_right _ _)⟩
  connected x hx := by
    rcases List.mem_append.mp hx with hx | hx
    · obtain ⟨a, ha, han, hl⟩ := h.connected x hx
      exact ⟨a, List.mem_append_left _ ha, List.mem_append_left _ han,
        hl.mono fun _ => List.mem_append_left _⟩
    · obtain ⟨a, ha, han, hl⟩ := h'.connected x hx
      exact ⟨a, List.mem_append_right _ ha, List.mem_append_right _ han,
        hl.mono fun _ => List.mem_append_right _⟩

theorem leads (h : Walked c (c.needsOf item) r r₁ new) {x : Item} (hx : x ∈ new ++ [item]) :
    c.Leads (new ++ [item]) item x := by
  rcases List.mem_append.mp hx with hx | hx
  · obtain ⟨a, ha, han, hl⟩ := h.connected x hx
    have hlast : item ∈ new ++ [item] := List.mem_append_right _ List.mem_cons_self
    exact .head ⟨hlast, List.mem_append_left _ han, ha⟩ (hl.mono fun _ => List.mem_append_left _)
  · rw [List.mem_singleton.mp hx]
    exact .refl

/-- **The step around a part**: an item is noted, what it needs is visited, and then it is there. -/
theorem visit (hm : item.mark? c.graph = some m) (hr : ¬ r.Has m)
    (h : Walked c (c.needsOf item) (r.add m) r₁ new) :
    Walked c [item] r (r₁.emit item) (new ++ [item]) where
  items := by
    change r₁.items ++ [item] = _
    rw [h.items, Reached.items_add, List.append_assoc]
  has k := by
    rw [Reached.has_emit, h.has, Reached.has_add]
    simp only [List.mem_append, List.mem_singleton]
    constructor
    · rintro ((rfl | hk) | ⟨x, hx, hk⟩)
      · exact .inr ⟨item, .inr rfl, hm⟩
      · exact .inl hk
      · exact .inr ⟨x, .inl hx, hk⟩
    · rintro (hk | ⟨x, hx | rfl, hk⟩)
      · exact .inl (.inr hk)
      · exact .inr ⟨x, hx, hk⟩
      · exact .inl (.inl (Option.some.inj (hk.symm.trans hm)))
  fresh x hx := by
    rcases List.mem_append.mp hx with hx | hx
    · obtain ⟨k, hk, hn⟩ := h.fresh x hx
      exact ⟨k, hk, fun hrk => hn (Reached.has_add.mpr (.inr hrk))⟩
    · rw [List.mem_singleton.mp hx]
      exact ⟨m, hm, hr⟩
  distinct := by
    refine List.pairwise_append.mpr
      ⟨h.distinct, List.pairwise_singleton _ _, fun x hx y hy he => ?_⟩
    rw [List.mem_singleton.mp hy, hm] at he
    obtain ⟨k, hk, hn⟩ := h.fresh x hx
    exact hn (Reached.has_add.mpr (.inl (Option.some.inj (hk.symm.trans he))))
  started x hx k hk := by
    rw [List.mem_singleton.mp hx, hm] at hk
    cases hk
    exact Reached.has_emit.mpr (h.mono (Reached.has_add.mpr (.inl rfl)))
  ordered x hx y hy k hk := by
    rcases List.mem_append.mp hx with hx' | hx'
    · rcases h.ordered x hx' y hy k hk with hrk | ⟨b, hb, hbk, hbx⟩
      · -- the item that is on its way leads to all that is added meanwhile
        refine (Reached.has_add.mp hrk).symm.imp_right ?_
        rintro rfl
        exact ⟨item, List.mem_append_right _ List.mem_cons_self, hm, .inr (h.leads hx)⟩
      · exact .inr ⟨b, List.mem_append_left _ hb, hbk, hbx.mono (List.sublist_append_left _ _)⟩
    · obtain rfl := List.mem_singleton.mp hx'
      rcases (h.has k).mp (h.started y hy k hk) with hrk | ⟨b, hb, hbk⟩
      · refine (Reached.has_add.mp hrk).symm.imp_right ?_
        rintro rfl
        exact ⟨x, hx, hm, .inr .refl⟩
      · refine .inr ⟨b, List.mem_append_left _ hb, hbk, .inl ?_⟩
        exact (List.singleton_sublist.mpr hb).append (List.Sublist.refl [x])
  connected x hx :=
    ⟨item, List.mem_cons_self, List.mem_append_right _ List.mem_cons_self, h.leads hx⟩

end Walked

/-! ## The depth of the walk -/

/-- The item that a node is. -/
def Graph.itemAt (g : Graph) (i : Id) : Item := if g.isFunction i then .function i else .global i

/-- An item whose node, if it is a variable, is a statement of the graph. -/
def Item.Placed (g : Graph) : Item → Prop
  | .global stmt => stmt < g.size ∧ g.isFunction stmt = false
  | _ => True

namespace Surroundings

variable {c : Surroundings} {r r' : Reached} {item : Item} {m : String ⊕ Id}

open Classical in
/-- The number of nodes that the walk can still go to. -/
noncomputable def left (c : Surroundings) (r : Reached) : Nat :=
  ((Finset.range c.graph.size).filter fun i =>
    ∃ m, (c.graph.itemAt i).mark? c.graph = some m ∧ ¬ r.Has m).card

theorem left_le_size : c.left r ≤ c.graph.size := by
  classical
  unfold left
  exact (Finset.card_filter_le _ _).trans (Finset.card_range _).le

theorem left_le (h : ∀ m, r.Has m → r'.Has m) : c.left r' ≤ c.left r := by
  classical
  refine Finset.card_le_card fun i hi => ?_
  rw [Finset.mem_filter] at hi ⊢
  obtain ⟨hlt, m, hm, hn⟩ := hi
  exact ⟨hlt, m, hm, fun hr => hn (h m hr)⟩

/-- An item with a mark is what its node is. -/
theorem itemAt_eq {i : Id} (hp : item.Placed c.graph) (hm : item.mark? c.graph = some m)
    (hi : item.node? = some i) : i < c.graph.size ∧ c.graph.itemAt i = item := by
  cases item with
  | function f =>
    cases hi
    obtain ⟨name, hname, -⟩ := Option.map_eq_some_iff.mp hm
    unfold Graph.functionName? at hname
    split at hname
    case h_2 => cases hname
    case h_1 hk =>
      have hf : c.graph.isFunction i = true := by rw [Graph.isFunction, hk]
      exact ⟨Graph.lt_size_of_kind (hk ▸ nofun), if_pos hf⟩
  | global stmt =>
    cases hi
    exact ⟨hp.1, by rw [Graph.itemAt, hp.2]; rfl⟩
  | library s => cases hi

/-- Noting an item leaves one node less to go to. -/
theorem left_add_lt {i : Id} (hp : item.Placed c.graph) (hm : item.mark? c.graph = some m)
    (hr : ¬ r.Has m) (hi : item.node? = some i) : c.left (r.add m) < c.left r := by
  classical
  obtain ⟨hlt, hat⟩ := itemAt_eq hp hm hi
  refine Finset.card_lt_card ⟨fun j hj => ?_, fun hsub => ?_⟩
  · rw [Finset.mem_filter] at hj ⊢
    obtain ⟨hjlt, k, hk, hn⟩ := hj
    exact ⟨hjlt, k, hk, fun hrk => hn (Reached.has_add.mpr (.inr hrk))⟩
  · have hmem := hsub (Finset.mem_filter.mpr
      ⟨Finset.mem_range.mpr hlt, m, by rw [hat, hm], hr⟩)
    obtain ⟨-, k, hk, hn⟩ := Finset.mem_filter.mp hmem
    rw [hat, hm] at hk
    cases hk
    exact hn (Reached.has_add.mpr (.inl rfl))

/-- Visiting a list of items, if each can be visited from wherever the walk has come to. -/
theorem exists_walked_foldl {n : Nat} {items : List Item}
    (hvisit : ∀ x ∈ items, ∀ r', c.left r' ≤ c.left r →
      ∃ new, Walked c [x] r' (c.visit n r' x) new) :
    ∃ new, Walked c items r (items.foldl (c.visit n) r) new := by
  induction items generalizing r with
  | nil => exact ⟨[], .idle fun x hx => by cases hx⟩
  | cons x items ih =>
    obtain ⟨new, hx⟩ := hvisit x List.mem_cons_self r le_rfl
    have hle : c.left (c.visit n r x) ≤ c.left r := left_le fun _ => hx.mono
    obtain ⟨new', hrest⟩ := ih (r := c.visit n r x) fun y hy r' hr' =>
      hvisit y (List.mem_cons_of_mem _ hy) r' (hr'.trans hle)
    exact ⟨new ++ new', hx.append hrest⟩

/-- **The depth of the walk is never used up**: it is more than the number of nodes that are left,
and every step down leaves one less. -/
theorem exists_walked_visit {n : Nat} (hneeds : ∀ x, ∀ y ∈ c.needsOf x, y.Placed c.graph)
    (hp : item.Placed c.graph) (hn : c.left r < n) :
    ∃ new, Walked c [item] r (c.visit n r item) new := by
  induction n generalizing r item with
  | zero => omega
  | succ n ih =>
    cases hm : item.mark? c.graph with
    | none =>
      rw [visit_of_unnamed hm]
      refine ⟨[], .idle fun x hx m hx' => ?_⟩
      rw [List.mem_singleton.mp hx, hm] at hx'
      cases hx'
    | some m =>
      by_cases hr : r.Has m
      · rw [visit_of_has hm hr]
        refine ⟨[], .idle fun x hx k hk => ?_⟩
        rw [List.mem_singleton.mp hx, hm] at hk
        cases hk
        exact hr
      · rw [visit_of_new hm hr]
        have hfold : ∃ new, Walked c (c.needsOf item) (r.add m)
            ((c.needsOf item).foldl (c.visit n) (r.add m)) new := by
          cases hi : item.node? with
          | none =>
            -- a helper needs nothing
            have hnil : c.needsOf item = [] := by rw [needsOf, hi]
            rw [hnil]
            exact ⟨[], .idle fun x hx => by cases hx⟩
          | some i =>
            have hlt := left_add_lt hp hm hr hi
            refine exists_walked_foldl fun x hx r' hr' => ih (hneeds item x hx) ?_
            omega
        obtain ⟨new, hnew⟩ := hfold
        exact ⟨new ++ [item], hnew.visit hm hr⟩

end Surroundings

/-! ## What items need -/

namespace Graph

variable {g : Graph}

/-- The name that a declarator declares. -/
def declaredName? (g : Graph) (d : Id) : Option String :=
  match g.kind d with
  | .declarator name _ => g.identName? name
  | _ => none

theorem lookup_declared (name : String) (stmt : Id) (ds : List Id) :
    (ds.filterMap fun d => (g.declaredName? d).map fun n => (n, stmt)).reverse.lookup name =
      if ds.any fun d => g.declaredName? d == some name then some stmt else none := by
  induction ds using List.reverseRecOn with
  | nil => rfl
  | append_singleton ds d ih =>
    rw [List.filterMap_append, List.reverse_append, List.lookup_append, ih, List.any_append]
    cases hd : g.declaredName? d with
    | none => simp [hd]
    | some n =>
      by_cases hn : n = name
      · simp [hd, hn]
      · simp [hd, hn, List.lookup_cons, beq_false_of_ne (Ne.symm hn)]

/-- The table of top-level variables has the last statement that declares a name. -/
theorem lookup_globals (name : String) :
    g.globals.lookup name = g.body.reverse.find? (g.declaresVar name) := by
  unfold globals
  induction g.body using List.reverseRecOn with
  | nil => rfl
  | append_singleton body stmt ih =>
    rw [List.flatMap_append, List.reverse_append, List.lookup_append, ih, List.reverse_append,
      List.find?_append, List.flatMap_singleton, List.reverse_singleton, List.find?_singleton]
    congr 1
    unfold declaresVar
    cases hk : g.kind stmt
    case varDecl ds =>
      dsimp only
      refine Eq.trans ?_ ((lookup_declared (g := g) name stmt ds).trans ?_)
      · congr 3
        funext d
        unfold declaredName?
        cases g.kind d <;> rfl
      · congr 3
        funext d
        unfold declaredName?
        cases g.kind d <;> rfl
    all_goals rfl

theorem lookup_globals_eq_some {name : String} {stmt : Id} :
    g.globals.lookup name = some stmt ↔ g.LastDeclares name stmt := by
  rw [lookup_globals, List.find?_eq_some_iff_append]
  constructor
  · rintro ⟨hd, before, after, hb, hn⟩
    refine ⟨after.reverse, before.reverse, ?_, hd, fun s hs => ?_⟩
    · rw [← List.reverse_reverse g.body, hb]
      simp
    · simpa using hn s (List.mem_reverse.mp hs)
  · rintro ⟨before, after, hb, hd, hn⟩
    refine ⟨hd, after.reverse, before.reverse, ?_, fun s hs => ?_⟩
    · rw [hb]
      simp
    · rw [hn s (List.mem_reverse.mp hs)]
      rfl

end Graph

namespace Surroundings

variable {g : Graph} {a b : Item} {j : Id}

@[simp] theorem of_graph (calls : CallTable) : (of g calls).graph = g := rfl

@[simp] theorem of_calls (calls : CallTable) : (of g calls).calls = calls := rfl

@[simp] theorem of_scopes (calls : CallTable) : (of g calls).scopes = Scopes.resolve g := rfl

@[simp] theorem of_globals (calls : CallTable) : (of g calls).globals = g.globals := rfl

theorem globalNeed?_eq_some {calls : CallTable} : (of g calls).globalNeed? j = some b ↔
    ∃ name stmt, j ∈ g.live ∧ g.key? j = some (g.root, name) ∧ g.LastDeclares name stmt ∧
      b = .global stmt := by
  unfold globalNeed?
  constructor
  · intro h
    obtain ⟨name, hname, h₁⟩ := Option.bind_eq_some_iff.mp h
    obtain ⟨_, -, h₂⟩ := Option.bind_eq_some_iff.mp h₁
    obtain ⟨bind, hbind, h₃⟩ := Option.bind_eq_some_iff.mp h₂
    obtain ⟨_, hroot, h₄⟩ := Option.bind_eq_some_iff.mp h₃
    obtain ⟨stmt, hstmt, h₅⟩ := Option.bind_eq_some_iff.mp h₄
    have hkey := Scopes.bindingOf?_key hbind
    obtain ⟨hb, hocc⟩ := Scopes.bindingOf?_eq_some hbind
    obtain ⟨-, hname', -⟩ := Graph.key?_eq_some.mp hkey
    obtain rfl : bind.name = name := Option.some.inj (hname'.symm.trans hname)
    have hscope : bind.scope = g.root := by simpa [guard] using hroot
    refine ⟨bind.name, stmt, ((Scopes.mem_binding_iff hb).mp hocc).1, ?_,
      Graph.lookup_globals_eq_some.mp hstmt, (Option.some.inj h₅).symm⟩
    rw [hkey, Binding.key, hscope]
  · rintro ⟨name, stmt, hj, hkey, hlast, rfl⟩
    obtain ⟨hprop, hname, -⟩ := Graph.key?_eq_some.mp hkey
    obtain ⟨bind, hbind, hk⟩ := Scopes.exists_bindingOf? hj hkey
    have hscope : bind.scope = g.root := congrArg Prod.fst hk
    have hstmt : g.globals.lookup name = some stmt := Graph.lookup_globals_eq_some.mpr hlast
    simp [hname, hprop, hbind, hscope, hstmt]

theorem need?_of_call {calls : CallTable} {callee : Id} {args : List Id}
    (hk : g.kind j = .call callee args) : (of g calls).need? j = (of g calls).callNeed? j := by
  rw [need?, of_graph, hk]

/-- **The walk goes to what items need.** -/
theorem mem_needsOf_iff : b ∈ (of g (CallTable.resolve g)).needsOf a ↔ g.Needs a b := by
  unfold needsOf needs
  cases hi : a.node? with
  | none =>
    refine ⟨fun hb => (by cases hb), fun hb => ?_⟩
    cases hb with
    | call h | helper h | read h => rw [hi] at h; cases h
  | some i =>
    rw [List.mem_filterMap]
    constructor
    · rintro ⟨j, hj, hneed⟩
      unfold need? at hneed
      split at hneed
      case h_1 callee args hk =>
        unfold callNeed? at hneed
        split at hneed
        case h_1 f ht =>
          obtain rfl := Option.some.inj hneed
          exact .call hi hj hk ht
        case h_2 e ht =>
          obtain ⟨s, hs, rfl⟩ := Option.map_eq_some_iff.mp hneed
          obtain ⟨target, htarget, hs⟩ := Option.bind_eq_some_iff.mp hs
          exact .helper hi hj hk ht htarget hs
        case h_3 => cases hneed
      case h_2 =>
        obtain ⟨name, stmt, hlive, hkey, hlast, rfl⟩ := globalNeed?_eq_some.mp hneed
        exact .read hi hj hlive hkey hlast
    · intro hb
      cases hb with
      | call h hj hk ht =>
        cases hi.symm.trans h
        refine ⟨_, hj, ?_⟩
        rw [need?_of_call hk, callNeed?, of_calls, ht]
      | helper h hj hk ht htarget hs =>
        cases hi.symm.trans h
        refine ⟨_, hj, ?_⟩
        rw [need?_of_call hk, callNeed?, of_calls, ht]
        simp [htarget, hs]
      | read h hj hlive hkey hlast =>
        cases hi.symm.trans h
        refine ⟨_, hj, ?_⟩
        obtain ⟨-, hname, -⟩ := Graph.key?_eq_some.mp hkey
        rw [need?, of_graph, Graph.identName?_eq_some.mp hname]
        exact globalNeed?_eq_some.mpr ⟨_, _, hlive, hkey, hlast, rfl⟩

theorem placed_of_mem_needsOf (hb : b ∈ (of g (CallTable.resolve g)).needsOf a) : b.Placed g := by
  cases mem_needsOf_iff.mp hb with
  | call | helper => trivial
  | read _ _ _ _ hlast =>
    obtain ⟨-, -, -, hd, -⟩ := hlast
    unfold Graph.declaresVar at hd
    split at hd
    case h_2 => cases hd
    case h_1 hk => exact ⟨Graph.lt_size_of_kind (hk ▸ nofun), by rw [Graph.isFunction, hk]⟩

end Surroundings

/-! ## The items of a stage -/

theorem exists_walked_reachable (g : Graph) (roots : List Id) :
    ∃ r, Walked (.of g (CallTable.resolve g)) (roots.map .function) {} r
      (reachable g roots (CallTable.resolve g)) := by
  have hvisit : ∀ x ∈ roots.map Item.function, ∀ r',
      (Surroundings.of g (CallTable.resolve g)).left r' ≤
        (Surroundings.of g (CallTable.resolve g)).left {} →
      ∃ new, Walked (.of g (CallTable.resolve g)) [x] r'
        ((Surroundings.of g (CallTable.resolve g)).visit (g.size + 1) r' x) new := by
    intro x hx r' hr'
    obtain ⟨f, -, rfl⟩ := List.mem_map.mp hx
    refine Surroundings.exists_walked_visit (fun x y => Surroundings.placed_of_mem_needsOf)
      trivial ?_
    have hle := Surroundings.left_le_size (c := .of g (CallTable.resolve g)) (r := {})
    rw [Surroundings.of_graph] at hle
    omega
  obtain ⟨new, hnew⟩ := Surroundings.exists_walked_foldl hvisit
  have hitems : reachable g roots (CallTable.resolve g) = new := by
    unfold reachable
    rw [hnew.items]
    rfl
  exact ⟨_, hitems ▸ hnew⟩

/-- The items are the closure of functions under what items need: no two have one mark, the marks
of the functions are there, with an item the mark of all it needs is there, and every item is
needed by one of the functions, directly or through other items. -/
structure IsClosure (g : Graph) (roots : List Id) (items : List Item) : Prop where
  distinct : items.Pairwise fun a b => a.mark? g ≠ b.mark? g
  started : ∀ f ∈ roots, ∀ name, g.functionName? f = some name →
    ∃ b ∈ items, b.mark? g = some (.inl name)
  closed : ∀ a ∈ items, ∀ b, g.Needs a b →
    ∃ m, b.mark? g = some m ∧ ∃ b' ∈ items, b'.mark? g = some m
  connected : ∀ b ∈ items, ∃ f ∈ roots, .function f ∈ items ∧
    Relation.ReflTransGen (fun a b => a ∈ items ∧ b ∈ items ∧ g.Needs a b) (.function f) b

theorem exists_mark_of_needs {g : Graph} {roots : List Id} {a b : Item}
    (ha : a ∈ reachable g roots (CallTable.resolve g)) (hb : g.Needs a b) {m : String ⊕ Id}
    (hm : b.mark? g = some m) :
    ∃ b' ∈ reachable g roots (CallTable.resolve g), b'.mark? g = some m := by
  obtain ⟨r, hw⟩ := exists_walked_reachable g roots
  have hr := hw.closed ha (Surroundings.mem_needsOf_iff.mpr hb) hm
  refine ((hw.has m).mp hr).resolve_left ?_
  cases m <;> exact List.not_mem_nil

theorem mem_reachable {g : Graph} {roots : List Id} {b : Item}
    (hb : b ∈ reachable g roots (CallTable.resolve g)) :
    (∃ f ∈ roots, b = .function f) ∨
      ∃ a ∈ reachable g roots (CallTable.resolve g), g.Needs a b := by
  obtain ⟨r, hw⟩ := exists_walked_reachable g roots
  obtain ⟨a, ha, -, hl⟩ := hw.connected b hb
  obtain ⟨f, hf, rfl⟩ := List.mem_map.mp ha
  rcases Relation.ReflTransGen.cases_tail hl with he | ⟨a, -, ha, -, hneeds⟩
  · exact .inl ⟨f, hf, he⟩
  · exact .inr ⟨a, ha, Surroundings.mem_needsOf_iff.mp hneeds⟩

theorem Graph.Needs.exists_mark {g : Graph} {a b : Item} (h : g.Needs a b) :
    ∃ m, b.mark? g = some m := by
  cases h with
  | call _ _ _ ht =>
    obtain ⟨-, _, _, -, hv⟩ := CallTable.target?_call ht
    obtain ⟨name, -, -, hname⟩ := Graph.verdict_user hv
    exact ⟨.inl name, by rw [Item.mark?, hname]; rfl⟩
  | helper => exact ⟨_, rfl⟩
  | read => exact ⟨_, rfl⟩

/-- **The items of a stage are the closure of its entry points** under calls and reads. -/
theorem reachable_isClosure (g : Graph) (roots : List Id) :
    IsClosure g roots (reachable g roots (CallTable.resolve g)) := by
  obtain ⟨r, hw⟩ := exists_walked_reachable g roots
  refine ⟨hw.distinct, fun f hf name hname => ?_, fun a ha b hb => ?_, fun b hb => ?_⟩
  · have hm : (Item.function f).mark? g = some (.inl name) := by rw [Item.mark?, hname]; rfl
    have hr := hw.started _ (List.mem_map_of_mem hf) _ hm
    exact ((hw.has _).mp hr).resolve_left List.not_mem_nil
  · obtain ⟨m, hm⟩ := hb.exists_mark
    exact ⟨m, hm, exists_mark_of_needs ha hb hm⟩
  · obtain ⟨a, ha, han, hl⟩ := hw.connected b hb
    obtain ⟨f, hf, rfl⟩ := List.mem_map.mp ha
    refine ⟨f, hf, han, Relation.ReflTransGen.mono (fun x y hs => ?_) _ _ hl⟩
    exact ⟨hs.1, hs.2.1, Surroundings.mem_needsOf_iff.mp hs.2.2⟩

end ShaderScript
