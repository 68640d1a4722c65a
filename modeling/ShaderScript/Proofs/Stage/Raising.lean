import ShaderScript.Proofs.Call.Table
import ShaderScript.Stage

/-!
# Raising the errors of calls

Errors are held back on calls until the stages are known. Then the nodes of the items are looked
through in order, and the first error found is taken out of the table and raised. Errors that are
not found stay where they are.

* `Stages.nodes`: the nodes that are looked through.
* `Stages.raise`: the search, node by node.
* **`Stages.raise_run`**: it raises what `Stages.firstError?` finds and takes that out of
  the table.
* `CallTable.exists_eraseError`: taking an error out leaves all others.
* `Stages.firstError?_eq_some`, `Stages.firstError?_eq_none`: the first error, said by nodes.
* `Stages.extract_errors`: the stages do not depend on the errors held back.
-/

namespace ShaderScript

/-- The nodes of an item, in pre-order. A helper has none. -/
def Item.nodes (g : Graph) (item : Item) : List Id := item.node?.toList.flatMap g.descendants

/-- The nodes of the vertex items and then of the fragment items. -/
def Stages.nodes (s : Stages) (g : Graph) : List Id := s.items.flatMap (Item.nodes g)

/-! ## The search -/

/-- A computation that takes errors out of a table and may fail with one. -/
abbrev Raiser := ExceptT Error (StateM CallTable)

/-- Takes the error on a node out of the table and fails with it. -/
def raiseAt (i : Id) : Raiser Unit := do
  match (← get).error? i with
  | some e =>
    modify (·.eraseError i)
    throw e
  | none => pure ()

/-- Raises the first error held back on a node of an item. -/
def Stages.raise (s : Stages) (g : Graph) : Raiser Unit :=
  s.items.forM fun item => (item.nodes g).forM raiseAt

/-- The first error that the table holds back on one of some nodes, with the node. -/
def CallTable.firstOf (t : CallTable) (is : List Id) : Option (Id × Error) :=
  is.findSome? fun i => (t.error? i).map fun e => (i, e)

/-- What a search leaves that has found an error or none. -/
def CallTable.after (t : CallTable) : Option (Id × Error) → Except Error Unit × CallTable
  | some (i, e) => (.error e, t.eraseError i)
  | none => (.ok (), t)

theorem CallTable.firstOf_append (t : CallTable) (is js : List Id) :
    t.firstOf (is ++ js) = (t.firstOf is).or (t.firstOf js) := List.findSome?_append

theorem CallTable.firstOf_congr {t t' : CallTable} {is : List Id}
    (h : ∀ i ∈ is, t.error? i = t'.error? i) : t.firstOf is = t'.firstOf is := by
  induction is with
  | nil => rfl
  | cons i is ih =>
    have hrest := ih fun j hj => h j (List.mem_cons_of_mem _ hj)
    unfold firstOf at hrest ⊢
    rw [List.findSome?_cons, List.findSome?_cons, h i List.mem_cons_self, hrest]

theorem raiseAt_run (i : Id) (t : CallTable) :
    (raiseAt i).run.run t = t.after ((t.error? i).map fun e => (i, e)) := by
  change (match t.error? i with
    | some e => (do modify fun t : CallTable => t.eraseError i; throw e : Raiser Unit)
    | none => pure ()).run.run t = _
  cases t.error? i <;> rfl

theorem forM_raiseAt_run (is : List Id) (t : CallTable) :
    (is.forM raiseAt).run.run t = t.after (t.firstOf is) := by
  induction is with
  | nil => rfl
  | cons i is ih =>
    rw [List.forM_eq_forM, List.forM_cons, ExceptT.run_bind, StateT.run_bind, raiseAt_run,
      CallTable.firstOf, List.findSome?_cons]
    cases t.error? i with
    | some e => rfl
    | none => exact ih

namespace Stages

variable {s : Stages} {g : Graph} {t : CallTable} {i : Id} {e : Error}

theorem raise_eq (s : Stages) (g : Graph) : s.raise g = (s.nodes g).forM raiseAt := by
  unfold raise nodes
  induction s.items with
  | nil => rfl
  | cons item items ih =>
    rw [List.flatMap_cons, List.forM_eq_forM, List.forM_eq_forM, List.forM_cons, List.forM_append]
    exact congrArg _ (funext fun _ => ih)

theorem firstError?_eq (s : Stages) (g : Graph) (t : CallTable) :
    s.firstError? g t = t.firstOf (s.nodes g) := by
  unfold firstError? nodes
  induction s.items with
  | nil => rfl
  | cons item items ih =>
    rw [List.flatMap_cons, t.firstOf_append, List.findSome?_cons, ih]
    have hitem : (item.node?.bind fun root => (g.descendants root).findSome? fun i =>
        (t.error? i).map fun e => (i, e)) = t.firstOf (item.nodes g) := by
      unfold Item.nodes CallTable.firstOf
      cases item.node? with
      | none => rfl
      | some root => simp
    rw [hitem]
    cases t.firstOf (item.nodes g) <;> rfl

/-- **The search raises the first error and takes it out of the table.** -/
theorem raise_run (s : Stages) (g : Graph) (t : CallTable) :
    (s.raise g).run.run t = t.after (s.firstError? g t) := by
  rw [raise_eq, forM_raiseAt_run, firstError?_eq]

theorem firstError?_eq_some : s.firstError? g t = some (i, e) ↔ ∃ before after,
    s.nodes g = before ++ i :: after ∧ t.error? i = some e ∧ ∀ j ∈ before, t.error? j = none := by
  rw [firstError?_eq, CallTable.firstOf, List.findSome?_eq_some_iff]
  constructor
  · rintro ⟨before, j, after, hnodes, hj, hbefore⟩
    obtain ⟨e', he, hje⟩ := Option.map_eq_some_iff.mp hj
    cases hje
    exact ⟨before, after, hnodes, he, fun k hk => Option.map_eq_none_iff.mp (hbefore k hk)⟩
  · rintro ⟨before, after, hnodes, he, hbefore⟩
    refine ⟨before, i, after, hnodes, by rw [he]; rfl, fun k hk => ?_⟩
    rw [hbefore k hk]
    rfl

theorem firstError?_eq_none :
    s.firstError? g t = none ↔ ∀ j ∈ s.nodes g, t.error? j = none := by
  rw [firstError?_eq, CallTable.firstOf, List.findSome?_eq_none_iff]
  exact forall₂_congr fun _ _ => Option.map_eq_none_iff

end Stages

/-! ## The table -/

namespace CallTable

variable {t : CallTable} {i : Id} {e : Error}

/-- Taking an error out leaves all others, as every node has at most one. -/
theorem exists_eraseError (ht : (t.errors.map Prod.fst).Nodup) (hi : t.error? i = some e) :
    ∃ before after, t.errors = before ++ (i, e) :: after ∧
      t.eraseError i = { t with errors := before ++ after } := by
  obtain ⟨before, after, herrors, -⟩ := List.lookup_eq_some_iff.mp hi
  refine ⟨before, after, herrors, ?_⟩
  rw [herrors, List.map_append, List.map_cons, List.nodup_middle, List.nodup_cons] at ht
  have hkeep : (before ++ after).filter (fun p => p.1 != i) = before ++ after := by
    refine List.filter_eq_self.mpr fun p hp => bne_iff_ne.mpr ?_
    rintro rfl
    refine ht.1 ?_
    rw [← List.map_append]
    exact List.mem_map.mpr ⟨p, hp, rfl⟩
  unfold eraseError
  rw [herrors, List.filter_append, List.filter_cons_of_neg (by simp), ← List.filter_append, hkeep]

end CallTable

/-! ## The stages -/

/-- The surroundings with other errors held back. -/
def Surroundings.withErrors (c : Surroundings) (errors : List (Id × Error)) : Surroundings :=
  { c with calls := { c.calls with errors } }

theorem Surroundings.visit_withErrors (c : Surroundings) (errors : List (Id × Error)) (n : Nat) :
    (c.withErrors errors).visit n = c.visit n := by
  induction n with
  | zero => rfl
  | succ n ih =>
    funext r item
    cases item <;> simp only [visit, ih] <;> rfl

/-- **The stages do not depend on the errors held back.** -/
theorem Stages.extract_errors (g : Graph) (e : EntryPoints) (t : CallTable)
    (errors : List (Id × Error)) :
    Stages.extract g e { t with errors } = Stages.extract g e t := by
  have hreach : ∀ roots, reachable g roots { t with errors } = reachable g roots t := by
    intro roots
    have hvisit := (Surroundings.of g t).visit_withErrors errors (g.size + 1)
    change ((roots.map Item.function).foldl
      (((Surroundings.of g t).withErrors errors).visit (g.size + 1)) {}).items = _
    rw [hvisit]
    rfl
  unfold extract
  rw [hreach, hreach]

end ShaderScript
