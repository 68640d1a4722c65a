import ShaderScript.Builder
import ShaderScript.Proofs.Compile.Passes
import ShaderScript.Proofs.Graph.Subtree
import ShaderScript.Proofs.Infer.Refusals
import ShaderScript.Proofs.Stage.Raising

/-!
# Refused calls

A call of something unknown, or of a known function that no shader can have, is an error where a
stage contains it and nothing at all where no stage does. That holds of all programs, also of those
in which nodes have several places.

* `Graph.Refuses`: a call cannot stand in a shader, with the error that says so.
* `Definition.nodes`: the nodes that the two programs are made from.
* `Definition.error?_iff_refuses`: on these nodes the table of calls holds back these errors.
* `Definition.compileFrom`, `Definition.compileWith_eq`: a compilation that takes the error it raises
  out of the table.
* **`compile_refuses_iff`**: which error a compilation raises before inference, and what becomes of
  all others.
-/

namespace ShaderScript

open Graph

/-- A call cannot stand in a shader. -/
inductive Graph.Refuses (g : Graph) (i : Id) : Error → Prop
  /-- The callee is neither a function of the program nor listed. -/
  | unlisted {callee : Id} {args : List Id} :
      g.kind i = .call callee args →
      (∀ f ∈ g.functions, ∀ name, g.functionName? f = some name → g.identName? callee ≠ some name) →
      (∀ e ∈ Known.catalog, g.dottedPath? callee ≠ some e.name) →
      g.Refuses i (.notWhitelisted ((g.dottedPath? callee).getD (g.render callee)))
  /-- The callee is no function of the program and listed as one that is rejected. -/
  | rejected {callee : Id} {args : List Id} {path reason : String} {e : Known.Entry} :
      g.kind i = .call callee args →
      (∀ f ∈ g.functions, ∀ name, g.functionName? f = some name → g.identName? callee ≠ some name) →
      g.dottedPath? callee = some path → Known.lookup? path args.length = some e →
      e.form = .reject reason → g.Refuses i (.rejectedCall path reason)

/-! ## Verdicts -/

theorem Known.lookup?_eq_none {path : String} {n : Nat} :
    lookup? path n = none ↔ ∀ e ∈ catalog, e.name ≠ path := by
  unfold lookup?
  rw [Option.or_eq_none_iff, List.head?_eq_none_iff, List.filter_eq_nil_iff]
  constructor
  · rintro ⟨-, h⟩ e he rfl
    exact h e he (beq_self_eq_true _)
  · intro h
    have hnil : ∀ e ∈ catalog, ¬ (e.name == path) = true := fun e he => by
      rw [beq_iff_eq]
      exact h e he
    exact ⟨by rw [List.filter_eq_nil_iff.mpr hnil]; rfl, hnil⟩

namespace Graph

variable {g : Graph} {i callee : Id} {n : Nat} {e : Error}

theorem userFunction?_eq_none : g.userFunction? callee = none ↔
    ∀ f ∈ g.functions, ∀ name, g.functionName? f = some name → g.identName? callee ≠ some name := by
  unfold userFunction? findFunction?
  rw [Option.bind_eq_none_iff]
  constructor
  · intro h f hf name hname hcallee
    have hnone := List.find?_eq_none.mp (h name hcallee) f hf
    exact hnone (beq_iff_eq.mpr hname)
  · intro h name hcallee
    refine List.find?_eq_none.mpr fun f hf hname => ?_
    exact h f hf name (beq_iff_eq.mp hname) hcallee

theorem refuses_iff : g.Refuses i e ↔ (g.verdict? i).bind Verdict.error? = some e := by
  constructor
  · intro h
    cases h with
    | @unlisted callee args hk huser hlist =>
      have hnone : ((g.dottedPath? callee).bind fun path => Known.lookup? path args.length) = none :=
        Option.bind_eq_none_iff.mpr fun path hpath => Known.lookup?_eq_none.mpr fun e he hname =>
          hlist e he (by rw [hname, hpath])
      rw [verdict?, hk, Option.bind_some, verdict, userFunction?_eq_none.mpr huser]
      dsimp only
      rw [hnone]
      rfl
    | @rejected callee args path reason e hk huser hpath hlookup hform =>
      rw [verdict?, hk, Option.bind_some, verdict, userFunction?_eq_none.mpr huser]
      dsimp only
      rw [hpath, Option.bind_some, hlookup]
      obtain ⟨-, rfl⟩ := Known.lookup?_mem hlookup
      obtain ⟨name, params, ret, form⟩ := e
      cases hform
      rfl
  · intro h
    obtain ⟨v, hv, he⟩ := Option.bind_eq_some_iff.mp h
    unfold verdict? at hv
    split at hv
    case h_2 => cases hv
    case h_1 callee args hk =>
      cases hv
      unfold verdict at he
      split at he
      case h_1 => cases he
      case h_2 huser =>
        have huser := userFunction?_eq_none.mp huser
        split at he
        case h_1 entry hentry =>
          obtain ⟨path, hpath, hlookup⟩ := Option.bind_eq_some_iff.mp hentry
          obtain ⟨-, rfl⟩ := Known.lookup?_mem hlookup
          obtain ⟨name, params, ret, form⟩ := entry
          cases form <;> cases he
          exact .rejected hk huser hpath hlookup rfl
        case h_2 hnone =>
          cases he
          refine .unlisted hk huser fun entry hentry hpath => ?_
          rw [hpath, Option.bind_some] at hnone
          exact Known.lookup?_eq_none.mp hnone entry hentry rfl

theorem Refuses.isRefusal (h : g.Refuses i e) : e.isRefusal = true := by
  cases h <;> rfl

theorem Refuses.lt_size (h : g.Refuses i e) : i < g.size := by
  cases h with
  | unlisted hk | rejected hk => exact lt_size_of_kind (hk ▸ nofun)

end Graph

namespace Definition

variable {g : Graph} {d : Definition} {i : Id} {e : Error}

/-- The nodes that the vertex program and then the fragment program are made from, in pre-order. -/
def nodes (d : Definition) : List Id := d.stages.nodes d.desugared

theorem live_of_mem_nodes (hd : ofGraph g = .ok d) (hi : i ∈ d.nodes)
    (hlt : i < d.desugared.size) : i ∈ d.desugared.live := by
  obtain ⟨item, hitem, hnode⟩ := List.mem_flatMap.mp hi
  obtain ⟨root, hroot, hdesc⟩ := List.mem_flatMap.mp hnode
  have hstage : ∃ stage, item ∈ d.itemsOf stage :=
    (List.mem_append.mp hitem).elim (⟨.vertex, ·⟩) (⟨.fragment, ·⟩)
  obtain ⟨stage, hitem⟩ := hstage
  have hbody : root ∈ d.desugared.body := item_body hd hitem (Option.mem_toList.mp hroot)
  obtain ⟨n, -, hbelow⟩ := mem_walk.mp hdesc
  exact (hbelow.cons (body_subset_children hbody)).mem_descendants hlt

/-- **On the nodes of the stages the table holds back the errors of refused calls.** -/
theorem error?_iff_refuses (hd : ofGraph g = .ok d) (hi : i ∈ d.nodes) :
    d.calls.error? i = some e ↔ d.desugared.Refuses i e := by
  rw [calls, CallTable.error?_eq_some, ← refuses_iff]
  exact ⟨And.right, fun h => ⟨live_of_mem_nodes hd hi h.lt_size, h⟩⟩

theorem error?_eq_none_iff (hd : ofGraph g = .ok d) (hi : i ∈ d.nodes) :
    d.calls.error? i = none ↔ ∀ e, ¬ d.desugared.Refuses i e := by
  rw [Option.eq_none_iff_forall_ne_some]
  exact forall_congr' fun e => not_congr (error?_iff_refuses hd hi)

end Definition

/-! ## A compilation that keeps the table up to date -/

namespace Definition

open Compiler

variable (d : Definition)

/-- The passes of a compilation from a table of calls on. An error that is raised is taken out of the
table. -/
def compileFrom (o : Options) (calls : CallTable) : Compiler Shader := do
  let stages := Stages.extract d.desugared d.entries calls
  let (outcome, calls) := (stages.raise d.desugared).run.run calls
  match outcome with
  | .error e => throw e
  | .ok () => d.compileRest o stages calls

theorem compileFrom_eq (o : Options) (calls : CallTable) :
    let stages := Stages.extract d.desugared d.entries calls
    d.compileFrom o calls = match stages.firstError? d.desugared calls with
      | some (_, e) => throw e
      | none => d.compileRest o stages calls := by
  intro stages
  unfold compileFrom
  dsimp only
  rw [Stages.raise_run]
  cases stages.firstError? d.desugared calls <;> rfl

/-- A compilation makes the table and goes on from there. -/
theorem compileWith_eq_compileFrom (o : Options) : d.compileWith o =
    (do report d.flattened.notes; report (CallTable.notes d.desugared); d.compileFrom o d.calls) := by
  rw [compileWith_eq, compileFrom_eq]
  change (do
    report d.flattened.notes
    report (CallTable.notes d.desugared)
    failOn ((d.stages.firstError? d.desugared d.calls).map Prod.snd)
    d.compileRest o d.stages d.calls) = (do
    report d.flattened.notes
    report (CallTable.notes d.desugared)
    match d.stages.firstError? d.desugared d.calls with
      | some (_, e) => throw e
      | none => d.compileRest o d.stages d.calls)
  cases d.stages.firstError? d.desugared d.calls <;> rfl

variable {d}

/-- A compilation ends with the first error held back on a node of the stages, before inference. -/
theorem compile_of_firstError {i : Id} {e : Error} (o : Options)
    (hfirst : d.stages.firstError? d.desugared d.calls = some (i, e)) :
    d.compile o = (.error e, d.flattened.notes ++ CallTable.notes d.desugared) := by
  unfold compile
  rw [compileWith_eq, hfirst]
  rfl

theorem isRefusal_of_compile {e : Error} {o : Options}
    (hfirst : d.stages.firstError? d.desugared d.calls = none) (he : (d.compile o).1 = .error e) :
    e.isRefusal = false := by
  rw [compile_fst, failure?, hfirst, Option.map_none, Option.none_or] at he
  cases hinfer : d.inferred.failure with
  | some e' =>
    rw [hinfer] at he
    cases he
    exact infer_failure_isRefusal hinfer
  | none =>
    rw [hinfer, Option.none_or] at he
    cases hentry : d.entries.toList.findSome? (entryError? d.inferred.graph) with
    | none => rw [hentry] at he; cases he
    | some e' =>
      rw [hentry] at he
      cases he
      obtain ⟨p, -, hp⟩ := List.exists_of_findSome?_eq_some hentry
      unfold entryError? at hp
      split at hp
      case h_2 => cases hp
      case h_1 =>
        dsimp only at hp
        split_ifs at hp
        cases hp
        rfl

theorem compileFrom_errors (o : Options) (errors : List (Id × Error))
    (hsame : ∀ i ∈ d.nodes, errors.lookup i = d.calls.error? i) (notes : List Note) :
    ((d.compileFrom o { d.calls with errors }).run.run notes).1 = (d.compile o).1 := by
  have hfirst : d.stages.firstError? d.desugared { d.calls with errors } =
      d.stages.firstError? d.desugared d.calls := by
    rw [Stages.firstError?_eq, Stages.firstError?_eq]
    exact CallTable.firstOf_congr hsame
  rw [compileFrom_eq, Stages.extract_errors]
  change ((match d.stages.firstError? d.desugared { d.calls with errors } with
    | some (_, e) => throw e
    | none => d.compileRest o d.stages { d.calls with errors }).run.run notes).1 = _
  rw [hfirst]
  cases hf : d.stages.firstError? d.desugared d.calls with
  | some p =>
    rw [compile_of_firstError o hf]
    rfl
  | none =>
    refine (d.returns_compileRest o d.stages { d.calls with errors } notes).trans ?_
    rw [infer_errors, compile_fst, failure?, hf]
    rfl

end Definition

open Definition

/-- **Refused calls are errors exactly where a stage contains them.** A compilation fails with the
error of a refused call if and only if one of the nodes of the stages is a refused call. Then it
fails before inference and with the error of the first such node, in the order of the items and in
pre-order in each, and this one error is taken out of the table. Otherwise the table stays as it is.
What the table holds back on nodes of no stage does not matter. -/
theorem compile_refuses_iff {g : Graph} {d : Definition} (hd : Definition.ofGraph g = .ok d)
    (o : Options) :
    ((∃ e, (d.compile o).1 = .error e ∧ e.isRefusal = true) ↔
      ∃ i ∈ d.nodes, ∃ e, d.desugared.Refuses i e) ∧
    (∀ before i after e, d.nodes = before ++ i :: after →
      (∀ j ∈ before, ∀ e, ¬ d.desugared.Refuses j e) → d.desugared.Refuses i e →
      d.compile o = (.error e, d.flattened.notes ++ CallTable.notes d.desugared) ∧
      ∃ earlier later, d.calls.errors = earlier ++ (i, e) :: later ∧
        (d.stages.raise d.desugared).run.run d.calls =
          (.error e, { d.calls with errors := earlier ++ later })) ∧
    ((∀ i ∈ d.nodes, ∀ e, ¬ d.desugared.Refuses i e) →
      (d.stages.raise d.desugared).run.run d.calls = (.ok (), d.calls)) ∧
    ∀ errors, (∀ i ∈ d.nodes, errors.lookup i = d.calls.error? i) → ∀ notes,
      ((d.compileFrom o { d.calls with errors }).run.run notes).1 = (d.compile o).1 := by
  have hfirst : ∀ before i after e, d.nodes = before ++ i :: after →
      (∀ j ∈ before, ∀ e, ¬ d.desugared.Refuses j e) → d.desugared.Refuses i e →
      d.stages.firstError? d.desugared d.calls = some (i, e) := by
    intro before i after e hnodes hbefore hi
    have hmem : ∀ j ∈ before ++ i :: after, j ∈ d.nodes := fun j hj => hnodes ▸ hj
    refine Stages.firstError?_eq_some.mpr ⟨before, after, hnodes, ?_, fun j hj => ?_⟩
    · exact (error?_iff_refuses hd (hmem i (by simp))).mpr hi
    · exact (error?_eq_none_iff hd (hmem j (List.mem_append_left _ hj))).mpr (hbefore j hj)
  have hnone : (∀ i ∈ d.nodes, ∀ e, ¬ d.desugared.Refuses i e) →
      d.stages.firstError? d.desugared d.calls = none := fun h =>
    Stages.firstError?_eq_none.mpr fun i hi => (error?_eq_none_iff hd hi).mpr (h i hi)
  refine ⟨⟨?_, ?_⟩, ?_, fun h => ?_, fun errors => compileFrom_errors o errors⟩
  · rintro ⟨e, he, hrefusal⟩
    by_contra hno
    have hclear : ∀ i ∈ d.nodes, ∀ e, ¬ d.desugared.Refuses i e := fun i hi e h =>
      hno ⟨i, hi, e, h⟩
    have hother := isRefusal_of_compile (hnone hclear) he
    rw [hrefusal] at hother
    cases hother
  · rintro ⟨i, hi, e, hrefuses⟩
    cases hf : d.stages.firstError? d.desugared d.calls with
    | none =>
      have herror := Stages.firstError?_eq_none.mp hf i hi
      exact absurd hrefuses ((error?_eq_none_iff hd hi).mp herror e)
    | some p =>
      obtain ⟨before, after, hnodes, herror, -⟩ := Stages.firstError?_eq_some.mp hf
      have hp : p.1 ∈ d.stages.nodes d.desugared := by
        rw [hnodes]
        exact List.mem_append_right _ List.mem_cons_self
      have hcompile := compile_of_firstError o hf
      exact ⟨p.2, by rw [hcompile], ((error?_iff_refuses hd hp).mp herror).isRefusal⟩
  · intro before i after e hnodes hbefore hi
    have hf := hfirst before i after e hnodes hbefore hi
    refine ⟨compile_of_firstError o hf, ?_⟩
    obtain ⟨_, _, -, herror, -⟩ := Stages.firstError?_eq_some.mp hf
    obtain ⟨earlier, later, herrors, herase⟩ :=
      CallTable.exists_eraseError (CallTable.nodup_keys_errors d.desugared) herror
    refine ⟨earlier, later, herrors, ?_⟩
    rw [Stages.raise_run, hf]
    exact congrArg (Prod.mk _) herase
  · rw [Stages.raise_run, hnone h]
    rfl

/-- The program `var g = banana(); function VertexPosition() { return 1; }
function FragmentColor() { return Math.random(banana()); }`, with its entry points. -/
def refusedTwice : Definition where
  graph := Build.finish do
    let unread ← Build.call (← Build.ident "banana") []
    Build.statement (← Build.var "g" (some unread))
    let _ ← Build.function "VertexPosition" [] [← Build.ret (some (← Build.num "1"))]
    let banana ← Build.call (← Build.ident "banana") []
    let random ← Build.call (← Build.field (← Build.ident "Math") "random") [banana]
    let _ ← Build.function "FragmentColor" [] [← Build.ret (some random)]
  entries := { vertexPosition := 9, fragmentColor := 19, pointSize := none }

/-- The rejected call is raised, although the program has an earlier call that is not listed, in a
variable that nothing reads, and the call holds one. -/
theorem compile_refuses_iff_refusedTwice :
    let d := refusedTwice
    let e := Error.rejectedCall "Math.random" "shaders have no random number source"
    Definition.ofGraph d.graph = .ok d ∧ d.calls.errors.map Prod.fst = [1, 15, 11] ∧
    (∃ i ∈ d.nodes, ∃ e, d.desugared.Refuses i e) ∧
    d.compile {} = (.error e, [.notWhitelisted "banana", .notWhitelisted "banana"]) ∧
    ∃ earlier later, d.calls.errors = earlier ++ (15, e) :: later ∧
      (d.stages.raise d.desugared).run.run d.calls =
        (.error e, { d.calls with errors := earlier ++ later }) := by
  intro d e
  have hd : Definition.ofGraph d.graph = .ok d := ofGraph_of_locate (by decide +kernel)
  have hkeys : d.calls.errors.map Prod.fst = [1, 15, 11] := by decide +kernel
  have hnodes : d.nodes = [9, 7, 8, 6, 5, 19, 17, 18, 16] ++ 15 :: [14, 12, 13, 11, 10] := by
    decide +kernel
  have hnotes : d.flattened.notes ++ CallTable.notes d.desugared =
      [.notWhitelisted "banana", .notWhitelisted "banana"] := by decide +kernel
  have hrefuses : d.desugared.Refuses 15 e := refuses_iff.mpr (by decide +kernel)
  have hclear : ∀ j ∈ [9, 7, 8, 6, 5, 19, 17, 18, 16],
      (d.desugared.verdict? j).bind Verdict.error? = none := by decide +kernel
  have hbefore : ∀ j ∈ [9, 7, 8, 6, 5, 19, 17, 18, 16], ∀ e, ¬ d.desugared.Refuses j e := by
    intro j hj e h
    rw [refuses_iff, hclear j hj] at h
    cases h
  obtain ⟨hiff, hfirst, -⟩ := compile_refuses_iff hd {}
  obtain ⟨hcompile, htable⟩ := hfirst _ _ _ _ hnodes hbefore hrefuses
  have hsome := hiff.mp ⟨e, by rw [hcompile], rfl⟩
  exact ⟨hd, hkeys, hsome, hcompile.trans (by rw [hnotes]), htable⟩

end ShaderScript
