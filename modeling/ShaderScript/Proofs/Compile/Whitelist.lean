import ShaderScript.Builder
import ShaderScript.Proofs.Compile.Passes

/-!
# Calls that reach a shader

A program may call its own functions and known ones. Calls of anything else are found when the
table of calls is made, but it takes several passes to keep them out of a shader.

* `Known.undotted_of_keep`, `Graph.kind_of_dottedPath?`: a call that is left as it stands goes
  through an identifier.
* `Admitted`: a call that a stage can have.
* `Definition.admitted`: every call of an item is admitted.
* `Definition.plainCall_lowered`: no call goes through anything but an identifier in the end.
* **`compile_whitelisted`**: both, for every program that compiles.
-/

namespace ShaderScript

open Graph

theorem Known.undotted_of_keep {e : Known.Entry} (he : e ∈ Known.catalog) (hk : e.form = .keep) :
    '.' ∉ e.name.toList := by
  have hall : ∀ e ∈ Known.catalog, e.form = .keep → '.' ∉ e.name.toList := by decide +kernel
  exact hall e he hk

theorem Graph.kind_of_dottedPath? {g : Graph} {i : Id} {path : String}
    (h : g.dottedPath? i = some path) (hp : '.' ∉ path.toList) : g.kind i = .ident path := by
  unfold dottedPath? at h
  cases hn : g.size with
  | zero => rw [hn] at h; cases h
  | succ n =>
    rw [hn] at h
    unfold pathTo at h
    split at h
    case h_1 name hk =>
      cases h
      exact hk
    case h_2 object property hk =>
      obtain ⟨head, -, h⟩ := Option.bind_eq_some_iff.mp h
      obtain ⟨tail, -, h⟩ := Option.bind_eq_some_iff.mp h
      cases h
      refine absurd ?_ hp
      simp
    case h_3 => cases h

/-- A call that a stage can have: of a function of the program whose name one of the items has, or
of a known function that is not refused, with the right number of arguments. -/
def Admitted (g : Graph) (items : List Item) (c : Id) (args : List Id) : Prop :=
  (∃ f name, (CallTable.resolve g).target? c = some (.user f) ∧ f ∈ g.functions ∧
    g.functionName? f = some name ∧ ∃ b ∈ items, b.mark? g = some (.inl name)) ∨
  ∃ e, (CallTable.resolve g).target? c = some (.known e) ∧ e.form.isReject = false ∧
    args.length = e.arity

namespace Definition

variable {g : Graph} {d : Definition} (hd : ofGraph g = .ok d) (h : g.IsTree)
  {stage : Stage} {item : Item} {i c callee : Id} {args : List Id}

theorem error?_eq_none (hfirst : d.stages.firstError? d.desugared d.calls = none)
    (hitem : item ∈ d.itemsOf stage) (hi : item.node? = some i)
    (hc : c ∈ d.desugared.descendants i) : d.calls.error? c = none := by
  have hmem : item ∈ d.stages.items := by
    refine List.mem_append.mpr ?_
    cases stage with
    | vertex => exact .inl hitem
    | fragment => exact .inr hitem
  have hnone := List.findSome?_eq_none_iff.mp hfirst item hmem
  rw [hi, Option.bind_some] at hnone
  exact Option.map_eq_none_iff.mp (List.findSome?_eq_none_iff.mp hnone c hc)

include hd h in
theorem item_live (hitem : item ∈ d.itemsOf stage) (hi : item.node? = some i) :
    i ∈ d.desugared.live :=
  (isTree_desugared hd h).body_live (item_body hd hitem hi)

include hd h in
theorem admitted (hfirst : d.stages.firstError? d.desugared d.calls = none)
    (hok : d.inferred.failure = none) (hitem : item ∈ d.itemsOf stage) (hi : item.node? = some i)
    (hc : c ∈ d.desugared.descendants i) (hk : d.desugared.kind c = .call callee args) :
    Admitted d.desugared (d.itemsOf stage) c args := by
  have ht := isTree_desugared hd h
  have hcl : c ∈ d.desugared.live := by
    obtain ⟨n, hn⟩ := (ht.mem_descendants_iff (item_live hd h hitem hi)).mp hc
    exact ht.live_of_below (item_live hd h hitem hi) hn
  have hverdict : d.desugared.verdict? c = some (d.desugared.verdict callee args.length) := by
    rw [verdict?, hk]
  have herror : (d.desugared.verdict callee args.length).error? = none := by
    cases he : (d.desugared.verdict callee args.length).error? with
    | none => rfl
    | some e =>
      have hsome : d.calls.error? c = some e :=
        CallTable.error?_eq_some.mpr ⟨hcl, by rw [hverdict, Option.bind_some, he]⟩
      rw [error?_eq_none hfirst hitem hi hc] at hsome
      cases hsome
  have target : ∀ t, d.desugared.verdict callee args.length = .target t →
      (CallTable.resolve d.desugared).target? c = some t := by
    intro t hv
    exact CallTable.target?_eq_some.mpr ⟨hcl, by rw [hverdict, hv]; rfl⟩
  cases hv : d.desugared.verdict callee args.length with
  | unlisted => rw [hv] at herror; cases herror
  | target t =>
    cases t with
    | user f =>
      obtain ⟨name, -, hf, hname⟩ := verdict_user hv
      have hneeds : d.desugared.Needs item (.function f) := .call hi hc hk (target _ hv)
      exact .inl ⟨f, name, target _ hv, hf, hname,
        exists_mark_of_needs hitem hneeds (by rw [Item.mark?, hname]; rfl)⟩
    | known e =>
      refine .inr ⟨e, target _ hv, ?_, ?_⟩
      · rw [hv] at herror
        obtain ⟨name, params, ret, form⟩ := e
        cases form <;> first | rfl | cases herror
      · refine (infer_attached hok).2 c hcl e callee args ?_ hk
        unfold CallTable.known?
        rw [show d.calls.target? c = some (.known e) from target _ hv]

include hd h in
/-- What lies below a node after lowering and was there before, was below the node before. -/
theorem mem_descendants_of_lowered (hok : d.inferred.failure = none) (hil : i ∈ d.desugared.live)
    (hc : c ∈ d.lowered.descendants i) (hlt : c < d.desugared.size) :
    c ∈ d.desugared.descendants i := by
  have hs := (changed_inferred hok).sameShape
  have ht := isTree_inferred hd h hok
  obtain ⟨owner, hg⟩ := (callsLowered_lowered hd h hok).lowered.grown
  have hilt : i < d.inferred.graph.size := by
    rw [hs.size]
    exact (isTree_desugared hd h).lt_size hil
  obtain ⟨n, -, hn⟩ := mem_walk.mp hc
  obtain ⟨-, m, hm⟩ := hg.below ht (by rw [hg.old i hilt, hs.live]; exact hil) hn
  rw [hg.old i hilt, hg.old c (by rw [hs.size]; exact hlt)] at hm
  exact ((isTree_desugared hd h).mem_descendants_iff hil).mpr ⟨m, hs.below hm⟩

include hd h in
/-- **Below an item every call goes through an identifier in the end.** -/
theorem plainCall_lowered (hfirst : d.stages.firstError? d.desugared d.calls = none)
    (hok : d.inferred.failure = none) (hitem : item ∈ d.itemsOf stage) (hi : item.node? = some i)
    (hc : c ∈ d.lowered.descendants i) : d.lowered.PlainCall c := by
  have hs := (changed_inferred hok).sameShape
  have hlow := callsLowered_lowered hd h hok
  rcases hlow.lowered.plain c with hsame | hplain
  swap
  · exact hplain
  intro callee args hk
  -- the call was there before, so the stage admits it
  rw [hsame, hs.kind] at hk
  have hcd := mem_descendants_of_lowered hd h hok (item_live hd h hitem hi) hc
    (lt_size_of_kind (hk ▸ nofun))
  have ident : ∀ {name}, d.desugared.kind callee = .ident name →
      ∃ name, d.lowered.kind callee = .ident name := by
    intro name hname
    refine ⟨name, ?_⟩
    rw [hlow.lowered.other callee (by rw [hs.size]; exact lt_size_of_kind (hname ▸ nofun))
      (by rw [hs.kind, hname]; rfl), hs.kind, hname]
  rcases admitted hd h hfirst hok hitem hi hcd hk with ⟨f, name, ht, -⟩ | ⟨e, ht, hreject, hlen⟩
  · obtain ⟨-, callee', args', hk', hv⟩ := CallTable.target?_call ht
    rw [hk] at hk'
    cases hk'
    obtain ⟨name, hname, -⟩ := verdict_user hv
    exact ident (identName?_eq_some.mp hname)
  · obtain ⟨-, callee', args', hk', hv⟩ := CallTable.target?_call ht
    rw [hk] at hk'
    cases hk'
    obtain ⟨he, hpath⟩ := verdict_known hv
    by_cases hkeep : e.form = .keep
    · exact ident (kind_of_dottedPath? hpath (Known.undotted_of_keep he hkeep))
    · have htakes := Known.takes_arity he hkeep hreject
      refine (hlow.written c e callee args (CallTable.mem_targets.mpr ht) ((hs.kind c).trans hk)
        ⟨hlen, hlen ▸ htakes⟩).plain callee args ?_
      rw [hsame, hs.kind, hk]

end Definition

/-- **Only listed calls reach a shader.** In a program that compiles, every call of an item is
admitted by its stage, and in the end every call below an item goes through an identifier. -/
theorem compile_whitelisted {g : Graph} (h : g.IsTree) {d : Definition}
    (hd : Definition.ofGraph g = .ok d) {o : Options} {s : Shader} (hs : (d.compile o).1 = .ok s)
    (stage : Stage) {item : Item} (hitem : item ∈ d.itemsOf stage) {i : Id}
    (hi : item.node? = some i) :
    (∀ c ∈ d.desugared.descendants i, ∀ callee args, d.desugared.kind c = .call callee args →
      Admitted d.desugared (d.itemsOf stage) c args) ∧
    ∀ c ∈ d.lowered.descendants i, d.lowered.PlainCall c := by
  obtain ⟨hfirst, hok⟩ := d.failure?_of_compile hs
  exact ⟨fun c hc callee args hk => d.admitted hd h hfirst hok hitem hi hc hk,
    fun c hc => d.plainCall_lowered hd h hfirst hok hitem hi hc⟩

/-- The program `function VertexPosition() { return turned(Math.sin(1)); }
function turned(x) { return vec4(x, x, x, 1); } function FragmentColor() { return [1, 1, 1, 1]; }`,
with its entry points. -/
def nestedCalls : Definition where
  graph := Build.finish do
    let angle ← Build.call (← Build.field (← Build.ident "Math") "sin") [← Build.num "1"]
    let turned ← Build.call (← Build.ident "turned") [angle]
    let _ ← Build.function "VertexPosition" [] [← Build.ret (some turned)]
    let parts ← ["x", "x", "x"].mapM Build.ident
    let vec ← Build.call (← Build.ident "vec4") (parts ++ [← Build.num "1"])
    let _ ← Build.function "turned" ["x"] [← Build.ret (some vec)]
    let ones ← (List.replicate 4 "1").mapM Build.num
    let _ ← Build.function "FragmentColor" [] [← Build.ret (some (← Build.array ones))]
  entries := { vertexPosition := 10, fragmentColor := 30, pointSize := none }

/-- The call of the sine is admitted, and has lost its object in the end. -/
theorem compile_whitelisted_nestedCalls :
    Definition.ofGraph nestedCalls.graph = .ok nestedCalls ∧ nestedCalls.graph.IsTree ∧
    (∃ s, (nestedCalls.compile {}).1 = .ok s) ∧ .function 10 ∈ nestedCalls.itemsOf .vertex ∧
    4 ∈ nestedCalls.desugared.descendants 10 ∧ nestedCalls.desugared.kind 4 = .call 2 [3] ∧
    Admitted nestedCalls.desugared (nestedCalls.itemsOf .vertex) 4 [3] ∧
    4 ∈ nestedCalls.lowered.descendants 10 ∧ nestedCalls.lowered.PlainCall 4 := by
  have h : nestedCalls.graph.IsTree := by decide +kernel
  have hd : Definition.ofGraph nestedCalls.graph = .ok nestedCalls :=
    Definition.ofGraph_of_locate (by decide +kernel)
  have hs := nestedCalls.compile_of_failure? (o := {}) (by decide +kernel)
  have hitem : .function 10 ∈ nestedCalls.itemsOf .vertex := by decide +kernel
  have hc : 4 ∈ nestedCalls.desugared.descendants 10 := by decide +kernel
  have hk : nestedCalls.desugared.kind 4 = .call 2 [3] := by decide +kernel
  have hl : 4 ∈ nestedCalls.lowered.descendants 10 := by decide +kernel
  obtain ⟨hadmitted, hplain⟩ := compile_whitelisted h hd hs .vertex hitem rfl
  exact ⟨hd, h, ⟨_, hs⟩, hitem, hc, hk, hadmitted 4 hc 2 [3] hk, hl, hplain 4 hl⟩

end ShaderScript
