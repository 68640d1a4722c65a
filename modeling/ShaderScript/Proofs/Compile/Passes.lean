import ShaderScript.Compile
import ShaderScript.Proofs.Flatten.Marks
import ShaderScript.Proofs.Infer.Shape
import ShaderScript.Proofs.Lower.Blocks
import ShaderScript.Proofs.Names.Free
import ShaderScript.Proofs.Stage.Closure

/-!
# The passes of a compilation

Compiling goes through a handful of programs, each made from the one before. They get names here,
and the result of a compilation is said in terms of them.

* `Definition.desugared`, `Definition.inferred`, `Definition.lowered`, `Definition.printed`: the
  programs.
* `Definition.compileRest`: the passes that come after refused calls have been looked for.
* `Definition.compile_fst`: a compilation fails for the first of three reasons or prints the last
  of the programs.
* `Graph.reachable_body`: the items of a stage are statements of the program.
* `Graph.dottedPath?_of_dropsCallee`, `Graph.below_dropsOut_iff`: which callees and arguments lose
  their places.
* **`Graph.callsLowered_lowered`**, `Graph.routed_lowered`, `Graph.isTree_lowered`: what lowering does
  to a program.
* `Definition.isTree_desugared`, `Definition.changed_inferred`, `Definition.renames_printed`: what
  the other passes do to it.
-/

namespace ShaderScript

namespace Definition

variable (d : Definition)

/-! ## The programs -/

/-- The program after flattening. -/
def flattened : Flattened := flatten d.graph d.entries

/-- The flat program with the expected types of the entry points. -/
def desugared : Graph := d.entries.attachHints d.flattened.graph

/-- The calls of the flat program. -/
def calls : CallTable := .resolve d.desugared

/-- The items of both stages. -/
def stages : Stages := .extract d.desugared d.entries d.calls

/-- The flat program with types. -/
def inferred : Inferred := infer d.desugared d.calls

/-- The program in the shading language, with marked names. -/
def lowered : Graph :=
  (d.inferred.graph.lowerDiscards d.entries.fragmentColor).lowerCalls d.calls

/-- The program under its final names, with the declarations of its inputs. -/
def named : Graph × List FieldDecl :=
  bareNames d.lowered (d.flattened.fields.declarations d.lowered)

/-- The program that is printed. -/
def printed : Graph := d.named.1

/-- Why there is no shader: a call that no stage can have, a failed inference, or an entry point of
a type that its stage cannot take. -/
def failure? : Option Error :=
  ((d.stages.firstError? d.desugared d.calls).map Prod.snd).or
    (d.inferred.failure.or (d.entries.toList.findSome? (entryError? d.inferred.graph)))

/-- The functions that a stage starts from. -/
def roots : Stage → List Id
  | .vertex => d.entries.vertexStage
  | .fragment => d.entries.fragmentStage

/-- The items of a stage. -/
def itemsOf (stage : Stage) : List Item := reachable d.desugared (d.roots stage) d.calls

end Definition

/-! ## The result -/

/-- What a step of a compilation returns, whatever notes there are so far. -/
def Compiler.Returns {α : Type} (m : Compiler α) (r : Except Error α) : Prop :=
  ∀ notes, (m.run.run notes).1 = r

namespace Compiler

variable {α : Type}

theorem returns_report_bind (ns : List Note) {f : Unit → Compiler α} {r : Except Error α}
    (h : Returns (f ()) r) : Returns (report ns >>= f) r := fun notes => h (notes ++ ns)

theorem returns_failOn_bind (e : Option Error) {f : Unit → Compiler α} {r : Except Error α}
    (h : Returns (f ()) r) :
    Returns (failOn e >>= f) (match e with | some e => .error e | none => r) := by
  cases e with
  | none => exact h
  | some e => exact fun _ => rfl

theorem returns_report_if (c : Prop) [Decidable c] (ns : List Note) {f : Unit → Compiler α}
    {r : Except Error α} (h : Returns (f ()) r) :
    Returns (if c then report ns >>= f else f ()) r := by
  split_ifs
  · exact returns_report_bind ns h
  · exact h

end Compiler

namespace Definition

variable (d : Definition)

open Compiler

/-- The passes that come after refused calls have been looked for. -/
def compileRest (o : Options) (stages : Stages) (calls : CallTable) : Compiler Shader := do
  if !calls.errors.isEmpty then report [.callsUnchecked calls.errors.length]
  let inferred := infer d.desugared calls
  report inferred.notes
  failOn inferred.failure
  failOn (d.entries.toList.findSome? (entryError? inferred.graph))
  let g := (inferred.graph.lowerDiscards d.entries.fragmentColor).lowerCalls calls
  let (g, decls) := bareNames g (d.flattened.fields.declarations g)
  let shader := emit g d.entries o decls stages
  report [.emitted shader.vertex.utf8ByteSize shader.fragment.utf8ByteSize]
  return shader

theorem compileWith_eq (o : Options) : d.compileWith o = (do
    report d.flattened.notes
    report (CallTable.notes d.desugared)
    failOn ((d.stages.firstError? d.desugared d.calls).map Prod.snd)
    d.compileRest o d.stages d.calls) := rfl

theorem returns_compileRest (o : Options) (stages : Stages) (calls : CallTable) :
    let inferred := infer d.desugared calls
    let g := (inferred.graph.lowerDiscards d.entries.fragmentColor).lowerCalls calls
    let named := bareNames g (d.flattened.fields.declarations g)
    Returns (d.compileRest o stages calls)
      (match inferred.failure.or (d.entries.toList.findSome? (entryError? inferred.graph)) with
      | some e => .error e
      | none => .ok (emit named.1 d.entries o named.2 stages)) := by
  intro inferred g named
  refine returns_report_if _ _ (returns_report_bind _ ?_)
  cases inferred.failure with
  | some e => exact fun _ => rfl
  | none =>
    dsimp only
    cases d.entries.toList.findSome? (entryError? inferred.graph) with
    | some e => exact fun _ => rfl
    | none =>
      refine returns_failOn_bind none (returns_failOn_bind none ?_)
      exact returns_report_bind _ fun _ => rfl

/-- **A compilation fails for the first of three reasons or prints the last of the programs.** -/
theorem compile_fst (o : Options) : (d.compile o).1 = match d.failure? with
    | some e => .error e
    | none => .ok (emit d.printed d.entries o d.named.2 d.stages) := by
  have hreturns : Returns (d.compileWith o)
      (match (d.stages.firstError? d.desugared d.calls).map Prod.snd with
      | some e => .error e
      | none => match d.inferred.failure.or
            (d.entries.toList.findSome? (entryError? d.inferred.graph)) with
        | some e => .error e
        | none => .ok (emit d.printed d.entries o d.named.2 d.stages)) := by
    rw [compileWith_eq]
    refine returns_report_bind _ (returns_report_bind _ (returns_failOn_bind _ ?_))
    exact d.returns_compileRest o d.stages d.calls
  refine (hreturns []).trans ?_
  unfold failure?
  cases (d.stages.firstError? d.desugared d.calls).map Prod.snd <;> rfl

theorem compile_of_failure? {o : Options} (hf : d.failure? = none) :
    (d.compile o).1 = .ok (emit d.printed d.entries o d.named.2 d.stages) := by
  rw [compile_fst, hf]

theorem failure?_of_compile {o : Options} {s : Shader} (hs : (d.compile o).1 = .ok s) :
    d.stages.firstError? d.desugared d.calls = none ∧ d.inferred.failure = none := by
  rw [compile_fst] at hs
  cases hf : d.failure? with
  | some e => rw [hf] at hs; cases hs
  | none =>
    obtain ⟨hfirst, hrest⟩ := Option.or_eq_none_iff.mp hf
    exact ⟨Option.map_eq_none_iff.mp hfirst, (Option.or_eq_none_iff.mp hrest).1⟩

end Definition

/-! ## What the passes do -/

open Graph

theorem EntryPoints.changed_attachHints (e : EntryPoints) (g : Graph) :
    Changed (· = ·) g (e.attachHints g) := by
  refine Changed.foldl (r := (· = ·)) id (fun _ => rfl) (fun hk hk' => hk.trans hk') fun x p _ => ?_
  change Changed (· = ·) x (attachHint x p)
  unfold attachHint
  split
  case h_2 => exact .refl (fun _ => rfl) x
  case h_1 name _ _ _ =>
    refine ⟨rfl, size_modify _ _ _, fun j => ?_, fun j => ?_⟩
    · refine node_modify_congr x _ Node.parent ?_ name j
      exact fun _ => rfl
    · refine (node_modify_congr x _ Node.kind ?_ name j).symm
      exact fun _ => rfl

theorem Graph.Changed.sameShape {g g' : Graph} (h : Changed (· = ·) g g') : SameShape g g' :=
  ⟨h.root, h.size, fun i => (h.kind i).symm⟩

theorem EntryPoints.locate_functions {g : Graph} {e : EntryPoints} (h : locate g = .ok e) :
    ∀ f ∈ e.vertexStage ++ e.fragmentStage, f ∈ g.functions := by
  have found : ∀ {name f}, g.findFunction? name = some f → f ∈ g.functions := fun hf =>
    List.mem_of_find?_eq_some hf
  unfold locate at h
  split at h
  case h_1 => cases h
  case h_2 vertex hv =>
    split at h
    case h_1 => cases h
    case h_2 fragment hfr =>
      cases h
      intro f hf
      simp only [vertexStage, fragmentStage, List.mem_append, List.mem_cons, Option.mem_toList,
        List.not_mem_nil, or_false] at hf
      rcases hf with (rfl | hf) | rfl
      · exact found hv
      · exact found hf
      · exact found hfr

/-- What lowering puts into another form: returns, the blocks that hold them, and calls. -/
def Kind.isLowerable (k : Kind) : Bool := k.isExit || k.isCall

theorem Kind.isLowerable_spec (k : Kind) (hk : k.isLowerable = true) :
    k.isLasting = false ∧ k.isIdent = false := by
  cases k <;> first | exact ⟨rfl, rfl⟩ | cases hk

theorem Kind.isLowerable_of_isCall (k : Kind) (hk : k.isCall = true) : k.isLowerable = true := by
  rw [isLowerable, hk, Bool.or_true]

theorem Kind.isCall_spec (k : Kind) (hk : k.isCall = true) :
    k.isLasting = false ∧ k.isIdent = false := k.isLowerable_spec (k.isLowerable_of_isCall hk)

/-! ## Lowering -/

namespace Graph

variable {g : Graph}

/-- A flat program in the shading language, with marked names, from the function of the color on. -/
def lowered (g : Graph) (color : Id) : Graph :=
  ((infer g (.resolve g)).graph.lowerDiscards color).lowerCalls (.resolve g)

/-- **The items that functions need are statements of the program.** -/
theorem reachable_body {roots : List Id} (hroots : ∀ f ∈ roots, f ∈ g.functions) {item : Item}
    {i : Id} (hitem : item ∈ reachable g roots (.resolve g)) (hi : item.node? = some i) :
    i ∈ g.body := by
  rcases mem_reachable hitem with ⟨f, hf, rfl⟩ | ⟨a, -, hneeds⟩
  · cases hi
    exact (mem_functions.mp (hroots i hf)).1
  · cases hneeds with
    | call _ _ _ ht =>
      cases hi
      obtain ⟨-, _, _, -, hv⟩ := CallTable.target?_call ht
      obtain ⟨_, -, hf, -⟩ := verdict_user hv
      exact (mem_functions.mp hf).1
    | helper => cases hi
    | read _ _ _ _ hlast =>
      cases hi
      obtain ⟨before, after, hbody, -, -⟩ := hlast
      rw [hbody]
      exact List.mem_append_right _ List.mem_cons_self

theorem target_call {c : Id} {t : Target} (hct : (c, t) ∈ (CallTable.resolve g).targets) :
    c ∈ g.live ∧ (∃ callee args, g.kind c = .call callee args) ∧
      ∀ e, t = .known e → e ∈ Known.catalog := by
  obtain ⟨hc, callee, args, hk, hv⟩ := CallTable.target?_call (CallTable.mem_targets.mp hct)
  refine ⟨hc, ⟨callee, args, hk⟩, ?_⟩
  rintro e rfl
  exact (verdict_known hv).1

/-- A callee that loses its place is the path of a known function. -/
theorem dottedPath?_of_dropsCallee {k : Graph} {c q : Id} (hs : SameShape g k)
    (hdrops : DropsCallee k (CallTable.resolve g).targets c q) :
    ∃ e ∈ Known.catalog, g.dottedPath? q = some e.name := by
  obtain ⟨e, args, hmem, hk, -⟩ := hdrops
  obtain ⟨-, callee, args', hk', hv⟩ := CallTable.target?_call (CallTable.mem_targets.mp hmem)
  rw [hs.kind, hk'] at hk
  cases hk
  exact ⟨e, verdict_known hv⟩

/-- **What is part of an argument that loses its place**: the form of a call would assign the result
there, and that cannot be assigned. -/
theorem below_dropsOut_iff {k : Graph} {i : Id} (ht : g.IsTree) (hs : SameShape g k)
    (harity : ∀ c ∈ g.live, ∀ e callee args, (CallTable.resolve g).known? c = some e →
      g.kind c = .call callee args → args.length = e.arity) :
    (∃ c ∈ k.live, ∃ q n, DropsOut k (CallTable.resolve g).targets c q ∧ k.Below q n i) ↔
      ∃ c e callee out rest, (CallTable.resolve g).target? c = some (.known e) ∧
        g.kind c = .call callee (out :: rest) ∧ e.form.isOut = true ∧
        g.isAssignable out = false ∧ i ∈ g.descendants out := by
  have part_live : ∀ {c callee out rest}, c ∈ g.live → g.kind c = .call callee (out :: rest) →
      out ∈ g.live := by
    intro c callee out rest hc hk
    refine ht.child_live hc ?_
    rw [children, hk]
    exact List.mem_cons_of_mem _ List.mem_cons_self
  constructor
  · rintro ⟨c, hc, q, n, ⟨e, callee, rest, hmem, hk, -, hout, hna⟩, hn⟩
    rw [hs.live] at hc
    rw [hs.kind] at hk
    rw [hs.isAssignable] at hna
    exact ⟨c, e, callee, q, rest, CallTable.mem_targets.mp hmem, hk, hout, hna,
      (ht.mem_descendants_iff (part_live hc hk)).mpr ⟨n, hs.below hn⟩⟩
  · rintro ⟨c, e, callee, out, rest, htarget, hk, hout, hna, hi⟩
    have hmem := CallTable.mem_targets.mpr htarget
    obtain ⟨hc, -, he⟩ := target_call hmem
    obtain ⟨n, hn⟩ := (ht.mem_descendants_iff (part_live hc hk)).mp hi
    have hlen := harity c hc e callee _ (CallTable.known?_eq_some.mpr htarget) hk
    have hputs : e.Puts (out :: rest) :=
      Known.Entry.puts (he e rfl) hlen (Known.Form.isWritten_of_isOut hout)
    refine ⟨c, hs.live ▸ hc, out, n, ⟨e, callee, rest, hmem, ?_, hputs, hout, ?_⟩, hs.symm.below hn⟩
    · rw [hs.kind, hk]
    · rw [hs.isAssignable, hna]

variable {color : Id} (h : g.IsTree) (hcolor : color ∈ g.live)
  (hok : (infer g (.resolve g)).failure = none)

include h hok

theorem isTree_infer : (infer g (.resolve g)).graph.IsTree :=
  (infer_attached hok).1.renamed_of_eq.isTree_of_renamed h

omit h in
theorem target_call_infer {q : Id × Target} (hq : q ∈ (CallTable.resolve g).targets) :
    q.1 ∈ (infer g (.resolve g)).graph.live ∧
      (∃ callee args, (infer g (.resolve g)).graph.kind q.1 = .call callee args) ∧
      ∀ e, q.2 = .known e → e ∈ Known.catalog := by
  have hs := (infer_attached hok).1.sameShape
  obtain ⟨hc, ⟨callee, args, hk⟩, he⟩ := target_call hq
  exact ⟨hs.live ▸ hc, ⟨callee, args, (hs.kind q.1).trans hk⟩, he⟩

/-- Every call of a known function is written in its form, if nothing else is lowered. -/
theorem callsLowered_lowerCalls : CallsLowered Kind.isCall (infer g (.resolve g)).graph
    ((infer g (.resolve g)).graph.lowerCalls (.resolve g)) (CallTable.resolve g).targets := by
  have ht := isTree_infer h hok
  refine ((CallsLowered.start ht).foldl Kind.isCall_spec (fun _ => id) ?_ fun q hq => ?_).sameShape
    (sameShape_link _)
  · exact CallTable.nodup_keys_targets g
  · obtain ⟨hc, hk, he⟩ := target_call_infer hok hq
    exact ⟨hc, ht.lt_size hc, hk, he⟩

include hcolor

theorem callsLowered_lowerDiscards : CallsLowered Kind.isLowerable (infer g (.resolve g)).graph
    ((infer g (.resolve g)).graph.lowerDiscards color) [] := by
  have hs := (infer_attached hok).1.sameShape
  have hexit := lowered_lowerDiscards (isTree_infer h hok) (f := color) (by rwa [hs.live])
  refine ⟨hexit.mono fun k hk => ?_, fun i callee args hi _ => ?_, fun _ _ _ _ hmem => by cases hmem⟩
  · rw [Kind.isLowerable, hk]
    rfl
  · exact hexit.other i (lt_size_of_kind (hi ▸ nofun)) (by rw [hi]; rfl)

/-- **Every call of a known function is written in its form.** -/
theorem callsLowered_lowered : CallsLowered Kind.isLowerable (infer g (.resolve g)).graph
    (g.lowered color) (CallTable.resolve g).targets := by
  refine ((callsLowered_lowerDiscards h hcolor hok).foldl Kind.isLowerable_spec
    Kind.isLowerable_of_isCall ?_ fun q hq => ?_).sameShape (sameShape_link _)
  · exact CallTable.nodup_keys_targets g
  · obtain ⟨hc, hk, he⟩ := target_call_infer hok hq
    exact ⟨hc, (isTree_infer h hok).lt_size hc, hk, he⟩

/-- One gets to every node of the program, but for those that have lost their place. -/
theorem routed_lowered : Routed (infer g (.resolve g)).graph (g.lowered color)
    (CallTable.resolve g).targets := by
  have ht := isTree_infer h hok
  have hlive : color ∈ (infer g (.resolve g)).graph.live := by
    rwa [(infer_attached hok).1.sameShape.live]
  have start : Routed (infer g (.resolve g)).graph
      ((infer g (.resolve g)).graph.lowerDiscards color) [] := by
    refine ⟨fun c _ p hp _ _ => .inl (children_lowerDiscards ht hlive hp), fun c _ p hdrops => ?_⟩
    obtain ⟨_, _, _, hmem, -⟩ := hdrops
    cases hmem
  refine (start.foldl ht Kind.isLowerable_spec Kind.isLowerable_of_isCall
    (callsLowered_lowerDiscards h hcolor hok) ?_ fun q hq => target_call_infer hok hq).sameShape
      (sameShape_link _)
  exact CallTable.nodup_keys_targets g

theorem isTree_lowered : (g.lowered color).IsTree := by
  obtain ⟨owner, hg⟩ := (callsLowered_lowered h hcolor hok).lowered.grown
  unfold lowered lowerCalls at hg ⊢
  exact ((hg.sameShape (sameShape_link _).symm).unshared (isTree_infer h hok)).isTree_link

theorem mem_body_lowered {i : Id} (hi : i ∈ g.body) : i ∈ (g.lowered color).body := by
  have hlow := (callsLowered_lowered h hcolor hok).lowered
  have hs := (infer_attached hok).1.sameShape
  have hkind : ∀ body, g.kind g.root = .program body →
      (g.lowered color).kind (g.lowered color).root = .program body := by
    intro body hk
    rw [hlow.root, hs.root, hlow.other _ ?_ ?_, hs.kind, hk]
    · rw [hs.size]
      exact h.root_lt
    · rw [hs.kind, hk]
      rfl
  unfold body at hi ⊢
  split at hi
  case h_1 body hk =>
    rw [hkind body hk]
    exact hi
  case h_2 => cases hi

end Graph

namespace Definition

variable {g : Graph} {d : Definition}

theorem ofGraph_eq_ok (hd : ofGraph g = .ok d) :
    d.graph = g ∧ EntryPoints.locate g = .ok d.entries := by
  unfold ofGraph at hd
  split at hd
  case h_1 e he =>
    cases hd
    exact ⟨rfl, he⟩
  case h_2 => cases hd

theorem ofGraph_of_locate (he : EntryPoints.locate d.graph = .ok d.entries) :
    ofGraph d.graph = .ok d := by
  unfold ofGraph
  rw [he]

section Trees

variable (hd : ofGraph g = .ok d)

include hd

theorem changed_desugared :
    Changed Kind.Renamed (g.flat d.entries) d.desugared := by
  unfold desugared flattened
  rw [(ofGraph_eq_ok hd).1, flatten_graph]
  refine (marked_marked (g.flat d.entries)).changed.trans .trans ?_
  exact (EntryPoints.changed_attachHints d.entries _).renamed_of_eq

theorem root_desugared : d.desugared.root = g.root :=
  (changed_desugared hd).root.trans (root_flat g d.entries)

theorem mem_body_desugared {i : Id} (hi : i ∈ g.body) : i ∈ d.desugared.body := by
  have hkind : ∀ body, g.kind g.root = .program body → d.desugared.kind g.root = .program body := by
    intro body hk
    have hflat := kind_flat g d.entries g.root
    rw [hk] at hflat
    refine ((changed_desugared hd).kind_eq_iff g.root rfl).mpr ?_
    generalize (g.flat d.entries).kind g.root = k at hflat ⊢
    cases hflat
    rfl
  unfold body at hi ⊢
  rw [root_desugared hd]
  split at hi
  case h_1 body hk =>
    rw [hkind body hk]
    exact hi
  case h_2 => cases hi

theorem mem_functions_desugared {f : Id} (hf : f ∈ g.functions) : f ∈ d.desugared.functions := by
  obtain ⟨hbody, hfun⟩ := mem_functions.mp hf
  refine mem_functions.mpr ⟨mem_body_desugared hd hbody, ?_⟩
  unfold isFunction at hfun ⊢
  have hflat := kind_flat g d.entries f
  have hren := (changed_desugared hd).kind f
  generalize g.kind f = k, (g.flat d.entries).kind f = k', d.desugared.kind f = k''
    at hfun hflat hren ⊢
  cases hflat <;> cases hren <;> exact hfun

theorem roots_functions (stage : Stage) : ∀ f ∈ d.roots stage, f ∈ d.desugared.functions := by
  intro f hf
  refine mem_functions_desugared hd
    (EntryPoints.locate_functions (ofGraph_eq_ok hd).2 f (List.mem_append.mpr ?_))
  cases stage with
  | vertex => exact .inl hf
  | fragment => exact .inr hf

/-- **The items of a stage are statements of the program.** -/
theorem item_body {stage : Stage} {item : Item} {i : Id} (hitem : item ∈ d.itemsOf stage)
    (hi : item.node? = some i) : i ∈ d.desugared.body :=
  reachable_body (roots_functions hd stage) hitem hi

variable (h : g.IsTree)

include h

theorem isTree_desugared : d.desugared.IsTree :=
  (changed_desugared hd).isTree_of_renamed (isTree_flat h d.entries)

theorem color_live : d.entries.fragmentColor ∈ d.desugared.live := by
  refine (isTree_desugared hd h).body_live (mem_functions.mp ?_).1
  exact roots_functions hd .fragment _ List.mem_cons_self

variable (hok : d.inferred.failure = none)

omit hd h in
include hok in
theorem changed_inferred : Changed (· = ·) d.desugared d.inferred.graph := (infer_attached hok).1

include hok

theorem isTree_inferred : d.inferred.graph.IsTree := isTree_infer (isTree_desugared hd h) hok

theorem callsLowered_lowered :
    CallsLowered Kind.isLowerable d.inferred.graph d.lowered d.calls.targets :=
  Graph.callsLowered_lowered (isTree_desugared hd h) (color_live hd h) hok

theorem routed_lowered : Routed d.inferred.graph d.lowered d.calls.targets :=
  Graph.routed_lowered (isTree_desugared hd h) (color_live hd h) hok

theorem isTree_lowered : d.lowered.IsTree :=
  Graph.isTree_lowered (isTree_desugared hd h) (color_live hd h) hok

theorem mem_body_lowered {i : Id} (hi : i ∈ d.desugared.body) : i ∈ d.lowered.body :=
  Graph.mem_body_lowered (isTree_desugared hd h) (color_live hd h) hok hi

theorem identName?_lowered {i : Id} {name : String} (hi : d.desugared.identName? i = some name) :
    d.lowered.identName? i = some name := by
  have hs := (changed_inferred hok).sameShape
  rw [identName?_eq_some, ← hs.kind] at hi
  rw [identName?_eq_some, (callsLowered_lowered hd h hok).lowered.other i
    (lt_size_of_kind (hi ▸ nofun)) (by rw [hi]; rfl), hi]

omit hd h hok in
theorem renames_printed : Naming.Renames d.lowered d.printed :=
  renames_bareNames _ (BucketFields.declarations_name _ _)

end Trees

end Definition

end ShaderScript
