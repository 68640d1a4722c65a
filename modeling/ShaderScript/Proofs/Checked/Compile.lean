import ShaderScript.Estree.Intake
import ShaderScript.Proofs.Checked.Flatten
import ShaderScript.Proofs.Checked.Infer
import ShaderScript.Proofs.Checked.Lower
import ShaderScript.Proofs.Checked.Names
import ShaderScript.Proofs.Checked.Program
import ShaderScript.Proofs.Compile.Passes
import ShaderScript.Proofs.Estree.Unshared

/-!
# Compilation without faults

A document is decoded and its nodes are added one after the other, which looks no node up. What
comes after that, from linking parents to printing the two programs, goes by numbers and positions.
The program of a document is closed, and every pass hands a closed program on to the next. So no
number and no position is ever wrong.

* `Checked.Matches`: a compilation that goes as the one without checks does.
* `Checked.compile_eq`: a closed program compiles without a fault.
* **`Checked.compileJson_eq`**: and so does every document, whatever it holds.
-/

namespace ShaderScript

/-- The shader of the program that a JSON value holds, with the notes on the way to it. -/
def compileJson (v : Json) (o : Options) : Except Error Shader × List Note :=
  match Estree.ofJson v with
  | .error e => (.error (.source e), [])
  | .ok g =>
    match Definition.ofGraph g with
    | .error e => (.error e, [])
    | .ok d => d.compile o

namespace Checked

/-! ## Documents -/

/-- The program with the given statements. -/
def ofStatements (body : List Estree.Node) : Checked (Except Estree.Error Graph) := do
  match (Estree.statements body).run {} with
  | .error e => return .error e
  | .ok (body, draft) =>
    return .ok (← link { nodes := draft.nodes.push { kind := .program body },
                         root := draft.nodes.size })

/-- The program that a JSON value holds. -/
def ofJson (v : Json) : Checked (Except Estree.Error Graph) := do
  match Estree.firstUnsupported? v with
  | some t => return .error (.unsupportedNode t)
  | none =>
    match Estree.decode? v with
    | none => return .error .wrongShape
    | some (.program body) => ofStatements body
    | some _ =>
      return .error (.notAProgram (((v.field? "type").bind Json.text?).getD "a non-node"))

/-- Finds the entry points of a program. -/
def ofGraph (g : Graph) : Checked (Except Error Definition) := do
  match ← locate g with
  | .ok entries => return .ok ⟨g, entries⟩
  | .error p => return .error (.missingEntryPoint p)

/-! ## Passes -/

/-- A computation that reports notes, may fail, and stops at a fault. -/
abbrev Compiler := ExceptT Error (StateT (List Note) Checked)

/-- Reports notes. -/
def report (notes : List Note) : Compiler Unit := modifyThe (List Note) (· ++ notes)

/-- Fails with an error, if there is one. -/
def failOn : Option Error → Compiler Unit
  | some e => throw e
  | none => pure ()

/-- Compiles a program, pass by pass. -/
def compileWith (d : Definition) (o : Options) : Compiler Shader := do
  let e := d.entries
  let r ← Registry.build
  let flat ← flatten d.graph e
  report flat.notes
  let g ← attachHints flat.graph e
  let calls ← resolveCalls g r
  report (← callNotes g r)
  let stages ← extract g e calls
  failOn ((← firstError? g calls stages).map Prod.snd)
  if !calls.errors.isEmpty then report [.callsUnchecked calls.errors.length]
  let inferred ← infer g calls
  report inferred.notes
  failOn inferred.failure
  let misfit ← (e.toList.findSomeM? (entryError? inferred.graph) : Checked (Option Error))
  failOn misfit
  let g ← lowerCalls (← lowerDiscards inferred.graph e.fragmentColor) calls
  let (g, decls) ← bareNames g (← declarations g flat.fields)
  let shader ← emit g e o decls stages
  report [.emitted shader.vertex.utf8ByteSize shader.fragment.utf8ByteSize]
  return shader

/-- The shader of a program, with the notes on the way to it. -/
def compile (d : Definition) (o : Options) : Checked (Except Error Shader × List Note) :=
  (compileWith d o).run.run []

/-- The shader of the program that a JSON value holds, with the notes on the way to it. -/
def compileJson (v : Json) (o : Options) : Checked (Except Error Shader × List Note) := do
  match ← ofJson v with
  | .error e => return (.error (.source e), [])
  | .ok g =>
    match ← ofGraph g with
    | .error e => return (.error e, [])
    | .ok d => compile d o

/-! ## The graph of a document -/

theorem closed_program {d : Draft} (h : d.graph.Sown d.body) : Graph.Closed
    { nodes := d.nodes.push { kind := .program d.body }, root := d.nodes.size } where
  root_lt := (d.sown_program h).loose_lt _ (List.mem_singleton_self _)
  child_lt hc := ((d.sown_program h).child_lt _ _ hc).trans (Graph.lt_size_of_mem_children hc)
  parent_lt {i p} hp := by
    unfold Graph.parent? at hp
    rw [(d.sown_program h).bare] at hp
    cases hp

theorem closed_ofJson {v : Json} {g : Graph} (hg : Estree.ofJson v = .ok g) : g.Closed := by
  obtain ⟨d, hd, rfl⟩ := Estree.exists_draft_ofJson hg
  exact (closed_program hd).link

theorem ofStatements_eq (body : List Estree.Node) :
    ofStatements body = .ok (Estree.ofStatements body) := by
  have hmodel : Estree.ofStatements body = ((Estree.statements body).run {} >>= fun r =>
    .ok ({ r.2 with body := r.1 } : Draft).finish) := rfl
  unfold ofStatements
  rw [hmodel]
  cases hrun : (Estree.statements body).run {} with
  | error e => rfl
  | ok r =>
    obtain ⟨body', draft⟩ := r
    have hsown : draft.graph.Sown body' :=
      Estree.sows_statements [] body {} (.empty rfl) body' draft hrun
    dsimp only
    rw [link_eq (@closed_program { draft with body := body' } hsown).toInRange]
    rfl

/-- **No step of reading a document fails.** -/
theorem ofJson_eq (v : Json) : ofJson v = .ok (Estree.ofJson v) := by
  unfold ofJson Estree.ofJson
  cases Estree.firstUnsupported? v with
  | some t => rfl
  | none =>
    dsimp only
    cases Estree.decode? v with
    | none => rfl
    | some n =>
      cases n
      case program body => exact ofStatements_eq body
      all_goals rfl

theorem ofGraph_eq {g : Graph} (h : g.InRange) : ofGraph g = .ok (Definition.ofGraph g) := by
  unfold ofGraph Definition.ofGraph
  rw [locate_eq h, ok_bind]
  cases EntryPoints.locate g <;> rfl

/-! ## Compilations that agree -/

section Matches

variable {α β : Type}

/-- The computation goes as the one without checks does, whatever has been reported. -/
def Matches (m' : Compiler α) (m : ShaderScript.Compiler α) : Prop :=
  ∀ notes, m'.run.run notes = .ok (m.run.run notes)

theorem matches_pure (a : α) : Matches (pure a) (pure a) := fun _ => rfl

theorem matches_report (notes : List Note) : Matches (report notes) (ShaderScript.report notes) :=
  fun _ => rfl

theorem matches_failOn (e : Option Error) : Matches (failOn e) (ShaderScript.failOn e) := by
  cases e <;> exact fun _ => rfl

/-- A step that looks something up and finds it. -/
theorem matches_lift {x : Checked α} {a : α} {f' : α → Compiler β} {m : ShaderScript.Compiler β}
    (hx : x = .ok a) (h : Matches (f' a) m) : Matches (liftM x >>= f') m := by
  subst hx
  exact h

theorem Matches.bind {m' : Compiler α} {m : ShaderScript.Compiler α} {f' : α → Compiler β}
    {f : α → ShaderScript.Compiler β} (hm : Matches m' m) (hf : ∀ a, Matches (f' a) (f a)) :
    Matches (m' >>= f') (m >>= f) := by
  intro notes
  rw [ExceptT.run_bind, ExceptT.run_bind, StateT.run_bind, StateT.run_bind, hm notes, ok_bind]
  rcases m.run.run notes with ⟨e | a, notes'⟩
  · rfl
  · exact hf a notes'

theorem matches_report_if (c : Prop) [Decidable c] (notes : List Note) {f' : Unit → Compiler α}
    {f : Unit → ShaderScript.Compiler α} (h : Matches (f' ()) (f ())) :
    Matches (if c then report notes >>= f' else f' ())
      (if c then ShaderScript.report notes >>= f else f ()) := by
  split_ifs
  · exact (matches_report notes).bind fun _ => h
  · exact h

theorem matches_emitted {named : Graph × List FieldDecl} {e : EntryPoints} {o : Options}
    {stages : Stages} (h : emit named.1 e o named.2 stages =
      .ok (ShaderScript.emit named.1 e o named.2 stages)) :
    Matches
      (match named with
      | (g, decls) => do
        let shader ← emit g e o decls stages
        report [.emitted shader.vertex.utf8ByteSize shader.fragment.utf8ByteSize]
        return shader)
      (match named with
      | (g, decls) =>
        let shader := ShaderScript.emit g e o decls stages
        do
        ShaderScript.report [.emitted shader.vertex.utf8ByteSize shader.fragment.utf8ByteSize]
        return shader) := by
  obtain ⟨g, decls⟩ := named
  exact matches_lift h ((matches_report _).bind fun _ => matches_pure _)

end Matches

/-! ## Compilation -/

section Passes

variable {d : Definition} (h : d.graph.Closed) (he : ∀ p ∈ d.entries.toList, p.2 < d.graph.size)

include h he

theorem covers_flattened : d.flattened.graph.Covers d.graph.size := (flatten_ok h he).2

theorem covers_desugared : d.desugared.Covers d.graph.size :=
  (attachHints_ok (covers_flattened h he) he).2

theorem covers_inferred : d.inferred.graph.Covers d.graph.size := by
  have hc := covers_desugared h he
  exact hc.size_eq ▸ (infer_eq hc.toClosed).2

theorem targets_lt {p : Id × Target} (hp : p ∈ d.calls.targets) :
    p.1 < d.graph.size ∧ ∀ e, p.2 = .known e → e ∈ Known.catalog := by
  have hc := covers_desugared h he
  obtain ⟨hlive, -, hknown⟩ := Graph.target_call hp
  exact ⟨hc.size_eq ▸ hc.toInRange.lt_size hlive, hknown⟩

omit h in
theorem color_lt : d.entries.fragmentColor < d.graph.size :=
  fragmentStage_lt he (List.mem_singleton_self _)

theorem located_desugared : ∀ p ∈ d.entries.toList, p.2 < d.desugared.size :=
  fun p hp => (covers_desugared h he).lt_size (he p hp)

theorem stages_lt {item : Item} (hitem : item ∈ d.stages.items) : InGraph d.desugared item := by
  unfold Definition.stages Definition.calls at hitem
  exact items_lt (located_desugared h he) (covers_desugared h he).toInRange hitem

theorem lowered_ok :
    lowerDiscards d.inferred.graph d.entries.fragmentColor =
        .ok (d.inferred.graph.lowerDiscards d.entries.fragmentColor) ∧
      lowerCalls (d.inferred.graph.lowerDiscards d.entries.fragmentColor) d.calls =
        .ok d.lowered ∧ d.lowered.Spans d.graph.size := by
  have hinferred := covers_inferred h he
  obtain ⟨hdiscards, spans⟩ :=
    lowerDiscards_ok hinferred.toClosed (hinferred.lt_size (color_lt he))
  rw [hinferred.size_eq] at spans
  exact ⟨hdiscards, lowerCalls_ok spans fun p hp => targets_lt h he hp⟩

theorem printed_ok : bareNames d.lowered (d.flattened.fields.declarations d.lowered) = .ok d.named ∧
    d.printed.Spans d.graph.size := by
  have hlowered := (lowered_ok h he).2.2
  obtain ⟨hnames, hprinted⟩ := bareNames_ok hlowered.toClosed.covers
    (d.flattened.fields.declarations d.lowered)
  exact ⟨hnames, hprinted.toClosed, hlowered.le_size.trans hprinted.size_eq.ge⟩

theorem emit_printed (o : Options) : emit d.printed d.entries o d.named.2 d.stages =
    .ok (ShaderScript.emit d.printed d.entries o d.named.2 d.stages) := by
  have hprinted := (printed_ok h he).2
  refine emit_eq hprinted.toClosed (fun p hp => hprinted.lt_size (he p hp)) _ ?_
  intro item hitem i hi
  refine hprinted.lt_size ?_
  rw [← (covers_desugared h he).size_eq]
  exact stages_lt h he hitem i hi

/-- **A closed program with its entry points compiles without a fault.** -/
theorem compile_eq (o : Options) : compile d o = .ok (d.compile o) := by
  have hdesugared := covers_desugared h he
  have hlocated := located_desugared h he
  have hinferred := covers_inferred h he
  obtain ⟨hdiscards, hcalls, hlowered⟩ := lowered_ok h he
  have hmatches : Matches (compileWith d o) (d.compileWith o) := by
    refine matches_lift Registry.build_eq ?_
    refine matches_lift (flatten_ok h he).1 ?_
    refine (matches_report _).bind fun _ => ?_
    refine matches_lift (attachHints_ok (covers_flattened h he) he).1 ?_
    refine matches_lift (resolveCalls_eq hdesugared.toClosed) ?_
    refine matches_lift (callNotes_eq hdesugared.toClosed) ?_
    refine (matches_report _).bind fun _ => ?_
    refine matches_lift (extract_eq hdesugared.toClosed hlocated) ?_
    refine matches_lift (firstError?_eq hdesugared.toClosed hlocated _) ?_
    refine (matches_failOn _).bind fun _ => ?_
    refine matches_report_if _ _ ?_
    refine matches_lift (infer_eq hdesugared.toClosed).1 ?_
    refine (matches_report _).bind fun _ => ?_
    refine (matches_failOn _).bind fun _ => ?_
    refine matches_lift (findSomeM?_ok fun p hp =>
      entryError?_eq hinferred.toClosed (hinferred.lt_size (he p hp))) ?_
    refine (matches_failOn _).bind fun _ => ?_
    refine matches_lift hdiscards ?_
    refine matches_lift hcalls ?_
    refine matches_lift (declarations_eq hlowered.toInRange _) ?_
    refine matches_lift (printed_ok h he).1 ?_
    exact matches_emitted (emit_printed h he o)
  exact hmatches []

end Passes

/-- **Every document compiles without a fault.** No number that is looked up is without a node, no
call lacks an operand, no variable a binding, no block a place for a discard and no text the
boundary at which it is cut. -/
theorem compileJson_eq (v : Json) (o : Options) :
    compileJson v o = .ok (ShaderScript.compileJson v o) := by
  unfold compileJson ShaderScript.compileJson
  rw [ofJson_eq, ok_bind]
  cases hv : Estree.ofJson v with
  | error e => rfl
  | ok g =>
    have hg := closed_ofJson hv
    dsimp only
    rw [ofGraph_eq hg.toInRange, ok_bind]
    cases hd : Definition.ofGraph g with
    | error e => rfl
    | ok d =>
      obtain ⟨rfl, hentries⟩ := Definition.ofGraph_eq_ok hd
      exact compile_eq hg (fun _ hp => locate_lt hg.toInRange hentries hp) o

end Checked

end ShaderScript
