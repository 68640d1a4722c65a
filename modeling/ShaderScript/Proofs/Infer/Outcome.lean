import ShaderScript.Builder
import ShaderScript.Proofs.Infer.LastResort

/-!
# What inference finds

Inference takes in the evidence, lets it spread, and then applies rules of last resort one at a
time until none is left. By then every node has the type that the reference gives it. Inference
fails on programs that contradict themselves, and blames nothing else for it.

* `ends_apply`: a rule of last resort gives a type to a node that had none.
* `ends_settle`, `ends_solve`: the loop ends at rest with no rule left to apply.
* **`infer_reference`**: inferred types are those of the reference.
* **`infer_failure_blames_evidence`**: what makes inference fail, and what its errors mean.
-/

namespace ShaderScript

namespace Infer

open Solver

section Settling

variable {g : Graph} (h : g.Inferable)

theorem Sound.note {s : State} (hs : Sound g.context s) (n : Note) :
    Sound g.context { s with notes := s.notes.push n } :=
  ⟨hs.size, hs.justified, hs.pending, hs.uniform⟩

theorem Grows.note (s : State) (n : Note) : Grows s { s with notes := s.notes.push n } :=
  ⟨⟨rfl, id, fun _ => rfl, fun _ => rfl⟩, fun _ hi => hi, fun _ hn ht => absurd hn ht, rfl⟩

include h

theorem ends_note_assign {i : Id} {t : Ty} {b : Bool} {n : Note} {s : State} (hi : i ∈ g.live)
    (hs : Sound g.context s) (hn : s.graph.ty? i = none) (ht : g.context.Justified i t) :
    Ends (do note n; assign g.context i t b) s
      (fun _ s' => Sound g.context s' ∧ Grows s s' ∧ s'.untyped < s.untyped)
      g.context.Blamed := by
  refine (ends_modify (Q := fun _ s' => s' = { s with notes := s.notes.push n }) rfl).bind ?_
  rintro _ _ rfl
  refine (ends_assign h hi (hs.note n) ht).mono ?_
  rintro _ s' ⟨hs', hgrow, ht'⟩
  have hall : Grows s s' := (Grows.note s n).trans hgrow
  have hlt : i < s.graph.size := hs.size ▸ h.tree.lt_size hi
  exact ⟨hs', hall, hall.untyped_lt hlt hn (by rw [ht']; exact Option.some_ne_none t)⟩

/-- **A rule of last resort gives a type to a node that had none**, or the program is indexed out
of range. -/
theorem ends_apply {f : Fallback} {s : State} (hs : Sound g.context s) (hf : f.Grounded g s) :
    Ends (f.apply g.context) s
      (fun _ s' => Sound g.context s' ∧ Grows s s' ∧ s'.untyped < s.untyped)
      g.context.Blamed := by
  cases f with
  | widen i k =>
    obtain ⟨hi, hn, hseed, hk⟩ := hf
    unfold Fallback.apply
    apply ends_get_bind
    cases ht : Ty.forIndex? k with
    | none => exact ends_throw ⟨forIndex?_eq_none_iff.mp ht, i, hi, hseed, hk.1⟩
    | some t => exact ends_note_assign h hi hs hn (.inr ⟨hseed, .widened hseed hk ht⟩)
  | hint i t =>
    obtain ⟨hi, hn, hseed, ht⟩ := hf
    unfold Fallback.apply
    apply ends_get_bind
    exact ends_note_assign h hi hs hn (.inr ⟨hseed, ht⟩)
  | guess i t =>
    obtain ⟨hi, hn, hseed, ht⟩ := hf
    unfold Fallback.apply
    apply ends_get_bind
    exact ends_note_assign h hi hs hn (.inr ⟨hseed, ht⟩)

theorem ends_drain_rested {s : State} (hs : Sound g.context s)
    (hset : Settled g.context s.pending s) (hg : Gathered g s) (hwork : s.work ≤ g.size) :
    Ends (drain g.context) s (fun _ s' => Rested g s' ∧ Keeps s s') g.context.Blamed := by
  refine (ends_drain h hs hset hwork).mono ?_
  rintro _ s' ⟨hs', hp, hset', hk⟩
  exact ⟨⟨hs', hp, hset', hg.keeps hk⟩, hk⟩

/-- **Settling ends at rest, with no rule left to apply.** Each round gives a type to at least one
node, so as many rounds as there are nodes without type are enough. -/
theorem ends_settle {n : Nat} {s : State} (hs : Sound g.context s)
    (hset : Settled g.context s.pending s) (hg : Gathered g s) (hwork : s.work ≤ g.size)
    (hn : s.untyped ≤ n) :
    Ends (settle g.context n) s
      (fun _ s' => Rested g s' ∧ g.context.fallback? s'.graph = none) g.context.Blamed := by
  induction n generalizing s with
  | zero =>
    refine (ends_drain_rested h hs hset hg hwork).mono ?_
    rintro _ s' ⟨hr, hk⟩
    have hle := hk.untyped_le
    have hsize : s'.graph.size = g.size := hr.sound.size
    exact ⟨hr, fallback?_eq_none (fun i hi => hsize ▸ h.tree.lt_size hi) (by omega)⟩
  | succ n ih =>
    unfold settle
    refine (ends_drain_rested h hs hset hg hwork).bind ?_
    rintro _ s₁ ⟨hr, hk⟩
    apply ends_get_bind
    cases hf : g.context.fallback? s₁.graph with
    | none => exact ends_pure ⟨hr, hf⟩
    | some f =>
      refine (ends_apply h hr.sound (hr.grounded h hf)).bind ?_
      rintro _ s₂ ⟨hs₂, hgrow, hlt⟩
      have hle := hk.untyped_le
      have hwork₁ : s₁.work ≤ g.size := by
        have hsize : s₁.graph.size = g.size := hr.sound.size
        unfold State.work
        rw [hr.pending, List.length_nil, Nat.zero_add, ← hsize]
        exact State.untyped_le_size
      have hset₁ : Settled g.context ([] ++ s₁.pending) s₁ := by
        rw [hr.pending]
        exact hr.settled
      exact ih hs₂ (hset₁.grows hgrow) (hr.gathered.keeps hgrow.toKeeps)
        (hgrow.work ▸ hwork₁) (by omega)

/-- **The whole of inference** ends at rest with no rule left to apply, or with an error that the
program is to blame for. -/
theorem ends_solve : Ends (solve g.context) { graph := g }
    (fun _ s => Rested g s ∧ g.context.fallback? s.graph = none) g.context.Blamed := by
  unfold solve
  refine (ends_seed h).bind ?_
  rintro _ s ⟨hs, hset, hg, hwork⟩
  refine ends_settle h hs hset hg hwork (State.untyped_le_size.trans ?_)
  exact hs.size.le

theorem infer_cases :
    (∃ s, (infer g (CallTable.resolve g)).failure = none ∧
      (infer g (CallTable.resolve g)).graph = s.graph ∧ Rested g s ∧
      g.context.fallback? s.graph = none) ∨
    ∃ e, (infer g (CallTable.resolve g)).failure = some e ∧ g.context.Blamed e := by
  have hends := ends_solve h
  unfold Ends at hends
  rw [infer, show Context.of g (CallTable.resolve g) = g.context from rfl]
  generalize (solve g.context).run.run { graph := g } = out at hends
  rcases out with ⟨e | _, s⟩
  · exact .inr ⟨e, rfl, hends⟩
  · exact .inl ⟨s, rfl, rfl, hends⟩

end Settling

end Infer

open Infer

variable {g : Graph}

/-- **Inferred types are those of the reference.** When inference succeeds, the nodes of a class
have one type or none: the type of its evidence, else the smallest one that has its largest literal
position, else its first hint, else a number if any of its nodes needs a type. -/
theorem infer_reference (h : g.Inferable)
    (hok : (infer g (CallTable.resolve g)).failure = none) {i : Id} (hi : i ∈ g.live) :
    (∀ j, g.context.Same i j → (infer g (CallTable.resolve g)).graph.ty? j =
      (infer g (CallTable.resolve g)).graph.ty? i) ∧
    g.context.Reference i ((infer g (CallTable.resolve g)).graph.ty? i) := by
  rcases infer_cases h with ⟨s, -, hgraph, hr, hf⟩ | ⟨e, he, -⟩
  · rw [hgraph]
    exact ⟨fun j hij => (hr.ty?_congr h hij).symm, hr.reference h hf hi⟩
  · rw [he] at hok
    cases hok

/-- The program `function f(v) { return v[2]; } var a; f(a);`. -/
def indexedInCallee : Graph := Build.finish do
  let v ← Build.ident "v"
  let access ← Build.index (← Build.ident "v") (← Build.num "2")
  let block ← Build.node (.block [← Build.node (.ret (some access))])
  Build.statement (← Build.node (.function (← Build.ident "f") [v] block))
  let a ← Build.node (.declarator (← Build.ident "a") none)
  Build.statement (← Build.node (.varDecl [a]))
  let call ← Build.node (.call (← Build.ident "f") [← Build.ident "a"])
  Build.statement (← Build.node (.exprStmt call))

/-- The variable is as wide as its callee indexes it. -/
theorem infer_reference_indexedInCallee :
    indexedInCallee.Inferable ∧
    (infer indexedInCallee (CallTable.resolve indexedInCallee)).failure = none ∧
    8 ∈ indexedInCallee.live ∧
    indexedInCallee.context.Reference 8 (some .vec3) := by
  have h : indexedInCallee.Inferable := by decide +kernel
  have hok : (infer indexedInCallee (CallTable.resolve indexedInCallee)).failure = none := by
    decide +kernel
  have hi : 8 ∈ indexedInCallee.live := by decide +kernel
  have hty : (infer indexedInCallee (CallTable.resolve indexedInCallee)).graph.ty? 8 =
      some .vec3 := by decide +kernel
  exact ⟨h, hok, hi, hty ▸ (infer_reference h hok hi).2⟩

/-- **Inference fails on conflicting evidence, and for a contradiction on nothing else.** An index
is out of range only in a class without evidence. -/
theorem infer_failure_blames_evidence (h : g.Inferable) :
    (g.context.Conflict → (infer g (CallTable.resolve g)).failure ≠ none) ∧
    (∀ node t u, (infer g (CallTable.resolve g)).failure = some (.typeContradiction node t u) →
      g.context.Conflict) ∧
    ∀ node k, (infer g (CallTable.resolve g)).failure = some (.indexOutOfRange node k) →
      g.context.OutOfRange k := by
  rcases infer_cases h with ⟨s, hok, -, hr, -⟩ | ⟨e, he, hblamed⟩
  · rw [hok]
    refine ⟨?_, fun _ _ _ he => (by cases he), fun _ _ he => (by cases he)⟩
    rintro ⟨i, j, t, u, hij, ht, hu, hne⟩
    have htu : some t = some u := by
      rw [← hr.gathered.seed ht, ← hr.gathered.seed hu, hr.ty?_congr h hij]
    exact absurd (Option.some.inj htu) hne
  · rw [he]
    refine ⟨fun _ => Option.some_ne_none e, fun node t u heq => ?_, fun node k heq => ?_⟩
    · obtain rfl := Option.some.inj heq
      exact hblamed
    · obtain rfl := Option.some.inj heq
      exact hblamed

/-- The program `var a = [1, 1]; a = [1, 1, 1];`. -/
def twoWidths : Graph := Build.finish do
  let one := Build.num "1"
  let pair ← Build.node (.array [← one, ← one])
  let a ← Build.node (.declarator (← Build.ident "a") (some pair))
  Build.statement (← Build.node (.varDecl [a]))
  let triple ← Build.node (.array [← one, ← one, ← one])
  let assign ← Build.assign .set (← Build.ident "a") triple
  Build.statement (← Build.node (.exprStmt assign))

/-- A variable cannot hold vectors of two widths. -/
theorem infer_failure_blames_evidence_twoWidths :
    twoWidths.Inferable ∧ twoWidths.context.Conflict ∧
    (infer twoWidths (CallTable.resolve twoWidths)).failure ≠ none := by
  have h : twoWidths.Inferable := by decide +kernel
  have live : ∀ i ∈ [2, 4, 9, 11], i ∈ twoWidths.context.order := by decide +kernel
  have hinit : twoWidths.context.Joined 3 2 :=
    .declarator (live 4 (by decide))
      (show twoWidths.context.graph.kind 4 = .declarator 3 (some 2) by decide +kernel)
  have hvar : twoWidths.context.Same 3 10 := by
    refine Context.same_of_mem_occurrences ?_ ?_ <;> decide +kernel
  have hset : twoWidths.context.Joined 10 9 :=
    .assignRight (live 11 (by decide))
      (show twoWidths.context.graph.kind 11 = .assign .set 10 9 by decide +kernel)
  have hpair : twoWidths.context.Seed 2 .vec2 :=
    .array (live 2 (by decide))
      (show twoWidths.context.graph.kind 2 = .array [0, 1] by decide +kernel) rfl
  have htriple : twoWidths.context.Seed 9 .vec3 :=
    .array (live 9 (by decide))
      (show twoWidths.context.graph.kind 9 = .array [6, 7, 8] by decide +kernel) rfl
  have hconflict : twoWidths.context.Conflict :=
    ⟨2, 9, .vec2, .vec3, hinit.same.symm.trans (hvar.trans hset.same), hpair, htriple, by decide⟩
  exact ⟨h, hconflict, (infer_failure_blames_evidence h).1 hconflict⟩

end ShaderScript
