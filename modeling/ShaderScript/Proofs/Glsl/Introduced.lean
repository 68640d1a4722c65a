import ShaderScript.Builder
import ShaderScript.Proofs.Glsl.Within
import ShaderScript.Proofs.Infer.Again
import ShaderScript.Proofs.Renumber.Compact
import ShaderScript.Proofs.Renumber.Infer

/-!
# The types that variables are introduced under

A signature, a statement and the head of a loop introduce variables. A head writes one type for all
that it lists, and it takes the type of the first without looking at the others.

* `Glsl.Introduces`: a line introduces a variable under a type.
* `Graph.Declaration`: which node declares a variable, and `Graph.introLine`: the line that it
  begins with in a function.
* `Graph.HeadShows`: the type that is written in the head of a loop.
* `Graph.introduces_signature`, `Graph.IsTree.introduces_declarator`: what is in a signature or a
  statement is introduced under its type.
* **`Graph.IsTree.introduces_head_iff`**: what is in a head is exactly if the head shows its type.
* `Graph.IsTree.within_introLine`: the line of a declaration is in the text of the function.
* `Graph.IsTree.exists_ty`: inference gives a type to every identifier that needs one.
* **`introduces_inferred_iff`**: the variables of a function are in its text, and which of them are
  under the type that inference gave them.
* `introduces_mixedHead`: a loop that introduces a pair of numbers as a number.
-/

namespace ShaderScript

open Graph

/-! ## Lines that introduce variables -/

namespace Glsl

/-- What may follow a name that is introduced: nothing, or an initial value. -/
def IsInitial (rest : String) : Prop := rest = "" ∨ ∃ value, rest = " = " ++ value

/-- The line introduces a variable under a type: it is a declaration of it, the head of a loop with
that type before all that it lists, or a signature with that type before the variable. -/
inductive Introduces (t : Ty) (name : String) : String → Prop
  | statement {rest : String} : IsInitial rest →
      Introduces t name (t.name ++ " " ++ (name ++ rest) ++ ";")
  | head {parts : List String} {rest tail : String} : IsInitial rest → name ++ rest ∈ parts →
      Introduces t name ("for (" ++ (t.name ++ " " ++ commaList parts) ++ "; " ++ tail)
  | param {ret function qualifier : String} {params : List String} :
      (ret = "void" ∨ ∃ u : Ty, ret = u.name) → (qualifier = "" ∨ qualifier = "out ") →
      qualifier ++ t.name ++ " " ++ name ∈ params →
      Introduces t name (ret ++ " " ++ function ++ "(" ++ commaList params ++ ") \x7b")

/-! ### Reading the type -/

theorem eq_of_append_space {x y r r' : String} (hx : ' ' ∉ x.toList) (hy : ' ' ∉ y.toList)
    (he : x ++ " " ++ r = y ++ " " ++ r') : x = y := by
  have before : ∀ {z : String} (r : String), ' ' ∉ z.toList →
      (z ++ " " ++ r).toList.takeWhile (· != ' ') = z.toList := by
    intro z r hz
    have hall : ∀ c ∈ z.toList, (c != ' ') = true := fun c hc => by
      rw [bne_iff_ne]
      rintro rfl
      exact hz hc
    rw [String.toList_append, String.toList_append, List.append_assoc,
      List.takeWhile_append_of_pos hall]
    simp
  rw [← String.toList_inj, ← before r hx, ← before r' hy, he]

theorem name_injective : Function.Injective Ty.name := by
  intro t u he
  cases t <;> cases u <;> first | rfl | exact absurd he (by decide)

theorem declaredType_inj {g : Graph} {i : Id} {t : Ty} :
    declaredType g i = t.name ↔ (g.ty? i).getD .float = t := name_injective.eq_iff

theorem leads_iff {t : Ty} {first rest : String} {c : Char} (hc : c = ',' ∨ c = ';') :
    (∃ more, first ++ c.toString ++ rest = t.name ++ " " ++ more) ↔
      ∃ more, first = t.name ++ " " ++ more := by
  have hlead : c ∉ t.name.toList ++ [' '] := by
    rcases hc with rfl | rfl <;> cases t <;> decide
  constructor
  · rintro ⟨more, he⟩
    have hlists : (t.name.toList ++ [' ']) ++ more.toList = first.toList ++ (c :: rest.toList) := by
      simpa using (congrArg String.toList he).symm
    rcases List.append_eq_append_iff.mp hlists with ⟨a, hfirst, -⟩ | ⟨a, hstart, hrest⟩
    · refine ⟨String.ofList a, ?_⟩
      rw [← String.toList_inj]
      simpa using hfirst
    · cases a with
      | nil =>
        refine ⟨"", ?_⟩
        rw [← String.toList_inj]
        simpa using hstart.symm
      | cons b a =>
        obtain rfl : c = b := (List.cons.inj hrest).1
        exact absurd (hstart ▸ List.mem_append_right _ List.mem_cons_self) hlead
  · rintro ⟨more, rfl⟩
    exact ⟨more ++ c.toString ++ rest, by simp only [String.append_assoc]⟩

theorem exists_commaList (first : String) (later : List String) (tail : String) :
    ∃ (c : Char) (rest : String), (c = ',' ∨ c = ';') ∧
      commaList (first :: later) ++ "; " ++ tail = first ++ c.toString ++ rest := by
  have hsemicolon : "; " = ';'.toString ++ " " := rfl
  have hcomma : ", " = ','.toString ++ " " := rfl
  cases later with
  | nil =>
    refine ⟨';', " " ++ tail, .inr rfl, ?_⟩
    rw [commaList, String.intercalate_singleton, hsemicolon]
    simp only [String.append_assoc]
  | cons second later =>
    refine ⟨',', " " ++ commaList (second :: later) ++ "; " ++ tail, .inl rfl, ?_⟩
    rw [commaList, String.intercalate_cons_cons, ← commaList, hcomma]
    simp only [String.append_assoc]

theorem name_ne_for (t : Ty) : t.name ≠ "for" := by cases t <;> decide

theorem Introduces.leads {t : Ty} {name rest : String}
    (h : Introduces t name ("for (" ++ rest)) : ∃ more, rest = t.name ++ " " ++ more := by
  generalize hline : "for (" ++ rest = line at h
  have hfor : ∀ {x more : String}, ' ' ∉ x.toList → "for (" ++ rest = x ++ " " ++ more →
      x = "for" := by
    intro x more hx he
    have hspace : "for" ++ " " ++ ("(" ++ rest) = x ++ " " ++ more := by
      rw [← he, ← String.append_assoc]
      rfl
    exact (eq_of_append_space (by decide) hx hspace).symm
  cases h with
  | statement =>
    rw [String.append_assoc] at hline
    exact absurd (hfor (space_notMem_name t) hline) (name_ne_for t)
  | @head parts _ tail =>
    refine ⟨commaList parts ++ "; " ++ tail, ?_⟩
    simp only [String.append_assoc, String.append_right_inj] at hline ⊢
    exact hline
  | @param ret _ _ _ hret =>
    simp only [String.append_assoc] at hline
    have hspace : ' ' ∉ ret.toList := by
      obtain rfl | ⟨u, rfl⟩ := hret
      · decide
      · exact space_notMem_name u
    rw [← String.append_assoc] at hline
    obtain rfl | ⟨u, rfl⟩ := hret
    · exact absurd (hfor hspace hline) (by decide)
    · exact absurd (hfor hspace hline) (name_ne_for u)

end Glsl

/-! ## Declarations -/

namespace Graph

variable {g : Graph} {a f j : Id} {t : Ty} {name indent : String}

/-- Node `a` declares `j`: it is a function with that parameter, a loop with a declarator of it in
its head, or a declarator of it in another place. -/
inductive Declaration (g : Graph) (a j : Id) : Prop
  | param {name body : Id} {params : List Id} :
      g.kind a = .function name params body → j ∈ params → Declaration g a j
  | head {c : Id} {init : Option Id} :
      c ∈ g.headParts a → g.kind c = .declarator j init → Declaration g a j
  | statement {init : Option Id} :
      g.kind a = .declarator j init → (∀ b ∈ g.live, a ∉ g.headParts b) → Declaration g a j

/-- The line of a function that node `a` begins with. -/
def introLine (g : Graph) (indent : String) (valued : Bool) (f a : Id) : String :=
  if a = f then (g.functionLines indent valued f).headD "" else g.opening indent a

/-- The type stands in the head of the loop: the first part is declared under it, or reads as if it
were. -/
def HeadShows (g : Graph) (indent : String) (a : Id) (t : Ty) : Prop :=
  ∀ c ∈ (g.headParts a).head?, match g.kind c with
    | .declarator first _ => (g.ty? first).getD .float = t
    | _ => ∃ more, g.textOf indent c = t.name ++ " " ++ more

/-! ### The parts of a line -/

theorem declaredType_of_ty (ht : g.ty? j = some t) : Glsl.declaredType g j = t.name := by
  rw [Glsl.declaredType, ht, Option.getD_some]

theorem exists_untypedText (expr : Id → String) (j : Id) (init : Option Id) :
    ∃ rest, Glsl.IsInitial rest ∧ Glsl.untypedText expr j init = expr j ++ rest := by
  cases init with
  | none => exact ⟨"", .inl rfl, rfl⟩
  | some value => exact ⟨_, .inr ⟨expr value, rfl⟩, rfl⟩

theorem headParts_cons {c : Id} {rest : List Id} (hparts : g.headParts a = c :: rest) :
    ∃ head test step body, g.kind a = .forLoop (some head) test step body ∧
      g.kind head = .varDecl (c :: rest) := by
  unfold headParts at hparts
  split at hparts
  · rename_i head test step body hk
    split at hparts
    · rename_i ds hhead
      exact ⟨head, test, step, body, hk, hparts ▸ hhead⟩
    · cases hparts
  · cases hparts

section Lines

variable (h : g.IsTree)

include h

theorem IsTree.live_of_mem_headParts (ha : a ∈ g.live) {c : Id} (hc : c ∈ g.headParts a) :
    c ∈ g.live := by
  obtain ⟨first, rest, hparts⟩ := List.exists_cons_of_ne_nil (List.ne_nil_of_mem hc)
  obtain ⟨head, test, step, body, hk, hhead⟩ := headParts_cons hparts
  have hhl : head ∈ g.live := h.child_live ha (by rw [children, hk]; exact List.mem_cons_self)
  refine h.child_live hhl ?_
  rw [children, hhead]
  exact hparts ▸ hc

theorem IsTree.textOf_ident (hj : j ∈ g.live) (hname : g.identName? j = some name) :
    g.textOf indent j = name := by
  rw [h.textOf_succ indent hj, Glsl.exprAt, identName?_eq_some.mp hname]

/-- **What a statement declares is introduced under its type.** -/
theorem IsTree.introduces_declarator (ha : a ∈ g.live) {init : Option Id}
    (hk : g.kind a = .declarator j init) (hname : g.identName? j = some name)
    (ht : g.ty? j = some t) : Glsl.Introduces t name (g.opening indent a) := by
  have hj : j ∈ g.live := h.child_live ha (by rw [children, hk]; exact List.mem_cons_self)
  obtain ⟨rest, hrest, htext⟩ := exists_untypedText (g.textOf indent) j init
  rw [opening, h.lines_declarator indent ha hk, List.headD_cons, Glsl.declaratorText_eq hk, htext,
    declaredType_of_ty ht, h.textOf_ident hj hname, ← String.append_assoc]
  exact .statement hrest

omit h in
/-- **What is in a signature is introduced under its type.** -/
theorem introduces_signature {fname body : Id} {params : List Id} {e : Id → String}
    {l : Id → List String} (hk : g.kind a = .function fname params body) (hj : j ∈ params)
    (he : e j = name) (ht : g.ty? j = some t) (valued : Bool) :
    Glsl.Introduces t name ((Glsl.functionText g indent e l valued a).headD "") := by
  simp only [Glsl.functionText, hk, List.headD_cons]
  have hret : (if (valued || g.returnsValue a) = true then Glsl.declaredType g fname else "void") =
      "void" ∨ ∃ u : Ty, (if (valued || g.returnsValue a) = true then Glsl.declaredType g fname
        else "void") = u.name := by
    split_ifs
    · exact .inr ⟨_, rfl⟩
    · exact .inl rfl
  have hqualifier : (if (g.node j).out = true then "out " else "") = "" ∨
      (if (g.node j).out = true then "out " else "") = "out " := by
    split_ifs
    · exact .inr rfl
    · exact .inl rfl
  refine .param hret hqualifier (List.mem_map.mpr ⟨j, hj, ?_⟩)
  rw [Glsl.paramText, declaredType_of_ty ht, he]

theorem IsTree.opening_head (indent : String) (ha : a ∈ g.live) {c : Id} {rest : List Id}
    (hparts : g.headParts a = c :: rest) : ∃ tail, g.opening indent a = "for (" ++
      (Glsl.commaList (Glsl.declaratorText g (g.textOf indent) c ::
        rest.map fun d => Glsl.afterSpace (Glsl.declaratorText g (g.textOf indent) d)) ++
          "; " ++ tail) := by
  obtain ⟨head, test, step, body, hk, hhead⟩ := headParts_cons hparts
  refine ⟨(test.map (g.textOf indent)).getD "" ++ "; " ++
    (step.map (g.textOf indent)).getD "" ++ ") \x7b", ?_⟩
  rw [opening, h.lines_succ indent ha]
  unfold Glsl.linesAt
  simp only [hk, List.headD_cons, Glsl.initText, hhead, List.map_cons, Glsl.headerText,
    List.map_map, String.append_assoc]
  rfl

omit h in
theorem headShows_iff {c : Id} {rest : List Id} (hparts : g.headParts a = c :: rest) :
    g.HeadShows indent a t ↔
      ∃ more, Glsl.declaratorText g (g.textOf indent) c = t.name ++ " " ++ more := by
  unfold HeadShows
  rw [hparts]
  simp only [List.head?_cons, Option.mem_some_iff, forall_eq']
  cases hk : g.kind c with
  | declarator first init =>
    dsimp only
    rw [Glsl.declaratorText_eq hk, ← String.append_assoc, ← Glsl.declaredType_inj]
    constructor
    · intro he
      exact ⟨_, by rw [he]⟩
    · rintro ⟨more, he⟩
      exact Glsl.eq_of_append_space (Glsl.space_notMem_name _) (Glsl.space_notMem_name t) he
  | _ =>
    rw [Glsl.declaratorText, hk]

omit h in
theorem headShows_declarator {c first : Id} {rest : List Id} {init : Option Id}
    (hparts : g.headParts a = c :: rest) (hk : g.kind c = .declarator first init) :
    g.HeadShows indent a t ↔ (g.ty? first).getD .float = t := by
  unfold HeadShows
  simp only [hparts, List.head?_cons, Option.mem_some_iff, forall_eq', hk]

/-- **What is in a head is introduced under its type** exactly if the head shows that type. -/
theorem IsTree.introduces_head_iff (ha : a ∈ g.live) {c : Id} {init : Option Id}
    (hc : c ∈ g.headParts a) (hk : g.kind c = .declarator j init)
    (hname : g.identName? j = some name) (ht : g.ty? j = some t) :
    Glsl.Introduces t name (g.opening indent a) ↔ g.HeadShows indent a t := by
  obtain ⟨first, rest, hparts⟩ := List.exists_cons_of_ne_nil (List.ne_nil_of_mem hc)
  obtain ⟨tail, hline⟩ := h.opening_head indent ha hparts
  rw [headShows_iff hparts, hline]
  constructor
  · intro hintro
    obtain ⟨more, hmore⟩ := hintro.leads
    obtain ⟨c, rest, hc, hcomma⟩ := Glsl.exists_commaList _ _ _
    exact (Glsl.leads_iff hc).mp ⟨more, hcomma ▸ hmore⟩
  · rintro ⟨more, hfirst⟩
    obtain ⟨value, hvalue, htext⟩ := exists_untypedText (g.textOf indent) j init
    have hcl := h.live_of_mem_headParts ha hc
    have hj : j ∈ g.live := h.child_live hcl (by rw [children, hk]; exact List.mem_cons_self)
    rw [h.textOf_ident hj hname] at htext
    have hjoin : Glsl.commaList (Glsl.declaratorText g (g.textOf indent) first ::
        rest.map fun d => Glsl.afterSpace (Glsl.declaratorText g (g.textOf indent) d)) =
        t.name ++ " " ++ Glsl.commaList (more ::
          rest.map fun d => Glsl.afterSpace (Glsl.declaratorText g (g.textOf indent) d)) := by
      rw [hfirst, Glsl.commaList, String.intercalate_cons_append, ← Glsl.commaList]
    rw [hjoin, ← String.append_assoc]
    refine .head hvalue ?_
    rw [← htext]
    rw [hparts] at hc
    rcases List.mem_cons.mp hc with rfl | hrest
    · rw [Glsl.declaratorText_eq hk, declaredType_of_ty ht, ← String.append_assoc,
        String.append_right_inj] at hfirst
      exact hfirst ▸ List.mem_cons_self
    · refine List.mem_cons_of_mem _ (List.mem_map.mpr ⟨c, hrest, ?_⟩)
      exact Glsl.afterSpace_declaratorText hk _

/-! ### The line of a declaration -/

omit h in
theorem Declaration.opens (hd : g.Declaration a j) : g.Opens a := by
  cases hd with
  | param hk =>
    refine ⟨.inl ⟨_, _, _, hk⟩, fun _ _ hk' => ?_⟩
    rw [hk] at hk'
    cases hk'
  | head hc =>
    obtain ⟨first, rest, hparts⟩ := List.exists_cons_of_ne_nil (List.ne_nil_of_mem hc)
    obtain ⟨head, test, step, body, hk, -⟩ := headParts_cons hparts
    refine ⟨.inr (.inl ⟨_, _, _, _, hk⟩), fun _ _ hk' => ?_⟩
    rw [hk] at hk'
    cases hk'
  | statement hk hfree => exact ⟨.inr (.inr ⟨_, _, hk⟩), fun _ _ _ => hfree⟩

/-- **The line of a declaration is in the text of the function.** -/
theorem IsTree.within_introLine (hf : f ∈ g.live) (hfun : g.isFunction f = true)
    (ha : a ∈ g.descendants f) (hd : g.Declaration a j) (hheads : g.HeadsDeclare a f)
    (valued : Bool) : Within (g.introLine indent valued f a)
      ("\n".intercalate (g.functionLines indent valued f)) := by
  refine InLines.intercalate ?_ "\n"
  unfold introLine
  split_ifs with haf
  · unfold isFunction at hfun
    split at hfun
    case h_2 => cases hfun
    case h_1 fname params body hk =>
      simp only [functionLines, Glsl.functionText, hk, List.headD_cons]
      exact .head (.refl _) _
  · exact inLines_functionLines h indent hd.opens hf hfun ha (Ne.symm haf) hheads valued

omit h in
theorem introLine_of_ne (hfun : g.isFunction f = true)
    (ha : ∀ name params body, g.kind a ≠ .function name params body) (valued : Bool) :
    g.introLine indent valued f a = g.opening indent a := by
  refine if_neg ?_
  rintro rfl
  unfold isFunction at hfun
  split at hfun
  · exact ha _ _ _ ‹_›
  · cases hfun

/-- **When a declaration is under the type of its variable**: always, but in the head of a loop only
if the head shows that type. -/
theorem IsTree.introduces_iff (hfun : g.isFunction f = true) (ha : a ∈ g.live)
    (hd : g.Declaration a j) (hname : g.identName? j = some name) (ht : g.ty? j = some t)
    (valued : Bool) :
    Glsl.Introduces t name (g.introLine indent valued f a) ↔ g.HeadShows indent a t := by
  have nohead : (∀ init test step body, g.kind a ≠ .forLoop init test step body) →
      g.HeadShows indent a t := by
    intro hno c hc
    unfold headParts at hc
    split at hc
    · exact absurd ‹_› (hno _ _ _ _)
    · cases hc
  cases hd with
  | @param fname body params hk hj =>
    have hjl : j ∈ g.live := h.child_live ha (by rw [children, hk]; simp [Kind.children, hj])
    refine iff_of_true ?_ (nohead fun _ _ _ _ hk' => by rw [hk] at hk'; cases hk')
    unfold introLine
    split_ifs with haf
    · subst haf
      exact introduces_signature hk hj (h.textOf_ident hjl hname) ht valued
    · rw [opening, h.lines_succ indent ha, Glsl.linesAt]
      simp only [hk]
      exact introduces_signature hk hj (h.textOf_ident hjl hname) ht false
  | @head c init hc hk =>
    obtain ⟨first, rest, hparts⟩ := List.exists_cons_of_ne_nil (List.ne_nil_of_mem hc)
    obtain ⟨_, _, _, _, hka, -⟩ := headParts_cons hparts
    rw [introLine_of_ne hfun (fun _ _ _ hk' => by rw [hka] at hk'; cases hk')]
    exact h.introduces_head_iff ha hc hk hname ht
  | @statement init hk hfree =>
    refine iff_of_true ?_ (nohead fun _ _ _ _ hk' => by rw [hk] at hk'; cases hk')
    rw [introLine_of_ne hfun (fun _ _ _ hk' => by rw [hk] at hk'; cases hk')]
    exact h.introduces_declarator ha hk hname ht

end Lines

end Graph

/-! ## Inferred types -/

open Infer

variable {g : Graph} {a f i j : Id} {name : String}

/-- **A successful inference gives a type to every identifier that needs one.** Nodes beside the
program do not matter, so it is said of the program alone first. -/
theorem Graph.IsTree.exists_ty (h : g.IsTree) (hok : (infer g (.resolve g)).failure = none)
    (hi : i ∈ g.live) (hneeds : (Context.of g (.resolve g)).needsType i = true) :
    ∃ t, (infer g (.resolve g)).graph.ty? i = some t := by
  have hk := whole_compact h
  have r : Copy True (g.unpack g id) g.compact g := (Alike.refl h).copy_unpack h
  have hposition : g.unpack g id (g.position i) = i := unpack_position hi
  obtain ⟨hfailure, hcopy⟩ := r.infer hk (.resolve g.compact)
  rw [← r.calls hk] at hfailure hcopy
  have hokk := hfailure.symm.trans hok
  have hlive : g.position i ∈ g.compact.live := by
    obtain ⟨d, hd⟩ := h.mem_live_iff.mp hi
    exact hk.tree.mem_live_iff.mpr ⟨d, below_compact h h.root_live hd⟩
  have hneedsk : (Context.of g.compact (.resolve g.compact)).needsType (g.position i) = true := by
    rw [← r.needsType, hposition, ← r.calls hk]
    exact hneeds
  obtain ⟨t, ht⟩ := exists_ty_of_needsType hk.inRange hokk hlive hneedsk
  refine ⟨t, ?_⟩
  rw [← ht, ← (hcopy hokk).ty?, hposition]

theorem needsType_of_declaration (calls : CallTable) (h : g.IsTree) (ha : a ∈ g.live)
    (hd : g.Declaration a j) (hname : g.identName? j = some name) :
    j ∈ g.live ∧ (Context.of g calls).needsType j = true := by
  have hholder : ∃ p ∈ g.live, g.parent? j = some p ∧ j ∈ g.children p ∧
      ((∃ init, g.kind p = .declarator j init) ∨
        ∃ fname params body, g.kind p = .function fname params body ∧ fname ≠ j) := by
    cases hd with
    | @param fname body params hk hj =>
      have hchild : j ∈ g.children a := by rw [children, hk]; simp [Kind.children, hj]
      refine ⟨a, ha, h.parent_child a ha j hchild, hchild, .inr ⟨_, _, _, hk, ?_⟩⟩
      rintro rfl
      have hnodup := h.children_nodup a ha
      rw [children, hk] at hnodup
      exact (List.nodup_cons.mp hnodup).1 (List.mem_append_left _ hj)
    | @head c init hc hk =>
      have hcl := h.live_of_mem_headParts ha hc
      have hchild : j ∈ g.children c := by rw [children, hk]; exact List.mem_cons_self
      exact ⟨c, hcl, h.parent_child c hcl j hchild, hchild, .inl ⟨_, hk⟩⟩
    | @statement init hk =>
      have hchild : j ∈ g.children a := by rw [children, hk]; exact List.mem_cons_self
      exact ⟨a, ha, h.parent_child a ha j hchild, hchild, .inl ⟨_, hk⟩⟩
  obtain ⟨p, hp, hparent, hchild, hk⟩ := hholder
  refine ⟨h.child_live hp hchild, ?_⟩
  unfold Context.needsType isOccurrence isPropertyName
  simp only [Context.of_graph, hname, hparent, Option.map_some]
  obtain ⟨init, hk⟩ | ⟨fname, params, body, hk, hne⟩ := hk
  · simp [hk]
  · simp [hk, hne]

theorem Graph.Declaration.congr {x : Graph} (hkind : x.kind = g.kind) (hlive : x.live = g.live)
    (hd : x.Declaration a j) : g.Declaration a j := by
  have hparts : x.headParts = g.headParts := by
    funext b
    unfold headParts
    rw [hkind]
  cases hd with
  | param hk hj => exact .param (hkind ▸ hk) hj
  | head hc hk => exact .head (hparts ▸ hc) (hkind ▸ hk)
  | statement hk hfree => exact .statement (hkind ▸ hk) (hlive ▸ hparts ▸ hfree)

/-- **Variables are introduced under their inferred types, but for what is listed in the head of a
loop after a variable of another type.** Where inference ends well, every parameter and every
variable that is declared in a function has a type, and the line that declares it is in the text of
the function. It introduces the variable under that type, in the head of a loop exactly if the type
is the one that the head shows. -/
theorem introduces_inferred_iff {x : Graph} (hx : x = (infer g (.resolve g)).graph) (h : g.IsTree)
    (hok : (infer g (.resolve g)).failure = none) (hf : f ∈ x.live)
    (hfun : x.isFunction f = true) (ha : a ∈ x.descendants f) (hd : x.Declaration a j)
    (hname : x.identName? j = some name) (hheads : x.HeadsDeclare a f) (indent : String)
    (valued : Bool) : ∃ t, x.ty? j = some t ∧
      Within (x.introLine indent valued f a)
        ("\n".intercalate (x.functionLines indent valued f)) ∧
      (Glsl.Introduces t name (x.introLine indent valued f a) ↔ x.HeadShows indent a t) := by
  subst hx
  have hc := changed_infer g (.resolve g)
  have ht := hc.renamed_of_eq.isTree_of_renamed h
  have hal := ht.unshared.live_of_mem hf ha
  have hsource : g.identName? j = some name := by
    rw [identName?_eq_some, ← hc.kind_eq]
    exact identName?_eq_some.mp hname
  obtain ⟨hj, hneeds⟩ := needsType_of_declaration (.resolve g) h
    (hc.renamed_of_eq.live_eq ▸ hal) (hd.congr hc.kind_eq hc.renamed_of_eq.live_eq) hsource
  obtain ⟨t, hty⟩ := h.exists_ty hok hj hneeds
  exact ⟨t, hty, ht.within_introLine hf hfun ha hd hheads valued,
    ht.introduces_iff hfun hal hd hname hty valued⟩

/-- The program `function f(p) { for (var i = 0, v = [p, 2]; i < 3; i++) { return v; } }`. -/
def mixedHead : Graph := Build.finish do
  let start ← Build.num "0"
  let i ← Build.node (.declarator (← Build.ident "i") (some start))
  let pair ← Build.array [← Build.ident "p", ← Build.num "2"]
  let v ← Build.node (.declarator (← Build.ident "v") (some pair))
  let head ← Build.node (.varDecl [i, v])
  let test ← Build.binary .lt (← Build.ident "i") (← Build.num "3")
  let step ← Build.update .increment false (← Build.ident "i")
  let body ← Build.block [← Build.ret (some (← Build.ident "v"))]
  let _ ← Build.function "f" ["p"] [← Build.forLoop (some head) (some test) (some step) body]

/-- The program with its types. -/
def typedHead : Graph := (infer mixedHead (CallTable.resolve mixedHead)).graph

-- one evaluation of inference for all that is said about the program below
theorem inferred_mixedHead : mixedHead.IsTree ∧
    (infer mixedHead (CallTable.resolve mixedHead)).failure = none ∧ 21 ∈ typedHead.live ∧
    typedHead.isFunction 21 = true ∧
    (17 ∈ typedHead.descendants 21 ∧ typedHead.headParts 17 = [2, 7] ∧
      typedHead.HeadsDeclare 17 21 ∧
      typedHead.introLine "    " false 21 17 =
        "for (float i = 0., v = vec2(p, 2.); (i < 3.); i++) \x7b") ∧
    (typedHead.kind 2 = .declarator 1 (some 0) ∧ typedHead.identName? 1 = some "i" ∧
      typedHead.ty? 1 = some .float) ∧
    typedHead.kind 7 = .declarator 6 (some 5) ∧ typedHead.identName? 6 = some "v" ∧
      typedHead.ty? 6 = some .vec2 := by
  decide +kernel

/-- Of the two variables in the head, the first is introduced under its type. -/
theorem introduces_inferred_iff_mixedHead : mixedHead.IsTree ∧
    (infer mixedHead (CallTable.resolve mixedHead)).failure = none ∧ 21 ∈ typedHead.live ∧
    typedHead.isFunction 21 = true ∧ 17 ∈ typedHead.descendants 21 ∧
    typedHead.HeadsDeclare 17 21 ∧
    (typedHead.Declaration 17 1 ∧ typedHead.identName? 1 = some "i" ∧
      typedHead.ty? 1 = some .float ∧
      Glsl.Introduces .float "i" (typedHead.introLine "    " false 21 17)) ∧
    typedHead.Declaration 17 6 ∧ typedHead.identName? 6 = some "v" ∧
      typedHead.ty? 6 = some .vec2 ∧
      ¬ Glsl.Introduces .vec2 "v" (typedHead.introLine "    " false 21 17) := by
  obtain ⟨h, hok, hf, hfun, ⟨ha, hparts, hheads, -⟩, ⟨hki, hi, hti⟩, hkv, hv, htv⟩ :=
    inferred_mixedHead
  have hdi : typedHead.Declaration 17 1 := .head (hparts ▸ List.mem_cons_self) hki
  have hdv : typedHead.Declaration 17 6 :=
    .head (hparts ▸ List.mem_cons_of_mem _ List.mem_cons_self) hkv
  obtain ⟨t, ht, -, hintro⟩ :=
    introduces_inferred_iff (x := typedHead) rfl h hok hf hfun ha hdi hi hheads "    " false
  obtain ⟨u, hu, -, hnot⟩ :=
    introduces_inferred_iff (x := typedHead) rfl h hok hf hfun ha hdv hv hheads "    " false
  obtain rfl : t = .float := Option.some.inj (ht.symm.trans hti)
  obtain rfl : u = .vec2 := Option.some.inj (hu.symm.trans htv)
  rw [headShows_declarator hparts hki, hti, Option.getD_some] at hintro hnot
  exact ⟨h, hok, hf, hfun, ha, hheads, ⟨hdi, hi, hti, hintro.mpr rfl⟩, hdv, hv, htv,
    fun hv => by cases hnot.mp hv⟩

/-- **A loop introduces a pair of numbers as a number.** -/
theorem introduces_mixedHead : mixedHead.IsTree ∧
    (infer mixedHead (CallTable.resolve mixedHead)).failure = none ∧ 21 ∈ typedHead.live ∧
    typedHead.isFunction 21 = true ∧ 17 ∈ typedHead.descendants 21 ∧
    typedHead.Declaration 17 6 ∧ typedHead.identName? 6 = some "v" ∧
    typedHead.ty? 6 = some .vec2 ∧
    typedHead.introLine "    " false 21 17 =
      "for (float i = 0., v = vec2(p, 2.); (i < 3.); i++) \x7b" ∧
    Glsl.Introduces .float "v" (typedHead.introLine "    " false 21 17) ∧
    ¬ Glsl.Introduces .vec2 "v" (typedHead.introLine "    " false 21 17) := by
  obtain ⟨h, hok, hf, hfun, ⟨ha, hparts, -, hline⟩, -, hkv, hv, htv⟩ := inferred_mixedHead
  have hdv : typedHead.Declaration 17 6 :=
    .head (hparts ▸ List.mem_cons_of_mem _ List.mem_cons_self) hkv
  have hparsed : "for (float i = 0., v = vec2(p, 2.); (i < 3.); i++) \x7b" =
      "for (" ++ (Ty.float.name ++ " " ++ Glsl.commaList ["i = 0.", "v = vec2(p, 2.)"]) ++ "; " ++
        "(i < 3.); i++) \x7b" := by decide +kernel
  refine ⟨h, hok, hf, hfun, ha, hdv, hv, htv, hline, ?_, fun hintro => ?_⟩
  · rw [hline, hparsed]
    exact @Glsl.Introduces.head .float "v" _ " = vec2(p, 2.)" _
      (.inr ⟨"vec2(p, 2.)", by decide⟩) (by decide)
  · rw [hline, hparsed, String.append_assoc, String.append_assoc] at hintro
    obtain ⟨more, hmore⟩ := hintro.leads
    have hname := Glsl.eq_of_append_space (Glsl.space_notMem_name .float)
      (Glsl.space_notMem_name .vec2) (String.append_assoc.symm.trans hmore)
    exact absurd (Glsl.name_injective hname) (by decide)

end ShaderScript
