import ShaderScript.Discard
import ShaderScript.Proofs.Checked.Call
import ShaderScript.Proofs.Checked.Walk
import ShaderScript.Proofs.Graph.Growth
import ShaderScript.Proofs.Lower.Calls
import ShaderScript.Proofs.Lower.Facts

/-!
# Checked lowering

Lowering adds nodes while it goes. It takes operands of calls by their positions and puts statements
at positions of blocks. The positions are there: a call is only written in a form that takes its
number of arguments, and a statement is put next to one that is in the block, or at its end.

* `Graph.Spans`: a closed graph with at least `n` nodes.
* `Checked.insertAt`, `Checked.operand`: the two steps that go by position.
* `Checked.lowerDiscards_ok`: discards.
* **`Checked.lowerCalls_ok`**: calls of known functions.
-/

namespace ShaderScript

namespace Graph

/-- A closed graph with at least `n` nodes, as passes that add nodes keep it. -/
structure Spans (g : Graph) (n : Nat) : Prop extends g.Closed where
  le_size : n ≤ g.size

theorem Closed.spans {g : Graph} (h : g.Closed) : g.Spans g.size := ⟨h, Nat.le_refl _⟩

namespace Spans

variable {g g' : Graph} {n : Nat} {i : Id}

theorem lt_size (h : g.Spans n) (hi : i < n) : i < g.size := Nat.lt_of_lt_of_le hi h.le_size

theorem trans (h : g.Spans n) (h' : g'.Spans g.size) : g'.Spans n :=
  ⟨h'.toClosed, h.le_size.trans h'.le_size⟩

theorem replace (h : g.Spans n) {k : Kind} (hk : ∀ c ∈ k.children, c < g.size) :
    (g.replace i k).Spans n :=
  ⟨h.toClosed.replace hk, (size_modify g i _).symm ▸ h.le_size⟩

theorem link (h : g.Spans n) : g.link.Spans n :=
  ⟨h.toClosed.link, (sameShape_link g).size.symm ▸ h.le_size⟩

theorem add (h : g.Spans n) {m : Node} (hk : ∀ c ∈ m.kind.children, c < g.size)
    (hp : m.parent = none) : (g.add [m]).Spans n where
  root_lt := by
    rw [size_add]
    exact Nat.lt_succ_of_lt h.root_lt
  child_lt {j c} hc := by
    rw [size_add]
    rw [children_add_one] at hc
    split_ifs at hc
    · exact Nat.lt_succ_of_lt (hk c hc)
    · exact Nat.lt_succ_of_lt (h.child_lt hc)
  parent_lt {j p} hj := by
    rw [size_add]
    unfold parent? at hj
    rw [node_add_one] at hj
    split_ifs at hj
    · cases hp.symm.trans hj
    · exact Nat.lt_succ_of_lt (h.parent_lt hj)
  le_size := by
    rw [size_add]
    exact Nat.le_succ_of_le h.le_size

theorem alloc (h : g.Spans n) {k : Kind} (hk : ∀ c ∈ k.children, c < g.size) :
    (g.alloc k).2.Spans n := by
  rw [alloc_eq]
  exact h.add hk rfl

theorem allocTyped (h : g.Spans n) {k : Kind} (hk : ∀ c ∈ k.children, c < g.size)
    (t : Option Ty) : (g.allocTyped k t).2.Spans n := by
  rw [allocTyped_eq]
  exact h.add hk rfl

end Spans

end Graph

namespace Checked

variable {g : Graph} {n : Nat} {i : Id}

/-- Adds a loose node and then sets its type. -/
def allocTyped (g : Graph) (k : Kind) (t : Option Ty) : Checked (Id × Graph) := do
  let (i, g) := g.alloc k
  return (i, ← modify g i ({ · with ty := t }))

theorem allocTyped_eq (g : Graph) (k : Kind) (t : Option Ty) :
    allocTyped g k t = .ok (g.allocTyped k t) := by
  have hlast : g.size < (g.alloc k).2.size := by
    rw [Graph.size_alloc]
    exact Nat.lt_succ_self _
  have hset : (g.alloc k).2.modify g.size ({ · with ty := t }) = (g.allocTyped k t).2 := by
    unfold Graph.alloc Graph.allocTyped Graph.modify Graph.size
    dsimp only
    congr 1
    refine Array.ext_getElem? fun j => ?_
    rw [Array.getElem?_modify, Array.getElem?_push, Array.getElem?_push]
    by_cases hj : j = g.nodes.size
    · simp [hj]
    · simp [hj, Ne.symm hj]
  unfold allocTyped
  rw [show g.alloc k = (g.size, (g.alloc k).2) from rfl]
  dsimp only
  rw [modify_eq hlast, hset]
  rfl

/-! ## Discards -/

/-- Puts a value at a position of a list. -/
def insertAt (xs : List Id) (n : Nat) (x : Id) : Checked (List Id) :=
  if n ≤ xs.length then .ok (xs.insertIdx n x) else .error (.noPosition n)

/-- Adds the number zero. -/
def allocZero (g : Graph) : Checked (Id × Graph) := allocTyped g (.number "0") (some .float)

/-- Adds `n` times the number zero. -/
def allocZeros : Nat → Graph → Checked (List Id × Graph)
  | 0, g => return ([], g)
  | n + 1, g => do
    let (first, g) ← allocZero g
    let (rest, g) ← allocZeros n g
    return (first :: rest, g)

/-- Adds the zero of a type with the given number of components. -/
def allocZeroOf (g : Graph) (t : Ty) (width : Nat) : Checked (Id × Graph) := do
  if width = 1 then allocZero g
  else
    let (callee, g) ← allocTyped g (.ident t.name) (some t)
    let (args, g) ← allocZeros width g
    allocTyped g (.call callee args) (some t)

/-- Makes a `return` a block of a `discard` and a `return` of a value. -/
def wrapDiscard (g : Graph) (ret discard value : Id) : Checked Graph := do
  let (returned, g) := g.alloc (.ret (some value))
  replace g ret (.block [discard, returned])

/-- Makes a `return` without value a `discard` and a `return` of zeros. -/
def lowerDiscard (t : Ty) (width : Nat) (g : Graph) (ret : Id) : Checked Graph := do
  match ← kind g ret with
  | .ret none =>
    let (value, g) ← allocZeroOf g t width
    let (discard, g) := g.alloc .discard
    match ← parent? g ret with
    | none => wrapDiscard g ret discard value
    | some p =>
      match ← kind g p with
      | .block body =>
        let body ← insertAt body (body.idxOf ret) discard
        replace (← replace g p (.block body)) ret (.ret (some value))
      | _ => wrapDiscard g ret discard value
  | _ => return g

/-- Makes every `return` without value of a function a `discard` and a `return` of zeros. -/
def lowerDiscards (g : Graph) (f : Id) : Checked Graph := do
  match ← kind g f with
  | .function name _ _ =>
    let t := (← ty? g name).getD .float
    match t.width? with
    | some width => link (← (← returns g f).foldlM (lowerDiscard t width) g)
    | none => return g
  | _ => return g

/-- New nodes: the numbers are those of nodes of a graph that spans the one before. -/
structure Allocates (g : Graph) (is : List Id) (g' : Graph) : Prop extends g'.Spans g.size where
  new_lt : ∀ i ∈ is, i < g'.size

theorem allocates_allocTyped (h : g.Closed) {k : Kind} (hk : ∀ c ∈ k.children, c < g.size)
    (t : Option Ty) : Allocates g [g.size] (g.allocTyped k t).2 where
  toSpans := h.spans.allocTyped hk t
  new_lt i hi := by
    rw [List.mem_singleton.mp hi, Graph.allocTyped_eq, Graph.size_add]
    exact Nat.lt_succ_self _

theorem allocates_allocZero (h : g.Closed) : Allocates g [g.allocZero.1] g.allocZero.2 :=
  allocates_allocTyped (k := .number "0") h nofun _

theorem allocZeros_ok (h : g.Closed) (n : Nat) : allocZeros n g = .ok (Graph.allocZeros n g) ∧
    Allocates g (Graph.allocZeros n g).1 (Graph.allocZeros n g).2 := by
  induction n generalizing g with
  | zero => exact ⟨rfl, h.spans, fun _ hi => by cases hi⟩
  | succ n ih =>
    have hfirst := allocates_allocZero h
    obtain ⟨hrest, arest⟩ := ih hfirst.toClosed
    refine ⟨?_, hfirst.toSpans.trans arest.toSpans, fun i hi => ?_⟩
    · unfold allocZeros Graph.allocZeros
      rw [show allocZero g = .ok g.allocZero from allocTyped_eq _ _ _, ok_bind]
      dsimp only
      rw [hrest]
      rfl
    · rcases List.mem_cons.mp hi with rfl | hi
      · exact arest.lt_size (hfirst.new_lt _ (List.mem_singleton_self _))
      · exact arest.new_lt i hi

theorem allocZeroOf_ok (h : g.Closed) (t : Ty) (width : Nat) :
    allocZeroOf g t width = .ok (g.allocZeroOf t width) ∧
      Allocates g [(g.allocZeroOf t width).1] (g.allocZeroOf t width).2 := by
  unfold allocZeroOf Graph.allocZeroOf
  split_ifs
  · exact ⟨allocTyped_eq _ _ _, allocates_allocZero h⟩
  · have hcallee := allocates_allocTyped h (k := .ident t.name) nofun (some t)
    obtain ⟨hargs, aargs⟩ := allocZeros_ok hcallee.toClosed width
    have hcall : ∀ c ∈ (Kind.call g.size
        (Graph.allocZeros width (g.allocTyped (.ident t.name) (some t)).2).1).children,
        c < (Graph.allocZeros width (g.allocTyped (.ident t.name) (some t)).2).2.size :=
      List.forall_mem_cons.mpr
        ⟨aargs.lt_size (hcallee.new_lt _ (List.mem_singleton_self _)), aargs.new_lt⟩
    have acall := allocates_allocTyped aargs.toClosed hcall (some t)
    refine ⟨?_, hcallee.toSpans.trans (aargs.toSpans.trans acall.toSpans), acall.new_lt⟩
    rw [allocTyped_eq, ok_bind]
    dsimp only
    rw [hargs, ok_bind]
    exact allocTyped_eq _ _ _

theorem wrapDiscard_ok (h : g.Spans n) (hi : i < g.size) {discard value : Id}
    (hd : discard < g.size) (hv : value < g.size) : wrapDiscard g i discard value =
      .ok ((g.alloc (.ret (some value))).2.replace i (.block [discard, g.size])) ∧
        ((g.alloc (.ret (some value))).2.replace i (.block [discard, g.size])).Spans n := by
  have hsize : (g.alloc (.ret (some value))).2.size = g.size + 1 := Graph.size_alloc _ _
  have hret : ∀ c ∈ (Kind.ret (some value)).children, c < g.size := fun c hc => by
    rw [List.mem_singleton.mp hc]
    exact hv
  refine ⟨replace_eq (hsize ▸ Nat.lt_succ_of_lt hi) _, (h.alloc hret).replace ?_⟩
  rw [hsize]
  refine List.forall_mem_cons.mpr ⟨Nat.lt_succ_of_lt hd, fun c hc => ?_⟩
  rw [List.mem_singleton.mp hc]
  exact Nat.lt_succ_self _

theorem lowerDiscard_ok (h : g.Spans n) (hi : i < n) (t : Ty) (width : Nat) :
    lowerDiscard t width g i = .ok (Graph.lowerDiscard t width g i) ∧
      (Graph.lowerDiscard t width g i).Spans n := by
  unfold lowerDiscard Graph.lowerDiscard
  rw [kind_eq (h.lt_size hi), ok_bind]
  cases g.kind i
  case ret argument =>
    cases argument with
    | some a => exact ⟨rfl, h⟩
    | none =>
      obtain ⟨hvalue, avalue⟩ := allocZeroOf_ok h.toClosed t width
      dsimp only
      rw [hvalue, ok_bind]
      generalize g.allocZeroOf t width = p at avalue
      obtain ⟨value, x⟩ := p
      have hx : x.Spans n := h.trans avalue.toSpans
      have hy : (x.alloc .discard).2.Spans n := hx.alloc nofun
      have hysize : (x.alloc .discard).2.size = x.size + 1 := Graph.size_alloc _ _
      have hvalue : value < (x.alloc .discard).2.size :=
        hysize ▸ Nat.lt_succ_of_lt (avalue.new_lt value (List.mem_singleton_self _))
      have hdiscard : x.size < (x.alloc .discard).2.size := hysize ▸ Nat.lt_succ_self _
      rw [show x.alloc .discard = (x.size, (x.alloc .discard).2) from rfl]
      dsimp only
      generalize (x.alloc .discard).2 = y at hy hvalue hdiscard
      rw [parent?_eq (hy.lt_size hi), ok_bind]
      have hwrap := wrapDiscard_ok hy (hy.lt_size hi) hdiscard hvalue
      cases hp : y.parent? i with
      | none => exact hwrap
      | some p =>
        have hplt := hy.parent_lt hp
        have hc := hy.kind_children_lt p
        dsimp only
        rw [kind_eq hplt, ok_bind, Option.map_some]
        generalize y.kind p = k at hc
        cases k
        case block body =>
          have hinsert : insertAt body (body.idxOf i) x.size =
              .ok (body.insertIdx (body.idxOf i) x.size) := if_pos List.idxOf_le_length
          have hblock : (y.replace p (.block (body.insertIdx (body.idxOf i) x.size))).Spans n := by
            refine hy.replace fun c hcm => ?_
            rcases List.eq_or_mem_of_mem_insertIdx hcm with rfl | hcm
            · exact hdiscard
            · exact hc c hcm
          dsimp only
          rw [hinsert, ok_bind, replace_eq hplt, ok_bind]
          refine ⟨replace_eq (hblock.lt_size hi) _, hblock.replace fun c hcm => ?_⟩
          rw [List.mem_singleton.mp hcm, Graph.replace, Graph.size_modify]
          exact hvalue
        all_goals exact hwrap
  all_goals exact ⟨rfl, h⟩

/-- **No step of lowering discards fails.** -/
theorem lowerDiscards_ok (h : g.Closed) (hi : i < g.size) :
    lowerDiscards g i = .ok (g.lowerDiscards i) ∧ (g.lowerDiscards i).Spans g.size := by
  have hc := h.kind_children_lt i
  unfold lowerDiscards Graph.lowerDiscards
  rw [kind_eq hi, ok_bind]
  generalize g.kind i = k at hc
  cases k
  case function name params body =>
    dsimp only
    rw [ty?_eq (hc name List.mem_cons_self), ok_bind]
    cases ((g.ty? name).getD .float).width? with
    | none => exact ⟨rfl, h.spans⟩
    | some width =>
      obtain ⟨hfold, afold⟩ := foldlM_ok (I := fun x : Graph => x.Spans g.size) h.spans
        fun x hx r hr => lowerDiscard_ok hx (Graph.returns_lt h.toInRange hi hr)
          ((g.ty? name).getD .float) width
      dsimp only
      rw [returns_eq h hi, ok_bind, hfold, ok_bind]
      exact ⟨link_eq afold.toInRange, afold.link⟩
  all_goals exact ⟨rfl, h.spans⟩

/-! ## Calls -/

section Calls

variable (g : Graph) (call : Id)

/-- The operand at a position. -/
def operand (args : List Id) (n : Nat) : Checked Id :=
  match args[n]? with
  | some a => .ok a
  | none => .error (.noPosition n)

/-- Makes a call the assignment of what `plain` makes of the other arguments to the first, or that
itself when the first cannot be assigned. -/
def lowerOut (t : Option Ty) (args : List Id) (plain : List Id → Checked Kind) : Checked Graph := do
  match args with
  | [] => replace g call (← plain [])
  | out :: rest =>
    if ← isAssignable g out then
      let (right, g) ← allocTyped g (← plain rest) t
      replace g call (.assign .set out right)
    else replace g call (← plain rest)

/-- Puts a call with given arguments into a form. -/
def lowerAs (form : Known.Form) (args : List Id) : Checked Graph := do
  let t ← ty? g call
  match form with
  | .keep | .reject _ => return g
  | .rename target =>
    let (callee, g) ← allocTyped g (.ident target) t
    replace g call (.call callee args)
  | .binary op => replace g call (.binary op (← operand args 0) (← operand args 1))
  | .unary op => replace g call (.unary op (← operand args 0))
  | .argument => replace g call (.sequence [← operand args 0])
  | .assign => replace g call (.assign .set (← operand args 0) (← operand args 1))
  | .outBinary op => lowerOut g call t args fun rest => do
    return .binary op (← operand rest 0) (← operand rest 1)
  | .outUnary op => lowerOut g call t args fun rest => do return .unary op (← operand rest 0)
  | .outRename target =>
    let (callee, g) ← allocTyped g (.ident target) t
    lowerOut g call t args fun rest => return .call callee rest
  | .splice source => replace g call (.raw source)

/-- Puts a call of a known function into its form. -/
def lowerCall (e : Known.Entry) : Checked Graph := do
  match ← kind g call with
  | .call _ args => if args.length = e.arity then lowerAs g call e.form args else return g
  | _ => return g

/-- Puts a call into its form, if it is of a known function. -/
def lowerTarget (p : Id × Target) : Checked Graph :=
  match p.2 with
  | .known e => lowerCall g p.1 e
  | .user _ => return g

/-- Puts all calls of known functions into their forms. -/
def lowerCalls (calls : CallTable) : Checked Graph := do link (← calls.targets.foldlM lowerTarget g)

variable {g call} (h : g.Spans n) (hcall : call < n)

include h hcall

/-- What is put in the place of a call may refer to what was there before. -/
theorem replace_ok {k : Kind} (hk : ∀ c ∈ k.children, c < g.size) :
    replace g call k = .ok (g.replace call k) ∧ (g.replace call k).Spans n :=
  ⟨replace_eq (h.lt_size hcall) k, h.replace hk⟩

theorem lowerOut_ok {t : Option Ty} (ht : g.ty? call = t) {out : Id} {rest : List Id}
    {plain' : List Id → Checked Kind} {plain : Kind} (hplain : plain' rest = .ok plain)
    (hk : ∀ c ∈ plain.children, c < g.size) (hout : out < g.size) :
    lowerOut g call t (out :: rest) plain' = .ok (g.lowerOut call out plain) ∧
      (g.lowerOut call out plain).Spans n := by
  subst ht
  unfold lowerOut Graph.lowerOut
  dsimp only
  rw [isAssignable_eq hout, ok_bind, hplain]
  cases g.isAssignable out with
  | false => exact replace_ok h hcall hk
  | true =>
    have hright := allocates_allocTyped h.toClosed hk (g.ty? call)
    have hx := h.trans hright.toSpans
    rw [if_pos rfl, if_pos rfl, ok_bind, allocTyped_eq, ok_bind]
    refine replace_ok hx hcall (List.forall_mem_cons.mpr ⟨?_, hright.new_lt⟩)
    exact hright.lt_size hout

theorem lowerAs_ok {form : Known.Form} {args : List Id} (hargs : ∀ a ∈ args, a < g.size)
    (hfits : arityFits form args.length = true) :
    lowerAs g call form args = .ok (g.lowerAs call form args) ∧
      (g.lowerAs call form args).Spans n := by
  have one : args.length = 1 → ∃ a, args = [a] := List.length_eq_one_iff.mp
  have two : args.length = 2 → ∃ a b, args = [a, b] := List.length_eq_two.mp
  have hcallee := fun target : String =>
    allocates_allocTyped (k := .ident target) h.toClosed nofun (g.ty? call)
  have hadded := fun target : String => h.trans (hcallee target).toSpans
  unfold lowerAs
  rw [ty?_eq (h.lt_size hcall), ok_bind]
  cases form with
  | keep | reject => exact ⟨rfl, h⟩
  | rename target =>
    dsimp only
    rw [allocTyped_eq, ok_bind]
    refine replace_ok (hadded target) hcall (List.forall_mem_cons.mpr ⟨?_, fun a ha => ?_⟩)
    · exact (hcallee target).new_lt _ (List.mem_singleton_self _)
    · exact (hcallee target).lt_size (hargs a ha)
  | binary op =>
    obtain ⟨a, b, rfl⟩ := two (eq_of_beq hfits)
    exact replace_ok h hcall hargs
  | unary op =>
    obtain ⟨a, rfl⟩ := one (eq_of_beq hfits)
    exact replace_ok h hcall hargs
  | argument =>
    obtain ⟨a, rfl⟩ := one (eq_of_beq hfits)
    exact replace_ok h hcall hargs
  | assign =>
    obtain ⟨out, a, rfl⟩ := two (eq_of_beq hfits)
    exact replace_ok h hcall hargs
  | outBinary op =>
    obtain ⟨out, a, b, rfl⟩ := List.length_eq_three.mp (eq_of_beq hfits)
    obtain ⟨hout, hrest⟩ := List.forall_mem_cons.mp hargs
    exact lowerOut_ok h hcall rfl rfl hrest hout
  | outUnary op =>
    obtain ⟨out, a, rfl⟩ := two (eq_of_beq hfits)
    obtain ⟨hout, hrest⟩ := List.forall_mem_cons.mp hargs
    exact lowerOut_ok h hcall rfl rfl hrest hout
  | outRename target =>
    cases args with
    | nil => cases hfits
    | cons out rest =>
      obtain ⟨hout, hrest⟩ := List.forall_mem_cons.mp hargs
      have hty : (g.allocTyped (.ident target) (g.ty? call)).2.ty? call = g.ty? call :=
        (Graph.Extends.allocTyped g _ _).ty? (h.lt_size hcall)
      have hk : ∀ c ∈ (Kind.call g.size rest).children,
          c < (g.allocTyped (.ident target) (g.ty? call)).2.size :=
        List.forall_mem_cons.mpr ⟨(hcallee target).new_lt _ (List.mem_singleton_self _),
          fun a ha => (hcallee target).lt_size (hrest a ha)⟩
      dsimp only
      rw [allocTyped_eq, ok_bind]
      exact lowerOut_ok (hadded target) hcall hty rfl hk ((hcallee target).lt_size hout)
  | splice source => exact replace_ok h hcall nofun

theorem lowerCall_ok {e : Known.Entry} (he : e ∈ Known.catalog) :
    lowerCall g call e = .ok (g.lowerCall call e) ∧ (g.lowerCall call e).Spans n := by
  have hc := h.kind_children_lt call
  unfold lowerCall Graph.lowerCall
  rw [kind_eq (h.lt_size hcall), ok_bind]
  generalize g.kind call = k at hc
  cases k
  case call callee args =>
    dsimp only
    split_ifs with harity
    · refine lowerAs_ok h hcall (fun a ha => hc a (List.mem_cons_of_mem _ ha)) ?_
      rw [harity]
      exact arityFits_of_mem he
    · exact ⟨rfl, h⟩
  all_goals exact ⟨rfl, h⟩

omit h hcall

/-- **No step of writing calls in their forms fails.** -/
theorem lowerCalls_ok (h : g.Spans n) {calls : CallTable}
    (hcalls : ∀ p ∈ calls.targets, p.1 < n ∧ ∀ e, p.2 = .known e → e ∈ Known.catalog) :
    lowerCalls g calls = .ok (g.lowerCalls calls) ∧ (g.lowerCalls calls).Spans n := by
  have hstep : ∀ x : Graph, x.Spans n → ∀ p ∈ calls.targets,
      lowerTarget x p = .ok (x.lowerTarget p) ∧ (x.lowerTarget p).Spans n := by
    intro x hx p hp
    obtain ⟨hlt, hknown⟩ := hcalls p hp
    unfold lowerTarget Graph.lowerTarget
    cases ht : p.2 with
    | user f => exact ⟨rfl, hx⟩
    | known e => exact lowerCall_ok hx hlt (hknown e ht)
  obtain ⟨hfold, afold⟩ := foldlM_ok (I := fun x : Graph => x.Spans n) h hstep
  unfold lowerCalls
  rw [hfold, ok_bind]
  exact ⟨link_eq afold.toInRange, afold.link⟩

end Calls

end Checked

end ShaderScript
