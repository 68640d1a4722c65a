import ShaderScript.Call.Lower
import ShaderScript.Proofs.Call.Table
import ShaderScript.Proofs.Lower.Steps

/-!
# Calls of known functions in their forms

Every form is a way to write a call: a kind for the call itself, and up to two new nodes below it.

* `Known.Form.Writes`: the kinds that a form puts in the place of a call with some arguments.
* `Known.Form.takes`: the numbers of arguments that a form has a way to write for, with
  `Known.takes_arity` for the forms of the catalog.
* `Graph.lowerAs_cases`: putting a call into a form is one step.
* `Graph.CallOf`: a call of a name stands at a node or is assigned there.
* `CallsLowered`: what holds after some calls have been treated.
* **`Graph.callsLowered_foldl`**: every call of a known function has its form in the end.
-/

namespace ShaderScript

/-- Whether a node is a call. -/
def Kind.isCall : Kind → Bool
  | .call .. => true
  | _ => false

namespace Known

/-- What a form puts in the place of a call with some arguments, the kind of the call itself first.
The others belong to new nodes, which have numbers from `first` on. -/
inductive Form.Writes (first : Nat) : Form → List Id → List Kind → Prop
  | rename (target : String) (args : List Id) :
      Writes first (.rename target) args [.call first args, .ident target]
  | binary (op : BinaryOp) (a b : Id) : Writes first (.binary op) [a, b] [.binary op a b]
  | unary (op : UnaryOp) (a : Id) : Writes first (.unary op) [a] [.unary op a]
  | argument (a : Id) : Writes first .argument [a] [.sequence [a]]
  | assign (out a : Id) : Writes first .assign [out, a] [.assign .set out a]
  | outBinary (op : BinaryOp) (out a b : Id) :
      Writes first (.outBinary op) [out, a, b] [.assign .set out first, .binary op a b]
  | plainBinary (op : BinaryOp) (out a b : Id) :
      Writes first (.outBinary op) [out, a, b] [.binary op a b]
  | outUnary (op : UnaryOp) (out a : Id) :
      Writes first (.outUnary op) [out, a] [.assign .set out first, .unary op a]
  | plainUnary (op : UnaryOp) (out a : Id) : Writes first (.outUnary op) [out, a] [.unary op a]
  | outRename (target : String) (out : Id) (args : List Id) :
      Writes first (.outRename target) (out :: args)
        [.assign .set out (first + 1), .ident target, .call first args]
  | plainRename (target : String) (out : Id) (args : List Id) :
      Writes first (.outRename target) (out :: args) [.call first args, .ident target]
  | splice (source : String) (args : List Id) : Writes first (.splice source) args [.raw source]

/-- Whether a form has a way to write a call with a number of arguments. -/
def Form.takes : Form → Nat → Bool
  | .rename _, _ | .splice _, _ => true
  | .binary _, n => n == 2
  | .unary _, n | .argument, n => n == 1
  | .assign, n | .outUnary _, n => n == 2
  | .outBinary _, n => n == 3
  | .outRename _, n => n != 0
  | .keep, _ | .reject _, _ => false

/-- The call has the right number of arguments, and its form has a way to write it. -/
def Entry.Puts (e : Entry) (args : List Id) : Prop :=
  args.length = e.arity ∧ e.form.takes args.length = true

instance (e : Entry) (args : List Id) : Decidable (e.Puts args) :=
  inferInstanceAs (Decidable (_ ∧ _))

/-- Whether a form writes a remainder. -/
def Form.makesRemainder : Form → Bool
  | .binary op | .outBinary op => op == .rem
  | _ => false

/-- Whether a form refuses the call. -/
def Form.isReject : Form → Bool
  | .reject _ => true
  | _ => false

theorem takes_arity {e : Entry} (he : e ∈ catalog) (hk : e.form ≠ .keep)
    (hr : e.form.isReject = false) : e.form.takes e.arity = true := by
  have hall : ∀ e ∈ catalog, e.form ≠ .keep → e.form.isReject = false →
      e.form.takes e.arity = true := by decide +kernel
  exact hall e he hk hr

theorem makesRemainder_eq_false {e : Entry} (he : e ∈ catalog) :
    e.form.makesRemainder = false := by
  have hall : ∀ e ∈ catalog, e.form.makesRemainder = false := by decide +kernel
  exact hall e he

theorem mem_functionNames_of_target {e : Entry} {name : String} (he : e ∈ catalog)
    (ht : e.form.target? = some name) : name ∈ functionNames :=
  List.mem_append_right _ (List.mem_filterMap.mpr ⟨e, he, ht⟩)

theorem isReserved_of_mem {name : String} (hname : name ∈ functionNames) : isReserved name = true := by
  refine Bool.or_eq_true_iff.mpr (.inr (List.contains_iff_mem.mpr ?_))
  exact List.mem_append_left _ (List.mem_append_right _ hname)

namespace Form.Writes

variable {first : Nat} {form : Form} {args : List Id} {kinds : List Kind}

theorem fits (h : Writes first form args kinds) (callee : Id) :
    Fits (callee :: args) first kinds := by
  cases h with
  | rename target args =>
    refine .of_perm [first] args ?_ (List.sublist_cons_self _ _) ?_ ?_ <;>
      simp [Kind.children]
  | outBinary op out a b =>
    refine .of_perm [first] [out, a, b] ?_ (List.sublist_cons_self _ _) ?_ ?_
    · exact .swap _ _ _
    all_goals simp
  | outUnary op out a =>
    refine .of_perm [first] [out, a] ?_ (List.sublist_cons_self _ _) ?_ ?_
    · exact .swap _ _ _
    all_goals simp
  | outRename target out args =>
    refine .of_perm [first + 1, first] (out :: args) ?_
      (List.sublist_cons_self _ _) ?_ ?_
    · have hperm : ([out] ++ [first + 1, first]).Perm ([first + 1, first] ++ [out]) :=
        List.perm_append_comm
      simpa [Kind.children] using hperm.append_right args
    all_goals simp
  | plainRename target out args =>
    refine .of_perm [first] args ?_
      ((List.sublist_cons_self _ _).trans (List.sublist_cons_self _ _)) ?_ ?_ <;>
      simp [Kind.children]
  | binary | unary | argument | assign => exact .of_sublist (List.sublist_cons_self _ _)
  | plainBinary | plainUnary =>
    exact .of_sublist ((List.sublist_cons_self _ _).trans (List.sublist_cons_self _ _))
  | splice => exact .of_sublist (List.nil_sublist _)

/-- A form writes nothing that lasts, unless it writes a remainder. -/
theorem not_lasting (h : Writes first form args kinds) (hrem : form.makesRemainder = false)
    {k : Kind} (hk : k ∈ kinds) : k.isLasting = false := by
  have op_ne : ∀ {op : BinaryOp} {a b : Id}, (op == .rem) = false →
      (Kind.binary op a b).isLasting = false := by
    intro op a b hop
    cases op <;> first | rfl | cases hop
  cases h <;> simp only [List.mem_cons, List.not_mem_nil, or_false] at hk
  case binary op a b | plainBinary op out a b => exact hk ▸ op_ne hrem
  case outBinary op out a b =>
    rcases hk with rfl | rfl
    · rfl
    · exact op_ne hrem
  all_goals rcases hk with rfl | rfl | rfl <;> rfl

/-- A call that a form writes is of the first new node, which is the identifier of its target. -/
theorem of_call (h : Writes first form args kinds) {callee : Id} {args' : List Id}
    (hk : .call callee args' ∈ kinds) :
    callee = first ∧ ∃ name, form.target? = some name ∧ kinds[1]? = some (.ident name) := by
  cases h <;> simp at hk
  case rename target => exact ⟨hk.1, target, rfl, rfl⟩
  case outRename target out args => exact ⟨hk.1, target, rfl, rfl⟩
  case plainRename target out args => exact ⟨hk.1, target, rfl, rfl⟩

theorem of_target {k : Kind} {ks : List Kind} (h : Writes first form args (k :: ks))
    {name : String} (ht : form.target? = some name) : ks[0]? = some (.ident name) ∧
      ((∃ args', k = .call first args') ∨
        ∃ out args', k = .assign .set out (first + 1) ∧ ks[1]? = some (.call first args')) := by
  cases h <;> cases ht
  case rename => exact ⟨rfl, .inl ⟨args, rfl⟩⟩
  case outRename out args => exact ⟨rfl, .inr ⟨out, args, rfl, rfl⟩⟩
  case plainRename out args => exact ⟨rfl, .inl ⟨args, rfl⟩⟩

theorem target?_of_ident (h : Writes first form args kinds) {name : String}
    (hk : .ident name ∈ kinds) : form.target? = some name := by
  cases h <;> simp at hk
  all_goals exact congrArg some hk.symm

theorem head_not_atom {k : Kind} {ks : List Kind} (h : Writes first form args (k :: ks)) :
    k.isAtom = false := by
  cases h <;> rfl

end Form.Writes

end Known

namespace Graph

variable {g x : Graph} {c : Id}

/-! ## One call -/

theorem lowerOut_eq (x : Graph) (call out : Id) (plain : Kind) :
    x.lowerOut call out plain =
      if x.isAssignable out then
        x.graft [{ kind := plain, ty := x.ty? call }] call (.assign .set out x.size)
      else x.graft [] call plain := by
  unfold lowerOut
  simp only [allocTyped_eq]
  rw [graft_nil]
  rfl

theorem lowerAs_of_not_takes {form : Known.Form} {args : List Id}
    (h : form.takes args.length = false) : x.lowerAs c form args = x := by
  unfold lowerAs
  split <;> first | rfl | simp [Known.Form.takes] at h

/-- **Any other form is written in the place of the call.** -/
theorem lowerAs_of_takes {form : Known.Form} {args : List Id}
    (h : form.takes args.length = true) : ∃ ns k,
      form.Writes x.size args (k :: ns.map Node.kind) ∧ x.lowerAs c form args = x.graft ns c k := by
  have one : args.length = 1 → ∃ a, args = [a] := List.length_eq_one_iff.mp
  have two : args.length = 2 → ∃ a b, args = [a, b] := List.length_eq_two.mp
  cases form with
  | keep | reject => cases h
  | rename target => exact ⟨_, _, .rename target args, by simp only [lowerAs, allocTyped_eq]; rfl⟩
  | binary op =>
    obtain ⟨a, b, rfl⟩ := two (eq_of_beq h)
    exact ⟨[], _, .binary op a b, (graft_nil _ _ _).symm⟩
  | unary op =>
    obtain ⟨a, rfl⟩ := one (eq_of_beq h)
    exact ⟨[], _, .unary op a, (graft_nil _ _ _).symm⟩
  | argument =>
    obtain ⟨a, rfl⟩ := one (eq_of_beq h)
    exact ⟨[], _, .argument a, (graft_nil _ _ _).symm⟩
  | assign =>
    obtain ⟨out, a, rfl⟩ := two (eq_of_beq h)
    exact ⟨[], _, .assign out a, (graft_nil _ _ _).symm⟩
  | outBinary op =>
    obtain ⟨out, a, b, rfl⟩ := List.length_eq_three.mp (eq_of_beq h)
    rw [lowerAs, lowerOut_eq]
    split
    · exact ⟨_, _, .outBinary op out a b, rfl⟩
    · exact ⟨_, _, .plainBinary op out a b, rfl⟩
  | outUnary op =>
    obtain ⟨out, a, rfl⟩ := two (eq_of_beq h)
    rw [lowerAs, lowerOut_eq]
    split
    · exact ⟨_, _, .outUnary op out a, rfl⟩
    · exact ⟨_, _, .plainUnary op out a, rfl⟩
  | outRename target =>
    cases args with
    | nil => cases h
    | cons out args =>
      simp only [lowerAs, allocTyped_eq]
      rw [lowerOut_eq, size_add]
      split
      · exact ⟨_, _, .outRename target out args, graft_add _ _ _ _ _⟩
      · exact ⟨_, _, .plainRename target out args, graft_add _ _ _ _ _⟩
  | splice source => exact ⟨[], _, .splice source args, by simp only [lowerAs, graft_nil]⟩

theorem lowerTarget_cases {callee : Id} {args : List Id} (t : Target)
    (hk : x.kind c = .call callee args) :
    (x.lowerTarget (c, t) = x ∧ ∀ e, t = .known e → ¬ e.Puts args) ∨
    ∃ e, t = .known e ∧ e.Puts args ∧ x.lowerTarget (c, t) = x.lowerAs c e.form args := by
  cases t with
  | user f => exact .inl ⟨rfl, nofun⟩
  | known e =>
    unfold lowerTarget lowerCall
    simp only [hk]
    split_ifs with hlen
    · by_cases hputs : e.Puts args
      · exact .inr ⟨e, rfl, hputs, rfl⟩
      · have hno : e.form.takes args.length = false := by
          rw [Bool.eq_false_iff]
          exact fun ht => hputs ⟨hlen, ht⟩
        exact .inl ⟨lowerAs_of_not_takes hno, fun e' he' => by cases he'; exact hputs⟩
    · exact .inl ⟨rfl, fun e' he' hputs => by cases he'; exact hlen hputs.1⟩

/-- The node is a call of a name. -/
def CallsAt (x : Graph) (i : Id) (name : String) : Prop :=
  ∃ callee args, x.kind i = .call callee args ∧ x.kind callee = .ident name

/-- What a form makes of a call: if that is a call it goes through an identifier, and where the form
has a target the call of the target stands at the node or is a new node that is assigned there. -/
structure Written (g x : Graph) (c : Id) (form : Known.Form) : Prop where
  plain : x.PlainCall c
  target : ∀ name, form.target? = some name →
    ∃ j, (j = c ∨ g.size ≤ j ∧ ∃ out, x.kind c = .assign .set out j) ∧ x.CallsAt j name

theorem kind_getD {ns : List Node} {m : Nat} {k : Kind} (h : (ns.map Node.kind)[m]? = some k) :
    (ns.getD m default).kind = k := by
  rw [List.getElem?_map] at h
  obtain ⟨n, hn, rfl⟩ := Option.map_eq_some_iff.mp h
  rw [List.getD_eq_getElem?_getD, hn, Option.getD_some]

section Step

variable {form : Known.Form} {args : List Id} {ns : List Node} {k : Kind}
  (hw : form.Writes x.size args (k :: ns.map Node.kind))

include hw

theorem allowed_of_writes (hrem : form.makesRemainder = false)
    (hnames : ∀ name, form.target? = some name → Known.isReserved name = true) :
    Lowered.Allowed x ns k := by
  refine ⟨fun k' hk' => hw.not_lasting hrem hk', hw.head_not_atom, fun name hname => ?_, ?_⟩
  · exact hnames name (hw.target?_of_ident (List.mem_cons_of_mem _ hname))
  rintro _ hk' callee args' rfl
  obtain ⟨rfl, name, -, hname⟩ := hw.of_call hk'
  exact ⟨0, name, rfl, kind_getD hname⟩

theorem written_graft (hc : c < x.size) (hsize : g.size ≤ x.size)
    (hplain : (x.graft ns c k).PlainCall c) : Written g (x.graft ns c k) c form := by
  refine ⟨hplain, fun name ht => ?_⟩
  obtain ⟨hname, hcall⟩ := hw.of_target ht
  have hident : (x.graft ns c k).kind x.size = .ident name := by
    rw [← kind_getD hname]
    exact kind_graft_new hc 0
  rcases hcall with ⟨args', rfl⟩ | ⟨out, args', rfl, hright⟩
  · exact ⟨c, .inl rfl, x.size, args', kind_graft_site hc, hident⟩
  · refine ⟨x.size + 1, .inr ⟨Nat.le_succ_of_le hsize, out, kind_graft_site hc⟩, x.size, args', ?_,
      hident⟩
    rw [kind_graft_new hc, kind_getD hright]

end Step

theorem Written.graft {p : Kind → Bool} {i : Id} {form : Known.Form} {ns : List Node} {k : Kind}
    (hwr : Written g x i form) (h : Lowered p g x)
    (hp : ∀ k, p k = true → k.isLasting = false ∧ k.isIdent = false) (hk : p (g.kind c) = true)
    (hc : c < g.size) (hi : i < x.size) (hic : i ≠ c) : Written g (x.graft ns c k) i form := by
  refine ⟨h.plainCall_graft hp hk hc hi hic hwr.plain, fun name ht => ?_⟩
  obtain ⟨j, hj, callee, args, hcall, hname⟩ := hwr.target name ht
  have hjc : j ≠ c := by
    rintro rfl
    rcases hj with rfl | ⟨hge, -⟩
    · exact hic rfl
    · exact not_lt.mpr hge hc
  have hcc : callee ≠ c := fun he => h.site_not_ident hp hk hc name (he ▸ hname)
  refine ⟨j, ?_, callee, args, ?_, ?_⟩
  · refine hj.imp_right fun ⟨hge, out, hout⟩ => ⟨hge, out, ?_⟩
    rw [kind_graft_of_lt hi hic, hout]
  · rw [kind_graft_of_lt (lt_size_of_kind (hcall ▸ nofun)) hjc, hcall]
  · rw [kind_graft_of_lt (lt_size_of_kind (hname ▸ nofun)) hcc, hname]

/-! ## All calls -/

/-- What holds after the calls of a list have been treated: those that have a form are written, and
all others are what they were. -/
structure CallsLowered (p : Kind → Bool) (g x : Graph) (done : List (Id × Target)) : Prop where
  lowered : Lowered p g x
  same : ∀ i callee args, g.kind i = .call callee args →
    (∀ e, (i, .known e) ∈ done → ¬ e.Puts args) → x.kind i = g.kind i
  written : ∀ i e callee args, (i, .known e) ∈ done → g.kind i = .call callee args →
    e.Puts args → Written g x i e.form

theorem Written.sameShape {c : Id} {form : Known.Form} (h : Written g x c form) {y : Graph}
    (hs : SameShape x y) : Written g y c form := by
  refine ⟨fun callee args hcall => ?_, fun name ht => ?_⟩
  · rw [hs.kind] at hcall
    obtain ⟨name, hname⟩ := h.plain callee args hcall
    exact ⟨name, (hs.kind callee).trans hname⟩
  · obtain ⟨j, hj, callee, args, hcall, hname⟩ := h.target name ht
    refine ⟨j, ?_, callee, args, (hs.kind j).trans hcall, (hs.kind callee).trans hname⟩
    rw [hs.kind]
    exact hj

namespace CallsLowered

variable {p : Kind → Bool} {done : List (Id × Target)} {e : Known.Entry} {callee : Id}
  {args : List Id} {t : Target}

theorem start (ht : g.IsTree) : CallsLowered p g g [] :=
  ⟨.start ht, fun _ _ _ _ _ => rfl, fun _ _ _ _ hmem => by cases hmem⟩

theorem sameShape (h : CallsLowered p g x done) {y : Graph} (hs : SameShape x y) :
    CallsLowered p g y done :=
  ⟨h.lowered.sameShape hs,
    fun i callee args hi hno => (hs.kind i).trans (h.same i callee args hi hno),
    fun i e callee args hmem hi hputs => (h.written i e callee args hmem hi hputs).sameShape hs⟩

theorem kind_of_new (h : CallsLowered p g x done) (hk : g.kind c = .call callee args)
    (hnew : ∀ e, (c, .known e) ∉ done) : x.kind c = .call callee args := by
  rw [h.same c callee args hk fun e hmem => absurd hmem (hnew e), hk]

theorem idle (h : CallsLowered p g x done) (hk : g.kind c = .call callee args)
    (ht : ∀ e, t = .known e → ¬ e.Puts args) : CallsLowered p g x (done ++ [(c, t)]) := by
  refine ⟨h.lowered, fun i callee' args' hi hno => ?_, fun i e callee' args' hmem hi hputs => ?_⟩
  · exact h.same i callee' args' hi fun e hmem => hno e (List.mem_append_left _ hmem)
  · rcases List.mem_append.mp hmem with hmem | hmem
    · exact h.written i e callee' args' hmem hi hputs
    · obtain ⟨rfl, rfl⟩ := Prod.mk.inj (List.mem_singleton.mp hmem)
      rw [hk] at hi
      cases hi
      exact absurd hputs (ht e rfl)

theorem put (h : CallsLowered p g x done)
    (hp : ∀ k, p k = true → k.isLasting = false ∧ k.isIdent = false)
    (hpc : ∀ k, k.isCall = true → p k = true) (hc : c ∈ g.live) (hlt : c < g.size)
    (hk : g.kind c = .call callee args) (hnew : ∀ e, (c, .known e) ∉ done)
    (he : e ∈ Known.catalog) (hputs : e.Puts args) :
    CallsLowered p g (x.lowerAs c e.form args) (done ++ [(c, .known e)]) := by
  have hkx := h.kind_of_new hk hnew
  have hpk : p (g.kind c) = true := hpc _ (by rw [hk]; rfl)
  obtain ⟨ns, k, hw, heq⟩ := lowerAs_of_takes (x := x) (c := c) hputs.2
  have hcx : c < x.size := hlt.trans_le h.lowered.size
  have hfit : Fits (x.children c) x.size (k :: ns.map Node.kind) := by
    rw [children, hkx]
    exact hw.fits callee
  have hlow := h.lowered.graft hp hpk hlt hc hfit
    (allowed_of_writes hw (Known.makesRemainder_eq_false he) fun name ht =>
      Known.isReserved_of_mem (Known.mem_functionNames_of_target he ht))
  have hplain : (x.graft ns c k).PlainCall c := by
    intro callee' args' hcall
    rw [kind_graft_site hcx] at hcall
    subst hcall
    obtain ⟨rfl, name, -, hname⟩ := hw.of_call List.mem_cons_self
    exact ⟨name, by rw [← kind_getD hname]; exact kind_graft_new hcx 0⟩
  rw [heq]
  refine ⟨hlow, fun i callee' args' hi hno => ?_, fun i e' callee' args' hmem hi hputs' => ?_⟩
  · have hic : i ≠ c := by
      rintro rfl
      rw [hk] at hi
      cases hi
      exact hno e (List.mem_append_right _ List.mem_cons_self) hputs
    have hil : i < g.size := lt_size_of_kind (by rw [hi]; exact Kind.noConfusion)
    rw [kind_graft_of_lt (hil.trans_le h.lowered.size) hic]
    exact h.same i callee' args' hi fun e hmem => hno e (List.mem_append_left _ hmem)
  · rcases List.mem_append.mp hmem with hold | hmem
    · have hic : i ≠ c := by
        rintro rfl
        exact hnew e' hold
      have hil : i < g.size := lt_size_of_kind (by rw [hi]; exact Kind.noConfusion)
      exact (h.written i e' callee' args' hold hi hputs').graft h.lowered hp hpk hlt
        (hil.trans_le h.lowered.size) hic
    · obtain ⟨rfl, he'⟩ := Prod.mk.inj (List.mem_singleton.mp hmem)
      cases he'
      exact written_graft hw hcx h.lowered.size hplain

theorem step (h : CallsLowered p g x done)
    (hp : ∀ k, p k = true → k.isLasting = false ∧ k.isIdent = false)
    (hpc : ∀ k, k.isCall = true → p k = true) (hc : c ∈ g.live) (hlt : c < g.size)
    (hk : g.kind c = .call callee args) (hnew : ∀ e, (c, .known e) ∉ done)
    (he : ∀ e, t = .known e → e ∈ Known.catalog) :
    CallsLowered p g (x.lowerTarget (c, t)) (done ++ [(c, t)]) := by
  rcases lowerTarget_cases t (h.kind_of_new hk hnew) with ⟨heq, hno⟩ | ⟨e, rfl, hputs, heq⟩
  · rw [heq]
    exact h.idle hk hno
  · rw [heq]
    exact h.put hp hpc hc hlt hk hnew (he e rfl) hputs

/-- **The whole table**: what each entry keeps holds after all of them. -/
theorem foldl_rec {P : Graph → List (Id × Target) → Prop}
    (hp : ∀ k, p k = true → k.isLasting = false ∧ k.isIdent = false)
    (hpc : ∀ k, k.isCall = true → p k = true) {ts : List (Id × Target)}
    (h : CallsLowered p g x done) (hkeys : ((done ++ ts).map Prod.fst).Nodup)
    (hts : ∀ q ∈ ts, q.1 ∈ g.live ∧ q.1 < g.size ∧ (∃ callee args, g.kind q.1 = .call callee args) ∧
      ∀ e, q.2 = .known e → e ∈ Known.catalog)
    (hstep : ∀ {x done c callee args} t, CallsLowered p g x done → c ∈ g.live → c < g.size →
      g.kind c = .call callee args → (∀ e, (c, .known e) ∉ done) →
      (∀ e, t = .known e → e ∈ Known.catalog) → P x done →
      P (x.lowerTarget (c, t)) (done ++ [(c, t)])) (hstart : P x done) :
    P (ts.foldl lowerTarget x) (done ++ ts) := by
  induction ts generalizing x done with
  | nil =>
    rw [List.append_nil]
    exact hstart
  | cons q ts ih =>
    obtain ⟨c, t⟩ := q
    obtain ⟨hc, hlt, ⟨callee, args, hk⟩, he⟩ := hts (c, t) List.mem_cons_self
    have hnew : ∀ e, (c, .known e) ∉ done := by
      intro e hmem
      rw [List.map_append, List.nodup_append] at hkeys
      exact hkeys.2.2 c (List.mem_map_of_mem hmem) c (List.mem_map_of_mem List.mem_cons_self) rfl
    rw [List.append_cons] at hkeys ⊢
    exact ih (h.step hp hpc hc hlt hk hnew he) hkeys (fun q hq => hts q (List.mem_cons_of_mem _ hq))
      (hstep t h hc hlt hk hnew he hstart)

theorem foldl (hp : ∀ k, p k = true → k.isLasting = false ∧ k.isIdent = false)
    (hpc : ∀ k, k.isCall = true → p k = true) {ts : List (Id × Target)}
    (h : CallsLowered p g x done) (hkeys : ((done ++ ts).map Prod.fst).Nodup)
    (hts : ∀ q ∈ ts, q.1 ∈ g.live ∧ q.1 < g.size ∧ (∃ callee args, g.kind q.1 = .call callee args) ∧
      ∀ e, q.2 = .known e → e ∈ Known.catalog) :
    CallsLowered p g (ts.foldl lowerTarget x) (done ++ ts) :=
  h.foldl_rec hp hpc hkeys hts
    (fun _ _ hc hlt hk hnew he h => h.step hp hpc hc hlt hk hnew he) h

end CallsLowered

end Graph

end ShaderScript
