import ShaderScript.Proofs.Lower.Arguments
import ShaderScript.Proofs.Lower.Facts

/-!
# Calls and their new nodes

A call of a known function that is written in its form has a block: itself and up to two new nodes,
which get consecutive numbers and the type of the call. Later calls are written elsewhere and leave
the block alone, and there are no new nodes but in blocks.

* `Known.Form.isWritten`: the forms that put something else in the place of a call.
* `Known.Form.kept`: the arguments that have a place in a form.
* `Graph.operands`: what a node holds of what was there before.
* `Graph.AddsTyped`: an edit gives one type to all the nodes that it adds.
* `Graph.Block`: what has been put in the place of a call, with **`Graph.Block.operands`** for its
  arguments.
* `Graph.Formed`: what holds after some calls have been treated, with `Graph.Formed.put` for one
  call and **`Graph.Formed.foldl`** for all of them.
-/

namespace ShaderScript

namespace Known

/-- Whether a form puts something else in the place of a call. -/
def Form.isWritten : Form → Bool
  | .keep | .reject _ => false
  | _ => true

/-- The arguments that have a place in a form: all of them, but for a first one that the form would
assign and that cannot be assigned. -/
def Form.kept (form : Form) (assignable : Id → Bool) : List Id → List Id
  | [] => []
  | out :: rest => if form.isOut && !assignable out then rest else out :: rest

theorem Form.kept_of_isOut_eq_false {form : Form} (h : form.isOut = false) (assignable : Id → Bool)
    (args : List Id) : form.kept assignable args = args := by
  cases args with
  | nil => rfl
  | cons out rest => rw [kept, h]; rfl

theorem Form.kept_cons_of_isOut {form : Form} (h : form.isOut = true) (assignable : Id → Bool)
    (out : Id) (rest : List Id) : form.kept assignable (out :: rest) =
      if assignable out then out :: rest else rest := by
  rw [kept, h]
  cases assignable out <;> rfl

theorem Form.isWritten_of_takes {form : Form} {n : Nat} (h : form.takes n = true) :
    form.isWritten = true := by
  cases form <;> first | rfl | cases h

theorem Form.kept_sublist (form : Form) (assignable : Id → Bool) (args : List Id) :
    (form.kept assignable args).Sublist args := by
  cases args with
  | nil => exact .refl []
  | cons out rest =>
    rw [kept]
    split_ifs
    · exact List.sublist_cons_self out rest
    · exact .refl _

theorem Form.isWritten_of_isOut {form : Form} (h : form.isOut = true) : form.isWritten = true := by
  cases form <;> first | rfl | cases h

theorem Form.of_notMem_kept {form : Form} {assignable : Id → Bool} {args : List Id} {a : Id}
    (ha : a ∈ args) (hnot : a ∉ form.kept assignable args) :
    ∃ rest, args = a :: rest ∧ form.isOut = true ∧ assignable a = false := by
  cases args with
  | nil => cases ha
  | cons out rest =>
    rw [kept] at hnot
    split_ifs at hnot with hdrops
    · obtain ⟨hout, hna⟩ := Bool.and_eq_true_iff.mp hdrops
      obtain rfl := (List.mem_cons.mp ha).resolve_right hnot
      exact ⟨rest, rfl, hout, by simpa using hna⟩
    · exact absurd ha hnot

theorem Entry.puts {e : Entry} {args : List Id} (he : e ∈ catalog) (hlen : args.length = e.arity)
    (hw : e.form.isWritten = true) : e.Puts args := by
  refine ⟨hlen, hlen ▸ takes_arity he (fun hkeep => ?_) ?_⟩
  · rw [hkeep] at hw
    cases hw
  · cases hf : e.form <;> first | rfl | (rw [hf] at hw; cases hw)

namespace Form.Writes

variable {first : Nat} {form : Form} {args : List Id} {k : Kind} {ks : List Kind}

theorem head_ne (h : Writes first form args (k :: ks)) {callee : Id} (hlt : callee < first)
    (args' : List Id) : k ≠ .call callee args' := by
  rintro rfl
  exact absurd (h.of_call List.mem_cons_self).1 hlt.ne

/-- Every new node has its place below the call, at most below one other new node. -/
theorem holds_new (h : Writes first form args (k :: ks)) {m : Nat} (hm : m < ks.length) :
    first + m ∈ k.children ∨
      ∃ n k', ks[n]? = some k' ∧ first + n ∈ k.children ∧ first + m ∈ k'.children := by
  cases h with
  | binary | unary | argument | assign | plainBinary | plainUnary | splice => cases hm
  | rename | plainRename =>
    obtain rfl := Nat.lt_one_iff.mp hm
    exact .inl List.mem_cons_self
  | outBinary | outUnary =>
    obtain rfl := Nat.lt_one_iff.mp hm
    exact .inl (List.mem_cons_of_mem _ List.mem_cons_self)
  | outRename target out args =>
    rcases m with _ | _ | m
    · exact .inr ⟨1, _, rfl, List.mem_cons_of_mem _ List.mem_cons_self, List.mem_cons_self⟩
    · exact .inl (List.mem_cons_of_mem _ List.mem_cons_self)
    · cases Nat.lt_of_succ_lt_succ (Nat.lt_of_succ_lt_succ hm)

theorem leaf_of_held (h : Writes first form args (k :: ks)) (hargs : ∀ a ∈ args, a < first)
    {m : Nat} {k' : Kind} (hm : ks[m]? = some k') {i : Id} (hi : i ∈ k'.children)
    (hle : first ≤ i) :
    ∃ n k'', i = first + n ∧ ks[n]? = some k'' ∧ k''.children = [] := by
  have hnew : i ∉ args := fun ha => not_lt.mpr hle (hargs i ha)
  cases h with
  | binary | unary | argument | assign | plainBinary | plainUnary | splice => cases hm
  | rename | plainRename =>
    rcases m with _ | m <;> cases hm
    cases hi
  | outBinary op out a b | outUnary op out a =>
    rcases m with _ | m <;> cases hm
    exact absurd (List.mem_cons_of_mem out hi) hnew
  | outRename target out args =>
    rcases m with _ | _ | m
    · cases hm
      cases hi
    · cases hm
      rcases List.mem_cons.mp hi with rfl | hi
      · exact ⟨0, _, rfl, rfl, rfl⟩
      · exact absurd (List.mem_cons_of_mem out hi) hnew
    · cases hm

end Form.Writes

end Known

namespace Graph

variable {g x : Graph} {c : Id}

/-! ## One call -/

/-- A node below `n` stands for itself, any other for what it holds. -/
def parts (n : Nat) (x : Graph) (i : Id) : List Id := if i < n then [i] else x.children i

/-- The nodes below `n` that a node holds, by itself or by way of one node that is not below `n`. -/
def operands (n : Nat) (x : Graph) (i : Id) : List Id :=
  ((x.children i).flatMap (x.parts n)).filter (· < n)

theorem parts_of_lt {n : Nat} {i : Id} (hi : i < n) : x.parts n i = [i] := if_pos hi

theorem parts_of_le {n : Nat} {i : Id} (hi : n ≤ i) : x.parts n i = x.children i :=
  if_neg (not_lt.mpr hi)

theorem flatMap_parts {n : Nat} {is : List Id} (his : ∀ i ∈ is, i < n) :
    is.flatMap (x.parts n) = is :=
  (List.flatMap_congr fun i hi => parts_of_lt (his i hi)).trans (List.flatMap_singleton' is)

/-- The nodes that `y` has more than `x` have one type or none. -/
def AddsTyped (t : Option Ty) (x y : Graph) : Prop := ∀ i, x.size ≤ i → i < y.size → y.ty? i = t

namespace AddsTyped

variable {y : Graph} {t : Option Ty}

theorem refl (t : Option Ty) (x : Graph) : AddsTyped t x x :=
  fun _ hle hlt => absurd hlt (not_lt.mpr hle)

theorem allocTyped (h : AddsTyped t x y) (k : Kind) : AddsTyped t x (y.allocTyped k t).2 := by
  intro i hle hlt
  rw [allocTyped_eq] at hlt ⊢
  unfold ty?
  rw [node_add_one]
  split_ifs with hi
  · rfl
  · rw [size_add, List.length_singleton] at hlt
    exact h i hle (lt_of_le_of_ne (Nat.le_of_lt_succ hlt) hi)

theorem replace (h : AddsTyped t x y) (i : Id) (k : Kind) : AddsTyped t x (y.replace i k) := by
  intro j hle hlt
  have hj : j < y.size := (size_modify _ _ _).symm ▸ hlt
  exact ((Extends.replace y i k).ty? hj).trans (h j hle hj)

theorem lowerOut (h : AddsTyped t x y) (hc : y.ty? c = t) (out : Id) (plain : Kind) :
    AddsTyped t x (y.lowerOut c out plain) := by
  subst hc
  unfold Graph.lowerOut
  split_ifs
  · exact (h.allocTyped plain).replace _ _
  · exact h.replace _ _

end AddsTyped

theorem addsTyped_lowerAs (hc : c < x.size) (form : Known.Form) (args : List Id) :
    AddsTyped (x.ty? c) x (x.lowerAs c form args) := by
  have start : AddsTyped (x.ty? c) x x := .refl _ x
  unfold lowerAs
  split
  case h_1 => exact (start.allocTyped _).replace _ _
  case h_6 | h_7 => exact start.lowerOut rfl _ _
  case h_8 => exact (start.allocTyped _).lowerOut ((Extends.allocTyped x _ _).ty? hc) _ _
  case h_10 => exact start
  all_goals exact start.replace _ _

/-- What a form has put in the place of a call: the kind `k` at the call itself and the kinds `ks`
at new nodes, which have the type of the call. -/
structure Block (g x : Graph) (c : Id) (form : Known.Form) (args : List Id) (first : Nat) (k : Kind)
    (ks : List Kind) : Prop where
  writes : form.Writes first args (k :: ks)
  old_le : g.size ≤ first
  le_size : first + ks.length ≤ x.size
  site : x.kind c = k
  kind_new : ∀ m k', ks[m]? = some k' → x.kind (first + m) = k'
  ty_new : ∀ m < ks.length, x.ty? (first + m) = g.ty? c
  assigns : ∀ out rest, args = out :: rest → form.isOut = true →
    ((∃ right, k = .assign .set out right) ↔ g.isAssignable out = true)

namespace Block

variable {form : Known.Form} {args : List Id} {first : Nat} {k : Kind} {ks : List Kind}

theorem sameShape (h : Block g x c form args first k ks) {y : Graph} (hs : SameShape x y)
    (hty : ∀ i, y.ty? i = x.ty? i) : Block g y c form args first k ks where
  writes := h.writes
  old_le := h.old_le
  le_size := hs.size ▸ h.le_size
  site := (hs.kind c).trans h.site
  kind_new m k' hm := (hs.kind _).trans (h.kind_new m k' hm)
  ty_new m hm := (hty _).trans (h.ty_new m hm)
  assigns := h.assigns

theorem new_lt (h : Block g x c form args first k ks) {m : Nat} (hm : m < ks.length) :
    first + m < x.size := (Nat.add_lt_add_left hm first).trans_le h.le_size

theorem le_new (h : Block g x c form args first k ks) (m : Nat) : g.size ≤ first + m :=
  h.old_le.trans (Nat.le_add_right first m)

theorem graft (h : Block g x c form args first k ks) {site : Id} {ns : List Node} {l : Kind}
    (hc : c < x.size) (hsite : site < g.size) (hne : c ≠ site) :
    Block g (x.graft ns site l) c form args first k ks where
  writes := h.writes
  old_le := h.old_le
  le_size := by
    rw [size_graft]
    exact Nat.le_add_right_of_le h.le_size
  site := (kind_graft_of_lt hc hne).trans h.site
  kind_new m k' hm := by
    obtain ⟨hlt, -⟩ := List.getElem?_eq_some_iff.mp hm
    rw [kind_graft_of_lt (h.new_lt hlt) (hsite.trans_le (h.le_new m)).ne']
    exact h.kind_new m k' hm
  ty_new m hm :=
    (part_graft_of_lt Node.ty (fun _ _ => rfl) (h.new_lt hm)).trans (h.ty_new m hm)
  assigns := h.assigns

theorem parts_new (h : Block g x c form args first k ks) {m : Nat} {k' : Kind}
    (hm : ks[m]? = some k') : x.parts g.size (first + m) = k'.children :=
  (parts_of_le (h.le_new m)).trans (congrArg Kind.children (h.kind_new m k' hm))

theorem kept_of_assign (h : Block g x c form args first k ks) {out right : Id} {rest : List Id}
    (hargs : args = out :: rest) (hout : form.isOut = true) (hk : k = .assign .set out right) :
    form.kept g.isAssignable args = out :: rest := by
  rw [hargs, Known.Form.kept_cons_of_isOut hout,
    if_pos ((h.assigns out rest hargs hout).mp ⟨right, hk⟩)]

theorem kept_of_ne_assign (h : Block g x c form args first k ks) {out : Id} {rest : List Id}
    (hargs : args = out :: rest) (hout : form.isOut = true)
    (hk : ∀ right, k ≠ .assign .set out right) : form.kept g.isAssignable args = rest := by
  rw [hargs, Known.Form.kept_cons_of_isOut hout, if_neg]
  intro ha
  obtain ⟨right, he⟩ := (h.assigns out rest hargs hout).mpr ha
  exact hk right he

/-- **The arguments that are kept have their places in the block, in their order**, and nothing else
that was there before has. -/
theorem operands (h : Block g x c form args first k ks) (hargs : ∀ a ∈ args, a < g.size)
    (hsplice : form.isSplice = true → args = []) :
    x.operands g.size c = form.kept g.isAssignable args := by
  have keep : ∀ {as : List Id}, (∀ a ∈ as, a < g.size) → as.filter (· < g.size) = as := fun has =>
    List.filter_eq_self.mpr fun a ha => decide_eq_true (has a ha)
  have new : ∀ m l, ks[m]? = some l → x.parts g.size (first + m) = l.children := fun _ _ =>
    h.parts_new
  unfold Graph.operands
  rw [children, h.site]
  cases h.writes with
  | rename target args =>
    have h0 : x.parts g.size first = [] := new 0 _ rfl
    rw [Known.Form.kept_of_isOut_eq_false rfl, Kind.children, List.flatMap_cons, h0,
      flatMap_parts hargs]
    exact keep hargs
  | binary op a b | unary op a | argument a | assign out a =>
    rw [Known.Form.kept_of_isOut_eq_false rfl, Kind.children, flatMap_parts hargs]
    exact keep hargs
  | outBinary op out a b =>
    have h0 : x.parts g.size first = [a, b] := new 0 _ rfl
    rw [h.kept_of_assign rfl rfl rfl, ← keep hargs]
    simp [Kind.children, h0, parts_of_lt (hargs out List.mem_cons_self)]
  | outUnary op out a =>
    have h0 : x.parts g.size first = [a] := new 0 _ rfl
    rw [h.kept_of_assign rfl rfl rfl, ← keep hargs]
    simp [Kind.children, h0, parts_of_lt (hargs out List.mem_cons_self)]
  | outRename target out args =>
    have h1 : x.parts g.size (first + 1) = first :: args := new 1 _ rfl
    have hfirst : ¬ first < g.size := not_lt.mpr h.old_le
    rw [h.kept_of_assign rfl rfl rfl, ← keep hargs]
    simp [Kind.children, h1, parts_of_lt (hargs out List.mem_cons_self), List.filter_cons, hfirst]
  | plainBinary op out a b | plainUnary op out a =>
    have hrest := fun q hq => hargs q (List.mem_cons_of_mem _ hq)
    rw [h.kept_of_ne_assign rfl rfl (by simp), Kind.children, flatMap_parts hrest]
    exact keep hrest
  | plainRename target out args =>
    have h0 : x.parts g.size first = [] := new 0 _ rfl
    have hrest := fun q hq => hargs q (List.mem_cons_of_mem _ hq)
    rw [h.kept_of_ne_assign rfl rfl (by simp), Kind.children, List.flatMap_cons, h0,
      flatMap_parts hrest]
    exact keep hrest
  | splice source =>
    obtain rfl := hsplice rfl
    rfl

theorem children_eq_nil (h : Block g x c form args first k ks) {callee : Id}
    (hparts : ∀ q ∈ callee :: args, q < g.size) {q r : Id} (hq : q ∈ x.children c)
    (hqn : g.size ≤ q) (hr : r ∈ x.children q) (hrn : g.size ≤ r) : x.children r = [] := by
  have hargs : ∀ a ∈ args, a < g.size := fun a ha => hparts a (List.mem_cons_of_mem _ ha)
  rw [children, h.site] at hq
  rcases (h.writes.fits callee).child k List.mem_cons_self q hq with hold | ⟨hle, hlt⟩
  · exact absurd (hparts q hold) (not_lt.mpr hqn)
  obtain ⟨m, rfl⟩ := Nat.exists_eq_add_of_le hle
  have hm : ks[m]? = some (x.kind (first + m)) := by
    have hlen : m < ks.length := Nat.lt_of_succ_lt_succ (Nat.lt_of_add_lt_add_left hlt)
    rw [List.getElem?_eq_getElem hlen, h.kind_new m _ (List.getElem?_eq_getElem hlen)]
  have hfr : first ≤ r := by
    rcases (h.writes.fits callee).child _ (List.mem_cons_of_mem k (List.mem_of_getElem? hm)) r hr
      with hold | ⟨hle, -⟩
    · exact absurd (hparts r hold) (not_lt.mpr hrn)
    · exact hle
  obtain ⟨n, k', rfl, hn, hnil⟩ :=
    h.writes.leaf_of_held (fun a ha => (hargs a ha).trans_le h.old_le) hm hr hfr
  rw [children, h.kind_new n k' hn, hnil]

end Block

/-! ## All calls -/

/-- A call of the list has been written, with new nodes from `first` on. -/
def HasBlock (g x : Graph) (done : List (Id × Target)) (c : Id) (first : Nat) (ks : List Kind) :
    Prop :=
  ∃ e callee args k, (c, .known e) ∈ done ∧ g.kind c = .call callee args ∧ e.Puts args ∧
    Block g x c e.form args first k ks

/-- What holds after the calls of a list have been treated: those that have a form have their
blocks, and there are no new nodes but in these. -/
structure Formed (g x : Graph) (done : List (Id × Target)) : Prop where
  ty : ∀ i < g.size, x.ty? i = g.ty? i
  block : ∀ c e callee args, (c, .known e) ∈ done → g.kind c = .call callee args → e.Puts args →
    ∃ first k ks, Block g x c e.form args first k ks
  new : ∀ j, g.size ≤ j → j < x.size →
    ∃ c first ks, HasBlock g x done c first ks ∧ ∃ m < ks.length, j = first + m

namespace Formed

variable {p : Kind → Bool} {done : List (Id × Target)} {e : Known.Entry} {callee : Id}
  {args : List Id} {t : Target}

theorem start (g : Graph) : Formed g g [] where
  ty _ _ := rfl
  block _ _ _ _ hmem := by cases hmem
  new _ hle hlt := absurd hlt (not_lt.mpr hle)

theorem sameShape (h : Formed g x done) {y : Graph} (hs : SameShape x y)
    (hty : ∀ i, y.ty? i = x.ty? i) : Formed g y done where
  ty i hi := (hty i).trans (h.ty i hi)
  block c e callee args hmem hk hputs := by
    obtain ⟨first, k, ks, hb⟩ := h.block c e callee args hmem hk hputs
    exact ⟨first, k, ks, hb.sameShape hs hty⟩
  new j hle hlt := by
    obtain ⟨c, first, ks, ⟨e, callee, args, k, hmem, hk, hputs, hb⟩, hm⟩ :=
      h.new j hle (hs.size ▸ hlt)
    exact ⟨c, first, ks, ⟨e, callee, args, k, hmem, hk, hputs, hb.sameShape hs hty⟩, hm⟩

theorem idle (h : Formed g x done) (hk : g.kind c = .call callee args)
    (ht : ∀ e, t = .known e → ¬ e.Puts args) : Formed g x (done ++ [(c, t)]) where
  ty := h.ty
  block c' e' callee' args' hmem hk' hputs := by
    rcases List.mem_append.mp hmem with hmem | hmem
    · exact h.block c' e' callee' args' hmem hk' hputs
    · obtain ⟨rfl, rfl⟩ := Prod.mk.inj (List.mem_singleton.mp hmem)
      rw [hk] at hk'
      cases hk'
      exact absurd hputs (ht e' rfl)
  new j hle hlt := by
    obtain ⟨c', first, ks, ⟨e, callee, args, k, hmem, hrest⟩, hm⟩ := h.new j hle hlt
    exact ⟨c', first, ks, ⟨e, callee, args, k, List.mem_append_left _ hmem, hrest⟩, hm⟩

theorem put (h : Formed g x done) (hl : Lowered p g x) (ht : g.IsTree)
    (hp : ∀ k, p k = true → k.isLasting = false ∧ k.isIdent = false) (hc : c ∈ g.live)
    (hk : g.kind c = .call callee args) (hnew : ∀ e, (c, .known e) ∉ done)
    (hputs : e.Puts args) : Formed g (x.lowerAs c e.form args) (done ++ [(c, .known e)]) := by
  have hlt := ht.lt_size hc
  have hcx : c < x.size := hlt.trans_le hl.size
  have hadds := addsTyped_lowerAs hcx e.form args
  have hmem : (c, Target.known e) ∈ done ++ [(c, .known e)] :=
    List.mem_append_right _ List.mem_cons_self
  obtain ⟨ns, k, hw, heq⟩ := lowerAs_of_takes (x := x) (c := c) hputs.2
  have hsize : (x.lowerAs c e.form args).size = x.size + ns.length := by rw [heq, size_graft]
  have hblock : Block g (x.lowerAs c e.form args) c e.form args x.size k (ns.map Node.kind) := by
    refine ⟨hw, hl.size, ?_, ?_, fun m k' hm => ?_, fun m hm => ?_, fun out rest hargs hout => ?_⟩
    · rw [hsize, List.length_map]
    · rw [heq, kind_graft_site hcx]
    · rw [heq, kind_graft_new hcx, kind_getD hm]
    · rw [List.length_map] at hm
      rw [hadds _ (Nat.le_add_right _ _) (hsize ▸ Nat.add_lt_add_left hm _), h.ty c hlt]
    · rw [← Routed.assigns_iff hl ht hp hc hk hargs hout hputs.2, heq, kind_graft_site hcx]
  -- the blocks that stand already are those of other calls
  have stays : ∀ {c' e' callee' args' first k' ks}, (c', .known e') ∈ done →
      g.kind c' = .call callee' args' → Block g x c' e'.form args' first k' ks →
      Block g (x.lowerAs c e.form args) c' e'.form args' first k' ks := by
    intro c' e' callee' args' first k' ks hmem' hk' hb
    rw [heq]
    refine hb.graft ((lt_size_of_kind (hk' ▸ nofun)).trans_le hl.size) hlt ?_
    rintro rfl
    exact hnew e' hmem'
  refine ⟨fun i hi => ?_, fun c' e' callee' args' hmem' hk' hputs' => ?_, fun j hle hj => ?_⟩
  · rw [(extends_lowerAs x c e.form args).ty? (hi.trans_le hl.size), h.ty i hi]
  · rcases List.mem_append.mp hmem' with hold | hmem'
    · obtain ⟨first, k', ks, hb⟩ := h.block c' e' callee' args' hold hk' hputs'
      exact ⟨first, k', ks, stays hold hk' hb⟩
    · cases List.mem_singleton.mp hmem'
      rw [hk] at hk'
      cases hk'
      exact ⟨x.size, k, ns.map Node.kind, hblock⟩
  · rcases Nat.lt_or_ge j x.size with hjx | hjx
    · obtain ⟨c', first, ks, ⟨e', callee', args', k', hold, hk', hputs', hb⟩, hm⟩ :=
        h.new j hle hjx
      exact ⟨c', first, ks, ⟨e', callee', args', k', List.mem_append_left _ hold, hk', hputs',
        stays hold hk' hb⟩, hm⟩
    · obtain ⟨m, rfl⟩ := Nat.exists_eq_add_of_le hjx
      refine ⟨c, x.size, ns.map Node.kind, ⟨e, callee, args, k, hmem, hk, hputs, hblock⟩, m, ?_,
        rfl⟩
      rw [List.length_map]
      exact Nat.lt_of_add_lt_add_left (hsize ▸ hj)

/-- **The whole table.** -/
theorem foldl (h : Formed g x done) (ht : g.IsTree)
    (hp : ∀ k, p k = true → k.isLasting = false ∧ k.isIdent = false)
    (hpc : ∀ k, k.isCall = true → p k = true) {ts : List (Id × Target)}
    (hcl : CallsLowered p g x done) (hkeys : ((done ++ ts).map Prod.fst).Nodup)
    (hts : ∀ q ∈ ts, q.1 ∈ g.live ∧ (∃ callee args, g.kind q.1 = .call callee args) ∧
      ∀ e, q.2 = .known e → e ∈ Known.catalog) :
    Formed g (ts.foldl lowerTarget x) (done ++ ts) := by
  refine hcl.foldl_rec hp hpc hkeys (fun q hq => ?_) (fun t hcl hc _ hk hnew _ h => ?_) h
  · obtain ⟨hc, hrest⟩ := hts q hq
    exact ⟨hc, ht.lt_size hc, hrest⟩
  · rcases lowerTarget_cases t (hcl.kind_of_new hk hnew) with ⟨heq, hno⟩ | ⟨e, rfl, hputs, heq⟩
    · rw [heq]
      exact h.idle hk hno
    · rw [heq]
      exact h.put hcl.lowered ht hp hc hk hnew hputs

end Formed

end Graph

end ShaderScript
