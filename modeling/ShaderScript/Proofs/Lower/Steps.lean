import ShaderScript.Known.Reserved
import ShaderScript.Proofs.Graph.Growth
import ShaderScript.Proofs.Scope.Renaming

/-!
# Steps towards the shading language

Lowering puts returns and calls of some kinds into other forms, one at a time. What the steps have
in common is said here once: which nodes they touch, and what they put there.

* `Kind.isLasting`: what lowering neither makes nor takes away.
* `Kind.isAtom`: what lowering puts in the place of no node.
* `Graph.PlainCall`: a call, if the node is one, goes through an identifier.
* `Graph.Lowered`: what lowering nodes of some kinds may have done to a program.
* **`Graph.Lowered.graft`**: one step.
-/

namespace ShaderScript

/-- What lowering neither makes nor takes away: functions, declarators, accesses and remainders. -/
def Kind.isLasting : Kind → Bool
  | function .. | declarator .. | field .. | index .. | binary .rem .. => true
  | _ => false

/-- What lowering puts in the place of no node, though it may add some: names and numbers. -/
def Kind.isAtom : Kind → Bool
  | ident _ | number _ => true
  | _ => false

namespace Graph

/-- If the node is a call, its callee is an identifier. -/
def PlainCall (x : Graph) (i : Id) : Prop :=
  ∀ callee args, x.kind i = .call callee args → ∃ name, x.kind callee = .ident name

/-- The graph `x` comes from the tree `g` by putting other forms in the place of nodes whose kinds
satisfy `p`. -/
structure Lowered (p : Kind → Bool) (g x : Graph) : Prop where
  grown : ∃ owner, Grown g x owner
  other : ∀ i < g.size, p (g.kind i) = false → x.kind i = g.kind i
  lasting : ∀ i k, k.isLasting = true → (x.kind i = k ↔ g.kind i = k)
  atom : ∀ i < g.size, ∀ k, k.isAtom = true → x.kind i = k → g.kind i = k
  reserved : ∀ i, g.size ≤ i → ∀ name, x.kind i = .ident name → Known.isReserved name = true
  plain : ∀ i, x.kind i = g.kind i ∨ x.PlainCall i

namespace Lowered

variable {p q : Kind → Bool} {g x : Graph} {i site : Id} {ns : List Node} {k : Kind}

theorem start (h : g.IsTree) : Lowered p g g := by
  refine ⟨⟨id, .start h⟩, fun _ _ _ => rfl, fun _ _ _ => Iff.rfl, fun _ _ _ _ hi => hi,
    fun i hle name hi => ?_, fun _ => .inl rfl⟩
  exact absurd (lt_size_of_kind (hi ▸ nofun)) (not_lt.mpr hle)

theorem mono (h : Lowered p g x) (hpq : ∀ k, p k = true → q k = true) : Lowered q g x := by
  refine ⟨h.grown, fun i hi hq => h.other i hi ?_, h.lasting, h.atom, h.reserved,
    h.plain⟩
  cases hp : p (g.kind i) with
  | false => rfl
  | true => rw [hpq _ hp] at hq; cases hq

theorem ident (h : Lowered p g x) (hi : i < g.size) {name : String} (hk : x.kind i = .ident name) :
    g.kind i = .ident name := h.atom i hi _ rfl hk

theorem size (h : Lowered p g x) : g.size ≤ x.size := by
  obtain ⟨_, hg⟩ := h.grown
  exact hg.size

theorem root (h : Lowered p g x) : x.root = g.root := by
  obtain ⟨_, hg⟩ := h.grown
  exact hg.root

theorem sameShape (h : Lowered p g x) {y : Graph} (hs : SameShape x y) : Lowered p g y := by
  obtain ⟨owner, hg⟩ := h.grown
  refine ⟨⟨owner, hg.sameShape hs⟩, fun i hi hpi => ?_, fun i k hk => ?_, fun i hi k ha hk => ?_,
    fun i hi name hname => ?_, fun i => ?_⟩
  · rw [hs.kind, h.other i hi hpi]
  · rw [hs.kind]
    exact h.lasting i k hk
  · rw [hs.kind] at hk
    exact h.atom i hi k ha hk
  · rw [hs.kind] at hname
    exact h.reserved i hi name hname
  · refine (h.plain i).imp (hs.kind i).trans fun hi callee args hcall => ?_
    rw [hs.kind] at hcall
    obtain ⟨name, hname⟩ := hi callee args hcall
    exact ⟨name, (hs.kind callee).trans hname⟩

/-- What may be put in the place of a node: nothing that lasts and no atom, with new identifiers of
reserved names only, and calls of new identifiers only. -/
structure Allowed (x : Graph) (ns : List Node) (k : Kind) : Prop where
  lasting : ∀ k' ∈ k :: ns.map Node.kind, k'.isLasting = false
  atom : k.isAtom = false
  reserved : ∀ name, .ident name ∈ ns.map Node.kind → Known.isReserved name = true
  plain : ∀ k' ∈ k :: ns.map Node.kind, ∀ callee args, k' = .call callee args →
    ∃ m name, callee = x.size + m ∧ (ns.getD m default).kind = .ident name

variable (h : Lowered p g x) (hp : ∀ k, p k = true → k.isLasting = false ∧ k.isIdent = false)
  (hk : p (g.kind site) = true)

include h hp hk

theorem site_not_lasting : (x.kind site).isLasting = false := by
  cases hl : (x.kind site).isLasting with
  | false => rfl
  | true => rw [← (h.lasting site _ hl).mp rfl, (hp _ hk).1] at hl; cases hl

variable (hsite : site < g.size)

include hsite

theorem site_not_ident (name : String) : x.kind site ≠ .ident name := by
  intro hi
  have := (hp _ hk).2
  rw [h.ident hsite hi] at this
  cases this

theorem plainCall_graft (hlt : i < x.size) (hne : i ≠ site) (hi : x.PlainCall i) :
    (x.graft ns site k).PlainCall i := by
  intro callee args hcall
  rw [kind_graft_of_lt hlt hne] at hcall
  obtain ⟨name, hname⟩ := hi callee args hcall
  have hcallee : callee ≠ site := fun he => h.site_not_ident hp hk hsite name (he ▸ hname)
  refine ⟨name, ?_⟩
  rw [kind_graft_of_lt (lt_size_of_kind (hname ▸ nofun)) hcallee, hname]

/-- **One step** of lowering: what fits in the place of a node of some kind can be put there. -/
theorem graft (hlive : site ∈ g.live)
    (hfit : Fits (x.children site) x.size (k :: ns.map Node.kind)) (hnew : Allowed x ns k) :
    Lowered p g (x.graft ns site k) := by
  have hs : site < x.size := hsite.trans_le h.size
  refine ⟨?_, fun i hi hpi => ?_, fun i l hl => ?_, fun i hi l ha hl => ?_,
    fun i hi name hname => ?_, fun i => ?_⟩
  · obtain ⟨owner, hg⟩ := h.grown
    exact ⟨_, hg.graft hs (by rw [hg.old site hsite]; exact hlive) hfit⟩
  · have hne : i ≠ site := by
      rintro rfl
      rw [hk] at hpi
      cases hpi
    rw [kind_graft_of_lt (hi.trans_le h.size) hne, h.other i hi hpi]
  · rcases kind_graft_cases hs i with ⟨hput, hmem⟩ | ⟨-, he⟩
    · have hnew := hnew.lasting _ hmem
      have hold : (x.kind i).isLasting = false := by
        rcases hput with rfl | hle
        · exact h.site_not_lasting hp hk
        · unfold Graph.kind
          rw [node_of_size_le hle]
          rfl
      rw [← h.lasting i l hl]
      refine ⟨fun hi => ?_, fun hi => ?_⟩
      · rw [hi, hl] at hnew
        cases hnew
      · rw [hi, hl] at hold
        cases hold
    · rw [he]
      exact h.lasting i l hl
  · by_cases hne : i = site
    · subst hne
      rw [kind_graft_site hs] at hl
      rw [← hl, hnew.atom] at ha
      cases ha
    · rw [kind_graft_of_lt (hi.trans_le h.size) hne] at hl
      exact h.atom i hi l ha hl
  · rcases kind_graft_cases hs i with ⟨-, hmem⟩ | ⟨-, he⟩
    · rw [hname] at hmem
      rcases List.mem_cons.mp hmem with rfl | hmem
      · cases hnew.atom
      · exact hnew.reserved name hmem
    · rw [he] at hname
      exact h.reserved i hi name hname
  · rcases kind_graft_cases hs i with ⟨-, hmem⟩ | ⟨hne, he⟩
    · refine .inr fun callee args hcall => ?_
      obtain ⟨m, name, rfl, hname⟩ := hnew.plain _ hmem callee args hcall
      exact ⟨name, by rw [kind_graft_new hs, hname]⟩
    · rcases h.plain i with hi | hi
      · exact .inl (he.trans hi)
      · by_cases hlt : i < x.size
        · exact .inr (h.plainCall_graft hp hk hsite hlt hne hi)
        · refine .inr fun callee args hcall => ?_
          rw [he] at hcall
          unfold Graph.kind at hcall
          rw [node_of_size_le (not_lt.mp hlt)] at hcall
          cases hcall

end Lowered

end Graph

end ShaderScript
