import ShaderScript.Proofs.Estree.Screening
import ShaderScript.Proofs.Estree.Structure

/-!
# What a document has to look like

Every field of a node holds one thing: a node, nodes, a text, a truth value. A document is decoded
exactly when the fields of all its nodes are there and hold what they should. All fields that hold
nodes are searched for foreign syntax before, so no node has a type that decoding does not know.

* `NodeType.shapes`: what the fields of a node hold, for every type.
* `decodeTo_succ_iff`: one level of decoding, one case for each type.
* `NodeAt`: what stands for a node somewhere in a document.
* `Malformed`: what may be wrong with such a value.
* `reaches_of_mem_heldNodes`: the search goes wherever a node is decoded.
* `decodeTo_eq_none_iff`: where decoding fails.
* **`foreign_syntax_first`**: foreign syntax is named before anything else, and without it a
  document has the wrong shape exactly when a node of it is malformed.
-/

namespace ShaderScript.Estree

/-! ## Fields -/

/-- What a field of a node holds. -/
inductive FieldShape where
  | node
  | nodes
  | optionalNode
  | text
  | flag
  | value
  | optionalText
deriving DecidableEq

/-- What the fields of a node of this type hold, in order. -/
def NodeType.shapes : NodeType → List FieldShape
  | program | blockStatement | variableDeclaration | arrayExpression | sequenceExpression =>
    [.nodes]
  | functionDeclaration => [.node, .nodes, .node]
  | variableDeclarator => [.node, .optionalNode]
  | expressionStatement => [.node]
  | emptyStatement | thisExpression => []
  | ifStatement => [.node, .node, .optionalNode]
  | forStatement => [.optionalNode, .optionalNode, .optionalNode, .node]
  | returnStatement => [.optionalNode]
  | conditionalExpression => [.node, .node, .node]
  | binaryExpression | logicalExpression | assignmentExpression => [.text, .node, .node]
  | unaryExpression => [.text, .node]
  | updateExpression => [.text, .flag, .node]
  | callExpression => [.node, .nodes]
  | memberExpression => [.node, .node, .flag]
  | identifier => [.text]
  | literal => [.value, .optionalText]

namespace FieldShape

/-- Whether a field is there and of the right kind, apart from the nodes in it. -/
@[simp] def fits : FieldShape → Option Json → Bool
  | node, field | value, field => field.isSome
  | nodes, some (.arr _) | text, some (.str _) | flag, some (.bool _) => true
  | optionalNode, _ => true
  | optionalText, none | optionalText, some .null | optionalText, some (.str _) => true
  | _, _ => false

/-- The values in a field that stand for nodes. -/
@[simp] def held : FieldShape → Option Json → List Json
  | node, some v => [v]
  | nodes, some (.arr items) => items
  | optionalNode, some .null => []
  | optionalNode, some v => [v]
  | _, _ => []

end FieldShape

/-- The values that stand for the parts of a node. -/
def heldNodes (nested : Bool) (v : Json) : List Json :=
  match parts? nested v with
  | some (type, fields) => (type.shapes.zip fields).flatMap fun p => p.1.held p.2
  | none => []

/-! ## Decoding a node -/

variable {n : Nat} {nested : Bool} {v w c : Json} {field : Option Json} {type : NodeType}
  {fields : List (Option Json)}

/-- The field fits, and all nodes in it are decoded. -/
def Reads (n : Nat) (shape : FieldShape) (field : Option Json) : Prop :=
  shape.fits field = true ∧ ∀ c ∈ shape.held field, ∃ x, decodeTo n true c = some x

theorem exists_mapM_eq_some {α β : Type} {f : α → Option β} {xs : List α} :
    (∃ ys, xs.mapM f = some ys) ↔ ∀ x ∈ xs, ∃ y, f x = some y := by
  induction xs with
  | nil => simp
  | cons x xs ih =>
    rw [List.forall_mem_cons, ← ih]
    simp [List.mapM_cons, Option.bind_eq_some_iff]

theorem reads_node : Reads n .node field ↔ ∃ x, field.bind (decodeTo n true) = some x := by
  cases field <;> simp [Reads]

theorem reads_nodes : Reads n .nodes field ↔
    ∃ x, (field.bind Json.items?).bind (List.mapM (decodeTo n true)) = some x := by
  rcases field with _ | (_ | _ | _ | _ | items | _) <;>
    simp [Reads, Json.items?, exists_mapM_eq_some]

theorem reads_text : Reads n .text field ↔ ∃ x, text? field = some x := by
  rcases field with _ | (_ | _ | _ | _ | _ | _) <;> simp [Reads, text?, Json.text?]

theorem reads_flag : Reads n .flag field ↔ ∃ x, bool? field = some x := by
  rcases field with _ | (_ | _ | _ | _ | _ | _) <;> simp [Reads, bool?, Json.bool?]

theorem reads_value : Reads n .value field ↔ ∃ x, field = some x := by
  cases field <;> simp [Reads]

theorem reads_optionalText :
    Reads n .optionalText field ↔ ∃ x, optionalText? field = some x := by
  rcases field with _ | (_ | _ | _ | _ | _ | _) <;> simp [Reads, optionalText?, Json.text?]

/-- Decodes a node that may be missing. -/
def decodeOptional (n : Nat) : Option Json → Option (Option Node)
  | none | some .null => some none
  | some v => (decodeTo n true v).map some

theorem reads_optionalNode :
    Reads n .optionalNode field ↔ ∃ x, decodeOptional n field = some x := by
  rcases field with _ | (_ | _ | _ | _ | _ | _) <;> simp [Reads, decodeOptional]

/-! A node is made of what is read from its fields, one field after the other. -/

theorem exists_pure_iff {x : Node} : (∃ y, (pure x : Option Node) = some y) ↔
    ∀ p ∈ ([] : List FieldShape).zip ([] : List (Option Json)), Reads n p.1 p.2 := by
  simp

theorem exists_bind_iff {α : Type} {a : Option α} {f : α → Option Node} {shape : FieldShape}
    {shapes : List FieldShape} (hread : Reads n shape field ↔ ∃ x, a = some x)
    (hrest : ∀ x, (∃ y, f x = some y) ↔ ∀ p ∈ shapes.zip fields, Reads n p.1 p.2) :
    (∃ y, (a >>= f) = some y) ↔
      ∀ p ∈ (shape :: shapes).zip (field :: fields), Reads n p.1 p.2 := by
  rw [List.zip_cons_cons, List.forall_mem_cons, hread]
  cases a with
  | none => simp
  | some x => simpa using hrest x

/-- **A node is decoded exactly when every field of it is read.** -/
theorem decodeTo_succ_iff (hparts : parts? nested v = some (type, fields))
    (hlength : fields.length = type.shapes.length) :
    (∃ x, decodeTo (n + 1) nested v = some x) ↔ ∀ p ∈ type.shapes.zip fields, Reads n p.1 p.2 := by
  rw [decodeTo, hparts, Option.bind_eq_bind, Option.bind_some]
  match type, fields, hlength with
  | .program, [body], _ => exact exists_bind_iff reads_nodes fun _ => exists_pure_iff
  | .functionDeclaration, [id, params, body], _ =>
    exact exists_bind_iff reads_node fun _ => exists_bind_iff reads_nodes fun _ =>
      exists_bind_iff reads_node fun _ => exists_pure_iff
  | .variableDeclaration, [declarations], _ =>
    exact exists_bind_iff reads_nodes fun _ => exists_pure_iff
  | .variableDeclarator, [id, init], _ =>
    exact exists_bind_iff reads_node fun _ => exists_bind_iff reads_optionalNode fun _ =>
      exists_pure_iff
  | .blockStatement, [body], _ => exact exists_bind_iff reads_nodes fun _ => exists_pure_iff
  | .expressionStatement, [expression], _ =>
    exact exists_bind_iff reads_node fun _ => exists_pure_iff
  | .emptyStatement, [], _ => exact exists_pure_iff
  | .ifStatement, [test, consequent, alternate], _ =>
    exact exists_bind_iff reads_node fun _ => exists_bind_iff reads_node fun _ =>
      exists_bind_iff reads_optionalNode fun _ => exists_pure_iff
  | .forStatement, [init, test, update, body], _ =>
    exact exists_bind_iff reads_optionalNode fun _ => exists_bind_iff reads_optionalNode fun _ =>
      exists_bind_iff reads_optionalNode fun _ => exists_bind_iff reads_node fun _ => exists_pure_iff
  | .returnStatement, [argument], _ =>
    exact exists_bind_iff reads_optionalNode fun _ => exists_pure_iff
  | .conditionalExpression, [test, consequent, alternate], _ =>
    exact exists_bind_iff reads_node fun _ => exists_bind_iff reads_node fun _ =>
      exists_bind_iff reads_node fun _ => exists_pure_iff
  | .binaryExpression, [operator, left, right], _ =>
    exact exists_bind_iff reads_text fun _ => exists_bind_iff reads_node fun _ =>
      exists_bind_iff reads_node fun _ => exists_pure_iff
  | .logicalExpression, [operator, left, right], _ =>
    exact exists_bind_iff reads_text fun _ => exists_bind_iff reads_node fun _ =>
      exists_bind_iff reads_node fun _ => exists_pure_iff
  | .assignmentExpression, [operator, left, right], _ =>
    exact exists_bind_iff reads_text fun _ => exists_bind_iff reads_node fun _ =>
      exists_bind_iff reads_node fun _ => exists_pure_iff
  | .unaryExpression, [operator, argument], _ =>
    exact exists_bind_iff reads_text fun _ => exists_bind_iff reads_node fun _ => exists_pure_iff
  | .updateExpression, [operator, leading, argument], _ =>
    exact exists_bind_iff reads_text fun _ => exists_bind_iff reads_flag fun _ =>
      exists_bind_iff reads_node fun _ => exists_pure_iff
  | .callExpression, [callee, arguments], _ =>
    exact exists_bind_iff reads_node fun _ => exists_bind_iff reads_nodes fun _ => exists_pure_iff
  | .memberExpression, [object, property, computed], _ =>
    exact exists_bind_iff reads_node fun _ => exists_bind_iff reads_node fun _ =>
      exists_bind_iff reads_flag fun _ => exists_pure_iff
  | .arrayExpression, [elements], _ => exact exists_bind_iff reads_nodes fun _ => exists_pure_iff
  | .identifier, [name], _ => exact exists_bind_iff reads_text fun _ => exists_pure_iff
  | .thisExpression, [], _ => exact exists_pure_iff
  | .literal, [value, raw], _ =>
    exact exists_bind_iff reads_value fun _ => exists_bind_iff reads_optionalText fun _ =>
      exists_pure_iff
  | .sequenceExpression, [expressions], _ =>
    exact exists_bind_iff reads_nodes fun _ => exists_pure_iff

theorem length_shapes (type : NodeType) : type.shapes.length = type.fields.length := by
  cases type <;> rfl

theorem parts?_obj {given : List (String × Json)} :
    parts? nested (.obj given) = some (type, fields) ↔
      (given.lookup "type").bind (typeOf? nested) = some type ∧
        fields = type.fields.map fun key => given.lookup key := by
  simp only [parts?, Option.bind_eq_bind, Option.bind_eq_some_iff, Option.pure_def]
  constructor
  · rintro ⟨t, ht, type', htype, he⟩
    cases he
    exact ⟨⟨t, ht, htype⟩, rfl⟩
  · rintro ⟨⟨t, ht, htype⟩, rfl⟩
    exact ⟨t, ht, type, htype, rfl⟩

theorem parts?_arr {items : List Json} (h : parts? nested (.arr items) = some (type, fields)) :
    ∃ t values, items = t :: values ∧ values.length = type.fields.length ∧
      fields = values.map some := by
  cases items with
  | nil => cases h
  | cons t values =>
    simp only [parts?, Option.bind_eq_bind, Option.bind_eq_some_iff, Option.pure_def] at h
    obtain ⟨type', -, _, hlength, he⟩ := h
    cases he
    exact ⟨t, values, rfl, by simpa [guard, failure] using hlength, rfl⟩

theorem length_parts? (hparts : parts? nested v = some (type, fields)) :
    fields.length = type.shapes.length := by
  rw [length_shapes]
  cases v with
  | obj given =>
    rw [(parts?_obj.mp hparts).2, List.length_map]
  | arr items =>
    obtain ⟨t, values, -, hlength, rfl⟩ := parts?_arr hparts
    rw [List.length_map, hlength]
  | _ => cases hparts

/-- Decoding fails where a value is no node, where a field does not fit, and where a node in a field
is not decoded. -/
theorem decodeTo_succ_eq_none_iff : decodeTo (n + 1) nested v = none ↔
    parts? nested v = none ∨
      (∃ type fields, parts? nested v = some (type, fields) ∧
        ∃ p ∈ type.shapes.zip fields, p.1.fits p.2 = false) ∨
      ∃ c ∈ heldNodes nested v, decodeTo n true c = none := by
  cases hparts : parts? nested v with
  | none => simp [decodeTo, hparts]
  | some p =>
    obtain ⟨type, fields⟩ := p
    have hread := decodeTo_succ_iff (n := n) hparts (length_parts? hparts)
    rw [← Option.isSome_iff_exists] at hread
    rw [← Option.not_isSome_iff_eq_none, hread, heldNodes, hparts]
    constructor
    · intro hno
      by_contra hall
      simp only [not_or, not_exists, not_and] at hall
      refine hno fun p hp => ⟨?_, fun c hc => ?_⟩
      · exact eq_true_of_ne_false (hall.2.1 type fields rfl p hp)
      · exact Option.ne_none_iff_exists'.mp (hall.2.2 c (List.mem_flatMap.mpr ⟨p, hp, hc⟩))
    · rintro (⟨⟨⟩⟩ | ⟨_, _, ⟨⟩, p, hp, hfits⟩ | ⟨c, hc, hnone⟩) hall
      · rw [(hall p hp).1] at hfits
        cases hfits
      · obtain ⟨p, hp, hc⟩ := List.mem_flatMap.mp hc
        obtain ⟨x, hx⟩ := (hall p hp).2 c hc
        rw [hx] at hnone
        cases hnone

/-! ## Nodes of a document -/

/-- What stands for a node somewhere in a document: the document itself, or a part of such a value.
Below the top, the type of a node may also be given by its number. -/
inductive NodeAt : Bool → Json → Bool → Json → Prop
  | here (nested : Bool) (v : Json) : NodeAt nested v nested v
  | part {nested nested' : Bool} {v c w : Json} (hc : c ∈ heldNodes nested v)
      (hw : NodeAt true c nested' w) : NodeAt nested v nested' w

/-- What is wrong with a value that stands for a node, apart from the nodes in it. -/
inductive Malformed (nested : Bool) : Json → Prop
  /-- The value is no object, and no array of a type with its fields either. -/
  | notAnObject {w : Json} (hw : ∀ fields, w ≠ .obj fields) (hparts : parts? nested w = none) :
      Malformed nested w
  /-- The type is missing. -/
  | untyped {fields : List (String × Json)} (h : fields.lookup "type" = none) :
      Malformed nested (.obj fields)
  /-- The type is neither a text nor a number of a type. -/
  | mistyped {fields : List (String × Json)} {t : Json} (ht : fields.lookup "type" = some t)
      (htext : t.text? = none) (hnumber : typeOf? nested t = none) : Malformed nested (.obj fields)
  /-- A field is missing or of another kind. -/
  | misfit {w : Json} {type : NodeType} {fields : List (Option Json)} {shape : FieldShape}
      {field : Option Json} (hparts : parts? nested w = some (type, fields))
      (hfield : (shape, field) ∈ type.shapes.zip fields) (hfits : shape.fits field = false) :
      Malformed nested w

variable {nested' : Bool}

theorem isSkipped_of_held {shape : FieldShape} {key : String}
    (hfield : (shape, key) ∈ type.shapes.zip type.fields) (hc : c ∈ shape.held field) :
    isSkipped key = false := by
  have hall : ∀ type : NodeType, ∀ p ∈ type.shapes.zip type.fields,
      p.1 ∈ [.node, .nodes, .optionalNode] → isSkipped p.2 = false := by
    intro type
    cases type <;> decide
  refine hall type _ hfield ?_
  cases shape with
  | node | nodes | optionalNode => simp
  | _ => cases hc

theorem exists_of_mem_held {shape : FieldShape} (hc : c ∈ shape.held field) :
    ∃ u, field = some u := by
  cases field with
  | none => cases shape <;> cases hc
  | some u => exact ⟨u, rfl⟩

theorem reaches_of_mem_held {shape : FieldShape} {u : Json} (hc : c ∈ shape.held (some u)) :
    ∃ path, Reaches u path c := by
  have item : ∀ {items}, c ∈ items → ∃ path, Reaches (.arr items) path c := by
    intro items hc
    obtain ⟨n, hn⟩ := List.mem_iff_getElem?.mp hc
    exact ⟨[n], .inside (by rw [searched, List.getElem?_map, hn]; rfl) (.here c)⟩
  cases shape with
  | node =>
    obtain rfl := List.mem_singleton.mp hc
    exact ⟨[], .here c⟩
  | nodes =>
    cases u with
    | arr items => exact item hc
    | _ => cases hc
  | optionalNode =>
    cases u with
    | null => cases hc
    | _ =>
      obtain rfl := List.mem_singleton.mp hc
      exact ⟨[], .here _⟩
  | _ => cases hc

/-- **The search goes wherever a node is decoded.** -/
theorem reaches_of_mem_heldNodes (hc : c ∈ heldNodes nested v) :
    ∃ n path, Reaches v (n :: path) c := by
  unfold heldNodes at hc
  split at hc
  case h_2 => cases hc
  case h_1 type fields hparts =>
    obtain ⟨⟨shape, field⟩, hfield, hheld⟩ := List.mem_flatMap.mp hc
    obtain ⟨u, rfl⟩ := exists_of_mem_held hheld
    obtain ⟨path, hpath⟩ := reaches_of_mem_held hheld
    cases v with
    | obj given =>
      obtain rfl := (parts?_obj.mp hparts).2
      rw [List.zip_map_right] at hfield
      obtain ⟨⟨shape', key⟩, hkey, he⟩ := List.mem_map.mp hfield
      obtain ⟨rfl, hlookup⟩ := Prod.mk.inj he
      obtain ⟨before, after, rfl, -⟩ := List.lookup_eq_some_iff.mp hlookup
      refine ⟨before.length, path, .inside ?_ hpath⟩
      simp [searched, isSkipped_of_held hkey hheld]
    | arr items =>
      obtain ⟨t, values, rfl, -, rfl⟩ := parts?_arr hparts
      have hu : u ∈ values := by
        obtain ⟨u', hu', he⟩ := List.mem_map.mp (List.of_mem_zip hfield).2
        cases he
        exact hu'
      obtain ⟨n, hn⟩ := List.mem_iff_getElem?.mp (List.mem_cons_of_mem t hu)
      exact ⟨n, path, .inside (by rw [searched, List.getElem?_map, hn]; rfl) hpath⟩
    | _ => cases hparts

theorem NodeAt.reaches (h : NodeAt nested v nested' w) : ∃ path, Reaches v path w := by
  induction h with
  | here => exact ⟨[], .here _⟩
  | part hc _ ih =>
    obtain ⟨n, path, hpath⟩ := reaches_of_mem_heldNodes hc
    obtain ⟨path', hpath'⟩ := ih
    exact ⟨n :: path ++ path', hpath.trans hpath'⟩

/-! ## Where decoding fails -/

/-- The value is no node, or has a field that does not fit. -/
def Unreadable (nested : Bool) (w : Json) : Prop := parts? nested w = none ∨
  ∃ type fields, parts? nested w = some (type, fields) ∧
    ∃ p ∈ type.shapes.zip fields, p.1.fits p.2 = false

/-- **A document is decoded exactly when all that stands for a node in it is readable.** -/
theorem decodeTo_eq_none_iff (hn : v.depth < n) : decodeTo n nested v = none ↔
    ∃ nested' w, NodeAt nested v nested' w ∧ Unreadable nested' w := by
  induction n generalizing nested v with
  | zero => exact absurd hn (Nat.not_lt_zero _)
  | succ n ih =>
    have hpart : ∀ {c}, c ∈ heldNodes nested v → c.depth < n := fun hc => by
      obtain ⟨_, _, hpath⟩ := reaches_of_mem_heldNodes hc
      exact Nat.lt_of_lt_of_le hpath.depth_lt (Nat.le_of_lt_succ hn)
    rw [decodeTo_succ_eq_none_iff, ← or_assoc]
    constructor
    · rintro (hown | ⟨c, hc, hnone⟩)
      · exact ⟨nested, v, .here nested v, hown⟩
      · obtain ⟨nested', w, hw, hbad⟩ := (ih (hpart hc)).mp hnone
        exact ⟨nested', w, .part hc hw, hbad⟩
    · rintro ⟨nested', w, _ | ⟨hc, hw⟩, hbad⟩
      · exact .inl hbad
      · exact .inr ⟨_, hc, (ih (hpart hc)).mpr ⟨nested', w, hw, hbad⟩⟩

/-- Where every stated type is one of the dialect, a value is unreadable only if it is malformed. -/
theorem unreadable_iff (h : ∀ t, statedType? w = some t → (NodeType.ofName? t).isSome) :
    Unreadable nested w ↔ Malformed nested w := by
  constructor
  · rintro (hparts | ⟨type, fields, hparts, p, hp, hfits⟩)
    · cases w with
      | obj given =>
        have hno : (given.lookup "type").bind (typeOf? nested) = none := by
          refine Option.eq_none_iff_forall_ne_some.mpr fun type htype => ?_
          rw [parts?_obj.mpr ⟨htype, rfl⟩] at hparts
          cases hparts
        cases ht : given.lookup "type" with
        | none => exact .untyped ht
        | some t =>
          rw [ht, Option.bind_some] at hno
          cases htext : t.text? with
          | none => exact .mistyped ht htext hno
          | some s =>
            -- a text that names no type is not one of the dialect
            have hstated : statedType? (.obj given) = some s := by
              rw [statedType?, ht, Option.bind_some, htext]
            have hs := h s hstated
            obtain rfl : t = .str s := by
              cases t <;> first | cases htext; rfl | cases htext
            rw [typeOf?] at hno
            rw [hno] at hs
            cases hs
      | _ => exact .notAnObject (fun _ hobj => by cases hobj) hparts
    · exact .misfit hparts hp hfits
  · rintro (⟨-, hparts⟩ | hlookup | ⟨ht, -, hnumber⟩ | ⟨hparts, hfield, hfits⟩)
    · exact .inl hparts
    · refine .inl (Option.eq_none_iff_forall_ne_some.mpr fun p hp => ?_)
      have := (parts?_obj.mp hp).1
      rw [hlookup] at this
      cases this
    · refine .inl (Option.eq_none_iff_forall_ne_some.mpr fun p hp => ?_)
      have := (parts?_obj.mp hp).1
      rw [ht, Option.bind_some, hnumber] at this
      cases this
    · exact .inr ⟨_, _, hparts, _, hfield, hfits⟩

theorem firstFault?_ne_wrongShape (qs : List Place) : firstFault? qs ≠ some .wrongShape := by
  have unread : ∀ {α : Type} (read? : String → Option α) (text : String),
      unread? read? text ≠ some .wrongShape := by
    intro α read? text
    unfold unread?
    cases read? text <;> nofun
  intro hfault
  obtain ⟨q, -, hq⟩ := List.exists_of_findSome?_eq_some hfault
  unfold Place.fault? at hq
  split_ifs at hq
  · unfold Node.fault? at hq
    split at hq <;> first | exact unread _ _ hq | cases hq
  · cases hp : q.position <;> rw [hp] at hq <;> cases hq

theorem ofStatements_ne_wrongShape (body : List Node) :
    ofStatements body ≠ .error .wrongShape := by
  intro hshape
  have hcases := ofStatements_cases body
  cases hfault : firstFault? (placesOf .statement body) with
  | some e =>
    rw [hfault, hshape] at hcases
    cases hcases
    exact firstFault?_ne_wrongShape _ hfault
  | none =>
    rw [hfault, hshape] at hcases
    obtain ⟨g, hg, -⟩ := hcases
    cases hg

/-- **Syntax outside the dialect is named first**, whatever else is wrong with a document. Without
such syntax, no type that a node states makes decoding fail: the document has the wrong shape
exactly when some node of it is no node, lacks its type, or lacks a field of the right kind. -/
theorem foreign_syntax_first (v : Json) :
    (∃ path t, FirstForeign v path t ∧ ofJson v = .error (.unsupportedNode t)) ∨
      (∀ path t, ¬ ForeignAt v path t) ∧
      (∀ nested w, NodeAt false v nested w → ∀ t, statedType? w = some t →
        (NodeType.ofName? t).isSome) ∧
      (ofJson v = .error .wrongShape ↔
        ∃ nested w, NodeAt false v nested w ∧ Malformed nested w) := by
  cases hfirst : firstUnsupported? v with
  | some t =>
    obtain ⟨path, hpath⟩ := firstForeign_of_eq_some hfirst
    refine .inl ⟨path, t, hpath, ?_⟩
    unfold ofJson
    rw [hfirst]
  | none =>
    have hno := not_foreignAt_of_eq_none hfirst
    have hstated : ∀ nested w, NodeAt false v nested w → ∀ t, statedType? w = some t →
        (NodeType.ofName? t).isSome := by
      intro nested w hw t ht
      obtain ⟨path, hpath⟩ := hw.reaches
      by_contra hnone
      exact hno path t ⟨w, hpath, ht, Option.not_isSome_iff_eq_none.mp hnone⟩
    refine .inr ⟨hno, hstated, ?_⟩
    have hmalformed : decode? v = none ↔
        ∃ nested w, NodeAt false v nested w ∧ Malformed nested w := by
      rw [decode?, decodeTo_eq_none_iff (Nat.lt_succ_self _)]
      exact exists_congr fun nested => exists_congr fun w => and_congr_right fun hw =>
        unreadable_iff (hstated nested w hw)
    rw [← hmalformed]
    unfold ofJson
    rw [hfirst]
    dsimp only
    split
    case h_1 hnone => exact ⟨fun _ => hnone, fun _ => rfl⟩
    case h_2 body hbody =>
      rw [hbody]
      exact ⟨fun hshape => absurd hshape (ofStatements_ne_wrongShape body), nofun⟩
    case h_3 hnode =>
      rw [hnode]
      exact ⟨nofun, nofun⟩

/-- The search names the type of the second statement, not the missing operator of the first or the
type of a literal value. -/
example : ofJson (.obj [("body", .arr [
      .obj [("expression", .obj [("argument", .obj [("type", .str "Literal"),
          ("value", .obj [("type", .str "RegExp")])]), ("type", .str "UnaryExpression")]),
        ("type", .str "ExpressionStatement")],
      .obj [("body", .null), ("type", .str "WithStatement")]]), ("type", .str "Program")]) =
    .error (.unsupportedNode "WithStatement") := rfl

end ShaderScript.Estree
