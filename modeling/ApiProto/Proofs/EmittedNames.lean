import ApiProto.Proofs.Identifiers
import ApiProto.Proofs.Resolution

/-!
# Names in a package

Each declaration brings names into the file: its own, and those of its fields and procedures. No step
of a compilation changes a name that is there, so what is known of all names is known once it is
known of each new one.

* `Node.names`, `Node.givenNames` — the names in a declaration.
* `Name.Suits` — what is known of a name, whatever the description, and if it is a good one.
* `Compilation.Suited` — all names are suitable, and so will those be that references to shared
  parameters give.
* `Suited.withNode`, `Suited.addFields`, `Suited.serving`, … — the steps that bring in names, and
  those that bring in none.
-/

namespace ApiProto.Name

/-- A name is made of letters, digits and underscores. It is an identifier if `good` holds. -/
structure Suits (good : Prop) (name : String) : Prop where
  word : IsWord name
  identifier : good → IsIdentifier name

variable {good : Prop} {name : String}

theorem IsPlain.suits (h : IsPlain name) (hinitial : good → HasInitial name.toList) :
    Suits good name :=
  ⟨h.isWord, fun hgood => h.isIdentifier_iff.2 (hinitial hgood)⟩

theorem fieldName_suits {s : String} (h : good → HasInitial s.toList) : Suits good (fieldName s) :=
  ⟨fieldName_isWord s, fun hgood => (isIdentifier_fieldName_iff s).2 (h hgood)⟩

end ApiProto.Name

namespace ApiProto.Proto

open Name

/-! ## Nodes -/

/-- The names in a declaration that are converted from other texts. -/
def Node.names : Node → List String
  | .package p => [p.name]
  | .message m => m.name :: m.fields.map (·.name)
  | .enumeration e => [e.name]
  | .service s => s.name :: s.rpcs.map (·.name)
  | .extension _ | .map .. | .reference _ | .builtin _ => []

/-- The names in a declaration that are written as they are given: those of the fields of an
extension. -/
def Node.givenNames : Node → List String
  | .extension e => e.fields.map (·.name)
  | _ => []

/-- The names in a declaration fit. -/
structure Node.Suited (good : Prop) (n : Node) : Prop where
  names : ∀ name ∈ n.names, Suits good name
  given : good → ∀ name ∈ n.givenNames, IsIdentifier name

/-- A node with the same names. -/
def Node.SharesNames (n n' : Node) : Prop := n'.names = n.names ∧ n'.givenNames = n.givenNames

theorem Node.SharesNames.named {good : Prop} {n n' : Node} (h : n.SharesNames n')
    (hn : n.Suited good) : n'.Suited good :=
  ⟨by rw [h.1]; exact hn.names, by rw [h.2]; exact hn.given⟩

theorem Node.sharesNames_withChild (t : TypeRef) (n : Node) : n.SharesNames (n.withChild t) := by
  cases n <;> exact ⟨rfl, rfl⟩

theorem Node.sharesNames_withImport (file : String) (n : Node) :
    n.SharesNames (n.withImport file) := by
  cases n with
  | package p =>
    rcases Decidable.em (p.imports.contains file) with hmem | hnew
    · rw [withImport, if_pos hmem]
      exact ⟨rfl, rfl⟩
    · rw [withImport, if_neg hnew]
      exact ⟨rfl, rfl⟩
  | _ => exact ⟨rfl, rfl⟩

/-- Resolution puts types in the places of others, and leaves names. -/
theorem Node.Resolved.sharesNames {g : Graph} {given : TypeRef → Prop} {n n' : Node}
    (h : n.Resolved g given n') : n.SharesNames n' := by
  cases h with
  | same | map => exact ⟨rfl, rfl⟩
  | @message m m' hname _ _ hlength hfields =>
    refine ⟨?_, rfl⟩
    have hnames : m'.fields.map (·.name) = m.fields.map (·.name) := by
      refine List.ext_getElem (by simpa using hlength) fun i hi hi' => ?_
      rw [List.length_map] at hi hi'
      obtain ⟨f', hf', t, rfl, -⟩ := hfields i _ (List.getElem?_eq_getElem hi')
      obtain ⟨_, heq⟩ := List.getElem?_eq_some_iff.1 hf'
      rw [List.getElem_map, List.getElem_map, heq]
    show m'.name :: m'.fields.map (·.name) = m.name :: m.fields.map (·.name)
    rw [hname, hnames]

theorem Node.Suited.message {good : Prop} {m : Message} (hname : Suits good m.name)
    (hfields : ∀ f ∈ m.fields, Suits good f.name) : (Node.message m).Suited good where
  names := List.forall_mem_cons.2 ⟨hname, List.forall_mem_map.2 hfields⟩
  given _ _ hmem := nomatch hmem

theorem Node.Suited.enumeration {good : Prop} {e : Enumeration} (hname : Suits good e.name) :
    (Node.enumeration e).Suited good where
  names _ hmem := List.mem_singleton.1 hmem ▸ hname
  given _ _ hmem := nomatch hmem

/-- A node that brings in no name. -/
theorem Node.Suited.of_nil {good : Prop} {n : Node} (h : n.names = [])
    (h' : n.givenNames = []) : n.Suited good where
  names := by simp [h]
  given := by simp [h']

/-! ## Graphs -/

/-- The names in all nodes fit. -/
def Graph.Suited (good : Prop) (g : Graph) : Prop :=
  ∀ id n, g.node? id = some n → n.Suited good

namespace Graph.Suited

variable {good : Prop} {g g' : Graph} (h : g.Suited good)
include h

theorem add {n : Node} (hn : n.Suited good) : (g.add n).1.Suited good := by
  intro id n' hn'
  rw [node?_add] at hn'
  split at hn'
  · exact Option.some.inj hn' ▸ hn
  · exact h id n' hn'

theorem put {id : Nat} {n : Node} (hn : n.Suited good) : (g.put id n).Suited good := by
  intro k n' hn'
  rw [node?_put] at hn'
  split at hn'
  · exact Option.some.inj hn' ▸ hn
  · exact h k n' hn'

theorem of_map {k : Nat} {change : Node → Node} (hchange : ∀ n : Node, n.SharesNames (change n))
    (hnode : ∀ id, g'.node? id = if id = k then (g.node? id).map change else g.node? id) :
    g'.Suited good := by
  intro id n' hn'
  rw [hnode] at hn'
  split at hn'
  · obtain ⟨n, hn, rfl⟩ := Option.map_eq_some_iff.1 hn'
    exact (hchange n).named (h id n hn)
  · exact h id n' hn'

theorem addChild (parent : Nat) (t : TypeRef) : (g.addChild parent t).Suited good :=
  h.of_map (Node.sharesNames_withChild t) fun _ => node?_addChild parent t

theorem addImport (package : Nat) (file : String) : (g.addImport package file).Suited good :=
  h.of_map (Node.sharesNames_withImport file) fun _ => node?_addImport package file

theorem resolved {given : TypeRef → Prop} (hresolved : g.Resolved given g') : g'.Suited good := by
  intro id n' hn'
  obtain ⟨n, hn, hnode⟩ := hresolved.of_node? hn'
  exact hnode.sharesNames.named (h id n hn)

end Graph.Suited

end ApiProto.Proto

namespace ApiProto.Compile

open Proto Document CompileM Name

variable {good : Prop} {scope : Scope} {c c' : Compilation} {d : Definition}

/-! ## States -/

/-- A shared parameter gives fields a name with an initial. -/
def Definition.Suited (good : Prop) : Definition → Prop
  | .type _ => True
  | .parameter _ name _ _ => good → HasInitial name.toList

theorem Definition.Suited.mapType (h : d.Suited good) (f : TypeRef → TypeRef) :
    (d.mapType f).Suited good := by
  cases d <;> exact h

/-- All names fit, and so will those that references to shared parameters give. -/
structure Compilation.Suited (good : Prop) (c : Compilation) : Prop where
  graph : c.graph.Suited good
  definitions : ∀ entry ∈ c.definitions, entry.2.Suited good

namespace Compilation.Suited

variable (h : c.Suited good)
include h

theorem withNode {n : Node} (hn : n.Suited good) : (c.withNode n).Suited good :=
  ⟨h.graph.add hn, h.definitions⟩

theorem importFile (file : String) : (c.importFile file).Suited good :=
  ⟨h.graph.addImport _ file, h.definitions⟩

theorem importing (name : String) : (c.importing name).Suited good := by
  unfold Compilation.importing
  split
  · exact h.importFile _
  · exact h

theorem importingAll (names : List String) : (c.importingAll names).Suited good := by
  unfold Compilation.importingAll
  induction names generalizing c with
  | nil => exact h
  | cons name rest ih => exact ih (h.importing name)

theorem declare (parent : Nat) (t : TypeRef) : (c.declare scope parent t).Suited good := by
  refine ⟨?_, h.definitions⟩
  unfold Compilation.declare
  rcases Registry.register_cases c.graph c.registry t parent scope with
    ⟨heq, -⟩ | ⟨_, -, -, -, -, ⟨-, heq⟩ | ⟨-, heq⟩⟩ <;> rw [heq]
  · exact h.graph
  · exact h.graph
  · exact h.graph.addChild parent t

theorem declareHere (t : TypeRef) : (c.declareHere scope t).Suited good := by
  cases scope with
  | nil => exact h
  | cons parent outer => exact h.declare parent t

theorem remember (base : String) (wrapper : Nat) : (c.remember base wrapper).Suited good :=
  ⟨h.graph, h.definitions⟩

theorem definition {ref : String} (hd : c.definition? ref = some d) : d.Suited good := by
  unfold Compilation.definition? at hd
  split at hd
  · obtain rfl := Option.some.inj hd
    trivial
  · exact h.definitions _ (mem_of_lookup hd)

/-- A reference stands for a definition, or for itself. -/
theorem compileReference {ref : String} (href : compileReference ref c = .ok (d, c')) :
    c'.Suited good ∧ d.Suited good := by
  rcases compileReference_ok href with ⟨hd, rfl⟩ | ⟨-, -, rfl, rfl⟩
  · exact ⟨h, h.definition hd⟩
  · exact ⟨h.withNode (.of_nil rfl rfl), trivial⟩

/-- The fields of properties have names that fit if the properties have initials. -/
theorem addFields {message : Nat} {fields : List (CompiledProperty × Int)}
    (hfields : ∀ field ∈ fields, good → HasInitial field.1.name.toList)
    (hadd : addFields message fields c = .ok ((), c')) : c'.Suited good := by
  refine forM_ok_induct (P := fun c => c.Suited good) (fun field hfield c c' hstep hc => ?_) hadd h
  obtain ⟨c₁, hadd, rfl⟩ := addPropertyField_ok hstep
  refine importing ?_ _
  rcases addField_ok hadd with ⟨-, rfl⟩ | ⟨m, hm, -, -, rfl⟩
  · exact hc
  · have hnames := (hc.graph message _ (Graph.node?_of_message? hm)).names
    obtain ⟨hname, hold⟩ := List.forall_mem_cons.1 hnames
    refine ⟨hc.graph.put (.message hname fun f hf => ?_), hc.definitions⟩
    rcases List.mem_append.1 hf with hf | hf
    · exact hold _ (List.mem_map.2 ⟨f, hf, rfl⟩)
    · rw [List.mem_singleton.1 hf]
      exact fieldName_suits (hfields field hfield)

theorem defining (ref : String) (hd : d.Suited good) : (c.defining ref d).Suited good := by
  unfold Compilation.defining
  split
  · exact h
  · refine ⟨h.graph, fun entry hentry => ?_⟩
    rcases List.mem_append.1 hentry with hentry | hentry
    · exact h.definitions entry hentry
    · exact List.mem_singleton.1 hentry ▸ hd

theorem extending {e : Proto.Extension}
    (he : good → ∀ f ∈ e.fields, IsIdentifier f.name) : (c.extending e).Suited good :=
  have hnode : (Node.extension e).Suited good :=
    { names := by simp [Node.names], given := fun hgood => List.forall_mem_map.2 (he hgood) }
  ⟨(h.graph.add hnode).addChild _ _, h.definitions⟩

theorem serving {rpc : Rpc TypeRef} (hrpc : Suits good rpc.name) : (c.serving rpc).Suited good := by
  rcases serving_cases (c := c) rpc with heq | ⟨s, c₁, c₂, rfl, rfl, -, hnode, heq⟩ <;> rw [heq]
  · exact h
  · have himported := (h.importing (c.graph.typeName rpc.parameter)).importing
      ((c.importing (c.graph.typeName rpc.parameter)).graph.typeName rpc.response)
    refine ⟨himported.graph.put ⟨?_, fun _ _ hmem => nomatch hmem⟩, himported.definitions⟩
    obtain ⟨hname, hold⟩ := List.forall_mem_cons.1 (himported.graph _ _ hnode).names
    refine List.forall_mem_cons.2 ⟨hname, List.forall_mem_map.2 fun other hother => ?_⟩
    rcases List.mem_append.1 hother with hother | hother
    · exact hold _ (List.mem_map.2 ⟨other, hother, rfl⟩)
    · exact List.mem_singleton.1 hother ▸ hrpc

theorem resolved (hresolved : c.Resolved c') : c'.Suited good where
  graph := h.graph.resolved hresolved.graph
  definitions entry hentry := by
    obtain ⟨d, hd, t, heq, -⟩ := hresolved.definitions entry hentry
    rw [heq]
    have hnamed := h.definitions _ hd
    cases d <;> exact hnamed

end Compilation.Suited

end ApiProto.Compile
