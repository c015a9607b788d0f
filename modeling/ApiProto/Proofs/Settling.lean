import ApiProto.Proofs.Resolution
import Mathlib.Data.List.Forall2

/-!
# What has been settled

A message that has been compiled keeps its fields, but for the references among them, and so does
all else that is complete when the scope in which it was made is left.

* `Graph.Becomes` — what stands in the place of a type in the end.
* `Graph.Settles` — all that is complete in a graph stands in another one.
* `Runs.keepsFields`, `addFields_ok` — the fields of messages under construction.
-/

namespace ApiProto.Proto

/-- What stands in the place of a type in the end: the type, unless it is a reference. -/
def Graph.Becomes (g : Graph) (t t' : TypeRef) : Prop := t' = t ∨ g.IsReference t

/-- What stands in the place of a field in the end. -/
def Field.Becomes (g : Graph) (f f' : Field TypeRef Value) : Prop :=
  ∃ t, f' = { f with type := t } ∧ g.Becomes f.type t

/-- Whether a node is a map. -/
def Node.isMap : Node → Bool
  | .map .. => true
  | _ => false

theorem Node.Grows.isMap_eq {n n' : Node} (h : n.Grows n') : n'.isMap = n.isMap := by
  cases h <;> rfl

/-- All that is not open in a graph is complete: it stands in another graph, but for references. -/
structure Graph.Settles (opened : List Nat) (g g' : Graph) : Prop where
  complete : ∀ id n, g.node? id = some n → id ∉ opened →
    ∃ n', g'.node? id = some n' ∧ n.Resolved g' (fun _ => True) n'
  maps : ∀ id n, g.node? id = some n → ∃ n', g'.node? id = some n' ∧ n'.isMap = n.isMap

namespace Graph.Settles

variable {g g' : Graph} {opened opened' : List Nat} {id : Nat}

theorem mono (h : g.Settles opened g') (hsub : opened ⊆ opened') : g.Settles opened' g' :=
  ⟨fun id n hn hid => h.complete id n hn fun hmem => hid (hsub hmem), h.maps⟩

theorem enumeration (h : g.Settles opened g') (hid : id ∉ opened) {e : Enumeration}
    (hn : g.node? id = some (.enumeration e)) : g'.node? id = some (.enumeration e) := by
  obtain ⟨n', hn', hres⟩ := h.complete id _ hn hid
  cases hres
  exact hn'

theorem map (h : g.Settles opened g') (hid : id ∉ opened) {key value : TypeRef}
    (hn : g.node? id = some (.map key value)) :
    ∃ value', g'.node? id = some (.map key value') ∧ g'.Becomes value value' := by
  obtain ⟨n', hn', hres⟩ := h.complete id _ hn hid
  cases hres with
  | same => exact ⟨value, hn', .inl rfl⟩
  | map hvalue => exact ⟨_, hn', hvalue.imp_right And.left⟩

theorem message (h : g.Settles opened g') (hid : id ∉ opened) {m : Message}
    (hn : g.node? id = some (.message m)) :
    ∃ m', g'.node? id = some (.message m') ∧ m'.name = m.name ∧
      List.Forall₂ (Field.Becomes g') m.fields m'.fields := by
  obtain ⟨n', hn', hres⟩ := h.complete id _ hn hid
  cases hres with
  | same =>
    exact ⟨m, hn', rfl, List.forall₂_same.2 fun f _ => ⟨f.type, rfl, .inl rfl⟩⟩
  | @message _ m' hname _ _ hlength hfields =>
    refine ⟨m', hn', hname, List.forall₂_iff_get.2 ⟨hlength.symm, fun i hi hi' => ?_⟩⟩
    obtain ⟨_, hf', t, rfl, ht⟩ := hfields i _ (List.getElem?_eq_getElem hi)
    obtain ⟨_, hget⟩ := List.getElem?_eq_some_iff.1 hf'
    rw [List.get_eq_getElem, List.get_eq_getElem, hget]
    exact ⟨t, rfl, ht.imp_right And.left⟩

end Graph.Settles

/-! ## Fields that stay -/

/-- All messages keep their fields. -/
def Graph.KeepsFields (g g' : Graph) : Prop :=
  ∀ id m, g.message? id = some m → ∃ m', g'.message? id = some m' ∧ m'.fields = m.fields

namespace Graph.KeepsFields

variable {g g₁ g' : Graph}

theorem refl (g : Graph) : g.KeepsFields g := fun _ m hm => ⟨m, hm, rfl⟩

theorem trans (h : g.KeepsFields g₁) (h' : g₁.KeepsFields g') : g.KeepsFields g' := by
  intro id m hm
  obtain ⟨m₁, hm₁, heq⟩ := h id m hm
  obtain ⟨m', hm', heq'⟩ := h' id m₁ hm₁
  exact ⟨m', hm', heq'.trans heq⟩

theorem add (g : Graph) (n : Node) : g.KeepsFields (g.add n).1 := fun _ m hm =>
  ⟨m, message?_of_node? (node?_add_of_some (node?_of_message? hm) n), rfl⟩

theorem of_map {k : Nat} {change : Node → Node}
    (hchange : ∀ m : Message, ∃ m', change (.message m) = .message m' ∧ m'.fields = m.fields)
    (h : ∀ id, g'.node? id = if id = k then (g.node? id).map change else g.node? id) :
    g.KeepsFields g' := by
  intro id m hm
  have hn := node?_of_message? hm
  rcases Decidable.em (id = k) with hk | hk
  · obtain ⟨m', heq, hfields⟩ := hchange m
    refine ⟨m', message?_of_node? ?_, hfields⟩
    rw [h id, if_pos hk, hn, Option.map_some, heq]
  · refine ⟨m, message?_of_node? ?_, rfl⟩
    rw [h id, if_neg hk, hn]

theorem addChild (g : Graph) (parent : Nat) (t : TypeRef) : g.KeepsFields (g.addChild parent t) :=
  of_map (fun m => ⟨{ m with children := m.children ++ [t] }, rfl, rfl⟩) fun _ =>
    node?_addChild parent t

theorem addImport (g : Graph) (package : Nat) (file : String) :
    g.KeepsFields (g.addImport package file) :=
  of_map (fun m => ⟨m, rfl, rfl⟩) fun _ => node?_addImport package file

end Graph.KeepsFields

end ApiProto.Proto

namespace ApiProto.Compile

open Proto Document CompileM

variable {env : Environment} {scope : Scope} {opened opened' : List Nat} {c c' : Compilation}

theorem settles_of_grows {g : Graph} (hgrows : c.Grows opened c')
    (h : c'.graph.Settles opened g) : c.graph.Settles opened g where
  complete id n hn hid := h.complete id n (hgrows.closed id n hn hid) hid
  maps id n hn := by
    obtain ⟨n', hn', hgrow⟩ := hgrows.nodes id n hn
    obtain ⟨n'', hn'', hmap⟩ := h.maps id n' hn'
    exact ⟨n'', hn'', hmap.trans hgrow.isMap_eq⟩

theorem settles_of_withNode {g : Graph} {n : Node} (h : (c.withNode n).graph.Settles opened g) :
    c.graph.Settles opened g :=
  settles_of_grows (.withNode c n) h

theorem settles_of_importing {g : Graph} {name : String} (hpackage : c.package ∈ opened)
    (h : (c.importing name).graph.Settles opened g) : c.graph.Settles opened g :=
  settles_of_grows (.importing hpackage name) h

theorem settles_of_declareHere {g : Graph} {t : TypeRef} (hscope : scope ⊆ opened)
    (h : (c.declareHere scope t).graph.Settles opened g) : c.graph.Settles opened g :=
  settles_of_grows (.declareHere hscope t) h

theorem withNode_keepsFields (n : Node) : c.graph.KeepsFields (c.withNode n).graph :=
  .add c.graph n

theorem importing_keepsFields (name : String) :
    c.graph.KeepsFields (c.importing name).graph := by
  unfold Compilation.importing
  split
  · exact Graph.KeepsFields.addImport c.graph c.package _
  · exact .refl _

theorem declare_keepsFields (parent : Nat) (t : TypeRef) :
    c.graph.KeepsFields (c.declare scope parent t).graph := by
  unfold Compilation.declare
  rcases Registry.register_cases c.graph c.registry t parent scope with
    ⟨heq, -⟩ | ⟨_, -, -, -, -, ⟨-, heq⟩ | ⟨-, heq⟩⟩ <;> rw [heq]
  · exact .refl _
  · exact .refl _
  · exact Graph.KeepsFields.addChild c.graph parent t

theorem declareHere_keepsFields (t : TypeRef) :
    c.graph.KeepsFields (c.declareHere scope t).graph := by
  cases scope with
  | nil => exact .refl _
  | cons parent outer => exact declare_keepsFields parent t

theorem compileReference_keepsFields {ref : String} {d : Definition}
    (h : compileReference ref c = .ok (d, c')) : c.graph.KeepsFields c'.graph := by
  rcases compileReference_ok h with ⟨-, rfl⟩ | ⟨-, -, -, rfl⟩
  · exact .refl _
  · exact withNode_keepsFields _

/-- The field of a property. -/
def CompiledProperty.field (p : CompiledProperty) (number : Int) : Proto.Field TypeRef Value :=
  ⟨p.type, Name.fieldName p.name, number, p.repeated, p.comment⟩

section Fields

variable {message : Nat} {fields : List (CompiledProperty × Int)}

theorem addPropertyField_message {p : CompiledProperty} {number : Int} {m : Message}
    (hm : c.graph.message? message = some m)
    (h : addPropertyField message p number c = .ok ((), c')) :
    ∃ m', c'.graph.message? message = some m' ∧ m'.name = m.name ∧
      m'.fields = m.fields ++ [p.field number] := by
  obtain ⟨c₁, hadd, rfl⟩ := addPropertyField_ok h
  rcases addField_ok hadd with ⟨hnone, -⟩ | ⟨m₁, hm₁, -, -, rfl⟩
  · rw [hm] at hnone
    cases hnone
  · obtain rfl := Option.some.inj (hm.symm.trans hm₁)
    have hput := Graph.node?_put_self (Graph.node?_of_message? hm)
      (.message { m with fields := m.fields ++ [p.field number] })
    refine ⟨{ m with fields := m.fields ++ [p.field number] }, Graph.message?_of_node? ?_, rfl, rfl⟩
    exact node?_importing hput (fun _ => rfl) _

/-- The fields of properties are added to a message in their order. -/
theorem addFields_message {m : Message} (hm : c.graph.message? message = some m)
    (h : addFields message fields c = .ok ((), c')) :
    ∃ m', c'.graph.message? message = some m' ∧ m'.name = m.name ∧
      m'.fields = m.fields ++ fields.map fun (p, number) => p.field number := by
  induction fields generalizing c m with
  | nil =>
    obtain rfl := forM_ok_nil.1 h
    exact ⟨m, hm, rfl, by simp⟩
  | cons entry rest ih =>
    obtain ⟨c₁, hstep, hrest⟩ := forM_ok_cons.1 h
    obtain ⟨m₁, hm₁, hname₁, hfields₁⟩ := addPropertyField_message hm hstep
    obtain ⟨m', hm', hname, hfields⟩ := ih hm₁ hrest
    exact ⟨m', hm', hname.trans hname₁, by simp [hfields, hfields₁]⟩

theorem addFields_of_ne (h : addFields message fields c = .ok ((), c')) {id : Nat}
    (hid : id ≠ message) {m : Message} (hm : c.graph.message? id = some m) :
    ∃ m', c'.graph.message? id = some m' ∧ m'.fields = m.fields := by
  refine forM_ok_induct (P := fun d => ∃ m', d.graph.message? id = some m' ∧ m'.fields = m.fields)
    (fun field _ d d' hstep hd => ?_) h ⟨m, hm, rfl⟩
  obtain ⟨d₁, hadd, rfl⟩ := addPropertyField_ok hstep
  obtain ⟨m₁, hm₁, heq⟩ : ∃ m', d₁.graph.message? id = some m' ∧ m'.fields = m.fields := by
    rcases addField_ok hadd with ⟨-, rfl⟩ | ⟨m₂, -, -, -, rfl⟩
    · exact hd
    · obtain ⟨m₁, hm₁, heq⟩ := hd
      refine ⟨m₁, Graph.message?_of_node? ?_, heq⟩
      exact (Graph.node?_put_of_ne hid _).trans (Graph.node?_of_message? hm₁)
  obtain ⟨m', hm', heq'⟩ := importing_keepsFields _ id m₁ hm₁
  exact ⟨m', hm', heq'.trans heq⟩

end Fields

/-- A run leaves the fields of the messages that are there as they are. -/
theorem Runs.keepsFields {ts : List TypeRef} (h : Runs env scope c ts c') :
    c.graph.KeepsFields c'.graph := by
  induction h with
  | nil => exact .refl _
  | cons _ _ ih ih' => exact ih.trans ih'
  | builtin b _ ih => exact ih
  | importing name _ ih => exact ih.trans (importing_keepsFields name)
  | reference href => exact compileReference_keepsFields href
  | found => exact .refl _
  | declared _ ih => exact ih.trans (declareHere_keepsFields _)
  | enumeration => exact (withNode_keepsFields _).trans (declareHere_keepsFields _)
  | map _ ih => exact ih.trans (withNode_keepsFields _)
  | objectWrapper rawName field about comment _ ih =>
    exact (ih.trans (withNode_keepsFields _)).trans (declareHere_keepsFields _)
  | @sharedWrapper scope c c₁ ref d rawName _ hitem =>
    exact ((compileReference_keepsFields hitem).trans (withNode_keepsFields _)).trans (declare_keepsFields _ _)
  | wrapped => exact .refl _
  | @message scope c c₁ c₂ ts rawName comment fields _ _ _ hadd ih =>
    have hfields : c.graph.KeepsFields c₂.graph := by
      intro id m hm
      have hlt := Graph.lt_size_of_node? (Graph.node?_of_message? hm)
      obtain ⟨m₁, hm₁, heq⟩ := ((withNode_keepsFields _).trans ih) id m hm
      obtain ⟨m₂, hm₂, heq₂⟩ := addFields_of_ne hadd (Nat.ne_of_lt hlt) hm₁
      exact ⟨m₂, hm₂, heq₂.trans heq⟩
    exact hfields.trans (declareHere_keepsFields _)
  | arrayResponse name _ _ ih =>
    exact ((ih.trans (withNode_keepsFields _)).trans (importing_keepsFields _)).trans (declareHere_keepsFields _)

end ApiProto.Compile
