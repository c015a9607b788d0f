import ApiProto.Proofs.Imports
import ApiProto.Proofs.Registration
import ApiProto.Proofs.Relabelling
import ApiProto.Proofs.Translation
import Mathlib.Data.List.Find

/-!
# Graphs in the other version

The references in a graph and the keys of definitions are in the version of the description. Of
types, the other version only shows in names that spell out a reference.

* `Graph.Utters` — a type of which the name spells out a reference.
* `Graph.translated`, `Compilation.translated` — a graph and a state in the other version.
* `Graph.typeName_translated` — all other types have the same name in both versions.
* `Compilation.definition?_translated` — references stand for the same in both versions.
-/

namespace ApiProto.Proto

open Document

/-- A node with its reference in the other version, if it is one. -/
def Node.translated : Node → Node
  | .reference ref => .reference (translateRef ref)
  | n => n

theorem Node.relabelled_translated (n : Node) : n.Relabelled n.translated := by
  cases n with
  | reference ref => exact .reference ref _
  | _ => exact .same _

/-- A type of which the name spells out a reference: a reference, or a map with one in it. -/
inductive Graph.Utters (g : Graph) : TypeRef → Prop
  | reference {id : Nat} {ref : String} : g.node? id = some (.reference ref) → g.Utters (.node id)
  | key {id : Nat} {key value : TypeRef} : g.node? id = some (.map key value) → g.Utters key →
      g.Utters (.node id)
  | value {id : Nat} {key value : TypeRef} : g.node? id = some (.map key value) →
      g.Utters value → g.Utters (.node id)

namespace Graph

/-- A graph with its references in the other version. -/
def translated (g : Graph) : Graph := g.mapNodes Node.translated

variable {g : Graph} {t : TypeRef}

theorem node?_translated (id : Nat) : g.translated.node? id = (g.node? id).map Node.translated :=
  node?_mapNodes _ g id

/-! ## Names -/

theorem not_utters_of_isDeclared (h : g.isDeclared t = true) : ¬ g.Utters t := by
  cases t with
  | builtin b => cases h
  | node id =>
    obtain ⟨n, hn, hdeclared⟩ := isDeclared_iff.1 h
    intro hutters
    cases hutters with
    | reference hn' => cases hn.symm.trans hn'; cases hdeclared
    | key hn' => cases hn.symm.trans hn'; cases hdeclared
    | value hn' => cases hn.symm.trans hn'; cases hdeclared

theorem nameWithin_translated (h : ¬ g.Utters t) (depth : Nat) :
    g.translated.nameWithin depth t = g.nameWithin depth t := by
  induction depth generalizing t with
  | zero =>
    cases t with
    | builtin b => simp only [nameWithin]
    | node id =>
      simp only [nameWithin, node?_translated]
      rcases hn : g.node? id with _ | n
      · rfl
      · cases n with
        | reference ref => exact absurd (.reference hn) h
        | _ => rfl
  | succ depth ih =>
    cases t with
    | builtin b => simp only [nameWithin]
    | node id =>
      simp only [nameWithin, node?_translated]
      rcases hn : g.node? id with _ | n
      · rfl
      · cases n with
        | reference ref => exact absurd (.reference hn) h
        | map key value =>
          have hkey := ih fun hu => h (.key hn hu)
          have hvalue := ih fun hu => h (.value hn hu)
          simp only [Option.map_some, Node.translated, hkey, hvalue]
        | _ => rfl

theorem typeName_translated (h : ¬ g.Utters t) : g.translated.typeName t = g.typeName t := by
  rw [typeName, typeName, translated, size_mapNodes]
  exact nameWithin_translated h g.size

/-- The import that a type needs is the same in both versions. -/
theorem importOf?_typeName_translated (g : Graph) (t : TypeRef) :
    importOf? (g.translated.typeName t) = importOf? (g.typeName t) := by
  cases t with
  | builtin b => rw [typeName, typeName, nameWithin, nameWithin]
  | node id =>
    rcases hn : g.node? id with _ | n
    · simp [typeName, nameWithin, node?_translated, hn]
    · have hn' : g.translated.node? id = some n.translated := by
        rw [node?_translated, hn, Option.map_some]
      cases n with
      | reference ref =>
        rw [typeName_of_ownName? hn rfl, typeName_of_ownName? hn' rfl]
        exact importOf?_translateRef ref
      | map key value => rw [importOf?_map hn, importOf?_map hn']
      | _ => rw [typeName_of_ownName? hn rfl, typeName_of_ownName? hn' rfl]

/-! ## Declared types -/

section Registry

variable {r : Registry} {scope : Scope}

theorem lookup_translated (hlog : ∀ entry ∈ r.log, ¬ g.Utters (.node entry.2)) (name : String)
    (scope : Scope) : r.lookup g.translated name scope = r.lookup g name scope := by
  have hfind : ∀ container, ((r.declaredIn container).find? fun t =>
      g.translated.typeName (.node t) == name) =
        (r.declaredIn container).find? fun t => g.typeName (.node t) == name := by
    intro container
    refine List.find?_congr fun t ht => ?_
    rw [typeName_translated (hlog _ (mem_declaredIn.1 ht))]
  simp only [Registry.lookup, hfind]

theorem register_translated (hscope : ∀ x ∈ scope, ¬ g.Utters (.node x)) (t : TypeRef)
    (parent : Nat) : r.register g.translated t parent scope =
      ((r.register g t parent scope).1, (r.register g t parent scope).2.1.translated,
        (r.register g t parent scope).2.2) := by
  cases t with
  | builtin b => rfl
  | node id =>
    have hdeclared : g.translated.isDeclared (.node id) = g.isDeclared (.node id) :=
      isDeclared_mapNodes g Node.relabelled_translated _
    cases hd : g.isDeclared (.node id) with
    | false => simp [Registry.register, hdeclared, hd]
    | true =>
      have hname := typeName_translated (not_utters_of_isDeclared hd)
      have hkey : ∀ name, Registry.key g.translated scope name = Registry.key g scope name := by
        intro name
        have hscopes : scope.reverse.map (fun x => g.translated.typeName (.node x)) =
            scope.reverse.map fun x => g.typeName (.node x) :=
          List.map_congr_left fun x hx => typeName_translated (hscope x (List.mem_reverse.1 hx))
        rw [Registry.key, Registry.key, hscopes]
      have hchild : g.translated.addChild parent (.node id) =
          (g.addChild parent (.node id)).translated :=
        addChild_mapNodes g Node.relabelled_translated _ _
      simp only [Registry.register, hdeclared, hname, hkey, hchild]
      split_ifs <;> rfl

end Registry

end Graph

end ApiProto.Proto

namespace ApiProto.Compile

open Proto Document

namespace Compilation

/-- A state with its references in the other version. -/
def translated (c : Compilation) : Compilation :=
  { c with
    graph := c.graph.translated
    definitions := c.definitions.map fun entry => (translateRef entry.1, entry.2) }

theorem definition?_translated (c : Compilation) (ref : String) :
    c.translated.definition? (translateRef ref) = c.definition? ref := by
  have hlookup : c.translated.definitions.lookup (translateRef ref) = c.definitions.lookup ref := by
    have hmap := lookup_map_translateRef c.definitions id ref
    rwa [Option.map_id] at hmap
  simp only [definition?, knownDefinition?_translateRef, hlookup]

theorem table_translated (c : Compilation) :
    c.translated.table = c.table.map fun entry => (translateRef entry.1, entry.2) := by
  have hfixed : (knownDefinitions.map fun entry => (translateRef entry.1, TypeRef.builtin entry.2)) =
      knownDefinitions.map fun entry => (entry.1, .builtin entry.2) :=
    List.map_congr_left fun entry hentry => by rw [translateRef_known entry hentry]
  simp only [table, translated, List.map_append, List.map_map, Function.comp_def, hfixed]

end Compilation

end ApiProto.Compile
