import ApiProto.Proofs.Reachable

/-!
# Imports

The file of a well-known type is imported when a field, a procedure or an extension is made that
uses the type. Fields of list wrappers are made without that, and what takes the place of a
reference is not looked at again.

* `Graph.Imports` — the file that a name needs is imported.
* `Compilation.Announces` — what has been imported at any time of a compilation.
* `Runs.announces`, `Builds.announces` — runs and building keep to it.
-/

namespace ApiProto.Proto

open Document

variable {g : Graph} {package : Nat}

/-- The files that a package imports. -/
def Graph.imports (g : Graph) (package : Nat) : List String :=
  match g.node? package with
  | some (.package p) => p.imports
  | _ => []

/-- The file that a name needs, if it needs one, is imported. -/
def Graph.Imports (g : Graph) (package : Nat) (name : String) : Prop :=
  ∀ file, importOf? name = some file → file ∈ g.imports package

/-- The name of a map is no name of a well-known type. -/
theorem importOf?_map {id : Nat} {key value : TypeRef} (h : g.node? id = some (.map key value)) :
    importOf? (g.typeName (.node id)) = none := by
  have hknown : ∀ entry ∈ knownImports, entry.1.toList.head? = some 'g' := by decide
  have hname : (g.typeName (.node id)).toList.head? = some 'm' := by
    have hsize := Graph.lt_size_of_node? h
    unfold Graph.typeName
    obtain ⟨depth, hdepth⟩ : ∃ depth, g.size = depth + 1 := ⟨g.size - 1, by omega⟩
    rw [hdepth]
    simp [Graph.nameWithin, h]
  rcases hfile : importOf? (g.typeName (.node id)) with _ | file
  · rfl
  · obtain ⟨before, after, heq, -⟩ := List.lookup_eq_some_iff.1 hfile
    have hhead := hknown (g.typeName (.node id), file) (by simp [heq])
    exact absurd (hname.symm.trans hhead) (by decide)

theorem Graph.imports_of_grows {g' : Graph} (h : g.Grows g') :
    g.imports package ⊆ g'.imports package := by
  intro file hfile
  unfold Graph.imports at hfile ⊢
  split at hfile
  · next p hp =>
    obtain ⟨n', hn', hgrows⟩ := h package _ hp
    cases hgrows with
    | same => rwa [hn']
    | package _ _ himports =>
      rw [hn']
      exact himports.subset hfile
  · cases hfile

theorem Graph.Imports.mono {g' : Graph} (h : g.Grows g') {name : String}
    (hname : g.Imports package name) : g'.Imports package name :=
  fun file hfile => imports_of_grows h (hname file hfile)

/-- A type keeps its name unless it is a map. -/
theorem Graph.KeepsNames.typeName_eq_or {g' : Graph} (h : g.KeepsNames g') {t : TypeRef}
    (ht : g.Has t) : g'.typeName t = g.typeName t ∨ importOf? (g'.typeName t) = none := by
  cases t with
  | builtin b =>
    have hname : ∀ g : Graph, g.typeName (.builtin b) = b.name := fun g => by
      unfold Graph.typeName
      cases g.size <;> rfl
    exact .inl ((hname g').trans (hname g).symm)
  | node id =>
    obtain ⟨n, hn⟩ := Graph.node?_isSome ht
    obtain ⟨n', hn', hown⟩ := h id n hn
    rcases hname : n.ownName? with _ | name
    · rw [hname] at hown
      cases n' with
      | map key value => exact .inr (importOf?_map hn')
      | _ => cases hown
    · have hname' := Graph.typeName_of_ownName? hn' (hown.trans hname)
      exact .inl (hname'.trans (Graph.typeName_of_ownName? hn hname).symm)

/-- An import for the name that a type had is one for the name that it has. -/
theorem Graph.Imports.rename {g' : Graph} (h : g.KeepsNames g') {t : TypeRef} (ht : g.Has t)
    (himports : g'.Imports package (g.typeName t)) : g'.Imports package (g'.typeName t) := by
  intro file hfile
  rcases h.typeName_eq_or ht with heq | hnone
  · exact himports file (heq ▸ hfile)
  · cases hnone.symm.trans hfile

/-- What a type that is there needs is still imported when the graph has grown. -/
theorem Graph.Imports.of_grows {g' : Graph} (h : g.Grows g') {t : TypeRef} (ht : g.Has t)
    (himports : g.Imports package (g.typeName t)) : g'.Imports package (g'.typeName t) :=
  (himports.mono h).rename h.keepsNames ht

theorem Graph.IsReference.mono {g' : Graph} (h : g.Grows g') {t : TypeRef} (ht : g.IsReference t) :
    g'.IsReference t := by
  obtain ⟨id, ref, rfl, hn⟩ := ht
  obtain ⟨n', hn', hgrows⟩ := h id _ hn
  cases hgrows
  exact ⟨id, ref, rfl, hn'⟩

end ApiProto.Proto

namespace ApiProto.Compile

open Proto Document CompileM

/-! ## Announcements -/

/-- The messages with the comment of a list wrapper. -/
def IsListWrapper (m : Message) : Prop := ∃ about, m.comment = .text (wrapperComment about)

/-- The fields of a graph that stand at a reference. -/
def DefersField (g : Graph) (id i : Nat) : Prop :=
  ∃ m f, g.node? id = some (.message m) ∧ m.fields[i]? = some f ∧ g.IsReference f.type

/-- The maps of a graph whose values stand at a reference. -/
def DefersValue (g : Graph) (id : Nat) : Prop :=
  ∃ key value, g.node? id = some (.map key value) ∧ g.IsReference value

/-- What a type needs is imported, and if it is a map, what its values need, unless they stood or
stand at a reference. -/
structure Covers (g₀ g : Graph) (package : Nat) (t : TypeRef) (repeated : Bool) : Prop where
  type : g.Imports package (g.typeName t)
  values : repeated = false → ∀ id key value, t = .node id → g.node? id = some (.map key value) →
    DefersValue g₀ id ∨ g.IsReference value ∨ g.Imports package (g.typeName value)

/-- What has been imported at any time of a compilation. In `g₀` are the references that have been
resolved before. -/
structure Compilation.Announces (g₀ : Graph) (c : Compilation) : Prop where
  nodup : (c.graph.imports c.package).Nodup
  fields : ∀ (id : Nat) m, c.graph.node? id = some (.message m) → ¬ IsListWrapper m →
    ∀ (i : Nat) (f : Proto.Field TypeRef Value), m.fields[i]? = some f →
      DefersField g₀ id i ∨ c.graph.IsReference f.type ∨
        Covers g₀ c.graph c.package f.type f.repeated
  procedures : ∀ id s, c.graph.node? id = some (.service s) → ∀ rpc ∈ s.rpcs,
    c.graph.Imports c.package (c.graph.typeName rpc.parameter) ∧
      c.graph.Imports c.package (c.graph.typeName rpc.response)
  extensions : ∀ id e, c.graph.node? id = some (.extension e) →
    ∀ name ∈ e.base :: e.fields.map (·.type), c.graph.Imports c.package name

section Growth

variable {g₀ : Graph} {opened : List Nat} {c c' : Compilation}

theorem Covers.of_grows {g g' : Graph} {package : Nat} (h : g.Grows g') {t : TypeRef}
    (ht : g.Has t) (hvalues : ∀ id key value, t = .node id → g.node? id = some (.map key value) →
      g.Has value) {repeated : Bool}
    (hcovers : Covers g₀ g package t repeated) : Covers g₀ g' package t repeated where
  type := hcovers.type.of_grows h ht
  values hrepeated id key value hid hn' := by
    subst hid
    obtain ⟨n, hn⟩ := Graph.node?_isSome ht
    obtain ⟨n'', hn'', hgrows⟩ := h id n hn
    obtain rfl := Option.some.inj (hn'.symm.trans hn'')
    cases hgrows
    rcases hcovers.values hrepeated id key value rfl hn with hdefers | hreference | himports
    · exact .inl hdefers
    · exact .inr (.inl (hreference.mono h))
    · exact .inr (.inr (himports.of_grows h (hvalues id key value rfl hn)))

/-- A state that has grown announces what it has to, if what is new is announced. -/
theorem Compilation.Announces.of_grows (h : c.Announces g₀) (hc : c.Closed)
    (hgrows : c.Grows opened c') (hnodup : (c'.graph.imports c'.package).Nodup)
    (hfields : ∀ (id : Nat) m, c'.graph.node? id = some (.message m) → ¬ IsListWrapper m →
      ∀ (i : Nat) (f : Proto.Field TypeRef Value), m.fields[i]? = some f →
      (∀ m₀, c.graph.node? id = some (.message m₀) → m₀.fields.length ≤ i) →
      c'.graph.IsReference f.type ∨ Covers g₀ c'.graph c'.package f.type f.repeated)
    (hprocedures : ∀ id s, c'.graph.node? id = some (.service s) → ∀ rpc ∈ s.rpcs,
      (∀ s₀, c.graph.node? id = some (.service s₀) → rpc ∉ s₀.rpcs) →
      c'.graph.Imports c'.package (c'.graph.typeName rpc.parameter) ∧
        c'.graph.Imports c'.package (c'.graph.typeName rpc.response))
    (hextensions : ∀ id e, c'.graph.node? id = some (.extension e) → c.graph.size ≤ id →
      ∀ name ∈ e.base :: e.fields.map (·.type), c'.graph.Imports c'.package name) :
    c'.Announces g₀ where
  nodup := hnodup
  fields id m' hm' hwrapper i f hf := by
    by_cases hold : ∃ m₀, c.graph.node? id = some (.message m₀) ∧ i < m₀.fields.length
    · obtain ⟨m, hm, hi⟩ := hold
      obtain ⟨n', hn', hnode⟩ := hgrows.nodes id _ hm
      obtain rfl := Option.some.inj (hm'.symm.trans hn')
      obtain ⟨hcomment, hprefix⟩ : m'.comment = m.comment ∧ m.fields <+: m'.fields := by
        cases hnode with
        | same => exact ⟨rfl, List.prefix_rfl⟩
        | message _ hcomment hfields _ => exact ⟨hcomment, hfields⟩
      have hf₀ : m.fields[i]? = some f := by
        rw [← hf, List.getElem?_eq_getElem hi, hprefix.getElem hi, List.getElem?_eq_getElem]
      have hhas := hc.mentions id _ hm f.type
        (List.mem_append_right _ (List.mem_map.2 ⟨f, List.mem_of_getElem? hf₀, rfl⟩))
      rcases h.fields id m hm (by rwa [IsListWrapper, ← hcomment]) i f hf₀ with
        hdefers | hreference | hcovers
      · exact .inl hdefers
      · exact .inr (.inl (hreference.mono hgrows.nodes))
      · refine .inr (.inr ?_)
        rw [hgrows.package]
        exact hcovers.of_grows hgrows.nodes hhas fun k key value _ hk =>
          hc.mentions k _ hk value (by simp [Node.mentions])
    · refine .inr (hfields id m' hm' hwrapper i f hf fun m₀ hm₀ => ?_)
      exact Nat.le_of_not_lt fun hlt => hold ⟨m₀, hm₀, hlt⟩
  procedures id s' hs' rpc hrpc := by
    by_cases hold : ∃ s₀, c.graph.node? id = some (.service s₀) ∧ rpc ∈ s₀.rpcs
    · obtain ⟨s, hs, hmem⟩ := hold
      obtain ⟨hrequest, hresponse⟩ := h.procedures id s hs rpc hmem
      have hhas := fun t ht => hc.mentions id _ hs t (List.mem_flatMap.2 ⟨rpc, hmem, ht⟩)
      rw [hgrows.package]
      exact ⟨hrequest.of_grows hgrows.nodes (hhas _ (by simp)),
        hresponse.of_grows hgrows.nodes (hhas _ (by simp))⟩
    · exact hprocedures id s' hs' rpc hrpc fun s₀ hs₀ hmem => hold ⟨s₀, hs₀, hmem⟩
  extensions id e he name hname := by
    rcases Nat.lt_or_ge id c.graph.size with hlt | hge
    · obtain ⟨n, hn⟩ := Graph.node?_isSome hlt
      obtain ⟨n', hn', hnode⟩ := hgrows.nodes id n hn
      obtain rfl := Option.some.inj (he.symm.trans hn')
      cases hnode
      rw [hgrows.package]
      exact (h.extensions id e hn name hname).mono hgrows.nodes
    · exact hextensions id e he hge name hname

end Growth

/-! ## Effects -/

theorem imports_eq {g g' : Graph} {package : Nat} {p p' : Package}
    (hp : g.node? package = some (.package p)) (hp' : g'.node? package = some (.package p'))
    (himports : p'.imports = p.imports) : g'.imports package = g.imports package := by
  simp [Graph.imports, hp, hp', himports]

namespace Compilation

variable {g₀ : Graph} {c : Compilation}

theorem imports_importFile (hc : c.Closed) (file : String) :
    (c.importFile file).graph.imports c.package =
      if file ∈ c.graph.imports c.package then c.graph.imports c.package
      else c.graph.imports c.package ++ [file] := by
  obtain ⟨p, hp⟩ := hc.package
  have hnode : (c.importFile file).graph.node? c.package =
      some ((Node.package p).withImport file) := by
    show (c.graph.addImport c.package file).node? c.package = _
    rw [Graph.node?_addImport, if_pos rfl, hp, Option.map_some]
  have himports : c.graph.imports c.package = p.imports := by simp [Graph.imports, hp]
  unfold Graph.imports at himports ⊢
  rw [hnode, himports, Node.withImport]
  by_cases hmem : file ∈ p.imports <;> simp [hmem]

theorem importing_imports (hc : c.Closed) (name : String) :
    (c.importing name).graph.Imports c.package name := by
  intro file hfile
  have hrun : c.importing name = c.importFile file := by
    unfold importing
    rw [hfile]
    rfl
  rw [hrun, imports_importFile hc]
  split
  · assumption
  · exact List.mem_append_right _ (by simp)

theorem importFile_nodup (hc : c.Closed) (h : (c.graph.imports c.package).Nodup) (file : String) :
    ((c.importFile file).graph.imports c.package).Nodup := by
  rw [imports_importFile hc]
  split
  · exact h
  · next hnew =>
    refine List.nodup_append.2 ⟨h, by simp, ?_⟩
    rintro a ha b hb rfl
    exact hnew (List.mem_singleton.1 hb ▸ ha)

theorem importing_nodup (hc : c.Closed) (h : (c.graph.imports c.package).Nodup) (name : String) :
    ((c.importing name).graph.imports c.package).Nodup := by
  unfold importing
  split
  · exact importFile_nodup hc h _
  · exact h

namespace Announces

variable (h : c.Announces g₀) (hc : c.Closed)
include h hc

theorem withNode {n : Node} (hmessage : ∀ m, n = .message m → IsListWrapper m ∨ m.fields = [])
    (hservice : ∀ s, n ≠ .service s) (hextension : ∀ e, n ≠ .extension e) :
    (c.withNode n).Announces g₀ := by
  obtain ⟨p, hp⟩ := hc.package
  have hold : ∀ id n', (c.withNode n).graph.node? id = some n' →
      c.graph.node? id = some n' ∨ n' = n := by
    intro id n' hn'
    have hadd : (c.graph.add n).1.node? id = some n' := hn'
    rw [Graph.node?_add] at hadd
    split at hadd
    · exact .inr (Option.some.inj hadd).symm
    · exact .inl hadd
  have hgrows : c.Grows [] (c.withNode n) := .withNode c n
  refine h.of_grows hc hgrows ?_ ?_ ?_ ?_
  · show ((c.graph.add n).1.imports c.package).Nodup
    rw [imports_eq hp (Graph.node?_add_of_some hp n) rfl]
    exact h.nodup
  · intro id m hm hwrapper i f hf hnew
    rcases hold id _ hm with hm₀ | rfl
    · exact absurd (List.getElem?_eq_some_iff.1 hf).1 (Nat.not_lt.2 (hnew m hm₀))
    · rcases hmessage m rfl with hw | hempty
      · exact absurd hw hwrapper
      · simp [hempty] at hf
  · intro id s hs rpc hrpc hnew
    rcases hold id _ hs with hs₀ | rfl
    · exact absurd hrpc (hnew s hs₀)
    · exact absurd rfl (hservice s)
  · intro id e he hge
    rcases hold id _ he with he₀ | rfl
    · exact absurd (Graph.lt_size_of_node? he₀) (Nat.not_lt.2 hge)
    · exact absurd rfl (hextension e)

/-- A state in which one node has been changed, but not in what it announces. -/
theorem of_map {opened : List Nat} {c' : Compilation} {k : Nat} {change : Node → Node}
    (hgrows : c.Grows opened c') (hnodup : (c'.graph.imports c'.package).Nodup)
    (hnode : ∀ id, c'.graph.node? id =
      if id = k then (c.graph.node? id).map change else c.graph.node? id)
    (hmessage : ∀ n m', change n = .message m' → ∃ m, n = .message m ∧ m.fields = m'.fields)
    (hservice : ∀ n s, change n = .service s → n = .service s) : c'.Announces g₀ := by
  have hold : ∀ id n', c'.graph.node? id = some n' →
      ∃ n, c.graph.node? id = some n ∧ (n' = n ∨ n' = change n) := by
    intro id n' hn'
    rw [hnode id] at hn'
    split at hn'
    · obtain ⟨n, hn, rfl⟩ := Option.map_eq_some_iff.1 hn'
      exact ⟨n, hn, .inr rfl⟩
    · exact ⟨n', hn', .inl rfl⟩
  refine h.of_grows hc hgrows hnodup ?_ ?_ ?_
  · intro id m' hm' _ i f hf hnew
    obtain ⟨m, hm, hfields⟩ : ∃ m, c.graph.node? id = some (.message m) ∧ m.fields = m'.fields := by
      obtain ⟨n, hn, rfl | heq⟩ := hold id _ hm'
      · exact ⟨m', hn, rfl⟩
      · obtain ⟨m, rfl, hfields⟩ := hmessage n m' heq.symm
        exact ⟨m, hn, hfields⟩
    exact absurd (List.getElem?_eq_some_iff.1 hf).1 (Nat.not_lt.2 (hfields ▸ hnew m hm))
  · intro id s hs rpc hrpc hnew
    obtain ⟨n, hn, rfl | heq⟩ := hold id _ hs
    · exact absurd hrpc (hnew s hn)
    · obtain rfl := hservice n s heq.symm
      exact absurd hrpc (hnew s hn)
  · intro id e he hge
    obtain ⟨n, hn, -⟩ := hold id _ he
    exact absurd (Graph.lt_size_of_node? hn) (Nat.not_lt.2 hge)

theorem importFile (file : String) : (c.importFile file).Announces g₀ := by
  have hgrows : c.Grows [c.package] (c.importFile file) := .importFile (by simp) file
  refine h.of_map hc hgrows ?_ (fun id => Graph.node?_addImport c.package file) ?_ ?_
  · exact importFile_nodup hc h.nodup file
  all_goals
    intro n m hm
    cases n with
    | package p =>
      obtain ⟨p', hp'⟩ := Node.withImport_package file p
      cases hp'.symm.trans hm
    | _ => cases hm <;> first | exact ⟨_, rfl, rfl⟩ | rfl

theorem importing (name : String) : (c.importing name).Announces g₀ := by
  unfold Compilation.importing
  split
  · exact h.importFile hc _
  · exact h

theorem addChild (parent : Nat) (t : TypeRef) :
    Compilation.Announces g₀ { c with graph := c.graph.addChild parent t } := by
  have hgrows : c.Grows [parent] { c with graph := c.graph.addChild parent t } :=
    .addChild (by simp) t
  refine h.of_map hc hgrows ?_ (fun id => Graph.node?_addChild parent t) ?_ ?_
  · obtain ⟨p, hp⟩ := hc.package
    have hnode : (c.graph.addChild parent t).node? c.package = _ := Graph.node?_addChild parent t
    show ((c.graph.addChild parent t).imports c.package).Nodup
    rw [hp] at hnode
    split at hnode
    · rw [imports_eq hp hnode rfl]
      exact h.nodup
    · rw [imports_eq hp hnode rfl]
      exact h.nodup
  · intro n m hm
    cases n <;> cases hm
    exact ⟨_, rfl, rfl⟩
  · intro n p hp
    cases n <;> cases hp
    rfl

omit hc in
/-- Announcements are about the graph alone. -/
theorem of_graph_eq {c' : Compilation} (hgraph : c'.graph = c.graph)
    (hpackage : c'.package = c.package) : c'.Announces g₀ where
  nodup := by rw [hgraph, hpackage]; exact h.nodup
  fields := by rw [hgraph, hpackage]; exact h.fields
  procedures := by rw [hgraph, hpackage]; exact h.procedures
  extensions := by rw [hgraph, hpackage]; exact h.extensions

omit hc in
theorem remember (base : String) (wrapper : Nat) : (c.remember base wrapper).Announces g₀ :=
  h.of_graph_eq rfl rfl

theorem declare (scope : Scope) (parent : Nat) (t : TypeRef) :
    (c.declare scope parent t).Announces g₀ := by
  unfold Compilation.declare
  rcases Registry.register_cases c.graph c.registry t parent scope with
    ⟨heq, -⟩ | ⟨id, -, -, -, -, ⟨-, heq⟩ | ⟨-, heq⟩⟩ <;> rw [heq]
  · exact h
  · exact h.of_graph_eq rfl rfl
  · exact (h.addChild hc parent t).of_graph_eq rfl rfl

theorem declareHere (scope : Scope) (t : TypeRef) : (c.declareHere scope t).Announces g₀ := by
  cases scope with
  | nil => exact h
  | cons parent rest => exact h.declare hc _ parent t

theorem compileReference {c' : Compilation} {ref : String} {d : Definition}
    (href : compileReference ref c = .ok (d, c')) : c'.Announces g₀ := by
  rcases compileReference_ok href with ⟨-, rfl⟩ | ⟨-, -, -, rfl⟩
  · exact h
  · exact h.withNode hc (fun _ heq => nomatch heq) (fun _ heq => nomatch heq)
      fun _ heq => nomatch heq

end Announces

end Compilation

/-- After the import for the type of a property, all is imported that its field needs. -/
theorem covers_importing {g₀ : Graph} {c : Compilation} (hc : c.Closed) {t : TypeRef}
    (ht : c.graph.Has t) (repeated : Bool) :
    Covers g₀ (c.importing (c.graph.typeName (importedType c.graph t))).graph c.package t
      repeated := by
  have hgrows : c.Grows [c.package] (c.importing (c.graph.typeName (importedType c.graph t))) :=
    .importing (by simp) _
  have himports := Compilation.importing_imports hc (c.graph.typeName (importedType c.graph t))
  have hmap : ∀ {id key value}, t = .node id → c.graph.node? id = some (.map key value) →
      importedType c.graph t = value := by
    rintro id key value rfl hn
    simp [importedType, hn]
  constructor
  · by_cases hn : ∃ id key value, t = .node id ∧ c.graph.node? id = some (.map key value)
    · obtain ⟨id, key, value, rfl, hn⟩ := hn
      have hn' := node?_importing hn (fun _ => rfl)
        (c.graph.typeName (importedType c.graph (.node id)))
      intro file hfile
      cases (importOf?_map hn').symm.trans hfile
    · have htype : importedType c.graph t = t := by
        unfold importedType
        split
        · rfl
        · next id =>
          split
          · next key value hn' => exact absurd ⟨id, key, value, rfl, hn'⟩ hn
          · rfl
      rw [htype] at hgrows himports ⊢
      exact himports.rename hgrows.nodes.keepsNames ht
  · intro _ id key value hid hn'
    have hn := node?_of_importing (n := .map key value) (fun _ heq => nomatch heq) hn'
    have hvalue := hc.mentions id _ hn value (by simp [Node.mentions])
    rw [hmap hid hn] at hgrows himports ⊢
    exact .inr (.inr (himports.rename hgrows.nodes.keepsNames hvalue))

/-- When a field has been added, and something has been imported, the nodes other than packages are
those from before, but for the message. -/
theorem node?_of_addField_importing {c c₁ : Compilation} {message : Nat} {m m₁ : Message}
    (hn : c.graph.node? message = some (.message m))
    (hput : c₁.graph = c.graph.put message (.message m₁)) {name : String} {id : Nat} {n' : Node}
    (hn' : ∀ p, n' ≠ .package p) (hnode : (c₁.importing name).graph.node? id = some n') :
    id = message ∧ n' = .message m₁ ∨ c.graph.node? id = some n' := by
  have hnode₁ := node?_of_importing hn' hnode
  rw [hput] at hnode₁
  rcases Decidable.em (id = message) with rfl | hid
  · rw [Graph.node?_put_self hn] at hnode₁
    exact .inl ⟨rfl, (Option.some.inj hnode₁).symm⟩
  · rw [Graph.node?_put_of_ne hid] at hnode₁
    exact .inr hnode₁

/-- A field of a property is added with the import that its type needs. -/
theorem Compilation.Announces.addPropertyField {g₀ : Graph} {c c' : Compilation}
    (h : c.Announces g₀) (hc : c.Closed) {message : Nat} {p : CompiledProperty} {number : Int}
    (hp : c.graph.Has p.type) (hadd : addPropertyField message p number c = .ok ((), c')) :
    c'.Announces g₀ := by
  obtain ⟨c₁, hfield, rfl⟩ := addPropertyField_ok hadd
  have hgrows₁ : c.Grows [message, c.package] c₁ := addField_grows (by simp) hfield
  have hc₁ := hc.addField hp hfield
  have hcovers : Covers g₀ _ _ p.type p.repeated :=
    covers_importing hc₁ (hp.mono hgrows₁.size_le) p.repeated
  generalize c₁.graph.typeName (importedType c₁.graph p.type) = name at hcovers ⊢
  have hgrows := hgrows₁.trans (.importing (by simp [hgrows₁.package]) name)
  rcases addField_ok hfield with ⟨-, heq⟩ | ⟨m, hm, -, -, heq⟩
  · rw [heq]
    exact h.importing hc name
  · have hn := Graph.node?_of_message? hm
    obtain ⟨pkg, hpkg⟩ := hc.package
    have hne : c.package ≠ message := fun heq => by
      rw [heq, hn] at hpkg
      cases hpkg
    have hput := congrArg Compilation.graph heq
    dsimp only at hput
    refine h.of_grows hc hgrows ?_ ?_ ?_ ?_
    · rw [hgrows.package, ← hgrows₁.package]
      refine Compilation.importing_nodup hc₁ ?_ name
      rw [hgrows₁.package, hput, imports_eq hpkg ((Graph.node?_put_of_ne hne _).trans hpkg) rfl]
      exact h.nodup
    · intro id m' hm' _ i f hf hnew
      rcases node?_of_addField_importing hn hput (by simp) hm' with ⟨rfl, hmessage⟩ | hm₀
      · -- only the field that has been added is new
        obtain rfl := Node.message.inj hmessage
        have hi := hnew m hn
        have hlt := (List.getElem?_eq_some_iff.1 hf).1
        obtain rfl : m.fields.length = i := by
          simp only [List.length_append, List.length_cons, List.length_nil] at hlt
          omega
        rw [List.getElem?_concat_length] at hf
        obtain rfl := Option.some.inj hf
        rw [hgrows.package, ← hgrows₁.package]
        exact .inr hcovers
      · exact absurd (List.getElem?_eq_some_iff.1 hf).1 (Nat.not_lt.2 (hnew m' hm₀))
    · intro id s hs rpc hrpc hnew
      rcases node?_of_addField_importing hn hput (by simp) hs with ⟨-, hmessage⟩ | hs₀
      · cases hmessage
      · exact absurd hrpc (hnew s hs₀)
    · intro id e he hge
      rcases node?_of_addField_importing hn hput (by simp) he with ⟨-, hmessage⟩ | he₀
      · cases hmessage
      · exact absurd (Graph.lt_size_of_node? he₀) (Nat.not_lt.2 hge)

theorem Compilation.Announces.addFields {g₀ : Graph} {c c' : Compilation} (h : c.Announces g₀)
    (hc : c.Closed) {message : Nat} {fields : List (CompiledProperty × Int)}
    (hf : ∀ field ∈ fields, c.graph.Has field.1.type)
    (hadd : addFields message fields c = .ok ((), c')) : c'.Announces g₀ := by
  refine (forM_ok_induct (P := fun d => d.Announces g₀ ∧ d.Closed ∧ c.graph.size ≤ d.graph.size)
    (fun field hfield d d' hstep hd => ?_) hadd ⟨h, hc, Nat.le_refl _⟩).1
  obtain ⟨hd, hclosed, hsize⟩ := hd
  have hhas := (hf field hfield).mono hsize
  obtain ⟨d₁, hadd, rfl⟩ := addPropertyField_ok hstep
  have hgrows : d.Grows [message] d₁ := addField_grows (by simp) hadd
  have hgrows' : d₁.Grows [d₁.package] (d₁.importing _) :=
    .importing (by simp) (d₁.graph.typeName (importedType d₁.graph field.1.type))
  exact ⟨hd.addPropertyField hclosed hhas hstep, (hclosed.addField hhas hadd).importing _,
    Nat.le_trans hsize (Nat.le_trans hgrows.size_le hgrows'.size_le)⟩

/-- The message of a response that is an array, with the import that its items need. -/
theorem Compilation.Announces.arrayMessage {g₀ : Graph} {c : Compilation} (h : c.Announces g₀)
    (hc : c.Closed) {item : TypeRef} (hitem : c.graph.Has item) (name : String) :
    ((c.withNode (.message (arrayMessage name item))).importing
      ((c.withNode (.message (arrayMessage name item))).graph.typeName item)).Announces g₀ := by
  have hgrows₁ : c.Grows [c.package] (c.withNode (.message (Compile.arrayMessage name item))) :=
    .withNode c _
  have hc₁ := hc.withNode (n := .message (Compile.arrayMessage name item))
    (by simpa [Node.mentions, Compile.arrayMessage] using hitem)
  have himports := Compilation.importing_imports hc₁
    ((c.withNode (.message (Compile.arrayMessage name item))).graph.typeName item)
  generalize hwritten :
    (c.withNode (.message (Compile.arrayMessage name item))).graph.typeName item = written
    at himports ⊢
  have hgrows₂ : (c.withNode (.message (Compile.arrayMessage name item))).Grows [c.package] _ :=
    .importing (by simp [hgrows₁.package]) written
  have hgrows := hgrows₁.trans hgrows₂
  have hold : ∀ id n, (∀ p, n ≠ .package p) →
      ((c.withNode (.message (Compile.arrayMessage name item))).importing written).graph.node? id =
        some n → c.graph.node? id = some n ∨ n = .message (Compile.arrayMessage name item) := by
    intro id n hn hnode
    have hnode₁ : (c.graph.add _).1.node? id = some n := node?_of_importing hn hnode
    rw [Graph.node?_add] at hnode₁
    split at hnode₁
    · exact .inr (Option.some.inj hnode₁).symm
    · exact .inl hnode₁
  refine h.of_grows hc hgrows ?_ ?_ ?_ ?_
  · obtain ⟨p, hp⟩ := hc.package
    rw [hgrows.package, ← hgrows₁.package]
    refine Compilation.importing_nodup hc₁ ?_ written
    rw [hgrows₁.package]
    show ((c.graph.add _).1.imports c.package).Nodup
    rw [imports_eq hp (Graph.node?_add_of_some hp _) rfl]
    exact h.nodup
  · intro id m hm _ i f hf hnew
    rcases hold id _ (by simp) hm with hm₀ | heq
    · exact absurd (List.getElem?_eq_some_iff.1 hf).1 (Nat.not_lt.2 (hnew m hm₀))
    · obtain rfl := Node.message.inj heq
      obtain rfl : f = ⟨item, "items", 1, true, .text ""⟩ := by
        simpa [Compile.arrayMessage] using List.mem_of_getElem? hf
      refine .inr ⟨?_, by simp⟩
      rw [hgrows.package]
      rw [← hwritten] at himports
      refine Graph.Imports.rename hgrows₂.nodes.keepsNames (hitem.mono hgrows₁.size_le) ?_
      exact hwritten ▸ himports
  · intro id s hs rpc hrpc hnew
    rcases hold id _ (by simp) hs with hs₀ | heq
    · exact absurd hrpc (hnew s hs₀)
    · cases heq
  · intro id e he hge
    rcases hold id _ (by simp) he with he₀ | heq
    · exact absurd (Graph.lt_size_of_node? he₀) (Nat.not_lt.2 hge)
    · cases heq

end ApiProto.Compile
