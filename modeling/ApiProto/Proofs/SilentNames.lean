import ApiProto.Proofs.Lockstep
import ApiProto.Proofs.SchemaFits

/-!
# Names that spell out references

As long as references may come before what they name, a type can be a reference, and its name is the
text of that reference. The name of a map gives the names of its keys and values, so it may spell out
a reference as well. All other types have names of their own.

* `Graph.Silent` — a type whose name spells out no reference, now or later.
* `Schema.spells` — whether the type of a schema may have a name that spells out a reference.
* `compileSchema_silent` — the types of all other schemas do not.
-/

namespace ApiProto.Proto

/-- A type whose name spells out no reference: a builtin type, a declared type, or a map of such
types. -/
inductive Graph.Silent (g : Graph) : TypeRef → Prop
  | builtin (b : Builtin) : g.Silent (.builtin b)
  | declared {t : TypeRef} : g.isDeclared t = true → g.Silent t
  | map {id : Nat} {key value : TypeRef} : g.node? id = some (.map key value) → g.Silent key →
      g.Silent value → g.Silent (.node id)

namespace Graph

variable {g g' : Graph} {t : TypeRef}

theorem Silent.not_utters (h : g.Silent t) : ¬ g.Utters t := by
  induction h with
  | builtin b => exact nofun
  | declared hdeclared => exact not_utters_of_isDeclared hdeclared
  | map hn _ _ ihkey ihvalue =>
    intro hutters
    cases hutters with
    | reference hn' => cases hn.symm.trans hn'
    | key hn' hkey =>
      obtain ⟨rfl, rfl⟩ := Node.map.inj (Option.some.inj (hn.symm.trans hn'))
      exact ihkey hkey
    | value hn' hvalue =>
      obtain ⟨rfl, rfl⟩ := Node.map.inj (Option.some.inj (hn.symm.trans hn'))
      exact ihvalue hvalue

theorem Silent.of_grows (h : g.Silent t) (hgrows : g.Grows g') : g'.Silent t := by
  induction h with
  | builtin b => exact .builtin b
  | declared hdeclared => exact .declared (hgrows.isDeclared hdeclared)
  | map hn _ _ ihkey ihvalue =>
    obtain ⟨n, hn', hnode⟩ := hgrows _ _ hn
    cases hnode
    exact .map hn' ihkey ihvalue

theorem silent_of_message {id : Nat} {m : Message} (h : g.node? id = some (.message m)) :
    g.Silent (.node id) :=
  .declared (isDeclared_iff.2 ⟨_, h, rfl⟩)

end Graph

end ApiProto.Proto

namespace ApiProto.Document

open Proto

/-- Whether a reference is to a well-known type. -/
def isWellKnown : Value → Bool
  | .text ref => (knownDefinition? ref).isSome
  | _ => false

mutual

/-- Whether the type of a schema may have a name that spells out a reference: the schema is a
reference, or it has such a schema for its items or for the values of a map. -/
def Schema.spells : Schema → Bool
  | ⟨ref, _, _, _, _, _, items, additional, _, _⟩ =>
    if ref.isEmpty then itemsSpell items || valuesSpell additional else !isWellKnown ref

def itemsSpell : Option Schema → Bool
  | none => false
  | some s => s.spells

/-- A list among the values of a map becomes a message. -/
def valuesSpell : Option Schema → Bool
  | none => false
  | some s => s.spells && !(s.ref.isEmpty && s.firstType == "array")

end

namespace Schema

variable {s i p : Schema}

theorem isWellKnown_of_silent (h : s.spells = false) (href : s.ref.isEmpty = false) :
    isWellKnown s.ref = true := by
  cases s
  dsimp only at href
  rw [spells, if_neg (by simp [href])] at h
  simpa using h

theorem items_silent (h : s.spells = false) (href : s.ref.isEmpty = true)
    (hi : s.items = some i) : i.spells = false := by
  cases s
  dsimp only at href hi
  rw [spells, if_pos href, hi] at h
  exact (Bool.or_eq_false_iff.1 h).1

theorem values_silent (h : s.spells = false) (href : s.ref.isEmpty = true)
    (hp : s.additional = some p) (hlist : p.ref.isEmpty = true → p.firstType ≠ "array") :
    p.spells = false := by
  cases s
  dsimp only at href hp
  rw [spells, if_pos href, hp] at h
  have h := (Bool.or_eq_false_iff.1 h).2
  rw [valuesSpell] at h
  by_contra hspells
  simp only [Bool.not_eq_false] at hspells
  simp [hspells] at h
  exact hlist h.1 h.2

end Schema

end ApiProto.Document

namespace ApiProto.Compile

open Proto Document CompileM

variable {env : Environment} {scope : Scope} {c c' : Compilation} {d : Definition} {t : TypeRef}

theorem Compilation.Ready.silent_lookup (hc : c.Ready scope) {name : String} {within : Scope}
    (h : c.registry.lookup c.graph name within = some t) : c.graph.Silent t := by
  rcases Registry.lookup_some h with ⟨b, rfl⟩ | ⟨container, id, rfl, -, hlog, -⟩
  · exact .builtin b
  · exact .declared (hc.log _ hlog)

theorem silent_withFormat {g : Graph} (format : String) (h : g.Silent t) :
    g.Silent (withFormat format t) := by
  cases t with
  | builtin b => exact .builtin _
  | node id => exact h

/-! ## Types of schemas -/

theorem compileReferenceValue_silent {ref : Value} (hknown : isWellKnown ref = true)
    (h : compileReferenceValue ref c = .ok (d, c')) : c'.graph.Silent d.unwrap := by
  cases ref with
  | text ref =>
    obtain ⟨b, hb⟩ := Option.isSome_iff_exists.1 hknown
    have hd : c.definition? ref = some (.type (.builtin b)) := by
      rw [Compilation.definition?, hb]
    obtain ⟨_, _, href, h⟩ := bind_ok_iff.1 h
    obtain ⟨href, rfl⟩ := ofResult_ok_iff.1 href
    obtain rfl := Except.ok.inj href
    unfold compileReference at h
    rw [get_bind, show c.definition? (Value.text ref).display = _ from hd] at h
    obtain ⟨rfl, -⟩ := Prod.mk.inj (Except.ok.inj h)
    exact .builtin b
  | _ => cases hknown

/-- An object with properties becomes a message. -/
theorem compileMessage_silent {name : String} {comment : Value} {properties : List (String × Part)}
    (hp : ∀ entry ∈ properties, PartRuns env entry.2) (hc : c.Ready scope)
    (h : compileMessage env scope name comment properties c = .ok (d, c')) :
    c'.graph.Silent d.unwrap := by
  unfold compileMessage at h
  rw [newNode_bind] at h
  obtain ⟨_, c₁, hproperties, h⟩ := bind_ok_iff.1 h
  obtain ⟨ts, c₂, fields, hruns, -, hadd⟩ := compileProperties_ok hp (within_ok_iff.1 hproperties)
  simp only [declareDefinition_bind, pure_run, Except.ok.injEq, Prod.mk.injEq] at h
  obtain ⟨rfl, rfl⟩ := h
  have hinside := hc.enter ⟨name, [], [], comment⟩
  have hgrows₂ := hruns.grows hinside.package
  have hgrows₁ := addFields_grows (hruns.ready hinside).package (List.mem_cons_self ..) hadd
  have hdeclare : c₁.graph.Grows (c₁.declareHere scope (.node c.graph.size)).graph :=
    (Compilation.Grows.declareHere (List.Subset.refl _) _).nodes
  have hmessage : (c.withNode (.message ⟨name, [], [], comment⟩)).graph.node? c.graph.size =
      some (.message ⟨name, [], [], comment⟩) := Graph.node?_add_self _
  exact (Graph.silent_of_message hmessage).of_grows
    ((hgrows₂.nodes.trans hgrows₁.nodes).trans hdeclare)

/-- A way to compile a schema. If the schema does not spell out a reference, neither does the name
of its type. -/
def ActionSilent (s : Schema) (a : Action) : Prop :=
  s.spells = false → ∀ scope rawName comment c d c', c.Ready scope →
    a scope rawName comment c = .ok (d, c') → c'.graph.Silent d.unwrap

theorem silent_new (c : Compilation) {n : Node} (hn : n.isDeclared = true) (scope : Scope) :
    ((c.withNode n).declareHere scope (.node c.graph.size)).graph.Silent (.node c.graph.size) := by
  have hgrows : (c.withNode n).Grows scope
      ((c.withNode n).declareHere scope (.node c.graph.size)) :=
    .declareHere (List.Subset.refl _) _
  exact .declared (hgrows.nodes.isDeclared (Graph.isDeclared_iff.2 ⟨n, Graph.node?_add_self n, hn⟩))

theorem refListWrapper_silent {ref : Value} (hc : c.Ready scope)
    (h : refListWrapper env scope ref c = .ok (t, c')) : c'.graph.Silent t := by
  have hready := (refListWrapper_runs h).ready hc
  obtain ⟨text, -, ⟨wrapper, hwrapper, rfl, rfl⟩ | ⟨-, d, c₁, -, rfl, rfl⟩⟩ := refListWrapper_ok h
  · obtain ⟨before, after, heq, -⟩ := List.lookup_eq_some_iff.1 hwrapper
    exact .declared (hc.wrappers (refBase text, wrapper) (by simp [heq]))
  · exact .declared (hready.wrappers (refBase text, c₁.graph.size)
      (List.mem_append_right _ (List.mem_singleton.2 rfl)))

theorem objectListWrapper_silent {name rawField : String} {comment itemComment : Value}
    {items : Action}
    (h : objectListWrapper scope name rawField comment items itemComment c = .ok (t, c')) :
    c'.graph.Silent t := by
  obtain ⟨d, c₁, c₂, -, rfl, rfl, rfl⟩ := objectListWrapper_ok h
  exact silent_new _ rfl scope

theorem compileMapValue_silent {name rawField : String} {p : Schema}
    (hp : ActionSilent p (compileSchema env p))
    (hspells : (p.ref.isEmpty = true → p.firstType ≠ "array") → p.spells = false)
    (hc : c.Ready scope)
    (h : MapValue env scope name rawField (part env p) c t c') : c'.graph.Silent t := by
  cases h with
  | reference href hd =>
    have href : p.ref.isEmpty = false := href
    have hsilent := hspells fun hempty => by simp [href] at hempty
    exact compileReferenceValue_silent (Schema.isWellKnown_of_silent hsilent href) hd
  | listOfReference _ _ _ _ _ hlist => exact refListWrapper_silent hc hlist
  | listOfObjects _ _ _ _ _ _ hlist => exact objectListWrapper_silent hlist
  | list => exact .builtin _
  | nested => exact .builtin _
  | value _ harray hd => exact hp (hspells fun _ => harray) _ _ _ _ _ _ hc hd

theorem compileNew_silent {s : Schema} {rawName name : String} {comment : Value}
    (hitems : ∀ i, s.items = some i → i.spells = false ∧ ActionSilent i (compileSchema env i))
    (hadditional : ∀ p, s.additional = some p →
      ((p.ref.isEmpty = true → p.firstType ≠ "array") → p.spells = false) ∧
        ActionSilent p (compileSchema env p))
    (hc : c.Ready scope)
    (h : compileNew env s scope rawName name comment (s.items.map (compileSchema env))
      (s.additional.map (part env)) (partList env s.properties) c = .ok (d, c')) :
    c'.graph.Silent d.unwrap := by
  cases compileNew_cases h with
  | several _ ht =>
    obtain ⟨-, b, rfl⟩ := compileMultiType_ok ht
    exact .builtin b
  | message _ _ hmessage => exact compileMessage_silent (partList_runs env _) hc hmessage
  | struct => exact .builtin _
  | map _ hadd _ ht =>
    obtain ⟨p, hsome, rfl⟩ := Option.map_eq_some_iff.1 hadd
    obtain ⟨value, c₂, hv, rfl, rfl⟩ := compileMap_ok ht
    obtain ⟨hspells, hp⟩ := hadditional p hsome
    have hvalue := (compileMapValue_silent hp hspells hc hv).of_grows
      (Graph.Grows.add c₂.graph (.map (.builtin .string) value))
    exact .map (Graph.node?_add_self _) (.builtin _) hvalue
  | parameters _ hi hd =>
    obtain ⟨i, hsome, rfl⟩ := Option.map_eq_some_iff.1 hi
    obtain ⟨hspells, hsilent⟩ := hitems i hsome
    exact hsilent hspells _ _ _ _ _ _ hc hd
  | list _ hi hd =>
    obtain ⟨i, hsome, rfl⟩ := Option.map_eq_some_iff.1 hi
    obtain ⟨hspells, hitem⟩ := hitems i hsome
    have hsilent := hitem hspells _ _ _ _ _ _ hc hd
    exact hsilent.of_grows (Compilation.Grows.declareHere (List.Subset.refl _) _).nodes
  | scalar _ _ _ hfound => exact silent_withFormat _ (hc.silent_lookup hfound)
  | enumeration _ _ _ ht =>
    obtain ⟨rfl, rfl⟩ := compileEnum_ok ht
    exact silent_new c rfl scope
  | null => exact .builtin _

theorem compileSchema_silent_of_parts {s : Schema}
    (hitems : ∀ i, s.items = some i → ActionSilent i (compileSchema env i))
    (hadditional : ∀ p, s.additional = some p → ActionSilent p (compileSchema env p)) :
    ActionSilent s (compileSchema env s) := by
  intro hspells scope rawName comment c d c' hc h
  rcases Bool.eq_false_or_eq_true s.ref.isEmpty with href | href
  · rcases compileSchema_cases h with hnot | ⟨-, ⟨_, t, -, hfound, rfl, rfl⟩ | ⟨-, -, hnew⟩⟩
    · simp [href] at hnot
    · exact silent_withFormat _ (hc.silent_lookup hfound)
    · refine compileNew_silent (fun i hi => ?_) (fun p hp => ?_) hc hnew
      · rw [s.denull_items] at hi
        exact ⟨Schema.items_silent hspells href hi, hitems i hi⟩
      · rw [s.denull_additional] at hp
        exact ⟨Schema.values_silent hspells href hp, hadditional p hp⟩
  · exact compileReferenceValue_silent (Schema.isWellKnown_of_silent hspells href)
      (compileSchema_reference href h)

mutual

/-- The name of the type of a schema spells out no reference, unless the schema does. -/
theorem compileSchema_silent (env : Environment) : ∀ s : Schema,
    ActionSilent s (compileSchema env s)
  | ⟨_, _, _, _, _, _, items, additional, _, _⟩ => by
    have hitems := compileOption_silent env items
    have hadditional := compileOption_silent env additional
    exact compileSchema_silent_of_parts hitems hadditional
termination_by structural s => s

theorem compileOption_silent (env : Environment) : ∀ (o : Option Schema) (s : Schema),
    o = some s → ActionSilent s (compileSchema env s)
  | some s, s', h => by
    have hs := compileSchema_silent env s
    rwa [← Option.some.inj h]
termination_by structural o => o

end

end ApiProto.Compile
