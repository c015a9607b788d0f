import ApiProto.Proofs.InnerSchemas
import ApiProto.Proofs.Reordering
import ApiProto.Proofs.SharedParameters

/-!
# What references resolve to

Resolving puts the type at the end of its chain in the place of each reference, in the graph and in
the definitions. While definitions are resolved one after the other the table of definitions
changes, but no chain comes to another end.

* `Graph.Shortens` — a table in which chains may have become shorter, and `Shortens.leadsTo_iff`,
  they come to the same ends.
* `resolveAll_yields` — what resolving all puts into the graph and into the definitions.
* `RefersTo`, `StandsFor` — the type that a reference refers to in the package that results, and the
  one that stands there for a type.
* `CompilesWithin.knows` — what is defined where a schema is compiled: some of what will be resolved,
  or all of it, resolved.
* `CompilesWithin.refersTo_iff` — what stands in the end for a schema that is a reference is what
  the reference refers to, whenever it has been compiled.
-/

namespace ApiProto

/-! ## Tables with related values -/

namespace Entrywise

variable {α β : Type} {R : α → α → Prop} {S : β → β → Prop} {l l' k k' : List (String × α)}

theorem append (h : Entrywise R l l') (hk : Entrywise R k k') : Entrywise R (l ++ k) (l' ++ k') := by
  induction h with
  | nil => exact hk
  | cons key hab _ ih => exact .cons key hab ih

theorem mapValues {f : α → β} (h : Entrywise R l l') (hS : ∀ a b, R a b → S (f a) (f b)) :
    Entrywise S (l.map fun (key, a) => (key, f a)) (l'.map fun (key, a) => (key, f a)) := by
  induction h with
  | nil => exact .nil
  | cons key hab _ ih => exact .cons key (hS _ _ hab) ih

theorem lookup_cases (h : Entrywise R l l') (key : String) :
    (l.lookup key = none ∧ l'.lookup key = none) ∨
      ∃ a b, l.lookup key = some a ∧ l'.lookup key = some b ∧ R a b := by
  have hrel := h.lookup key
  generalize l.lookup key = found at hrel
  generalize l'.lookup key = found' at hrel
  cases hrel with
  | none => exact .inl ⟨rfl, rfl⟩
  | some hab => exact .inr ⟨_, _, rfl, rfl, hab⟩

end Entrywise

end ApiProto

namespace ApiProto.Proto

open Relation

variable {g g' : Graph} {targets : Targets} {table table' : Definitions} {ref : String}
  {t t' : TypeRef}

/-! ## Shorter chains -/

/-- A table in which types may have been replaced by what they yield. -/
def Graph.Shortens (g : Graph) (table table' : Definitions) : Prop :=
  Entrywise (g.MayYield table) table table'

theorem Graph.Shortens.resolve_cases (h : g.Shortens table table') (ref : String) :
    (∃ e, (Targets.ofTable table).resolve ref = .error e ∧
      (Targets.ofTable table').resolve ref = .error e) ∨
    ∃ t t', (Targets.ofTable table).resolve ref = .ok t ∧
      (Targets.ofTable table').resolve ref = .ok t' ∧ g.MayYield table t t' := by
  rcases h.lookup_cases ref with ⟨hnone, hnone'⟩ | ⟨t, t', ht, ht', hyield⟩
  · exact .inl ⟨_, Targets.resolve_ofTable_eq_error.2 ⟨hnone, rfl⟩,
      Targets.resolve_ofTable_eq_error.2 ⟨hnone', rfl⟩⟩
  · exact .inr ⟨t, t', Targets.resolve_ofTable_eq_ok.2 ht, Targets.resolve_ofTable_eq_ok.2 ht',
      hyield⟩

/-- A shorter chain comes to the same end. -/
theorem Graph.Shortens.leadsTo_iff (h : g.Shortens table table') :
    g.LeadsTo table' ref t ↔ g.LeadsTo table ref t := by
  constructor
  · rintro ⟨last, hchain, hlast, href⟩
    induction hchain using ReflTransGen.head_induction_on with
    | refl =>
      rcases h.resolve_cases last with ⟨e, -, he⟩ | ⟨a, b, ha, hb, hab⟩
      · exact nomatch hlast.symm.trans he
      · obtain rfl := Except.ok.inj (hlast.symm.trans hb)
        rcases hab.yields href with ⟨ha', rfl⟩ | ⟨id, next, rfl, hn, hfollow⟩
        · exact ⟨last, .refl, ha, href⟩
        · obtain ⟨last', hchain', hend⟩ := follow_ok_iff.1 hfollow
          exact ⟨last', .head ⟨id, ha, hn⟩ hchain', hend⟩
    | @head ref next hnext _ ih =>
      obtain ⟨id, hid, hn⟩ := hnext
      rcases h.resolve_cases ref with ⟨e, -, he⟩ | ⟨a, b, ha, hb, hab⟩
      · exact nomatch hid.symm.trans he
      · obtain rfl := Except.ok.inj (hid.symm.trans hb)
        rcases hab with heq | hyields
        · obtain ⟨last', hchain', hend⟩ := ih
          exact ⟨last', .head ⟨id, heq ▸ ha, hn⟩ hchain', hend⟩
        · exact absurd ⟨id, next, rfl, hn⟩ hyields.not_isReference
  · rintro ⟨last, hchain, hlast, href⟩
    induction hchain using ReflTransGen.head_induction_on with
    | refl =>
      rcases h.resolve_cases last with ⟨e, he, -⟩ | ⟨a, b, ha, hb, hab⟩
      · exact nomatch hlast.symm.trans he
      · obtain rfl := Except.ok.inj (hlast.symm.trans ha)
        exact ⟨last, .refl, hab.eq href ▸ hb, href⟩
    | @head ref next hnext hrest ih =>
      obtain ⟨id, hid, hn⟩ := hnext
      rcases h.resolve_cases ref with ⟨e, he, -⟩ | ⟨a, b, ha, hb, hab⟩
      · exact nomatch hid.symm.trans he
      · obtain rfl := Except.ok.inj (hid.symm.trans ha)
        rcases hab with rfl | hyields
        · obtain ⟨last', hchain', hend⟩ := ih
          exact ⟨last', .head ⟨id, hb, hn⟩ hchain', hend⟩
        · -- The chain has been cut short at its end.
          have hsame : g.Yields table (.node id) t :=
            .inr ⟨id, next, rfl, hn, follow_ok_iff.2 ⟨last, hrest, hlast, href⟩⟩
          exact ⟨ref, .refl, hyields.unique hsame ▸ hb, href⟩

theorem Graph.Shortens.yields_iff (h : g.Shortens table table') :
    g.Yields table' t t' ↔ g.Yields table t t' := by
  simp only [Graph.Yields, follow_ok_iff, h.leadsTo_iff]

/-- What has been spliced in does not tell a table from one with shorter chains. -/
theorem Graph.Spliced.of_shortens (h : g.Shortens table table') :
    g.Spliced table' g' ↔ g.Spliced table g' := by
  have hsame : g.MayYield table' = g.MayYield table :=
    funext fun _ => funext fun _ => propext (or_congr_right h.yields_iff)
  exact ⟨fun hs => ⟨hs.size, hsame ▸ hs.nodes⟩, fun hs => ⟨hs.size, hsame.symm ▸ hs.nodes⟩⟩

/-! ## Chains in a graph that goes on -/

/-- A reference refers to what stands for its definition. -/
theorem Graph.leadsTo_iff_yields {t₀ : TypeRef} (h : targets.resolve ref = .ok t₀) :
    g.LeadsTo targets ref t ↔ g.Yields targets t₀ t := by
  constructor
  · rintro ⟨last, hchain, hlast, href⟩
    rcases ReflTransGen.cases_head hchain with rfl | ⟨next, ⟨id, hid, hn⟩, hrest⟩
    · obtain rfl := Except.ok.inj (h.symm.trans hlast)
      exact .inl ⟨href, rfl⟩
    · obtain rfl := Except.ok.inj (h.symm.trans hid)
      exact .inr ⟨id, next, rfl, hn, follow_ok_iff.2 ⟨last, hrest, hlast, href⟩⟩
  · rintro (⟨href, rfl⟩ | ⟨id, next, rfl, hn, hfollow⟩)
    · exact ⟨ref, .refl, h, href⟩
    · obtain ⟨last, hchain, hend⟩ := follow_ok_iff.1 hfollow
      exact ⟨last, .head ⟨id, h, hn⟩ hchain, hend⟩

/-- A graph in which the nodes of another one are references if they were. -/
def Graph.KeepsReferences (g g' : Graph) : Prop :=
  ∀ id < g.size, ∀ ref, g'.node? id = some (.reference ref) ↔ g.node? id = some (.reference ref)

theorem Graph.KeepsReferences.isReference_iff (h : g.KeepsReferences g') (ht : g.Has t) :
    g'.IsReference t ↔ g.IsReference t := by
  constructor
  · rintro ⟨id, ref, rfl, hn⟩
    exact ⟨id, ref, rfl, (h id ht ref).1 hn⟩
  · rintro ⟨id, ref, rfl, hn⟩
    exact ⟨id, ref, rfl, (h id ht ref).2 hn⟩

/-- Chains through the nodes of a graph are the same in a graph that keeps its references. -/
theorem Graph.KeepsReferences.leadsTo_iff (h : g.KeepsReferences g')
    (htargets : ∀ ref t, targets.resolve ref = .ok t → g.Has t) :
    g'.LeadsTo targets ref t ↔ g.LeadsTo targets ref t := by
  have hnext : g'.Next targets = g.Next targets := by
    funext ref next
    refine propext ⟨fun ⟨id, hid, hn⟩ => ?_, fun ⟨id, hid, hn⟩ => ?_⟩
    · exact ⟨id, hid, (h id (htargets _ _ hid) next).1 hn⟩
    · exact ⟨id, hid, (h id (htargets _ _ hid) next).2 hn⟩
  unfold Graph.LeadsTo
  rw [hnext]
  refine exists_congr fun last => and_congr_right fun _ => and_congr_right fun hlast => ?_
  rw [h.isReference_iff (htargets _ _ hlast)]

theorem Graph.Grows.keepsReferences (h : g.Grows g') : g.KeepsReferences g' := by
  intro id hid ref
  obtain ⟨n, hn⟩ := Graph.node?_isSome hid
  obtain ⟨n', hn', hgrow⟩ := h id n hn
  rw [hn, hn']
  cases hgrow <;> simp

theorem Graph.Spliced.keepsReferences (h : g.Spliced targets g') : g.KeepsReferences g' :=
  fun _ _ _ => h.reference_iff

theorem Graph.KeepsReferences.trans {g'' : Graph} (h : g.KeepsReferences g')
    (h' : g'.KeepsReferences g'') (hsize : g.size ≤ g'.size) : g.KeepsReferences g'' :=
  fun id hid ref => (h' id (Nat.lt_of_lt_of_le hid hsize) ref).trans (h id hid ref)

end ApiProto.Proto

namespace ApiProto.Compile

open Proto Document CompileM

variable {env : Environment} {g : Graph} {scope : Scope} {c c₀ c₁ c₂ c' : Compilation}
  {name ref : String} {comment : Value} {s : Schema} {d : Definition} {t t' : TypeRef}

/-! ## Resolving definitions -/

@[simp] theorem Definition.unwrap_withType (d : Definition) (t : TypeRef) :
    (d.withType t).unwrap = t := by
  cases d <;> rfl

/-- What resolving makes of a definition: it takes the type that its own type yields. -/
def Definition.Yields (g : Graph) (table : Definitions) (d d' : Definition) : Prop :=
  ∃ t, g.Yields table d.unwrap t ∧ d' = d.withType t

/-- Definitions that have been resolved. -/
def Compilation.Resolves (c : Compilation) (l l' : List (String × Definition)) : Prop :=
  Entrywise (Definition.Yields c.graph c.table) l l'

/-- When some definitions have been resolved, chains may have become shorter. -/
theorem Compilation.Resolves.shortens {before before' after : List (String × Definition)}
    (h : c₀.Resolves before before') (hstart : c₀.definitions = before ++ after)
    (hc : c.definitions = before' ++ after) : c₀.graph.Shortens c₀.table c.table := by
  have hsame : ∀ l : Definitions, Entrywise (c₀.graph.MayYield c₀.table) l l :=
    Entrywise.refl fun _ => .inl rfl
  have hbefore := h.mapValues (S := c₀.graph.MayYield c₀.table) (f := Definition.unwrap)
    fun d d' ⟨t, ht, heq⟩ => .inr (by rwa [heq, Definition.unwrap_withType])
  have hall := hbefore.append (hsame (after.map fun entry => (entry.1, entry.2.unwrap)))
  rw [← List.map_append, ← List.map_append, ← hstart, ← hc] at hall
  exact (hsame _).append hall

/-- Only the definition of a reference changes when it gets another one. -/
theorem redefining_definitions {before after : List (String × Definition)} {d d' : Definition}
    (hc : c.definitions = before ++ (ref, d) :: after)
    (hnodup : (c.definitions.map Prod.fst).Nodup) :
    (c.redefining ref d').definitions = (before ++ [(ref, d')]) ++ after := by
  rw [hc, List.map_append, List.map_cons, List.nodup_append, List.nodup_cons] at hnodup
  obtain ⟨-, ⟨hafter, -⟩, hbefore⟩ := hnodup
  have hkeep : ∀ l : List (String × Definition), ref ∉ l.map Prod.fst →
      (l.map fun entry => (entry.1, if entry.1 = ref then d' else entry.2)) = l := fun l hl => by
    refine (List.map_congr_left fun entry hentry => ?_).trans (List.map_id l)
    have hne : entry.1 ≠ ref := fun heq => hl (heq ▸ List.mem_map_of_mem hentry)
    simp [hne]
  show (c.definitions.map fun entry => (entry.1, if entry.1 = ref then d' else entry.2)) = _
  rw [hc, List.map_append, List.map_cons, hkeep after hafter,
    hkeep before fun hmem => hbefore ref hmem ref (List.mem_cons_self ..) rfl]
  simp

/-- Definitions are resolved one after the other, each to what it yields at the start. -/
theorem resolveDefinitions_yields {before before' l : List (String × Definition)}
    {visited : List Nat} (hstart : c₀.definitions = before ++ l)
    (hnodup : (c₀.definitions.map Prod.fst).Nodup) (hc : c.definitions = before' ++ l)
    (hbefore : c₀.Resolves before before') (hs : c₀.graph.Spliced c₀.table c.graph)
    (h : resolveDefinitions l visited c = .ok ((), c')) :
    c₀.graph.Spliced c₀.table c'.graph ∧ c₀.Resolves c₀.definitions c'.definitions := by
  induction l generalizing before before' c visited with
  | nil =>
    obtain rfl := (Prod.mk.inj (Except.ok.inj h)).2
    rw [hstart, hc, List.append_nil, List.append_nil]
    exact ⟨hs, hbefore⟩
  | cons entry rest ih =>
    obtain ⟨ref, d⟩ := entry
    obtain ⟨⟨t, visited'⟩, c₁, hfirst, h⟩ := bind_ok_iff.1 h
    obtain ⟨houtcome, hc₁⟩ := resolving_ok (within_ok_iff.1 hfirst)
    have hwalk := walks_of_resolveAt houtcome
    have hshort := hbefore.shortens hstart hc
    have hs' := (Graph.Spliced.of_shortens hshort).2 hs
    have hyields : c₀.graph.Yields c₀.table d.unwrap t :=
      hshort.yields_iff.1 (hs'.yields_iff.1 hwalk.yields)
    have hdefinitions : c₁.definitions = before' ++ (ref, d) :: rest := by rw [hc₁, hc]
    have hkeys : (c₁.definitions.map Prod.fst).Nodup := by
      rw [hdefinitions, List.map_append, ← hbefore.keys_eq, ← List.map_append, ← hstart]
      exact hnodup
    have hstart' : c₀.definitions = (before ++ [(ref, d)]) ++ rest := by
      rw [hstart, List.append_assoc, List.singleton_append]
    refine ih (c := c₁.redefining ref (d.withType t)) hstart'
      (redefining_definitions hdefinitions hkeys) ?_ ?_ h
    · exact hbefore.append (.cons ref ⟨t, hyields, rfl⟩ .nil)
    · exact (Graph.Spliced.of_shortens hshort).1 (hs'.trans (hwalk.spliced trivial))

/-- Resolving all puts into the graph, and into the definitions, the types at the ends of chains. -/
theorem resolveAll_yields (h : resolveAll c = .ok ((), c'))
    (hnodup : (c.definitions.map Prod.fst).Nodup) :
    c.graph.Spliced c.table c'.graph ∧ c.Resolves c.definitions c'.definitions := by
  unfold resolveAll at h
  rw [get_bind] at h
  obtain ⟨⟨⟨⟩, visited⟩, c₁, hpackage, h⟩ := bind_ok_iff.1 h
  obtain ⟨houtcome, hc₁⟩ := resolving_ok hpackage
  have hstart : c.definitions = [] ++ c.definitions := rfl
  exact resolveDefinitions_yields hstart hnodup (by rw [hc₁]; rfl) .nil
    ((walks_of_resolvePackage houtcome).spliced trivial) h

/-! ## What is defined where schemas are compiled -/

/-- The type that a reference refers to when all is resolved. -/
def RefersTo (env : Environment) (g : Graph) (ref : String) (t : TypeRef) : Prop :=
  ∃ c, compileNamed env (startOf env) = .ok ((), c) ∧ g.LeadsTo c.table ref t

theorem RefersTo.unique {ref : String} {t t' : TypeRef} (h : RefersTo env g ref t)
    (h' : RefersTo env g ref t') : t = t' := by
  obtain ⟨c, hnamed, ht⟩ := h
  obtain ⟨c', hnamed', ht'⟩ := h'
  obtain ⟨-, rfl⟩ := Prod.mk.inj (Except.ok.inj (hnamed.symm.trans hnamed'))
  exact ht.unique ht'

/-- The type that stands for a type when all is resolved. -/
def StandsFor (env : Environment) (g : Graph) (t t' : TypeRef) : Prop :=
  ∃ c, compileNamed env (startOf env) = .ok ((), c) ∧ g.Yields c.table t t'

/-- What references stand for in a state, beside the state in which they are resolved: some of what
they stand for there, or what that has been resolved to. -/
inductive Compilation.Knows (c₀ c : Compilation) : Prop
  | awaiting : c.deferring = true → c.definitions <+: c₀.definitions → Compilation.Knows c₀ c
  | resolved : c.deferring = false → c₀.Resolves c₀.definitions c.definitions →
      Compilation.Knows c₀ c

theorem lookup_table (c : Compilation) (ref : String) :
    c.table.lookup ref = (c.definition? ref).map Definition.unwrap := by
  have hknown := lookup_mapValues knownDefinitions TypeRef.builtin ref
  have hdefined := lookup_mapValues c.definitions Definition.unwrap ref
  unfold Compilation.table Compilation.definition? knownDefinition?
  rw [List.lookup_append, hknown, hdefined]
  cases knownDefinitions.lookup ref <;> rfl

theorem resolve_table (hd : c.definition? ref = some d) :
    (Targets.ofTable c.table).resolve ref = .ok d.unwrap := by
  rw [Targets.resolve_ofTable_eq_ok, lookup_table, hd, Option.map_some]

/-- What a reference stands for stays when more is defined. -/
theorem definition?_of_prefix (h : c.definitions <+: c'.definitions)
    (hd : c.definition? ref = some d) : c'.definition? ref = some d := by
  obtain ⟨added, hadded⟩ := h
  unfold Compilation.definition? at hd ⊢
  cases hknown : knownDefinition? ref with
  | some b => rwa [hknown] at hd
  | none =>
    rw [hknown] at hd
    simp only at hd ⊢
    rw [← hadded, List.lookup_append, hd, Option.some_or]

theorem Compilation.Knows.of_same (h : Compilation.Knows c₀ c)
    (hdeferring : c'.deferring = c.deferring) (hsame : c'.definitions = c.definitions) :
    Compilation.Knows c₀ c' := by
  cases h with
  | awaiting hdefer hprefix => exact .awaiting (hdeferring.trans hdefer) (hsame ▸ hprefix)
  | resolved hdefer hresolves => exact .resolved (hdeferring.trans hdefer) (hsame ▸ hresolves)

theorem Compilation.Knows.withNode (h : Compilation.Knows c₀ c) (n : Node) :
    Compilation.Knows c₀ (c.withNode n) := h.of_same rfl rfl

theorem Compilation.Knows.of_runs {ts : List TypeRef} (h : Compilation.Knows c₀ c)
    (hruns : Runs env scope c ts c') (hpackage : c.package ∈ scope) : Compilation.Knows c₀ c' :=
  h.of_same (hruns.grows hpackage).deferring hruns.definitions_eq

theorem Compilation.Closed.has_resolve (h : c.Closed)
    (ht : (Targets.ofTable c.table).resolve ref = .ok t) : c.graph.Has t := by
  rw [Targets.resolve_ofTable_eq_ok, lookup_table] at ht
  obtain ⟨d, hd, rfl⟩ := Option.map_eq_some_iff.1 ht
  exact h.has_definition hd

/-- What stands in the end for a definition that has been resolved. -/
theorem leadsTo_iff_of_resolved {d₀ : Definition} (hclosed : c₀.Closed)
    (hkeeps : c₀.graph.KeepsReferences g) (hd₀ : c₀.definition? ref = some d₀)
    (hd : d₀.Yields c₀.graph c₀.table d) :
    g.LeadsTo c₀.table ref t ↔ g.Yields c₀.table d.unwrap t := by
  obtain ⟨t₀, ht₀, rfl⟩ := hd
  have hstart : c₀.graph.LeadsTo c₀.table ref t₀ :=
    (Graph.leadsTo_iff_yields (resolve_table hd₀)).2 ht₀
  have hend := (hkeeps.leadsTo_iff fun _ _ => hclosed.has_resolve).2 hstart
  obtain ⟨-, -, -, href⟩ := id hend
  rw [Definition.unwrap_withType]
  constructor
  · exact fun h => .inl ⟨href, h.unique hend⟩
  · rintro (⟨-, rfl⟩ | ⟨id, next, rfl, hn, -⟩)
    · exact hend
    · exact absurd ⟨id, next, rfl, hn⟩ href

/-- What stands in the end for what a reference is compiled to is what the reference refers to. A
node that is made for it must still be there. -/
theorem Compilation.Knows.leadsTo_iff (hc : Compilation.Knows c₀ c) (hclosed : c₀.Closed)
    (hkeeps : c₀.graph.KeepsReferences g) (h : compileReference ref c = .ok (d, c'))
    (hnew : ∀ next, c'.graph.node? c.graph.size = some (.reference next) →
      g.node? c.graph.size = some (.reference next)) :
    g.LeadsTo c₀.table ref t ↔ g.Yields c₀.table d.unwrap t := by
  rcases compileReference_ok h with ⟨hd, rfl⟩ | ⟨-, -, rfl, rfl⟩
  · cases hc with
    | awaiting _ hprefix =>
      have hmore := definition?_of_prefix hprefix hd
      exact Graph.leadsTo_iff_yields (resolve_table hmore)
    | resolved _ hresolves =>
      unfold Compilation.definition? at hd
      rcases hknown : knownDefinition? ref with _ | b <;> rw [hknown] at hd
      · obtain ⟨-, hnone⟩ | ⟨d₀, d', hd₀, hd', hyields⟩ := hresolves.lookup_cases ref
        · exact nomatch hnone.symm.trans hd
        · obtain rfl := Option.some.inj (hd.symm.trans hd')
          refine leadsTo_iff_of_resolved hclosed hkeeps ?_ hyields
          rw [Compilation.definition?, hknown]
          exact hd₀
      · obtain rfl := Option.some.inj hd
        refine Graph.leadsTo_iff_yields (resolve_table (d := .type (.builtin b)) ?_)
        rw [Compilation.definition?, hknown]
  · have hn := hnew ref (Graph.node?_add_self _)
    constructor
    · exact fun hend => .inr ⟨_, ref, rfl, hn, follow_ok_iff.2 hend⟩
    · rintro (⟨href, -⟩ | ⟨_, next, heq, hn', hfollow⟩)
      · exact absurd ⟨_, ref, rfl, hn⟩ href
      · obtain rfl := TypeRef.node.inj heq
        obtain rfl := Node.reference.inj (Option.some.inj (hn.symm.trans hn'))
        exact follow_ok_iff.1 hfollow

/-! ## States of a compilation -/

theorem compileNamed_nodup (h : compileNamed env (startOf env) = .ok ((), c)) :
    (c.definitions.map Prod.fst).Nodup := by
  refine compileNamed_induct (P := fun c => (c.definitions.map Prod.fst).Nodup)
    (fun _ hc => hc) (fun ref d hc hruns => ?_) h rfl ?_
  · exact nodup_defining (hruns.definitions_eq ▸ hc)
  · obtain ⟨packageName, serviceName, options, heq⟩ := startOf_is_start env
    rw [heq]
    exact List.nodup_nil

/-- The state in which references are resolved. -/
theorem ReachesPaths.knows (h : ReachesPaths env c)
    (hnamed : compileNamed env (startOf env) = .ok ((), c₀)) : Compilation.Knows c₀ c := by
  obtain ⟨c₀', c₁, hnamed', hresolve, hextensions⟩ := h
  obtain ⟨-, rfl⟩ := Prod.mk.inj (Except.ok.inj (hnamed.symm.trans hnamed'))
  have hunderway := ((Underway.start env).builds (compileNamed_builds hnamed)).resolved
    (resolveAll_ok hresolve)
  have hbuilds : Builds env env.package { c₁ with deferring := false } c :=
    Builds.of_forM (fun _ _ _ => compileExtension_builds) hextensions
  refine .resolved (hunderway.builds_grows hbuilds).deferring ?_
  rw [forM_definitions (fun _ _ _ => compileExtension_definitions) hextensions]
  exact (resolveAll_yields hresolve (compileNamed_nodup hnamed)).2

theorem ReachesOperation.knows {path : String} {item : PathItem} {e : Endpoint}
    (h : ReachesOperation env path item e c)
    (hnamed : compileNamed env (startOf env) = .ok ((), c₀)) : Compilation.Knows c₀ c := by
  obtain ⟨c₁, hpaths, hbuilds, hsame⟩ := h.definitions_eq
  have hdeferring := ((ReachesPaths.serves hpaths).1.builds_grows hbuilds).deferring
  exact (hpaths.knows hnamed).of_same hdeferring hsame

/-- Before references are resolved, less is defined than when they are. -/
theorem Compilation.Knows.of_builds (hbefore : Builds env env.package (startOf env) c)
    (hrest : Builds env env.package c c₀) : Compilation.Knows c₀ c := by
  have hstart := Underway.start env
  have hdeferring : (startOf env).deferring = true := by
    obtain ⟨packageName, serviceName, options, heq⟩ := startOf_is_start env
    rw [heq]
    rfl
  exact .awaiting ((hstart.builds_grows hbefore).deferring.trans hdeferring)
    ((hstart.builds hbefore).builds_grows hrest).definitions

theorem Compiles.knows {place : Place} (h : Compiles env place name s c d c')
    (hnamed : compileNamed env (startOf env) = .ok ((), c₀)) : Compilation.Knows c₀ c := by
  obtain ⟨c₃, hdefinitions, hparameters⟩ := compileNamed_states hnamed
  cases h with
  | definition hcomes hd =>
    obtain ⟨c₄, hstep, hrest⟩ := hcomes.rest_builds (fun _ _ _ => compileDefinition_builds)
      (compileDefinitions_eq env _ ▸ hdefinitions)
    refine .of_builds ((announced_builds env).trans
      (hcomes.builds fun _ _ _ => compileDefinition_builds)) ?_
    exact ((compileDefinition_builds hstep).trans hrest).trans (compileParameters_builds hparameters)
  | parameter hdefinitions' hcomes hs hd =>
    obtain ⟨-, rfl⟩ := Prod.mk.inj (Except.ok.inj (hdefinitions.symm.trans hdefinitions'))
    obtain ⟨c₄, hstep, hrest⟩ := hcomes.rest_builds (fun _ _ _ => compileParameter_builds)
      (compileParameters_eq env _ ▸ hparameters)
    refine .of_builds (((announced_builds env).trans (compileDefinitions_builds hdefinitions)).trans
      (hcomes.builds fun _ _ _ => compileParameter_builds)) ?_
    exact (compileParameter_builds hstep).trans hrest
  | request hreaches => exact hreaches.knows hnamed
  | response hreaches _ hrequest | responseItems hreaches _ hrequest =>
    refine (hreaches.knows hnamed).of_runs (compileRequest_runs hrequest) ?_
    simp [hreaches.underway.package]

/-- Wherever a schema is compiled, references stand for some of what they will stand for when they
are resolved, or for what that has been resolved to. -/
theorem CompilesWithin.knows (h : CompilesWithin env scope name comment s c d c')
    (hrun : compilePhases env (startOf env) = .ok ((), c₂))
    (hnamed : compileNamed env (startOf env) = .ok ((), c₀)) : Compilation.Knows c₀ c := by
  induction h with
  | place hplace _ => exact hplace.knows hnamed
  | items _ _ _ _ _ ih | value _ _ _ _ _ _ _ _ ih | listed _ _ _ _ _ _ _ _ _ _ _ ih => exact ih
  | property hs hanew hobject hadditional hp hq hd ih =>
    obtain ⟨opened, hstands⟩ := hs.stands hrun
    obtain ⟨-, compiled, c₁, numbers, m, hcompiled, hinside, -⟩ :=
      hstands.message hs.run hanew hobject hadditional
    obtain ⟨⟨ts, hbefore⟩, -⟩ := hp.rest hcompiled
    exact (ih.withNode _).of_runs hbefore hinside.opening.package

/-! ## References -/

/-- The references in the state in which they are resolved are references in the end. -/
theorem keepsReferences_of_compilePhases (hrun : compilePhases env (startOf env) = .ok ((), c₂))
    (hnamed : compileNamed env (startOf env) = .ok ((), c₀)) :
    c₀.graph.KeepsReferences c₂.graph := by
  obtain ⟨c₀', c₁, hnamed', hresolve, hrest⟩ := compilePhases_ok hrun
  obtain ⟨-, rfl⟩ := Prod.mk.inj (Except.ok.inj (hnamed.symm.trans hnamed'))
  have hresolved := resolveAll_ok hresolve
  have hspliced := (resolveAll_yields hresolve (compileNamed_nodup hnamed)).1
  have hgrows := (((Underway.start env).builds (compileNamed_builds hnamed)).resolved
    hresolved).builds_grows hrest
  exact hspliced.keepsReferences.trans hgrows.nodes.keepsReferences (Nat.le_of_eq hspliced.size.symm)

/-- What stands in the end for what a reference is compiled to, when a schema is compiled, is what
the reference refers to. -/
theorem CompilesWithin.refersTo_iff_of_compileReference
    (h : CompilesWithin env scope name comment s c d c')
    (hrun : compilePhases env (startOf env) = .ok ((), c₂)) {d₁ : Definition}
    (href : compileReference ref c = .ok (d₁, c₁))
    (hnew : ∀ next, c₁.graph.node? c.graph.size = some (.reference next) →
      c₂.graph.node? c.graph.size = some (.reference next)) :
    RefersTo env c₂.graph ref t ↔ StandsFor env c₂.graph d₁.unwrap t := by
  obtain ⟨c₀, _, hnamed, -⟩ := compilePhases_ok hrun
  have hclosed := ((Underway.start env).builds (compileNamed_builds hnamed)).closed
  refine exists_congr fun c₀' => and_congr_right fun hnamed' => ?_
  obtain ⟨-, rfl⟩ := Prod.mk.inj (Except.ok.inj (hnamed.symm.trans hnamed'))
  exact (h.knows hrun hnamed).leadsTo_iff hclosed (keepsReferences_of_compilePhases hrun hnamed) href
    hnew

/-- What stands in the end for a schema that is a reference is what the reference refers to. -/
theorem CompilesWithin.refersTo_iff (h : CompilesWithin env scope name comment s c d c')
    (hrun : compilePhases env (startOf env) = .ok ((), c₂)) (href : s.ref = .text ref)
    (hne : ref ≠ "") : RefersTo env c₂.graph ref t ↔ StandsFor env c₂.graph d.unwrap t := by
  obtain ⟨opened, hstands⟩ := h.stands hrun
  have hreference : compileReference ref c = .ok (d, c') := by
    have hvalue := compileSchema_reference (by simp [href, Value.isEmpty, hne]) h.run
    rw [href] at hvalue
    exact hvalue
  refine h.refersTo_iff_of_compileReference hrun hreference fun next hn => ?_
  obtain ⟨n', hn', hresolved⟩ := hstands.settles.complete _ _ hn hstands.opening.size_not_mem
  cases hresolved
  exact hn'

/-- After a successful compilation, what has been defined refers to a type. -/
theorem exists_refersTo (hrun : compilePhases env (startOf env) = .ok ((), c₂))
    (hnamed : compileNamed env (startOf env) = .ok ((), c₀)) (hd : c₀.definition? ref = some d) :
    ∃ t, RefersTo env c₂.graph ref t := by
  have hclosed := ((Underway.start env).builds (compileNamed_builds hnamed)).closed
  have hkeeps := keepsReferences_of_compilePhases hrun hnamed
  obtain ⟨c₀', c₁, hnamed', hresolve, -⟩ := compilePhases_ok hrun
  obtain ⟨-, rfl⟩ := Prod.mk.inj (Except.ok.inj (hnamed.symm.trans hnamed'))
  have hyields : ∃ t, c₀.graph.Yields c₀.table d.unwrap t := by
    unfold Compilation.definition? at hd
    rcases hknown : knownDefinition? ref with _ | b <;> rw [hknown] at hd
    · have hresolves := (resolveAll_yields hresolve (compileNamed_nodup hnamed)).2
      obtain ⟨hnone, -⟩ | ⟨d₀, d', hd₀, -, t, ht, -⟩ := hresolves.lookup_cases ref
      · exact nomatch hnone.symm.trans hd
      · obtain rfl := Option.some.inj (hd.symm.trans hd₀)
        exact ⟨t, ht⟩
    · obtain rfl := Option.some.inj hd
      exact ⟨.builtin b, .inl ⟨nofun, rfl⟩⟩
  obtain ⟨t, ht⟩ := hyields
  exact ⟨t, c₀, hnamed, (hkeeps.leadsTo_iff fun _ _ => hclosed.has_resolve).2
    ((Graph.leadsTo_iff_yields (resolve_table hd)).2 ht)⟩

end ApiProto.Compile
