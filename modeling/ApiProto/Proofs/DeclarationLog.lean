import ApiProto.Proofs.Ownership
import ApiProto.Proofs.Visibility
import Mathlib.Data.List.Induction

/-!
# The log of declarations

A registry decides on every type that is offered to it, one after the other. What it has declared is
a log of the offers that it accepted, and everything else can be read from that log: the children of
containers, and what names denote.

* `Offer`, `Declarations` — what a registry is given, and what it works on.
* `Declarations.outcome` — the ways in which an offer ends.
* `Logged`, `logged_offerAll` — what a step keeps, and so what all runs keep.
* `declarations_are_logged` — a registry is a scoped log of the offers that it accepted.
-/

namespace ApiProto.Proto

/-! ## Offers -/

/-- What `TypeRegistry.register` is given: a type that is offered for declaration in a container,
from inside a scope. -/
structure Offer where
  type : TypeRef
  parent : Nat
  scope : Scope
deriving DecidableEq, Inhabited, Repr

/-- A graph, and the registry of what is declared in it. -/
structure Declarations where
  graph : Graph
  registry : Registry
deriving Inhabited

/-- The types that a list of offers is about, as far as they are for one container. -/
def offeredTo (offers : List Offer) (container : Nat) : List TypeRef :=
  (offers.filter fun o => o.parent = container).map (·.type)

namespace Declarations

/-- A graph in which nothing has been declared by the registry. -/
def new (g : Graph) (package : Nat) : Declarations := ⟨g, .new package⟩

/-- Offers a type to the registry. -/
def offer (d : Declarations) (o : Offer) : Declarations :=
  let (_, g, r) := d.registry.register d.graph o.type o.parent o.scope
  ⟨g, r⟩

/-- Whether the type of an offer is declared. -/
def accepts (d : Declarations) (o : Offer) : Bool :=
  (d.registry.register d.graph o.type o.parent o.scope).1

/-- Offers types one after the other. -/
def offerAll (d : Declarations) (offers : List Offer) : Declarations := offers.foldl offer d

/-- The offers that are accepted, when types are offered one after the other. -/
def accepted (d : Declarations) : List Offer → List Offer
  | [] => []
  | o :: rest => if d.accepts o then o :: (d.offer o).accepted rest else (d.offer o).accepted rest

/-- What a name denotes in a scope. -/
def lookup (d : Declarations) (name : String) (scope : Scope) : Option TypeRef :=
  d.registry.lookup d.graph name scope

/-- Whether the registry has declared a type in a container. -/
def Holds (d : Declarations) (container : Nat) (t : TypeRef) : Prop :=
  ∃ id, t = .node id ∧ (container, id) ∈ d.registry.log

/-- The key of an offer. -/
def key (d : Declarations) (o : Offer) : String :=
  Registry.key d.graph o.scope (d.graph.typeName o.type)

/-- An offer that comes as far as its key: that of a message or an enum with an unqualified name,
which is not declared in the package. -/
structure Considers (d : Declarations) (o : Offer) : Prop where
  declarable : d.graph.isDeclared o.type = true
  unqualified : '.' ∉ (d.graph.typeName o.type).toList
  elsewhere : ¬ d.Holds d.registry.package o.type

/-- An offer that is refused because its key has been there before. -/
def RefusesAsRepeated (d : Declarations) (o : Offer) : Prop :=
  d.Considers o ∧ d.key o ∈ d.registry.keys

/-- The ways in which an offer ends: whether it is accepted, and what the registry has then. -/
inductive Outcome (d : Declarations) (o : Offer) : Bool → Declarations → Prop
  | unfit : ¬ d.Considers o → Outcome d o false d
  | repeated : d.RefusesAsRepeated o → Outcome d o false d
  /-- The type stands in the container already; only its new key is taken down. -/
  | held : d.Considers o → d.key o ∉ d.registry.keys → d.Holds o.parent o.type →
      Outcome d o false
        { d with registry := { d.registry with keys := d.registry.keys ++ [d.key o] } }
  | declared {id : Nat} : d.Considers o → d.key o ∉ d.registry.keys → ¬ d.Holds o.parent o.type →
      o.type = .node id →
      Outcome d o true ⟨d.graph.addChild o.parent o.type, {
        package := d.registry.package
        log := d.registry.log ++ [(o.parent, id)]
        keys := d.registry.keys ++ [d.key o] }⟩

theorem outcome (d : Declarations) (o : Offer) : Outcome d o (d.accepts o) (d.offer o) := by
  obtain ⟨g, r⟩ := d
  obtain ⟨t, parent, scope⟩ := o
  have hheld : ∀ {container id : Nat}, (r.declaredIn container).contains id = true ↔
      Holds ⟨g, r⟩ container (.node id) := by
    intro container id
    rw [List.contains_iff_mem, mem_declaredIn]
    exact ⟨fun h => ⟨id, rfl, h⟩, fun ⟨k, hk, h⟩ => TypeRef.node.inj hk ▸ h⟩
  cases t with
  | builtin b => exact .unfit fun h => by cases h.declarable
  | node id =>
    unfold accepts offer Registry.register
    dsimp only
    split
    · next hrefused =>
      simp only [Bool.or_eq_true, Bool.not_eq_true', hheld] at hrefused
      by_cases hconsiders : Considers ⟨g, r⟩ ⟨.node id, parent, scope⟩
      · refine .repeated ⟨hconsiders, ?_⟩
        rcases hrefused with ((hnot | hpoint) | hpackage) | hkey
        · exact absurd hconsiders.declarable (by simpa using hnot)
        · exact absurd (List.contains_iff_mem.1 hpoint) hconsiders.unqualified
        · exact absurd hpackage hconsiders.elsewhere
        · exact List.contains_iff_mem.1 hkey
      · exact .unfit hconsiders
    · next hfree =>
      simp only [Bool.or_eq_true, Bool.not_eq_true', not_or, hheld, Bool.not_eq_false] at hfree
      obtain ⟨⟨⟨hdeclarable, hpoint⟩, hpackage⟩, hkey⟩ := hfree
      have hconsiders : Considers ⟨g, r⟩ ⟨.node id, parent, scope⟩ :=
        ⟨hdeclarable, fun h => hpoint (List.contains_iff_mem.2 h), hpackage⟩
      have hfresh : key ⟨g, r⟩ ⟨.node id, parent, scope⟩ ∉ r.keys :=
        fun h => hkey (List.contains_iff_mem.2 h)
      split
      · next h => exact .held hconsiders hfresh (hheld.1 h)
      · next h => exact .declared hconsiders hfresh (fun h' => h (hheld.2 h')) rfl

end Declarations

/-! ## What a declaration leaves as it is -/

section Frame

variable {g : Graph}

theorem Graph.node?_addChild_of_some {id : Nat} {n : Node} (h : g.node? id = some n) (parent : Nat)
    (t : TypeRef) : (g.addChild parent t).node? id = some n ∨
      (g.addChild parent t).node? id = some (n.withChild t) := by
  rw [node?_addChild, h]
  split
  · exact .inr rfl
  · exact .inl rfl

theorem Graph.node?_addChild_of_none {id : Nat} (h : g.node? id = none) (parent : Nat)
    (t : TypeRef) : (g.addChild parent t).node? id = none := by
  rw [node?_addChild, h]
  split <;> rfl

theorem Graph.nameWithin_addChild (parent : Nat) (t : TypeRef) (depth : Nat) (s : TypeRef) :
    (g.addChild parent t).nameWithin depth s = g.nameWithin depth s := by
  induction depth generalizing s with
  | zero =>
    cases s with
    | builtin => simp only [nameWithin]
    | node id =>
      rw [nameWithin, nameWithin]
      rcases hn : g.node? id with _ | n
      · rw [node?_addChild_of_none hn]
      · rcases node?_addChild_of_some hn parent t with h | h <;> rw [h]
        cases n <;> rfl
  | succ depth ih =>
    cases s with
    | builtin => simp only [nameWithin]
    | node id =>
      rw [nameWithin, nameWithin]
      rcases hn : g.node? id with _ | n
      · rw [node?_addChild_of_none hn]
      · rcases node?_addChild_of_some hn parent t with h | h <;> rw [h]
        · cases n <;> simp only [ih]
        · cases n <;> simp only [Node.withChild, ih]

@[simp] theorem Graph.typeName_addChild (parent : Nat) (t s : TypeRef) :
    (g.addChild parent t).typeName s = g.typeName s := by
  rw [typeName, typeName, size_addChild, nameWithin_addChild]

@[simp] theorem Graph.isDeclared_addChild (parent : Nat) (t s : TypeRef) :
    (g.addChild parent t).isDeclared s = g.isDeclared s := by
  cases s with
  | builtin => rfl
  | node id =>
    rw [isDeclared, isDeclared]
    rcases hn : g.node? id with _ | n
    · rw [node?_addChild_of_none hn]
    · rcases node?_addChild_of_some hn parent t with h | h <;> rw [h]
      cases n <;> rfl

/-- What a declaration does to the children of a container, whatever it is declared in. -/
theorem Graph.children_addChild_of_isContainer {container : Nat} (h : g.IsContainer container)
    (parent : Nat) (t : TypeRef) : (g.addChild parent t).children container =
      g.children container ++ if parent = container then [t] else [] := by
  by_cases hparent : parent = container
  · subst hparent
    rw [children_addChild h, if_pos rfl, if_pos rfl]
  · unfold children
    rw [node?_addChild, if_neg (Ne.symm hparent), if_neg hparent, List.append_nil]

end Frame

/-! ## Runs -/

theorem offeredTo_append (offers offers' : List Offer) (container : Nat) :
    offeredTo (offers ++ offers') container =
      offeredTo offers container ++ offeredTo offers' container := by
  simp [offeredTo]

theorem offeredTo_singleton (o : Offer) (container : Nat) :
    offeredTo [o] container = if o.parent = container then [o.type] else [] := by
  unfold offeredTo
  rw [List.filter_singleton]
  by_cases h : o.parent = container <;> simp [h]

theorem mem_offeredTo {offers : List Offer} {container : Nat} {t : TypeRef} :
    t ∈ offeredTo offers container ↔ ∃ o ∈ offers, o.parent = container ∧ o.type = t := by
  simp [offeredTo, and_assoc]

namespace Declarations

variable {g : Graph} {package : Nat} {d : Declarations} {o : Offer} {offers done : List Offer}

theorem offerAll_concat (d : Declarations) (offers : List Offer) (o : Offer) :
    d.offerAll (offers ++ [o]) = (d.offerAll offers).offer o := by
  simp [offerAll]

theorem accepted_concat (d : Declarations) (offers : List Offer) (o : Offer) :
    d.accepted (offers ++ [o]) =
      d.accepted offers ++ if (d.offerAll offers).accepts o then [o] else [] := by
  induction offers generalizing d with
  | nil =>
    show (if d.accepts o then [o] else []) = _
    rfl
  | cons first rest ih =>
    rw [List.cons_append, accepted, accepted, ih]
    split <;> rfl

/-- An offer that comes as far as its key, when types are offered one after the other. -/
def ConsideredIn (d : Declarations) (offers : List Offer) (o : Offer) : Prop :=
  ∃ before after, offers = before ++ o :: after ∧ (d.offerAll before).Considers o

theorem consideredIn_concat {o' : Offer} : d.ConsideredIn (offers ++ [o]) o' ↔
    d.ConsideredIn offers o' ∨ o' = o ∧ (d.offerAll offers).Considers o := by
  constructor
  · rintro ⟨before, after, heq, hconsiders⟩
    rcases List.eq_nil_or_concat after with rfl | ⟨after, last, rfl⟩
    · obtain ⟨rfl, hlast⟩ := List.append_inj' heq rfl
      obtain rfl := List.cons.inj hlast |>.1
      exact .inr ⟨rfl, hconsiders⟩
    · rw [List.concat_eq_append, ← List.cons_append, ← List.append_assoc] at heq
      exact .inl ⟨before, after, (List.append_inj' heq rfl).1, hconsiders⟩
  · rintro (⟨before, after, rfl, hconsiders⟩ | ⟨rfl, hconsiders⟩)
    · exact ⟨before, after ++ [o], by simp, hconsiders⟩
    · exact ⟨offers, [], rfl, hconsiders⟩

/-- What is known of a registry after some offers, of which those in `done` have been accepted: names
and kinds are what they were, declarations and children are what has been accepted, and the keys are
those of all offers that came so far. -/
structure Logged (g : Graph) (package : Nat) (offers done : List Offer) (d : Declarations) :
    Prop where
  package_eq : d.registry.package = package
  names : ∀ t, d.graph.typeName t = g.typeName t
  kinds : ∀ t, d.graph.isDeclared t = g.isDeclared t
  containers : ∀ c, g.IsContainer c → d.graph.IsContainer c
  children : ∀ c, g.IsContainer c → d.graph.children c = g.children c ++ offeredTo done c
  log : d.registry.log.map (fun entry => (entry.1, TypeRef.node entry.2)) =
    done.map fun o => (o.parent, o.type)
  keys : ∀ k, k ∈ d.registry.keys ↔
    ∃ o, (new g package).ConsideredIn offers o ∧ (new g package).key o = k
  accepted_keys : ∀ o ∈ done, (new g package).key o ∈ d.registry.keys
  fresh_keys : (done.map (new g package).key).Nodup
  nodup : ∀ c, (offeredTo done c).Nodup
  exclusive : done.Pairwise fun o o' => o.parent = package → o'.type ≠ o.type
  offered : done ⊆ offers

namespace Logged

theorem holds_iff (h : Logged g package offers done d) {container : Nat} {t : TypeRef} :
    d.Holds container t ↔ t ∈ offeredTo done container := by
  rw [mem_offeredTo]
  constructor
  · rintro ⟨id, rfl, hmem⟩
    have hentry : (container, TypeRef.node id) ∈ done.map fun o => (o.parent, o.type) := by
      rw [← h.log]
      exact List.mem_map.2 ⟨_, hmem, rfl⟩
    obtain ⟨o, ho, heq⟩ := List.mem_map.1 hentry
    obtain ⟨hparent, htype⟩ := Prod.mk.inj heq
    exact ⟨o, ho, hparent, htype⟩
  · rintro ⟨o, ho, rfl, rfl⟩
    have hentry : (o.parent, o.type) ∈
        d.registry.log.map fun entry => (entry.1, TypeRef.node entry.2) := by
      rw [h.log]
      exact List.mem_map.2 ⟨o, ho, rfl⟩
    obtain ⟨entry, hmem, heq⟩ := List.mem_map.1 hentry
    obtain ⟨hparent, htype⟩ := Prod.mk.inj heq
    exact ⟨entry.2, htype.symm, hparent ▸ hmem⟩

theorem key_eq (h : Logged g package offers done d) (o : Offer) :
    d.key o = (new g package).key o := by
  unfold key
  rw [h.names]
  exact Registry.key_congr fun x _ => h.names (.node x)

/-- The start: nothing has been offered. -/
theorem start (g : Graph) (package : Nat) : Logged g package [] [] (new g package) where
  package_eq := rfl
  names _ := rfl
  kinds _ := rfl
  containers _ h := h
  children c _ := (List.append_nil _).symm
  log := rfl
  keys k := by
    refine iff_of_false (by simp [new, Registry.new]) ?_
    rintro ⟨o, ⟨before, after, heq, -⟩, -⟩
    simp at heq
  accepted_keys := nofun
  fresh_keys := List.nodup_nil
  nodup _ := List.nodup_nil
  exclusive := .nil
  offered := List.Subset.refl _

variable (h : Logged g package offers done d) (hd : d = (new g package).offerAll offers)
include h hd

/-- The keys after another offer, which takes down its key if that is new. -/
theorem mem_keys_concat {k : String} :
    (∃ o', (new g package).ConsideredIn (offers ++ [o]) o' ∧ (new g package).key o' = k) ↔
      k ∈ d.registry.keys ∨ d.Considers o ∧ d.key o = k := by
  rw [h.keys, h.key_eq, hd]
  constructor
  · rintro ⟨o', hconsidered, rfl⟩
    rcases consideredIn_concat.1 hconsidered with hold | ⟨rfl, hnew⟩
    · exact .inl ⟨o', hold, rfl⟩
    · exact .inr ⟨hnew, rfl⟩
  · rintro (⟨o', hold, rfl⟩ | ⟨hnew, rfl⟩)
    · exact ⟨o', consideredIn_concat.2 (.inl hold), rfl⟩
    · exact ⟨o, consideredIn_concat.2 (.inr ⟨rfl, hnew⟩), rfl⟩

/-- An offer without a new key leaves the registry as it is. -/
theorem refused (hkey : d.Considers o → d.key o ∈ d.registry.keys) :
    Logged g package (offers ++ [o]) done d :=
  { h with
    keys := fun k => by
      rw [h.mem_keys_concat hd]
      exact (or_iff_left_of_imp fun ⟨hconsiders, heq⟩ => heq ▸ hkey hconsiders).symm
    offered := List.Subset.trans h.offered (List.subset_append_left ..) }

/-- A type that stands in its container already leaves its key. -/
theorem held (hconsiders : d.Considers o) : Logged g package (offers ++ [o]) done
    { d with registry := { d.registry with keys := d.registry.keys ++ [d.key o] } } :=
  { h with
    keys := fun k => by
      rw [h.mem_keys_concat hd]
      simp [hconsiders, eq_comm]
    accepted_keys := fun o' ho' => List.mem_append_left _ (h.accepted_keys o' ho')
    offered := List.Subset.trans h.offered (List.subset_append_left ..) }

/-- A type that is declared comes after all that have been, with its key. -/
theorem declared {id : Nat} (hconsiders : d.Considers o) (hkey : d.key o ∉ d.registry.keys)
    (hfresh : ¬ d.Holds o.parent o.type) (htype : o.type = .node id) :
    Logged g package (offers ++ [o]) (done ++ [o]) ⟨d.graph.addChild o.parent o.type, {
      package := d.registry.package
      log := d.registry.log ++ [(o.parent, id)]
      keys := d.registry.keys ++ [d.key o] }⟩ where
  package_eq := h.package_eq
  names t := (Graph.typeName_addChild ..).trans (h.names t)
  kinds t := (Graph.isDeclared_addChild ..).trans (h.kinds t)
  containers c hc :=
    Graph.Grows.isContainer (Graph.Grows.addChild d.graph o.parent o.type) (h.containers c hc)
  children c hc := by
    show (d.graph.addChild o.parent o.type).children c = _
    rw [Graph.children_addChild_of_isContainer (h.containers c hc), h.children c hc, offeredTo_append,
      offeredTo_singleton, List.append_assoc]
  log := by
    rw [List.map_append, List.map_append, h.log]
    simp [htype]
  keys k := by
    rw [h.mem_keys_concat hd]
    simp [hconsiders, eq_comm]
  accepted_keys o' ho' := by
    rcases List.mem_append.1 ho' with hold | hnew
    · exact List.mem_append_left _ (h.accepted_keys o' hold)
    · obtain rfl := List.mem_singleton.1 hnew
      exact List.mem_append_right _ (List.mem_singleton.2 (h.key_eq o').symm)
  fresh_keys := by
    rw [List.map_append, List.map_singleton]
    refine List.nodup_append.2 ⟨h.fresh_keys, List.nodup_singleton _, fun k hk k' hk' => ?_⟩
    obtain ⟨o', ho', rfl⟩ := List.mem_map.1 hk
    obtain rfl := List.mem_singleton.1 hk'
    intro heq
    exact hkey (h.key_eq o ▸ heq ▸ h.accepted_keys o' ho')
  nodup c := by
    rw [offeredTo_append, offeredTo_singleton]
    split
    · next hc =>
      refine List.nodup_append.2 ⟨h.nodup c, List.nodup_singleton _, fun t ht t' ht' => ?_⟩
      obtain rfl := List.mem_singleton.1 ht'
      rintro rfl
      exact hfresh (h.holds_iff.2 (hc ▸ ht))
    · rw [List.append_nil]
      exact h.nodup c
  exclusive := by
    refine List.pairwise_append.2 ⟨h.exclusive, List.pairwise_singleton .., ?_⟩
    intro o' ho' o'' ho'' hparent htype'
    obtain rfl := List.mem_singleton.1 ho''
    refine hconsiders.elsewhere (h.holds_iff.2 (mem_offeredTo.2 ⟨o', ho', ?_, htype'.symm⟩))
    rw [hparent, h.package_eq]
  offered := by
    intro o' ho'
    rcases List.mem_append.1 ho' with hold | hnew
    · exact List.mem_append_left _ (h.offered hold)
    · exact List.mem_append_right _ hnew

/-- Every offer keeps what is known, however it ends. -/
theorem step (o : Offer) : Logged g package (offers ++ [o])
    (done ++ if d.accepts o then [o] else []) (d.offer o) := by
  have hends := d.outcome o
  generalize d.accepts o = answer at hends
  generalize d.offer o = d' at hends
  cases hends with
  | unfit hunfit => simpa using h.refused hd fun hconsiders => absurd hconsiders hunfit
  | repeated hrepeated => simpa using h.refused hd fun _ => hrepeated.2
  | held hconsiders => simpa using h.held hd hconsiders
  | declared hconsiders hkey hfresh htype => exact h.declared hd hconsiders hkey hfresh htype

end Logged

/-- What is known of a registry after any offers. -/
theorem logged_offerAll (g : Graph) (package : Nat) (offers : List Offer) :
    Logged g package offers ((new g package).accepted offers) ((new g package).offerAll offers) := by
  induction offers using List.reverseRecOn with
  | nil => exact .start g package
  | append_singleton offers o ih =>
    rw [accepted_concat, offerAll_concat]
    exact ih.step rfl o

end Declarations

/-! ## Lookups -/

/-- A type is the first of its name that was offered in a container, and nothing of that name was
offered in the containers further inside. -/
def FoundIn (g : Graph) (offers : List Offer) (name : String) (inner : Scope) (container : Nat)
    (t : TypeRef) : Prop :=
  (∀ x ∈ inner, ∀ u ∈ offeredTo offers x, g.typeName u ≠ name) ∧
    ∃ before after, offeredTo offers container = before ++ t :: after ∧ g.typeName t = name ∧
      ∀ u ∈ before, g.typeName u ≠ name

section Lookup

variable {g : Graph} {package container : Nat} {d : Declarations} {offers done later : List Offer}
  {name : String} {scope inner outer : Scope} {t : TypeRef}

/-- What is offered later changes what a name denotes only by types of that name further inside. -/
theorem FoundIn.append (h : FoundIn g done name inner container t)
    (hlater : ∀ o ∈ later, o.parent ∈ inner → g.typeName o.type ≠ name) :
    FoundIn g (done ++ later) name inner container t := by
  obtain ⟨hinner, before, after, heq, hname, hbefore⟩ := h
  constructor
  · intro x hx u hu
    rw [offeredTo_append] at hu
    rcases List.mem_append.1 hu with hold | hnew
    · exact hinner x hx u hold
    · obtain ⟨o, ho, rfl, rfl⟩ := mem_offeredTo.1 hnew
      exact hlater o ho hx
  · refine ⟨before, after ++ offeredTo later container, ?_, hname, hbefore⟩
    rw [offeredTo_append, heq, List.append_assoc, List.cons_append]

namespace Declarations.Logged

variable (h : Logged g package offers done d)
include h

/-- The types that stand in a container are those that were accepted for it. -/
theorem map_declaredIn (container : Nat) :
    (d.registry.declaredIn container).map .node = offeredTo done container := by
  have hfilter : ∀ entries : List (Nat × TypeRef),
      (entries.filter fun e => e.1 = container).map (·.2) =
        entries.filterMap fun e => if e.1 = container then some e.2 else none := by
    intro entries
    induction entries with
    | nil => rfl
    | cons e entries ih => by_cases he : e.1 = container <;> simp [he, ih]
  have hdone : offeredTo done container =
      ((done.map fun o => (o.parent, o.type)).filter fun e => e.1 = container).map (·.2) := by
    simp [offeredTo, List.filter_map, Function.comp_def]
  rw [hdone, ← h.log, hfilter, List.filterMap_map, Registry.declaredIn, List.map_filterMap]
  refine List.filterMap_congr fun e _ => ?_
  show Option.map TypeRef.node (if e.1 = container then some e.2 else none) = _
  by_cases he : e.1 = container <;> simp [he]

theorem lookup_eq (hname : reservedTypes.lookup name = none) (scope : Scope) :
    d.lookup name scope = scope.findSome? fun c =>
      (offeredTo done c).find? fun u => g.typeName u == name := by
  unfold lookup Registry.lookup
  rw [hname]
  refine congrArg (List.findSome? · scope) (funext fun c => ?_)
  rw [← h.map_declaredIn, List.find?_map]
  simp only [h.names, Function.comp_def]

/-- A name denotes the first type that it was given in the innermost container where it was given
to one. -/
theorem lookup_eq_some_iff (hname : reservedTypes.lookup name = none) :
    d.lookup name scope = some t ↔ ∃ inner container outer, scope = inner ++ container :: outer ∧
      FoundIn g done name inner container t := by
  rw [h.lookup_eq hname, List.findSome?_eq_some_iff]
  refine exists_congr fun inner => exists_congr fun container => exists_congr fun outer =>
    and_congr_right fun _ => ?_
  rw [List.find?_eq_some_iff_append, and_comm]
  refine and_congr (forall₂_congr fun x _ => ?_) ?_
  · simp [List.find?_eq_none]
  · simp only [beq_iff_eq, Bool.not_eq_true', beq_eq_false_iff_ne]
    exact ⟨fun ⟨hname, before, after, heq, hbefore⟩ => ⟨before, after, heq, hname, hbefore⟩,
      fun ⟨before, after, heq, hname, hbefore⟩ => ⟨hname, before, after, heq, hbefore⟩⟩

/-- A name that denotes a type keeps it, unless a type of that name is accepted further inside. -/
theorem lookup_offer_eq (hd : d = (new g package).offerAll offers)
    (hname : reservedTypes.lookup name = none) (hfound : FoundIn g done name inner container t)
    {o : Offer} (hother : d.accepts o = true → g.typeName o.type = name → o.parent ∉ inner) :
    (d.offer o).lookup name (inner ++ container :: outer) =
      d.lookup name (inner ++ container :: outer) := by
  rw [(h.lookup_eq_some_iff hname).2 ⟨inner, container, outer, rfl, hfound⟩]
  refine ((h.step hd o).lookup_eq_some_iff hname).2 ⟨inner, container, outer, rfl, ?_⟩
  refine hfound.append fun o' ho' hinner htype => ?_
  split at ho'
  · next haccepted =>
    obtain rfl := List.mem_singleton.1 ho'
    exact hother haccepted htype hinner
  · cases ho'

end Declarations.Logged

end Lookup

/-! ## Keys -/

/-- The names of the containers of a scope, from the outside in. -/
def Scope.names (g : Graph) (scope : Scope) : List String :=
  scope.reverse.map fun c => g.typeName (.node c)

/-- An offer from inside some container, where all names are without number sign. -/
structure Offer.Spelled (g : Graph) (o : Offer) : Prop where
  inside : o.scope ≠ []
  type : '#' ∉ (g.typeName o.type).toList
  scope : ∀ s ∈ o.scope.names g, '#' ∉ s.toList

instance (g : Graph) (o : Offer) : Decidable (o.Spelled g) :=
  decidable_of_iff (o.scope ≠ [] ∧ '#' ∉ (g.typeName o.type).toList ∧
      ∀ s ∈ o.scope.names g, '#' ∉ s.toList)
    ⟨fun ⟨h₁, h₂, h₃⟩ => ⟨h₁, h₂, h₃⟩, fun ⟨h₁, h₂, h₃⟩ => ⟨h₁, h₂, h₃⟩⟩

section Keys

variable {g : Graph} {package : Nat} {d : Declarations} {o o' : Offer} {offers done : List Offer}

theorem intercalate_sharp_injective {l l' : List String} (hl : l ≠ []) (hl' : l' ≠ [])
    (hplain : ∀ s ∈ l, '#' ∉ s.toList) (hplain' : ∀ s ∈ l', '#' ∉ s.toList)
    (h : "#".intercalate l = "#".intercalate l') : l = l' := by
  have hsplit : ∀ {l : List String}, l ≠ [] → (∀ s ∈ l, '#' ∉ s.toList) →
      ("#".intercalate l).toList.splitOn '#' = l.map String.toList := by
    intro l hl hplain
    rw [String.toList_intercalate]
    refine List.splitOn_intercalate '#' (fun cs hcs => ?_) (by simpa using hl)
    obtain ⟨s, hs, rfl⟩ := List.mem_map.1 hcs
    exact hplain s hs
  refine List.map_injective_iff.2 (fun _ _ => String.toList_inj.1) ?_
  rw [← hsplit hl hplain, ← hsplit hl' hplain', h]

theorem Offer.Spelled.key_eq (h : o.Spelled g) : (Declarations.new g package).key o =
    "#".intercalate (o.scope.names g ++ [g.typeName o.type]) := by
  have hne : o.scope.names g ≠ [] := by simpa [Scope.names] using h.inside
  rw [intercalate_concat hne]
  rfl

/-- Names without number sign can be read off keys. -/
theorem Offer.Spelled.key_eq_iff (h : o.Spelled g) (h' : o'.Spelled g) :
    (Declarations.new g package).key o = (Declarations.new g package).key o' ↔
      g.typeName o.type = g.typeName o'.type ∧ o.scope.names g = o'.scope.names g := by
  have hplain : ∀ {o : Offer}, o.Spelled g →
      ∀ s ∈ o.scope.names g ++ [g.typeName o.type], '#' ∉ s.toList := by
    intro o h s hs
    rcases List.mem_append.1 hs with hscope | htype
    · exact h.scope s hscope
    · exact List.mem_singleton.1 htype ▸ h.type
  rw [h.key_eq, h'.key_eq]
  constructor
  · intro heq
    obtain ⟨hscope, htype⟩ := List.append_inj'
      (intercalate_sharp_injective (by simp) (by simp) (hplain h) (hplain h') heq) rfl
    exact ⟨List.cons.inj htype |>.1, hscope⟩
  · rintro ⟨htype, hscope⟩
    rw [htype, hscope]

namespace Declarations

theorem ConsideredIn.mem (h : d.ConsideredIn offers o) : o ∈ offers := by
  obtain ⟨before, after, rfl, -⟩ := h
  simp

namespace Logged

variable (h : Logged g package offers done d)
include h

theorem considers_iff : d.Considers o ↔ g.isDeclared o.type = true ∧
    '.' ∉ (g.typeName o.type).toList ∧ o.type ∉ offeredTo done package := by
  rw [← h.holds_iff, ← h.names, ← h.kinds, ← h.package_eq]
  exact ⟨fun ⟨h₁, h₂, h₃⟩ => ⟨h₁, h₂, h₃⟩, fun ⟨h₁, h₂, h₃⟩ => ⟨h₁, h₂, h₃⟩⟩

theorem accepts_iff : d.accepts o = true ↔
    d.Considers o ∧ d.key o ∉ d.registry.keys ∧ o.type ∉ offeredTo done o.parent := by
  rw [← h.holds_iff]
  have hends := d.outcome o
  generalize d.accepts o = answer at hends
  generalize d.offer o = d' at hends
  cases hends with
  | unfit hunfit => exact iff_of_false nofun fun h => hunfit h.1
  | repeated hrepeated => exact iff_of_false nofun fun h => h.2.1 hrepeated.2
  | held _ _ hheld => exact iff_of_false nofun fun h => h.2.2 hheld
  | declared hconsiders hkey hfresh => exact iff_of_true rfl ⟨hconsiders, hkey, hfresh⟩

/-- An offer is refused as repeated after another one of the same name from a scope of the same
names. -/
theorem refusesAsRepeated_iff (hspelled : ∀ o' ∈ o :: offers, o'.Spelled g) :
    d.RefusesAsRepeated o ↔ d.Considers o ∧ ∃ o', (new g package).ConsideredIn offers o' ∧
      g.typeName o'.type = g.typeName o.type ∧ o'.scope.names g = o.scope.names g := by
  refine and_congr_right fun _ => ?_
  rw [h.keys, h.key_eq]
  refine exists_congr fun o' => and_congr_right fun hconsidered => ?_
  exact (hspelled o' (List.mem_cons_of_mem _ hconsidered.mem)).key_eq_iff
    (hspelled o (List.mem_cons_self ..))

/-- Types that come to a container from one scope differ in their names. -/
theorem nodup_names
    (hscope : ∀ o ∈ offers, ∀ o' ∈ offers, o.parent = o'.parent → o.scope = o'.scope)
    (container : Nat) : ((offeredTo done container).map g.typeName).Nodup := by
  have hdone := List.pairwise_map.1 h.fresh_keys
  unfold offeredTo
  rw [List.map_map]
  refine List.pairwise_map.2 ((List.Pairwise.filter _ hdone).imp_of_mem ?_)
  intro o o' ho ho' hkey (htype : g.typeName o.type = g.typeName o'.type)
  obtain ⟨ho, hparent⟩ := List.mem_filter.1 ho
  obtain ⟨ho', hparent'⟩ := List.mem_filter.1 ho'
  have hsame := (of_decide_eq_true hparent).trans (of_decide_eq_true hparent').symm
  refine hkey ?_
  show Registry.key g o.scope (g.typeName o.type) = Registry.key g o'.scope (g.typeName o'.type)
  rw [hscope o (h.offered ho) o' (h.offered ho') hsame, htype]

end Logged

end Declarations

end Keys

/-! ## The log -/

/-- A registry is a log of the offers that it accepted. Containers get the types that were accepted
for them, in that order and once each, and what is in the package comes nowhere else later. A name
that is not reserved denotes the first type that it was given in the innermost container of a scope
where it was given to one, and an offer changes that only by a type of the name further inside. If
offers for one container all come from one scope, the types in it differ in their names; and names
without number sign make sure that an offer is refused as repeated exactly after one of the same name
from a scope of the same names. -/
theorem declarations_are_logged (g : Graph) (package : Nat) (offers : List Offer) :
    let start := Declarations.new g package
    let d := start.offerAll offers
    let done := start.accepted offers
    (∀ container, g.IsContainer container →
      d.graph.children container = g.children container ++ offeredTo done container) ∧
    (∀ container, (offeredTo done container).Nodup) ∧
    (done.Pairwise fun o o' => o.parent = package → o'.type ≠ o.type) ∧
    (∀ o, d.Considers o ↔ g.isDeclared o.type = true ∧ '.' ∉ (g.typeName o.type).toList ∧
      o.type ∉ offeredTo done package) ∧
    (∀ o, d.accepts o = true ↔
      d.Considers o ∧ ¬ d.RefusesAsRepeated o ∧ o.type ∉ offeredTo done o.parent) ∧
    (∀ name scope t, reservedTypes.lookup name = none →
      (d.lookup name scope = some t ↔ ∃ inner container outer,
        scope = inner ++ container :: outer ∧ FoundIn g done name inner container t)) ∧
    (∀ o name inner container outer t, reservedTypes.lookup name = none →
      FoundIn g done name inner container t →
      (d.offer o).lookup name (inner ++ container :: outer) ≠
        d.lookup name (inner ++ container :: outer) →
      d.accepts o = true ∧ g.typeName o.type = name ∧ o.parent ∈ inner) ∧
    ((∀ o ∈ offers, ∀ o' ∈ offers, o.parent = o'.parent → o.scope = o'.scope) →
      ∀ container, ((offeredTo done container).map g.typeName).Nodup) ∧
    ∀ o, (∀ o' ∈ o :: offers, o'.Spelled g) →
      (d.RefusesAsRepeated o ↔ d.Considers o ∧ ∃ o', start.ConsideredIn offers o' ∧
        g.typeName o'.type = g.typeName o.type ∧ o'.scope.names g = o.scope.names g) := by
  intro start d done
  have h : Declarations.Logged g package offers done d := Declarations.logged_offerAll ..
  refine ⟨h.children, h.nodup, h.exclusive, fun o => h.considers_iff, fun o => ?_,
    fun name scope t hname => h.lookup_eq_some_iff hname, ?_, h.nodup_names,
    fun o hspelled => h.refusesAsRepeated_iff hspelled⟩
  · rw [h.accepts_iff]
    refine and_congr_right fun hconsiders => and_congr_left fun _ => not_congr ?_
    exact (and_iff_right hconsiders).symm
  · intro o name inner container outer t hname hfound hchanged
    by_contra hother
    exact hchanged (h.lookup_offer_eq rfl hname hfound fun haccepts htype hinner =>
      hother ⟨haccepts, htype, hinner⟩)

/-- A package with a message, in which and beside which an enum of the same name is declared. -/
def statuses : Graph := ⟨#[
  .package { name := "demo", imports := [], options := [], children := [] },
  .message { name := "Outer", fields := [], children := [], comment := .null },
  .enumeration { name := "Status", elements := [], comment := "" },
  .enumeration { name := "Status", elements := [], comment := "" }]⟩

/-- The message, the outer enum and the inner enum are declared, the message twice. -/
def statusOffers : List Offer := [
  ⟨.node 1, 0, [0]⟩, ⟨.node 2, 0, [0]⟩, ⟨.node 3, 1, [1, 0]⟩, ⟨.node 1, 0, [0]⟩]

theorem declarations_are_logged_statuses :
    let start := Declarations.new statuses 0
    let d := start.offerAll statusOffers
    let other : Offer := ⟨.node 3, 0, [0]⟩
    start.accepted statusOffers = statusOffers.take 3 ∧ statuses.IsContainer 1 ∧
      d.graph.children 1 = [.node 3] ∧ reservedTypes.lookup "Status" = none ∧
      d.lookup "Status" [1, 0] = some (.node 3) ∧ d.lookup "Status" [0] = some (.node 2) ∧
      (∀ o ∈ statusOffers, ∀ o' ∈ statusOffers, o.parent = o'.parent → o.scope = o'.scope) ∧
      ((offeredTo (statusOffers.take 3) 0).map statuses.typeName).Nodup ∧
      (∀ o ∈ other :: statusOffers, o.Spelled statuses) ∧ d.RefusesAsRepeated other := by
  intro start d other
  have hdone : start.accepted statusOffers = statusOffers.take 3 := by decide +kernel
  have hcontainer : statuses.IsContainer 1 := .inr ⟨_, rfl⟩
  have hname : reservedTypes.lookup "Status" = none := by decide +kernel
  have hscopes : ∀ o ∈ statusOffers, ∀ o' ∈ statusOffers, o.parent = o'.parent →
      o.scope = o'.scope := by decide
  have hspelled : ∀ o ∈ other :: statusOffers, o.Spelled statuses := by decide +kernel
  obtain ⟨hchildren, -, -, hconsiders, -, hlookup, -, hdistinct, hrepeated⟩ :=
    declarations_are_logged statuses 0 statusOffers
  rw [hdone] at hchildren hconsiders hlookup hdistinct
  have hfirst : start.ConsideredIn statusOffers ⟨.node 2, 0, [0]⟩ := by
    obtain ⟨-, -, -, -, haccepts, -⟩ :=
      declarations_are_logged statuses 0 [⟨.node 1, 0, [0]⟩]
    exact ⟨_, _, rfl, ((haccepts _).1 (by decide +kernel)).1⟩
  refine ⟨hdone, hcontainer, hchildren 1 hcontainer, hname, ?_, ?_, hscopes, hdistinct hscopes 0,
    hspelled, ?_⟩
  · exact (hlookup _ _ _ hname).2
      ⟨[], 1, [0], rfl, by simp, [], [], by decide, by decide +kernel, by simp⟩
  · exact (hlookup _ _ _ hname).2
      ⟨[], 0, [], rfl, by simp, [.node 1], [], by decide, by decide +kernel, by decide +kernel⟩
  · exact (hrepeated other hspelled).2 ⟨(hconsiders other).2 (by decide +kernel), _, hfirst,
      by decide +kernel, by decide +kernel⟩

end ApiProto.Proto
