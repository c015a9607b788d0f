import ApiProto.Proofs.Ownership
import ApiProto.Proofs.WithoutComments
import Mathlib.Data.Finset.Card
import Mathlib.Data.List.Induction

/-!
# Nesting

The fields of messages may refer to one another in cycles, but no message is declared inside itself,
at any depth. So the declarations of a package make up a finite tree, and a tree of messages, enums,
extensions and services can be printed.

* `Graph.Contains`, `Graph.Nests` — what stands directly inside a container, and the graphs in which
  nothing stands inside itself.
* `Owned.nests` — while a package is compiled, its graph nests.
* `downstream` — what bounds the depth of a relation without cycles.
* `Declaration.Listed`, `Nests.file?_listed` — a package that nests is a tree of declarations.
* `Listed.print_ok`, `print_error_iff` — such a tree is printed, unless a comment is no text.
-/

namespace ApiProto.Proto

open Relation

/-- One node stands directly inside another. -/
def Graph.Contains (g : Graph) (container id : Nat) : Prop := .node id ∈ g.children container

/-- Nothing stands inside itself, messages hold only messages and enums, and the package holds only
these, extensions and services. -/
structure Graph.Nests (g : Graph) (package : Nat) : Prop where
  acyclic : ∀ id, ¬ TransGen g.Contains id id
  declared : ∀ container, ∀ t ∈ g.children container,
    g.isDeclared t = true ∨ container = package ∧ g.IsListed t

/-! ## The depth of relations without cycles -/

section Depth

variable {R : Nat → Nat → Prop} {size id k : Nat}

open Classical in
/-- The nodes that a relation leads to from a node. -/
noncomputable def downstream (R : Nat → Nat → Prop) (size id : Nat) : Finset Nat :=
  (Finset.range size).filter fun k => TransGen R id k

theorem mem_downstream : k ∈ downstream R size id ↔ k < size ∧ TransGen R id k := by
  simp [downstream]

/-- Each step leaves fewer nodes below. -/
theorem card_downstream_lt (hacyclic : ¬ TransGen R k k) (hstep : R id k) (hk : k < size) :
    (downstream R size k).card < (downstream R size id).card := by
  have hsubset : downstream R size k ⊆ downstream R size id := fun j hj => by
    obtain ⟨hj, hchain⟩ := mem_downstream.1 hj
    exact mem_downstream.2 ⟨hj, .head hstep hchain⟩
  have hmem : k ∈ downstream R size id := mem_downstream.2 ⟨hk, .single hstep⟩
  have hnot : k ∉ downstream R size k := fun hback => hacyclic (mem_downstream.1 hback).2
  exact Finset.card_lt_card ((Finset.ssubset_iff_of_subset hsubset).2 ⟨k, hmem, hnot⟩)

theorem card_downstream_le : (downstream R size id).card ≤ size := by
  refine (Finset.card_le_card fun k hk => ?_).trans_eq (Finset.card_range size)
  exact Finset.mem_range.2 (mem_downstream.1 hk).1

theorem card_downstream_lt_size (hacyclic : ¬ TransGen R id id) (hid : id < size) :
    (downstream R size id).card < size := by
  have hsubset : downstream R size id ⊆ Finset.range size := fun k hk =>
    Finset.mem_range.2 (mem_downstream.1 hk).1
  have hnot : id ∉ downstream R size id := fun hback => hacyclic (mem_downstream.1 hback).2
  refine (Finset.card_lt_card ((Finset.ssubset_iff_of_subset hsubset).2
    ⟨id, Finset.mem_range.2 hid, hnot⟩)).trans_eq (Finset.card_range size)

end Depth

/-! ## Trees of declarations -/

/-- A declaration that can stand in a file, with all that is inside it. -/
inductive Declaration.Listed {κ : Type} : Declaration κ → Prop
  | message {name : String} {comment : κ} {fields : List (NamedField κ)}
      {children : List (Declaration κ)} : (∀ d ∈ children, Declaration.Listed d) →
      Declaration.Listed (.message name comment fields children)
  | enumeration (e : Enumeration) : Declaration.Listed (.enumeration e)
  | extension (e : Extension) : Declaration.Listed (.extension e)
  | service (name : String) (rpcs : List NamedRpc) : Declaration.Listed (.service name rpcs)

theorem exists_mapM_option {α β : Type} {f : α → Option β} {P : β → Prop} {l : List α}
    (h : ∀ a ∈ l, ∃ b, f a = some b ∧ P b) : ∃ bs, l.mapM f = some bs ∧ ∀ b ∈ bs, P b := by
  induction l with
  | nil => exact ⟨[], rfl, nofun⟩
  | cons a rest ih =>
    obtain ⟨b, hb, hPb⟩ := h a (List.mem_cons_self ..)
    obtain ⟨bs, hbs, hPbs⟩ := ih fun a ha => h a (List.mem_cons_of_mem _ ha)
    refine ⟨b :: bs, ?_, List.forall_mem_cons.2 ⟨hPb, hPbs⟩⟩
    rw [List.mapM_cons, hb, hbs]
    rfl

namespace Graph.Nests

variable {g : Graph} {package : Nat} (h : g.Nests package)
include h

theorem isListed {container : Nat} {t : TypeRef} (ht : t ∈ g.children container) : g.IsListed t :=
  (h.declared container t ht).elim isListed_of_isDeclared (·.2)

/-- What is below a node bounds the depth of its tree. -/
theorem declarationWithin?_listed : ∀ {depth id : Nat}, g.IsListed (.node id) →
    (downstream g.Contains g.size id).card < depth →
    ∃ d, g.declarationWithin? depth (.node id) = some d ∧ d.Listed := by
  intro depth
  induction depth with
  | zero => exact fun _ hlt => absurd hlt (Nat.not_lt_zero _)
  | succ depth ih =>
    intro id hlisted hdepth
    obtain ⟨_, n, heq, hn, hkind⟩ := hlisted
    obtain rfl := TypeRef.node.inj heq
    simp only [declarationWithin?, hn]
    cases n with
    | message m =>
      obtain ⟨children, hchildren, hall⟩ : ∃ children,
          m.children.mapM (fun t => g.declarationWithin? depth t) = some children ∧
            ∀ d ∈ children, d.Listed := by
        refine exists_mapM_option fun t ht => ?_
        have hmem : t ∈ g.children id := mem_children_iff.2 ⟨_, hn, ht⟩
        obtain ⟨k, n', rfl, hn', -⟩ := h.isListed hmem
        have hlt := card_downstream_lt (h.acyclic k) hmem (lt_size_of_node? hn')
        exact ih (h.isListed hmem) (Nat.lt_of_lt_of_le hlt (Nat.le_of_lt_succ hdepth))
      refine ⟨.message m.name m.comment (m.fields.map g.namedField) children, ?_, .message hall⟩
      dsimp only
      rw [hchildren]
      rfl
    | enumeration e => exact ⟨_, rfl, .enumeration e⟩
    | extension e => exact ⟨_, rfl, .extension e⟩
    | service s => exact ⟨_, rfl, .service ..⟩
    | _ => cases hkind

/-- The declarations of a package that nests make up a tree. -/
theorem file?_listed {p : Package} (hp : g.node? package = some (.package p)) :
    ∃ f, g.file? package = some f ∧ ∀ d ∈ f.children, d.Listed := by
  obtain ⟨children, hchildren, hall⟩ : ∃ children,
      p.children.mapM g.declaration? = some children ∧ ∀ d ∈ children, d.Listed := by
    refine exists_mapM_option fun t ht => ?_
    have hmem : t ∈ g.children package := mem_children_iff.2 ⟨_, hp, ht⟩
    obtain ⟨k, n, rfl, -, -⟩ := h.isListed hmem
    exact h.declarationWithin?_listed (h.isListed hmem) (Nat.lt_succ_of_le card_downstream_le)
  refine ⟨⟨p.name, p.imports, p.options, children⟩, ?_, hall⟩
  simp only [file?, package?, hp, Option.bind_eq_bind, Option.bind_some, hchildren]
  rfl

end Graph.Nests

/-! ## Printing -/

/-- A comment that is no text is a value of another kind. -/
theorem commentText_error {comment : Value} {e : Error} (h : commentText comment = .error e) :
    e.cause ≠ .endless ∧ ∀ kind name, e.cause ≠ .unprintable kind name := by
  unfold commentText at h
  split at h
  · cases h
  · unfold Value.textWith at h
    split at h <;> cases h <;> exact ⟨nofun, nofun⟩

theorem bind_error {α β : Type} {r : Except Error α} {f : α → Except Error β} {e : Error}
    (h : (r >>= f) = .error e) : r = .error e ∨ ∃ a, r = .ok a ∧ f a = .error e := by
  rcases r with e' | a
  · exact .inl (congrArg Except.error (Except.error.inj h))
  · exact .inr ⟨a, rfl, h⟩

theorem map_error {α β : Type} {r : Except Error α} {f : α → β} {e : Error}
    (h : r.map f = .error e) : r = .error e := by
  rcases r with e' | a
  · exact congrArg Except.error (Except.error.inj h)
  · cases h

theorem mapM_error {α β : Type} {f : α → Except Error β} {l : List α} {e : Error}
    (h : l.mapM f = .error e) : ∃ a ∈ l, f a = .error e := by
  induction l with
  | nil => cases h
  | cons a rest ih =>
    rw [List.mapM_cons] at h
    rcases bind_error h with ha | ⟨b, -, h⟩
    · exact ⟨a, List.mem_cons_self .., ha⟩
    · rcases bind_error h with hrest | ⟨bs, -, h⟩
      · obtain ⟨a', ha', heq⟩ := ih hrest
        exact ⟨a', List.mem_cons_of_mem _ ha', heq⟩
      · cases h

theorem exists_mapM_ok {α β : Type} {f : α → Except Error β} {l : List α}
    (h : ∀ a ∈ l, ∃ b, f a = .ok b) : ∃ bs, l.mapM f = .ok bs := by
  rcases hl : l.mapM f with e | bs
  · obtain ⟨a, ha, herror⟩ := mapM_error hl
    obtain ⟨b, hb⟩ := h a ha
    cases hb.symm.trans herror
  · exact ⟨bs, rfl⟩

theorem joinDeclarations_ok {indent : List Char} {ds : List (Declaration String)}
    (h : ∀ d ∈ ds, ∃ text, d.print indent = .ok text) :
    ∃ text, joinDeclarations (printAll indent ds) = .ok text := by
  obtain ⟨texts, htexts⟩ : ∃ texts, (sortBy (fun a b : SortKey × Except Error (List Char) =>
      a.1.before b.1) (printAll indent ds)).mapM (·.2) = .ok texts := by
    refine exists_mapM_ok fun entry hentry => ?_
    rw [mem_sortBy, printAll_eq_map] at hentry
    obtain ⟨d, hd, rfl⟩ := List.mem_map.1 hentry
    exact h d hd
  refine ⟨joinLines (texts.filter fun text => !text.isEmpty), ?_⟩
  rw [joinDeclarations, htexts]
  rfl

namespace Declaration

theorem Listed.print_ok (indent : List Char) {d : Declaration String} (h : d.Listed) :
    ∃ text, d.print indent = .ok text := by
  induction h with
  | @message name comment fields children _ ih =>
    obtain ⟨body, hbody⟩ := joinDeclarations_ok ih
    refine ⟨printComment comment ++ block indent ("message " ++ name).toList
      (printFields body (sortBy (fun a b => a.number ≤ b.number) fields)), ?_⟩
    rw [print, hbody]
    rfl
  | enumeration e => exact ⟨_, by rw [print]; rfl⟩
  | extension e => exact ⟨_, by rw [print]; rfl⟩
  | service name rpcs => exact ⟨_, by rw [print]; rfl⟩

/-- What is listed stays so when its comments are read as texts. -/
theorem Listed.withTexts {d : Declaration Value} (h : d.Listed) :
    ∀ {d' : Declaration String}, d.withTexts = .ok d' → d'.Listed := by
  induction h with
  | message _ ih =>
    intro d' hd
    rw [Declaration.withTexts, allWithTexts_eq] at hd
    obtain ⟨children', hchildren, hd⟩ := Document.bind_eq_ok_iff.1 hd
    obtain ⟨fields', -, hd⟩ := Document.bind_eq_ok_iff.1 hd
    obtain ⟨comment', -, hd⟩ := Document.bind_eq_ok_iff.1 hd
    obtain rfl := Except.ok.inj hd
    refine .message fun child hchild => ?_
    obtain ⟨d, hd, heq⟩ := Document.exists_of_mem_mapM hchildren hchild
    exact ih d hd heq
  | enumeration | extension | service =>
    intro d' hd
    rw [Declaration.withTexts] at hd
    obtain rfl := Except.ok.inj hd
    constructor

/-- What keeps a declaration from having texts for comments is a comment. -/
theorem withTexts_error {d : Declaration Value} : ∀ {e : Error}, d.withTexts = .error e →
    ∃ comment, commentText comment = .error e := by
  induction d using Declaration.induct with
  | message name comment fields children ih =>
    intro e h
    rw [Declaration.withTexts, allWithTexts_eq] at h
    rcases bind_error h with hchildren | ⟨children', -, h⟩
    · obtain ⟨d, hd, heq⟩ := mapM_error hchildren
      exact ih d hd heq
    rcases bind_error h with hfields | ⟨fields', -, h⟩
    · obtain ⟨f, -, heq⟩ := mapM_error hfields
      exact ⟨f.comment, map_error heq⟩
    rcases bind_error h with hcomment | ⟨text, -, h⟩
    · exact ⟨comment, hcomment⟩
    · cases h
  | enumeration | extension | service | other =>
    intro e h
    cases h

end Declaration

theorem File.withTexts_error {f : File Value} {e : Error} (h : f.withTexts = .error e) :
    ∃ comment, commentText comment = .error e := by
  have hchildren := map_error h
  rw [Declaration.allWithTexts_eq] at hchildren
  obtain ⟨d, -, hd⟩ := mapM_error hchildren
  exact Declaration.withTexts_error hd

/-- A tree of declarations is printed with every indentation, unless a comment is no text. -/
theorem Graph.print_error_iff {g : Graph} {package : Nat} {f : File Value}
    (hf : g.file? package = some f) (hlisted : ∀ d ∈ f.children, d.Listed) {indent : String}
    {e : Error} : g.print indent package = .error e ↔ f.withTexts = .error e := by
  have hprint : g.print indent package = f.withTexts.bind (File.print indent) := by
    rw [Graph.print, hf]
  rw [hprint]
  rcases htexts : f.withTexts with e' | f'
  · exact ⟨fun h => congrArg Except.error (Except.error.inj h),
      fun h => congrArg Except.error (Except.error.inj h)⟩
  · obtain ⟨children, hchildren, rfl⟩ := Document.map_eq_ok_iff.1 htexts
    rw [Declaration.allWithTexts_eq] at hchildren
    obtain ⟨body, hbody⟩ : ∃ body,
        joinDeclarations (printAll indent.toList children) = .ok body := by
      refine joinDeclarations_ok fun d' hd' => ?_
      obtain ⟨d, hd, heq⟩ := Document.exists_of_mem_mapM hchildren hd'
      exact ((hlisted d hd).withTexts heq).print_ok _
    rw [Except.bind, File.print, hbody]
    constructor
    · intro h
      cases h
    · intro h
      cases h

end ApiProto.Proto

namespace ApiProto.Compile

open Proto Document Relation

variable {scope : Scope} {c : Compilation}

/-! ## The graphs of compilations -/

/-- Where what contains has been contained in nothing before, containers can stand above what they
contain. -/
theorem exists_rank {log : List (Nat × Nat)} (hordered : log.Pairwise fun e e' => e.2 ≠ e'.1)
    (hirreflexive : ∀ entry ∈ log, entry.1 ≠ entry.2) :
    ∃ rank : Nat → Nat, ∀ entry ∈ log, rank entry.2 < rank entry.1 := by
  induction log using List.reverseRecOn with
  | nil => exact ⟨fun _ => 0, nofun⟩
  | append_singleton log last ih =>
    obtain ⟨hlog, -, hlast⟩ := List.pairwise_append.1 hordered
    obtain ⟨rank, hrank⟩ := ih hlog fun entry hentry =>
      hirreflexive entry (List.mem_append_left _ hentry)
    have hne := hirreflexive last (by simp)
    -- the last container is nobody's child yet, so it can rise above its new child
    refine ⟨fun k => if k = last.1 then max (rank k) (rank last.2 + 1) else rank k,
      fun entry hentry => ?_⟩
    rcases List.mem_append.1 hentry with hold | hnew
    · have hbelow := hlast entry hold last (List.mem_singleton.2 rfl)
      have hlt := hrank entry hold
      simp only [if_neg hbelow]
      split <;> omega
    · obtain rfl := List.mem_singleton.1 hnew
      simp only [if_neg hne.symm, if_pos]
      omega

theorem acyclic_of_falling {R : Nat → Nat → Prop} {f : Nat → Nat}
    (h : ∀ id k, R id k → f k < f id) (id : Nat) : ¬ TransGen R id id := by
  have hchain : ∀ k, TransGen R id k → f k < f id := by
    intro k hk
    induction hk with
    | single hstep => exact h _ _ hstep
    | tail _ hlast ih => exact Nat.lt_trans (h _ _ hlast) ih
  exact fun hcycle => Nat.lt_irrefl _ (hchain id hcycle)

/-- While a package is compiled, its graph nests. -/
theorem Compilation.Owned.nests (h : c.Owned scope) : c.graph.Nests c.package where
  acyclic := by
    obtain ⟨rank, hrank⟩ := exists_rank h.ordered h.irreflexive
    -- extensions and the service are not logged, but nothing stands inside them
    refine acyclic_of_falling (f := fun k => if c.graph.children k = [] then 0 else rank k + 1)
      fun id k hstep => ?_
    have hcontainer : c.graph.children id ≠ [] := List.ne_nil_of_mem hstep
    simp only [if_neg hcontainer]
    split
    · exact Nat.succ_pos _
    · next hinner =>
      have hdeclared : c.graph.isDeclared (.node k) = true := by
        rcases h.registered.inner id _ hstep with rfl | hdeclared
        · obtain ⟨_, n, heq, hn, hkind⟩ := h.listed _ hstep
          obtain rfl := TypeRef.node.inj heq
          rw [Graph.children_of_node? hn] at hinner
          cases n with
          | message | enumeration => exact Graph.isDeclared_of_node? hn
          | extension | service => exact absurd rfl hinner
          | _ => cases hkind
        · exact hdeclared
      exact Nat.succ_lt_succ (hrank _ ((h.registered.children id k hdeclared).1 hstep))
  declared container t ht := by
    rcases h.registered.inner container t ht with rfl | hdeclared
    · exact .inr ⟨rfl, h.listed t ht⟩
    · exact .inl hdeclared

end ApiProto.Compile
