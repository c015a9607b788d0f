import ApiProto.Proofs.Registration

/-!
# Visible names

A type that is offered is not declared if its name is taken. The keys of declarations make sure that
in this case some type of the name can be found from the scope in which the type is offered.

* `Compilation.Visible` — a type of a name is declared in a container of a scope.
* `key_cons`, `eq_of_key_eq`, `next_of_key_append_eq` — keys spell out the names of their scopes.
* `Taken`, `Entered` — what the keys of a state say about a scope and the scopes inside it.
* `visible_declare`, `Taken.declare`, `Entered.declare` — declarations keep to that.
-/

namespace ApiProto.Proto

/-! ## Keys -/

section Keys

variable {g : Graph} {x : Nat} {scope outer : Scope} {name name' rest : String}

theorem intercalate_concat {s t : String} {l : List String} (hl : l ≠ []) :
    s.intercalate (l ++ [t]) = s.intercalate l ++ s ++ t := by
  induction l with
  | nil => exact absurd rfl hl
  | cons u l ih =>
    rcases List.eq_nil_or_concat l with rfl | ⟨l, v, rfl⟩
    · rw [List.singleton_append, String.intercalate_cons_of_ne_nil (by simp),
        String.intercalate_singleton, String.intercalate_singleton]
    · rw [List.cons_append, String.intercalate_cons_of_ne_nil (by simp), ih (by simp),
        String.intercalate_cons_of_ne_nil (by simp)]
      simp only [String.append_assoc]

/-- The key of a name inside a container goes on from the key of the container. -/
theorem Registry.key_cons (hscope : scope ≠ []) :
    key g (x :: scope) name = key g scope (g.typeName (.node x)) ++ "#" ++ name := by
  unfold key
  rw [List.reverse_cons, List.map_append, List.map_singleton, intercalate_concat (by simpa)]

theorem Registry.key_inj (h : key g scope name = key g scope name') : name = name' := by
  unfold key at h
  exact (String.append_right_inj _).1 h

theorem Registry.key_append_inj (h : key g scope name = key g scope name' ++ rest) :
    name = name' ++ rest := by
  unfold key at h
  simpa only [String.append_assoc, String.append_right_inj] using h

/-- The key of a name in a scope goes on from the key of the next container of any outer scope. -/
theorem Registry.key_of_suffix (houter : outer ≠ []) (h : x :: outer <:+ scope) :
    ∃ rest, key g scope name = key g outer (g.typeName (.node x)) ++ "#" ++ rest := by
  obtain ⟨before, rfl⟩ := h
  induction before generalizing name with
  | nil => exact ⟨name, key_cons houter⟩
  | cons y before ih =>
    obtain ⟨rest, hrest⟩ := @ih (g.typeName (.node y))
    refine ⟨rest ++ "#" ++ name, ?_⟩
    rw [List.cons_append, key_cons (by simp), hrest]
    simp only [String.append_assoc]

theorem eq_or_next_of_suffix {outer scope : Scope} (h : outer <:+ scope) :
    outer = scope ∨ ∃ x, x :: outer <:+ scope := by
  obtain ⟨before, rfl⟩ := h
  rcases List.eq_nil_or_concat before with rfl | ⟨before, x, rfl⟩
  · exact .inl rfl
  · exact .inr ⟨x, before, by simp⟩

theorem mem_sharp {s t : String} : '#' ∈ (s ++ "#" ++ t).toList := by
  simp

/-- Names without number sign are determined by what they are followed by. -/
theorem eq_of_append_sharp_eq {s s' t t' : String} (hs : '#' ∉ s.toList) (hs' : '#' ∉ s'.toList)
    (h : s ++ "#" ++ t = s' ++ "#" ++ t') : s = s' := by
  have htake : ∀ {s t : String}, '#' ∉ s.toList →
      (s ++ "#" ++ t).toList.takeWhile (· ≠ '#') = s.toList := by
    intro s t hs
    rw [String.toList_append, String.toList_append, List.append_assoc,
      List.takeWhile_append_of_pos]
    · simp
    · intro a ha
      simpa using fun heq : a = '#' => hs (heq ▸ ha)
  exact String.toList_inj.1 ((htake hs).symm.trans ((congrArg _ (congrArg _ h)).trans (htake hs')))

/-- Keys of names without number sign in two scopes, one around the other, differ. -/
theorem Registry.eq_of_key_eq (houter : outer ≠ []) (h : outer <:+ scope)
    (hname' : '#' ∉ name'.toList) (heq : key g outer name' = key g scope name) :
    outer = scope ∧ name' = name := by
  rcases eq_or_next_of_suffix h with rfl | ⟨x, hx⟩
  · exact ⟨rfl, key_inj heq⟩
  · obtain ⟨rest, hrest⟩ := @key_of_suffix g x scope outer name houter hx
    rw [hrest, String.append_assoc] at heq
    have hmem := mem_sharp (s := g.typeName (.node x)) (t := rest)
    rw [String.append_assoc, ← key_append_inj heq] at hmem
    exact absurd hmem hname'

/-- A key that goes on from that of a name in an outer scope goes through a container of that
name. -/
theorem Registry.next_of_key_append_eq (houter : outer ≠ []) (h : outer <:+ scope)
    (hname' : '#' ∉ name'.toList) (hname : '#' ∉ name.toList)
    (hnames : ∀ x, x :: outer <:+ scope → '#' ∉ (g.typeName (.node x)).toList)
    (heq : key g outer name' ++ "#" ++ rest = key g scope name) :
    ∃ x, x :: outer <:+ scope ∧ g.typeName (.node x) = name' := by
  rcases eq_or_next_of_suffix h with rfl | ⟨x, hx⟩
  · rw [String.append_assoc] at heq
    have hmem := mem_sharp (s := name') (t := rest)
    rw [String.append_assoc, ← key_append_inj heq.symm] at hmem
    exact absurd hmem hname
  · obtain ⟨rest', hrest'⟩ := @key_of_suffix g x scope outer name houter hx
    refine ⟨x, hx, ?_⟩
    rw [hrest', String.append_assoc, String.append_assoc] at heq
    have hsplit : g.typeName (.node x) ++ "#" ++ rest' = name' ++ "#" ++ rest := by
      unfold key at heq
      simp only [String.append_assoc, String.append_right_inj] at heq
      rw [String.append_assoc, String.append_assoc, heq]
    exact eq_of_append_sharp_eq (hnames x hx) hname' hsplit

theorem Registry.key_congr {g' : Graph}
    (h : ∀ x ∈ scope, g'.typeName (.node x) = g.typeName (.node x)) :
    key g' scope name = key g scope name := by
  unfold key
  rw [List.map_congr_left fun x hx => h x (List.mem_reverse.1 hx)]

end Keys

end ApiProto.Proto

namespace ApiProto.Compile

open Proto Document

variable {c c' : Compilation} {scope scope' inside opened : Scope} {name : String}

/-! ## Visible names -/

/-- A type of a name is declared in a container of a scope. -/
def Compilation.Visible (c : Compilation) (scope : Scope) (name : String) : Prop :=
  ∃ container ∈ scope, ∃ id, (container, id) ∈ c.registry.log ∧ c.graph.typeName (.node id) = name

theorem Compilation.Visible.subset (h : c.Visible scope name) (hsub : scope ⊆ scope') :
    c.Visible scope' name := by
  obtain ⟨container, hmem, hid⟩ := h
  exact ⟨container, hsub hmem, hid⟩

theorem not_visible_of_lookup (h : c.registry.lookup c.graph name scope = none) :
    ¬ c.Visible scope name := by
  rintro ⟨container, hmem, id, hlog, hname⟩
  unfold Registry.lookup at h
  split at h
  · cases h
  · have hnone := List.findSome?_eq_none_iff.1 h container hmem
    have hall := List.find?_eq_none.1 (Option.map_eq_none_iff.1 hnone) id (mem_declaredIn.2 hlog)
    simp [hname] at hall

theorem Compilation.Visible.of_grows (hr : c.Registered) (hgrows : c.Grows opened c')
    (h : c.Visible scope name) : c'.Visible scope name := by
  obtain ⟨container, hmem, id, hlog, hname⟩ := h
  refine ⟨container, hmem, id, hgrows.log.subset hlog, ?_⟩
  rw [hgrows.nodes.keepsNames.typeName_eq_of_isDeclared (hr.declared _ hlog), hname]

/-! ## Keys and scopes -/

/-- What has been offered in a scope or around it is visible there. -/
def Taken (c : Compilation) (scope : Scope) : Prop :=
  ∀ outer, outer <:+ scope → outer ≠ [] → ∀ name : String, '#' ∉ name.toList →
    Registry.key c.graph outer name ∈ c.registry.keys → c.Visible outer name

/-- Messages in which something has been offered are visible where they stand, unless they are still
being compiled. -/
def Entered (c : Compilation) (scope inside : Scope) : Prop :=
  ∀ outer, outer <:+ scope → outer ≠ [] → ∀ name rest : String, '#' ∉ name.toList →
    Registry.key c.graph outer name ++ "#" ++ rest ∈ c.registry.keys →
    c.Visible outer name ∨ ∃ x, x :: outer <:+ inside ∧ c.graph.typeName (.node x) = name

theorem key_eq_of_grows (hgrows : c.Grows opened c') (hnamed : ∀ x ∈ scope, c.graph.Named x) :
    Registry.key c'.graph scope name = Registry.key c.graph scope name := by
  refine Registry.key_congr fun x hx => ?_
  obtain ⟨n, own, hn, hown⟩ := hnamed x hx
  exact hgrows.nodes.keepsNames.typeName_eq hn hown

section Growth

variable (hr : c.Registered) (hgrows : c.Grows opened c')
include hr hgrows

theorem Taken.of_grows (hnamed : ∀ x ∈ scope, c.graph.Named x)
    (hkeys : c'.registry.keys = c.registry.keys) (h : Taken c scope) : Taken c' scope := by
  intro outer houter hne name hname hkey
  rw [key_eq_of_grows hgrows fun x hx => hnamed x (houter.subset hx), hkeys] at hkey
  exact (h outer houter hne name hname hkey).of_grows hr hgrows

theorem Entered.of_grows (hscope : scope <:+ inside) (hnamed : ∀ x ∈ inside, c.graph.Named x)
    (hkeys : c'.registry.keys = c.registry.keys) (h : Entered c scope inside) :
    Entered c' scope inside := by
  intro outer houter hne name rest hname hkey
  rw [key_eq_of_grows hgrows fun x hx => hnamed x (hscope.subset (houter.subset hx)), hkeys] at hkey
  rcases h outer houter hne name rest hname hkey with hvisible | ⟨x, hx, hxname⟩
  · exact .inl (hvisible.of_grows hr hgrows)
  · obtain ⟨n, own, hn, hown⟩ := hnamed x (hx.subset (List.mem_cons_self ..))
    exact .inr ⟨x, hx, (hgrows.nodes.keepsNames.typeName_eq hn hown).trans hxname⟩

end Growth

/-! ## Declarations -/

section Declaration

variable {parent id : Nat} (hr : c.Registered) (hparent : parent ∈ scope)
include hr hparent

/-- After a type has been offered, some type of its name is visible. -/
theorem visible_declare (hpackage : c.package ∈ scope) (htaken : Taken c scope)
    (hid : c.graph.isDeclared (.node id) = true) :
    (c.declare scope parent (.node id)).Visible scope (c.graph.typeName (.node id)) := by
  have hgrows : c.Grows scope (c.declare scope parent (.node id)) := .declare hparent _
  have hplain := hr.plain id hid
  have hsame := hgrows.nodes.keepsNames.typeName_eq_of_isDeclared hid
  have hlog : ∀ container ∈ scope, (container, id) ∈ c.registry.log →
      (c.declare scope parent (.node id)).Visible scope (c.graph.typeName (.node id)) :=
    fun container hmem hentry => ⟨container, hmem, id, hgrows.log.subset hentry, hsame⟩
  rcases Registry.register_cases c.graph c.registry (.node id) parent scope with
    ⟨-, hnot | hpoint | ⟨_, heq, hentry⟩ | hkey⟩ |
      ⟨_, heq, -, -, -, ⟨hentry, -⟩ | ⟨-, hregister⟩⟩
  · rw [hid] at hnot
    cases hnot
  · exact absurd hpoint (hplain.not_mem (by decide))
  · obtain rfl := TypeRef.node.inj heq
    exact hlog _ hpackage hentry
  · refine (htaken scope (List.suffix_refl _) (List.ne_nil_of_mem hparent) _
      (hplain.not_mem (by decide)) hkey).of_grows hr hgrows
  · obtain rfl := TypeRef.node.inj heq
    exact hlog parent hparent hentry
  · obtain rfl := TypeRef.node.inj heq
    refine ⟨parent, hparent, id, ?_, hsame⟩
    unfold Compilation.declare
    rw [hregister]
    exact List.mem_append_right _ (List.mem_singleton.2 rfl)

omit hr hparent in
/-- A key that comes with a declaration is that of the declared type. -/
theorem mem_keys_declare {k : String} {t : TypeRef}
    (h : k ∈ (c.declare scope parent t).registry.keys) : k ∈ c.registry.keys ∨
      k = Registry.key c.graph scope (c.graph.typeName t) ∧ c.graph.isDeclared t = true := by
  unfold Compilation.declare at h
  rcases Registry.register_cases c.graph c.registry t parent scope with
    ⟨heq, -⟩ | ⟨_, -, hdeclared, -, -, ⟨-, heq⟩ | ⟨-, heq⟩⟩ <;> rw [heq] at h
  · exact .inl h
  · rcases List.mem_append.1 h with h | h
    · exact .inl h
    · exact .inr ⟨List.mem_singleton.1 h, hdeclared⟩
  · rcases List.mem_append.1 h with h | h
    · exact .inl h
    · exact .inr ⟨List.mem_singleton.1 h, hdeclared⟩

theorem Taken.declare (hpackage : c.package ∈ scope) (hnamed : ∀ x ∈ scope, c.graph.Named x)
    (h : Taken c scope) (t : TypeRef) : Taken (c.declare scope parent t) scope := by
  have hgrows : c.Grows scope (c.declare scope parent t) := .declare hparent t
  intro outer houter hne name hname hkey
  rw [key_eq_of_grows hgrows fun x hx => hnamed x (houter.subset hx)] at hkey
  rcases mem_keys_declare hkey with hold | ⟨hnew, hdeclared⟩
  · exact (h outer houter hne name hname hold).of_grows hr hgrows
  · obtain ⟨rfl, rfl⟩ := Registry.eq_of_key_eq hne houter hname hnew
    cases t with
    | builtin => cases hdeclared
    | node id => exact visible_declare hr hparent hpackage h hdeclared

theorem Entered.declare (hscope : scope <:+ inside) (hnamed : ∀ x ∈ inside, c.graph.Named x)
    (hplain : ∀ x outer, x :: outer <:+ inside → outer ≠ [] →
      '#' ∉ (c.graph.typeName (.node x)).toList)
    (h : Entered c scope inside) (t : TypeRef) : Entered (c.declare scope parent t) scope inside := by
  have hgrows : c.Grows scope (c.declare scope parent t) := .declare hparent t
  have hsame : ∀ x ∈ inside, (c.declare scope parent t).graph.typeName (.node x) =
      c.graph.typeName (.node x) := by
    intro x hx
    obtain ⟨n, own, hn, hown⟩ := hnamed x hx
    exact hgrows.nodes.keepsNames.typeName_eq hn hown
  intro outer houter hne name rest hname hkey
  rw [key_eq_of_grows hgrows fun x hx => hnamed x (hscope.subset (houter.subset hx))] at hkey
  rcases mem_keys_declare hkey with hold | ⟨hnew, hdeclared⟩
  · rcases h outer houter hne name rest hname hold with hvisible | ⟨x, hx, hxname⟩
    · exact .inl (hvisible.of_grows hr hgrows)
    · exact .inr ⟨x, hx, (hsame x (hx.subset (List.mem_cons_self ..))).trans hxname⟩
  · have hsharp : '#' ∉ (c.graph.typeName t).toList := by
      cases t with
      | builtin => cases hdeclared
      | node id => exact (hr.plain id hdeclared).not_mem (by decide)
    obtain ⟨x, hx, hxname⟩ := Registry.next_of_key_append_eq hne houter hname hsharp
      (fun x hx => hplain x outer (hx.trans hscope) hne) hnew
    have hx' := hx.trans hscope
    exact .inr ⟨x, hx', (hsame x (hx'.subset (List.mem_cons_self ..))).trans hxname⟩

end Declaration

end ApiProto.Compile
