import ApiProto.Proofs.MergedParameters

/-!
# Annotated fields

The HTTP option of a procedure names fields of its request: one for the body, and those that stand in
the path. It has the names of parameters as they are written, and the fields have them in snake case,
so the fields are there, under names that need not be those of the option.

* `Parameter.Plain`, `Parameter.fieldName?` — parameters whose fields are called by their names.
* `Operation.Tells` — no other parameter takes the place of a given one.
* `IsFieldOf.fieldName?` — the name of the field of a parameter.
* `annotations_name_fields` — the fields for the names in HTTP options.
-/

namespace ApiProto.Document

open Compile (sharedParameter?)

/-! ## Names of fields -/

/-- A schema, or what it lists, refers to a shared parameter. -/
def Schema.RefersToParameter (spec : Spec) (s : Schema) : Prop :=
  ∃ j name, Schema.HasItems s j ∧ j.ref.keyText = .ok (spec.parametersPrefix ++ name)

namespace Parameter

variable (spec : Spec) (q : Parameter)

/-- The parameter with the name and the location of a given one: the shared parameter that it refers
to, if it does. -/
def effective : Parameter := (sharedParameter? spec q).getD q

/-- The name of a parameter in snake case. -/
def fieldName? : Option String := (q.effective spec).name.text?.map Name.snake

/-- The field of the parameter is called by its name. -/
inductive Plain : Prop
  | inline (noReference : q.ref.isEmpty = true)
      (schema : ∀ key, ¬ (q.property key).RefersToParameter spec) : Plain
  | shared (p : Parameter) (shared : sharedParameter? spec q = some p)
      (noReference : p.ref.isEmpty = true) (named : p.name.isEmpty = false) : Plain
  | typed (ref : String) (reference : q.ref = .text ref) (nonempty : ref ≠ "")
      (notShared : Text.stringAfter? spec.parametersPrefix ref = none)
      (named : q.name.isEmpty = false) : Plain

variable {spec q}

theorem sharedParameter?_of_isEmpty (hspec : spec.SharesApart) (h : q.ref.isEmpty = true) :
    sharedParameter? spec q = none := by
  rcases hp : sharedParameter? spec q with _ | p
  · rfl
  · obtain ⟨name, href, -⟩ := sharedParameter?_eq_some.1 hp
    simp [href, Value.isEmpty, hspec.nonempty] at h

theorem sharedParameter?_of_typed {ref : String} (href : q.ref = .text ref)
    (hnot : Text.stringAfter? spec.parametersPrefix ref = none) :
    sharedParameter? spec q = none := by
  simp [sharedParameter?, href, Value.text?, hnot]

theorem effective_of_none (h : sharedParameter? spec q = none) : q.effective spec = q := by
  simp [effective, h]

theorem effective_of_some {p : Parameter} (h : sharedParameter? spec q = some p) :
    q.effective spec = p := by
  simp [effective, h]

/-- One step leads to the end of the references. -/
theorem Plain.followed (hspec : spec.SharesApart) (h : q.Plain spec) :
    q.followed spec spec.parameters.length = q.effective spec := by
  cases h with
  | inline href _ =>
    have hnone := sharedParameter?_of_isEmpty hspec href
    rw [followed_of_none hnone, effective_of_none hnone]
  | typed ref href _ hnot _ =>
    have hnone := sharedParameter?_of_typed href hnot
    rw [followed_of_none hnone, effective_of_none hnone]
  | shared p hp href _ =>
    obtain ⟨name, -, hlookup⟩ := sharedParameter?_eq_some.1 hp
    obtain ⟨n, hn⟩ : ∃ n, spec.parameters.length = n + 1 := by
      rcases hl : spec.parameters with _ | ⟨first, rest⟩
      · simp [hl] at hlookup
      · exact ⟨rest.length, rfl⟩
    rw [hn, followed_succ hp, followed_of_none (sharedParameter?_of_isEmpty hspec href),
      effective_of_some hp]

/-- The name in an option is that of the shared parameter. -/
theorem Plain.name_eq (hspec : spec.SharesApart) (h : q.Plain spec) :
    (if (q.effective spec).name.isEmpty then q.name else (q.effective spec).name) =
      (q.effective spec).name := by
  cases h with
  | inline href _ => rw [effective_of_none (sharedParameter?_of_isEmpty hspec href), ite_self]
  | typed ref href _ hnot _ => rw [effective_of_none (sharedParameter?_of_typed href hnot), ite_self]
  | shared p hp _ hname => rw [effective_of_some hp, if_neg (by simp [hname])]

end Parameter

/-- A parameter without references has a field of its name. -/
theorem Parameter.plain_of_blank {spec : Spec} {q : Parameter} (hspec : spec.SharesApart)
    (href : q.ref.isEmpty = true)
    (hblank : ∀ key, (q.property key).ref = .text "" ∧ (q.property key).items = none) :
    q.Plain spec := by
  refine .inline href fun key ⟨j, name, hj, hkey⟩ => ?_
  obtain ⟨hnone, hitems⟩ := hblank key
  cases hj with
  | items hsome _ => cases hitems.symm.trans hsome
  | self =>
    rw [hnone] at hkey
    have hempty : "" = spec.parametersPrefix ++ name := Except.ok.inj hkey
    exact hspec.nonempty (String.append_eq_empty_iff.1 hempty.symm).1

/-- Parameters with the key of a given one have its name, and their fields are called by it. -/
def Operation.Tells (spec : Spec) (op : Operation) (q : Parameter) : Prop :=
  ∀ other ∈ op.parameters, other.key? = q.key? →
    other.Plain spec ∧ other.fieldName? spec = q.fieldName? spec

/-- No other parameter takes the place of one if all have different keys. -/
theorem Operation.tells_of_nodup {spec : Spec} {op : Operation}
    (hplain : ∀ q ∈ op.parameters, q.Plain spec)
    (hkeys : (op.parameters.map Parameter.key?).Nodup) :
    ∀ q ∈ op.parameters, op.Tells spec q := by
  intro q hq other hother hsame
  obtain rfl := List.inj_on_of_nodup_map hkeys hother hq hsame
  exact ⟨hplain other hother, rfl⟩

end ApiProto.Document

namespace ApiProto.Compile

open Proto Document

variable {env : Environment} {g : Graph} {c c₂ : Compilation} {q : Parameter}
  {f : Proto.Field TypeRef Value} {op : Operation} {rpc : Rpc TypeRef}

theorem eq_text_of_text? {v : Value} {word : String} (h : v.text? = some word) :
    v = .text word := by
  cases v <;> simp_all [Value.text?]

/-- A reference to anything but a shared parameter stands for a type. -/
theorem Compilation.Shared.definition_type (hc : c.Shared env) {ref : String} {d : Definition}
    (hnot : Text.stringAfter? env.spec.parametersPrefix ref = none)
    (h : c.definition? ref = some d) : ∃ t, d = .type t := by
  unfold Compilation.definition? at h
  split at h
  · exact ⟨_, (Option.some.inj h).symm⟩
  · obtain ⟨before, after, heq, -⟩ := List.lookup_eq_some_iff.1 h
    rcases hc.entries (ref, d) (by simp [heq]) with htype | ⟨name, -, hkey⟩
    · exact htype
    · obtain rfl : ref = env.spec.parametersPrefix ++ name := hkey
      simp [Text.stringAfter?_append] at hnot

/-- The field of a parameter is called by the name of the parameter. -/
theorem IsFieldOf.fieldName? (hf : IsFieldOf env g c q f) (hspec : env.spec.SharesApart)
    (hc : c.Shared env) (hplain : q.Plain env.spec) : q.fieldName? env.spec = some f.name := by
  cases hplain with
  | inline href hschema =>
    obtain ⟨key, s, hs, scope, c₁, c₂, p, number, hsame, hp, -, t, rfl, -⟩ := hf
    obtain ⟨hkey, ⟨hnot, -⟩ | ⟨-, word, hword, hsnake, rfl⟩⟩ := parameterSchema_cases hs
    · rw [href] at hnot
      cases hnot
    have htypes : c₁.RefersToTypes (q.property key) := by
      intro j hj ref href' entry hentry hsame'
      rcases hc.entries entry (hsame ▸ hentry) with htype | ⟨name, -, hname⟩
      · exact htype
      · exact absurd ⟨j, name, hj, href'.trans (congrArg _ (hsame'.symm.trans hname))⟩ (hschema _)
    obtain ⟨d, c₃, hd, -, hfield⟩ := compileProperty_cases hp
    obtain ⟨t', rfl⟩ := compilePropertyType_type htypes hd
    obtain ⟨_, _, _, _, hnot, -⟩ | ⟨_, name, -, hname, rfl⟩ := hfield
    · cases hnot
    have hproperty : (q.property key).protoName = .text key := by
      unfold Parameter.property
      split <;> rfl
    have hname : Name.fieldName name = key := by
      rw [part, hproperty] at hname
      rw [eq_of_protoName hname, Name.fieldName_eq_snake, q.snake_key? hkey]
    rw [Parameter.fieldName?, Parameter.effective_of_none
      (Parameter.sharedParameter?_of_isEmpty hspec href), eq_text_of_wordText hword]
    exact congrArg some (hsnake.symm.trans hname.symm)
  | shared p hp _ hname =>
    obtain ⟨name, href, hlookup⟩ := sharedParameter?_eq_some.1 hp
    obtain ⟨_, _, _, _, given, _, -, hgiven, -, -, -, -, hfield, -⟩ :=
      hf.shared hspec hc href hlookup
    rw [Parameter.fieldName?, Parameter.effective_of_some hp, eq_text_of_wordText (hgiven hname),
      hfield]
    rfl
  | typed ref href hne hnot hname =>
    obtain ⟨d, hd, -, hfield⟩ := hf.reference href hne
    obtain ⟨t, rfl⟩ := hc.definition_type hnot hd
    have hkey : q.key? = some f.name := hfield
    have hsome : q.ref.isEmpty = false := by simp [href, Value.isEmpty, hne]
    rw [Parameter.fieldName?, Parameter.effective_of_none
      (Parameter.sharedParameter?_of_typed href hnot)]
    have hkey' : q.key? = q.name.wordText.toOption.map Name.snake := by
      simp [Parameter.key?, href, hname, Value.keyText, Value.display, Except.bind]
    rcases hword : q.name.wordText with e | word <;> rw [hword] at hkey'
    · cases hkey'.symm.trans hkey
    · rw [eq_text_of_wordText hword]
      exact hkey'.symm.trans hkey

/-! ## Fields for names -/

/-- A parameter whose place no other one takes has a field of its name. -/
theorem Gives.exists_field (h : Gives env c₂.graph op rpc)
    (hrun : compilePhases env (startOf env) = .ok ((), c₂)) (hspec : env.spec.SharesApart)
    (hnew : NewRequest env op) (hq : q ∈ op.parameters) (htells : op.Tells env.spec q) :
    ∃ f ∈ fieldsOf c₂.graph rpc.parameter, q.fieldName? env.spec = some f.name := by
  obtain ⟨item, c, l, -, hreaches, hperm, hfields⟩ := h.request_fields hrun hnew
  have hkey : q.key? ∈ (lastsBy Parameter.key? op.parameters).map Parameter.key? :=
    (mem_map_lastsBy _).2 (List.mem_map_of_mem hq)
  obtain ⟨last, hlast, hsame⟩ := List.mem_map.1 hkey
  obtain ⟨hplain, hname⟩ := htells last ((lastsBy_sublist _ _).subset hlast) hsame
  obtain ⟨f, hf, hfield⟩ := exists_of_mem_forall₂ hfields (hperm.mem_iff.2 hlast)
  exact ⟨f, hf, hname.symm.trans (hfield.fieldName? hspec (hreaches.shared hspec) hplain)⟩

theorem bodyField_cases {spec : Spec} {parameters : List Parameter}
    (h : bodyField spec parameters ≠ "") :
    ∃ q ∈ parameters, (q.effective spec).location = .text "body" ∧
      bodyField spec parameters = (if (q.effective spec).name.isEmpty then q.name
        else (q.effective spec).name).display := by
  unfold bodyField at h ⊢
  dsimp only at h ⊢
  rcases hfound : parameters.findSome? _ with _ | name
  · rw [hfound] at h
    exact absurd rfl h
  · obtain ⟨q, hq, hname⟩ := List.exists_of_findSome?_eq_some hfound
    refine ⟨q, hq, ?_⟩
    split at hname
    · next hbody => exact ⟨hbody, (Option.some.inj hname).symm⟩
    · cases hname

theorem httpOption_ok {spec : Spec} {verb : Verb} {path : String} {parameters : List Parameter}
    {option : RpcOption} (h : httpOption spec verb path parameters = .ok option) :
    ∃ base, option = .http verb.word (fullPath base path) (bodyField spec parameters) := by
  unfold httpOption at h
  split at h
  · exact ⟨"", (Except.ok.inj h).symm⟩
  · rcases hbase : spec.basePath.textWith "rstrip" with e | base <;> rw [hbase] at h
    · cases h
    · exact ⟨base, (Except.ok.inj h).symm⟩

/-- The field for the body in an HTTP option is named by the parameters. -/
theorem Gives.http_body (h : Gives env g op rpc) {method path body : String}
    (hoption : .http method path body ∈ rpc.options) :
    body = bodyField env.spec op.parameters := by
  obtain ⟨http, hhttp, hoptions⟩ := h.options
  rw [hoptions, List.mem_append] at hoption
  rcases hoption with hmem | hmem
  · split at hhttp
    · rcases hrun : httpOption env.spec op.endpoint.verb op.path op.parameters with e | option <;>
        rw [hrun] at hhttp
      · cases hhttp
      · obtain ⟨base, rfl⟩ := httpOption_ok hrun
        obtain rfl := Except.ok.inj hhttp
        cases List.mem_singleton.1 hmem
        rfl
    · rw [hhttp] at hmem
      cases hmem
  · simp at hmem

/-- The names of parameters in the HTTP options of a package, for the body and for what stands in a
path, are in snake case those of fields of the requests. -/
theorem annotations_name_fields {options : Options} {spec : Spec} {o : Output}
    (h : compile options spec = .ok o) (hskip : options.skipRpcs = false)
    (hspec : spec.SharesApart) :
    ∃ s, o.service? = some s ∧ List.Forall₂ (fun op rpc => NewRequest ⟨options, spec⟩ op →
        ∀ method path body, .http method path body ∈ rpc.options →
          (body ≠ "" →
            (∀ q ∈ op.parameters, (q.effective spec).location = .text "body" → op.Tells spec q) →
            ∃ f ∈ fieldsOf o.graph rpc.parameter, f.name = Name.snake body) ∧
          ∀ q ∈ op.parameters, op.Tells spec q → ∀ v, q.identity spec = (.text v, .text "path") →
            ∃ f ∈ fieldsOf o.graph rpc.parameter, f.name = Name.snake v)
      (firstsBy Operation.name? spec.operations) s.rpcs := by
  obtain ⟨s, hs, hrpcs⟩ := exists_service h hskip
  obtain ⟨c, hrun, rfl⟩ := compile_ok_iff.1 h
  have hphases := (compileAll_ok_iff.1 hrun).1
  refine ⟨s, hs, hrpcs.imp fun op rpc hgives hnew method path body hoption => ⟨?_, ?_⟩⟩
  · intro hsome htells
    obtain rfl := hgives.http_body hoption
    obtain ⟨q, hq, hbody, hname⟩ := bodyField_cases hsome
    obtain ⟨f, hf, hfield⟩ := hgives.exists_field hphases hspec hnew hq (htells q hq hbody)
    refine ⟨f, hf, ?_⟩
    obtain ⟨v, hv, hsnake⟩ := Option.map_eq_some_iff.1 hfield
    rw [hname, (htells q hq hbody q hq rfl).1.name_eq hspec, eq_text_of_text? hv]
    exact hsnake.symm
  · intro q hq htells v hv
    obtain ⟨f, hf, hfield⟩ := hgives.exists_field hphases hspec hnew hq htells
    refine ⟨f, hf, ?_⟩
    have hname : (q.effective spec).name = .text v := by
      rw [← (htells q hq rfl).1.followed hspec]
      exact (Prod.mk.inj hv).1
    rw [Parameter.fieldName?, hname] at hfield
    exact (Option.some.inj hfield).symm

/-- An operation with a parameter in its path and one in the body. -/
def petUpdate : Operation :=
  ⟨"/pets/\x7bpetId\x7d", [], .taking .put "updatePet" [.scalar "petId" "path" "integer",
    .body "petBody" (.object [("weight", .scalar "integer")])]⟩

/-- Whether a procedure has an HTTP option, and a request with fields of given names. -/
def hasAnnotated (method path body : String) (names : List String) (c : Compilation) : Bool :=
  (Output.service? ⟨c.graph, c.package⟩).any fun s => s.rpcs.any fun rpc =>
    (rpc.options.any fun option => match option with
      | .http m p b => (m, p, b) == (method, path, body)
      | .custom .. => false) &&
    (fieldsOf c.graph rpc.parameter).map (·.name) == names

theorem exists_of_hasAnnotated {method path body : String} {names : List String}
    (h : hasAnnotated method path body names c = true) :
    ∃ s rpc, Output.service? ⟨c.graph, c.package⟩ = some s ∧ rpc ∈ s.rpcs ∧
      .http method path body ∈ rpc.options ∧
      (fieldsOf c.graph rpc.parameter).map (·.name) = names := by
  obtain ⟨s, hs, h⟩ := Option.any_eq_true _ _ |>.1 h
  obtain ⟨rpc, hrpc, h⟩ := List.any_eq_true.1 h
  obtain ⟨hoptions, hnames⟩ := Bool.and_eq_true_iff.1 h
  obtain ⟨option, hmem, hoption⟩ := List.any_eq_true.1 hoptions
  refine ⟨s, rpc, hs, hrpc, ?_, eq_of_beq hnames⟩
  cases option with
  | custom name value => cases hoption
  | http m p b =>
    cases eq_of_beq hoption
    exact hmem

theorem annotations_name_fields_petUpdate : ∃ o s rpc,
    compile ⟨true, false, false, false, "pet"⟩ (.ofOperation [] petUpdate) = .ok o ∧
    (Spec.ofOperation [] petUpdate).SharesApart ∧
    NewRequest ⟨⟨true, false, false, false, "pet"⟩, .ofOperation [] petUpdate⟩ petUpdate ∧
    (∀ q ∈ petUpdate.parameters, petUpdate.Tells (.ofOperation [] petUpdate) q) ∧
    o.service? = some s ∧ rpc ∈ s.rpcs ∧
    .http "put" "/pets/\x7bpetId\x7d" "petBody" ∈ rpc.options ∧
    (∃ f ∈ fieldsOf o.graph rpc.parameter, f.name = Name.snake "petBody") ∧
    ∃ f ∈ fieldsOf o.graph rpc.parameter, f.name = Name.snake "petId" := by
  obtain ⟨c, hcompile, htest⟩ := compile_of_compilesTo
    (show compilesTo ⟨true, false, false, false, "pet"⟩ (.ofOperation [] petUpdate)
      (hasAnnotated "put" "/pets/\x7bpetId\x7d" "petBody" ["pet_body", "pet_id"]) = true by
        decide +kernel)
  have hspec : (Spec.ofOperation [] petUpdate).SharesApart :=
    Spec.sharesApart_of_version .swagger2 rfl rfl
  have hnew : NewRequest ⟨⟨true, false, false, false, "pet"⟩, .ofOperation [] petUpdate⟩ petUpdate :=
    newRequest_of_only (by decide +kernel)
  have hplain : ∀ q ∈ petUpdate.parameters, q.Plain (.ofOperation [] petUpdate) := by
    intro q hq
    obtain rfl | rfl := List.mem_pair.1 hq
    · exact Parameter.plain_of_blank hspec rfl fun _ => ⟨rfl, rfl⟩
    · exact Parameter.plain_of_blank hspec rfl fun _ => ⟨rfl, rfl⟩
  have htells := Operation.tells_of_nodup hplain (by decide +kernel)
  obtain ⟨s, rpc, hs, hrpc, hoption, -⟩ := exists_of_hasAnnotated htest
  obtain ⟨s', hs', hrpcs⟩ := annotations_name_fields hcompile rfl hspec
  obtain rfl : s = s' := Option.some.inj (hs.symm.trans hs')
  have hops : firstsBy Operation.name? (Spec.ofOperation [] petUpdate).operations = [petUpdate] :=
    rfl
  rw [hops] at hrpcs
  obtain ⟨rpc', rest, hfields, hrest, heq⟩ := List.forall₂_cons_left_iff.1 hrpcs
  obtain rfl := List.forall₂_nil_left_iff.1 hrest
  obtain rfl : rpc = rpc' := by simpa [heq] using hrpc
  obtain ⟨hbody, hpath⟩ := hfields hnew _ _ _ hoption
  exact ⟨_, s, rpc, hcompile, hspec, hnew, htells, hs, hrpc, hoption,
    hbody (by decide) fun q hq _ => htells q hq,
    hpath (.scalar "petId" "path" "integer") (List.mem_cons_self ..)
      (htells _ (List.mem_cons_self ..)) "petId" rfl⟩

/-- The names in the option are not those of fields. -/
theorem not_fields_petUpdate : ∃ o s rpc,
    compile ⟨true, false, false, false, "pet"⟩ (.ofOperation [] petUpdate) = .ok o ∧
    o.service? = some s ∧ rpc ∈ s.rpcs ∧
    .http "put" "/pets/\x7bpetId\x7d" "petBody" ∈ rpc.options ∧
    (fieldsOf o.graph rpc.parameter).map (·.name) = ["pet_body", "pet_id"] := by
  obtain ⟨c, hcompile, htest⟩ := compile_of_compilesTo
    (show compilesTo ⟨true, false, false, false, "pet"⟩ (.ofOperation [] petUpdate)
      (hasAnnotated "put" "/pets/\x7bpetId\x7d" "petBody" ["pet_body", "pet_id"]) = true by
        decide +kernel)
  obtain ⟨s, rpc, hs, hrpc, hoption, hnames⟩ := exists_of_hasAnnotated htest
  exact ⟨_, s, rpc, hcompile, hs, hrpc, hoption, hnames⟩

end ApiProto.Compile
