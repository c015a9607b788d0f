import ApiProto.Proofs.UpgradedParameters

/-!
# Operations of both versions

What is read of an operation in both versions is the same but for the references: the parameter in
the body comes last in the older version and stands apart in the newer one, and the schema of a
response belongs to a media type there.

* `readBody_upgrade`, `readResponse_upgrade` — the parts of an operation.
* `readEndpoint_upgrade` — what is read of an operation.
-/

namespace ApiProto.Document

open Text

/-! ## Bodies -/

theorem dereference_given (doc : Value) {data : Value} (h : data.member? "$ref" = none) :
    dereference doc data = .ok data := by
  unfold dereference
  rw [dereferenceWithin]
  simp only [localRef?, h]

/-- The schema of a body in JSON. -/
theorem mediaSchema_jsonContent {schema : Value} (h : schema ≠ .null) :
    mediaSchema (some (jsonContent schema)) = .ok (some schema) := by
  have hentries : entriesWith "get" (some (jsonContent schema)) =
      .ok [("application/json", .object [("schema", schema)])] := rfl
  unfold mediaSchema
  rw [hentries]
  cases schema with
  | null => exact absurd rfl h
  | _ => rfl

/-- The parameter that stands for a body in JSON. -/
def bodyParameter (body : Value) (s : Schema) : Parameter where
  name := .text "body"
  location := .text "body"
  description := textMember "description" body
  required := ((body.member? "required").map fun v => !v.isEmpty).getD false
  ref := .text ""
  types := []
  format := ""
  choices := []
  items := none
  schema := some s
  tag := 0

theorem readBody_jsonContent (doc : Value) {body schema : Value} (href : body.member? "$ref" = none)
    (hbody : body.entries?.isNone = false)
    (hcontent : body.member? "content" = some (jsonContent schema)) (hnull : schema ≠ .null) :
    readBody doc body = (Schema.read schema).map fun s => [bodyParameter body s] := by
  unfold readBody
  rw [dereference_given doc href]
  show (if body.entries?.isNone = true then _ else _) = _
  rw [if_neg (by simp [hbody]), hcontent, mediaSchema_jsonContent hnull]
  show (Schema.read schema >>= _) = _
  rcases Schema.read schema with e | s <;> rfl

/-- The parameter in the body. -/
theorem readBody_upgrade (doc doc' : Value) {data : Value} (h : Older.IsBody data) :
    Tally (fun p l => ∃ p', l = [p'] ∧ p.Translates p') (readParameter doc data)
      (readBody doc' (upgradeBody data)) := by
  rcases data with _ | _ | _ | _ | _ | _ | _ | _ | _ | entries <;> try cases h.location
  obtain ⟨schema, hschema⟩ := h.schema
  have hbody : upgradeBody (.object entries) =
      addMember "content" (jsonContent (retarget (.object schema)))
        (keepMembers (fun key => ["description", "required"].contains key) (.object entries)) := by
    rw [upgradeBody, hschema]
    rfl
  have href : (upgradeBody (.object entries)).member? "$ref" = none := by
    rw [hbody, member?_addMember (by decide), member?_keepMembers, if_neg (by decide)]
  have hcontent : (upgradeBody (.object entries)).member? "content" =
      some (jsonContent (retarget (.object schema))) := by
    rw [hbody]
    exact member?_addMember_self _
  have hdescription : textMember "description" (upgradeBody (.object entries)) =
      textMember "description" (.object entries) := by
    refine textMember_congr ?_
    rw [hbody, member?_addMember (by decide), member?_keepMembers, if_pos (by decide)]
  have hentries : (upgradeBody (.object entries)).entries?.isNone = false := by
    rw [hbody]
    rfl
  have hchoices : readChoices (.object entries) = .ok [] := by
    rw [readChoices, h.choices]
    rfl
  have hread : readItems ((Value.object entries).member? "schema") =
      (Schema.read (.object schema)).map some := by
    rw [hschema]
    rfl
  rw [readParameter_given doc h.reference, Parameter.read_eq, hchoices, h.items, hread, h.tag]
  rw [readBody_jsonContent doc' href hentries hcontent (by rw [retarget]; simp),
    Schema.read_retarget]
  rcases Schema.read (.object schema) with e | s
  · trivial
  · refine ⟨_, rfl, ?_⟩
    have href : textMember "$ref" (.object entries) = .text "" := by
      rw [textMember, h.reference]
    have htext : ∀ key, (Value.object entries).member? key = some (.text "body") →
        textMember key (.object entries) = .text "body" := by
      intro key hkey
      rw [textMember, hkey]
      rfl
    refine ⟨(htext "name" h.name).symm, (htext "in" h.location).symm, rfl, ⟨"", href, rfl⟩,
      fun _ key => ?_⟩
    simp only [Parameter.property, bodyParameter, hdescription, if_true]
    cases s
    rfl

/-! ## Responses -/

/-- The schema of a response. -/
def responseSchema (data : Value) : Version → Except Error (Option Value)
  | .openapi3 => mediaSchema (data.member? "content")
  | .swagger2 => .ok ((data.member? "schema").filter fun v => !(v matches .null))

/-- The schema of a response, if it has one. -/
def readOptional : Option Value → Except Error (Option Schema)
  | none => .ok none
  | some schema => (Schema.read schema).map some

theorem readResponse_object (version : Version) (doc : Value) {entries : List (String × Value)}
    (href : (Value.object entries).member? "$ref" = none) :
    readResponse version doc (.object entries) =
      (responseSchema (.object entries) version >>= readOptional).map fun schema =>
        ⟨textMember "description" (.object entries), schema⟩ := by
  have hentries : entriesWith "get" (some (.object entries)) = .ok entries := by
    cases entries <;> rfl
  have hfinish : ∀ (schema : Option Value) (f : Option Schema → Response),
      (match schema with
        | none => pure none >>= fun schema => pure (f schema)
        | some schema => (Schema.read schema).map some >>= fun schema => pure (f schema)) =
          (readOptional schema).map f := by
    rintro (_ | schema) f
    · rfl
    · show ((Schema.read schema).map some >>= _) = _
      rcases h : Schema.read schema with e | s <;> simp only [readOptional, h] <;> rfl
  unfold readResponse
  rw [dereference_given doc href]
  show (entriesWith "get" (some (.object entries)) >>= _) = _
  rw [hentries]
  cases version with
  | swagger2 => exact hfinish _ _
  | openapi3 =>
    show (mediaSchema ((Value.object entries).member? "content") >>= _) = _
    unfold responseSchema
    rcases mediaSchema ((Value.object entries).member? "content") with e | schema
    · rfl
    · exact hfinish _ _

/-- A response. -/
theorem readResponse_upgrade (doc doc' : Value) {data : Value} (h : Older.IsResponse data) :
    Tally (fun r r' => r' = r.translated) (readResponse .swagger2 doc data)
      (readResponse .openapi3 doc' (upgradeResponse data)) := by
  obtain ⟨entries, rfl⟩ := h.object
  rcases hschema : (Value.object entries).member? "schema" with _ | schema
  · have hsame : upgradeResponse (.object entries) = .object entries := by
      rw [upgradeResponse, hschema]
    rw [hsame, readResponse_object _ _ h.reference, readResponse_object _ _ h.reference,
      responseSchema, responseSchema, hschema, h.content]
    rfl
  · obtain ⟨moved, hmoved⟩ : ∃ moved, upgradeResponse (.object entries) = .object moved := by
      rw [upgradeResponse, hschema]
      exact ⟨_, rfl⟩
    have hupgrade : Value.object moved = addMember "content" (jsonContent (retarget schema))
        (keepMembers (fun key => key != "schema") (.object entries)) := by
      rw [← hmoved, upgradeResponse, hschema]
    have hmember : ∀ key, key ≠ "content" → key ≠ "schema" →
        (Value.object moved).member? key = (Value.object entries).member? key := by
      intro key hcontent hkey
      rw [hupgrade, member?_addMember hcontent, member?_keepMembers, if_pos (by simpa using hkey)]
    have hcontent : (Value.object moved).member? "content" =
        some (jsonContent (retarget schema)) := by
      rw [hupgrade]
      exact member?_addMember_self _
    have href := (hmember "$ref" (by decide) (by decide)).trans h.reference
    rw [hmoved, readResponse_object _ _ h.reference, readResponse_object _ _ href, responseSchema,
      responseSchema, hschema, hcontent,
      textMember_congr (hmember "description" (by decide) (by decide))]
    by_cases hnull : schema = .null
    · subst hnull
      rfl
    · have hretarget : retarget schema ≠ .null := by
        cases schema <;> first | exact absurd rfl hnull | exact nofun
      have hfilter : (some schema).filter (fun v => !(v matches .null)) = some schema := by
        cases schema <;> first | exact absurd rfl hnull | rfl
      rw [mediaSchema_jsonContent hretarget, hfilter]
      show Tally _ ((readOptional (some schema)).map _)
        ((readOptional (some (retarget schema))).map _)
      rw [readOptional, readOptional, Schema.read_retarget]
      rcases Schema.read schema with e | s
      · trivial
      · rfl

/-! ## Operations -/

theorem listOf_list (items : List Value) : listOf (some (.list items)) = .ok items := by
  cases items <;> rfl

theorem entriesWith_object (member : String) (entries : List (String × Value)) :
    entriesWith member (some (.object entries)) = .ok entries := by
  cases entries <;> rfl

theorem member?_upgradeOperation {key : String} (hkey : key ≠ "requestBody") (op : Value) :
    (upgradeOperation op).member? key = (op.member? key).map (upgradeOperationMember key) := by
  unfold upgradeOperation
  rcases bodyOf? op with _ | body
  · exact member?_mapMembers _ _ _
  · exact (member?_addMember hkey).trans (member?_mapMembers _ _ _)

theorem member?_upgradeOperation_of_same {key : String}
    (hkey : key ∉ ["requestBody", "parameters", "responses"]) (op : Value) :
    (upgradeOperation op).member? key = op.member? key := by
  simp only [List.mem_cons, List.not_mem_nil, or_false, not_or] at hkey
  have hid : upgradeOperationMember key = id := by
    funext v
    rw [upgradeOperationMember, if_neg hkey.2.1, if_neg hkey.2.2, id]
  rw [member?_upgradeOperation hkey.1, hid, Option.map_id, id]

/-- The parameters of an operation, those outside of the body first. -/
theorem Older.IsOperation.parameters_split {op : Value} (h : Older.IsOperation op) :
    ∃ (outside : List Value) (body : Option Value),
      listOf (op.member? "parameters") = .ok (outside ++ body.toList) ∧
      (∀ p ∈ outside, Older.IsParameter p) ∧ (∀ b ∈ body, Older.IsBody b) ∧ bodyOf? op = body ∧
      listOf ((upgradeOperation op).member? "parameters") =
        .ok (outside.map upgradeParameter) := by
  rw [member?_upgradeOperation (by decide)]
  unfold bodyOf?
  rcases hmember : op.member? "parameters" with _ | v
  · exact ⟨[], none, rfl, nofun, nofun, rfl, rfl⟩
  · obtain ⟨outside, body, rfl, houtside, hbody⟩ := h.parameters v hmember
    have hnone : outside.find? isInBody = none :=
      List.find?_eq_none.2 fun p hp => by simp [(houtside p hp).2]
    have hkept : outside.filter (fun item => !isInBody item) = outside :=
      List.filter_eq_self.2 fun p hp => by simp [(houtside p hp).2]
    have hinside : ∀ b ∈ body, isInBody b = true := by
      intro b hb
      simp [isInBody, (hbody b hb).location]
    refine ⟨outside, body, listOf_list _, fun p hp => (houtside p hp).1, hbody, ?_, ?_⟩
    · cases body with
      | none => simpa using hnone
      | some b => simp [hnone, hinside b rfl]
    · have hupgraded : upgradeOperationMember "parameters" (.list (outside ++ body.toList)) =
          .list (outside.map upgradeParameter) := by
        rw [upgradeOperationMember, if_pos rfl, upgradeParameters, List.filter_append, hkept]
        cases body with
        | none => simp
        | some b => simp [hinside b rfl]
      rw [Option.map_some, hupgraded]
      exact listOf_list _

/-- The parameter for the body of an operation, in the newer version. -/
def readOperationBody (version : Version) (doc : Value) (body : Option Value) :
    Except Error (List Parameter) :=
  match version, body with
  | .swagger2, _ | _, none | _, some .null => .ok []
  | .openapi3, some body => readBody doc body

/-- The responses of an operation. -/
def readResponses (version : Version) (doc op : Value) : Except Error (List (String × Response)) := do
  (← entriesWith "items" (op.member? "responses")).mapM fun (code, response) =>
    (readResponse version doc response).map fun r => (code, r)

/-- The operation with given parameters and responses. -/
def endpointOf (path : String) (verb : Verb) (op : Value) (parameters : List Parameter)
    (customOptions : List (String × Value)) (responses : List (String × Response)) : Endpoint where
  path := path
  verb := verb
  summary := textMember "summary" op
  description := textMember "description" op
  operationId := textMember "operationId" op
  parameters := parameters
  responses := responses
  customOptions := customOptions
  deprecated := (op.member? "deprecated") matches some (.bool true)

/-- An operation is read part by part. -/
theorem readEndpoint_object (version : Version) (doc : Value) (path : String) (verb : Verb)
    (entries : List (String × Value)) :
    readEndpoint version doc path verb (.object entries) = do
      let parameters ← readParameters doc (.object entries)
      let customOptions ← readCustomOptions ((Value.object entries).member? "x-options")
      let body ← readOperationBody version doc ((Value.object entries).member? "requestBody")
      let responses ← readResponses version doc (.object entries)
      let endpoint :=
        endpointOf path verb (.object entries) (parameters ++ body) customOptions responses
      return ⟨endpoint, rfl⟩ := by
  have hbody : ∀ (o : Option Value)
      (f : List Parameter → Except Error {e : Endpoint // e.verb = verb}),
      (match version, o with
        | .swagger2, _ | _, none | _, some .null => pure [] >>= f
        | .openapi3, some body => readBody doc body >>= f) =
          readOperationBody version doc o >>= f := by
    intro o f
    cases version with
    | swagger2 => rfl
    | openapi3 =>
      rcases o with _ | v
      · rfl
      · cases v <;> rfl
  unfold readEndpoint
  rw [if_neg (by simp [Value.entries?])]
  refine bind_congr fun parameters => bind_congr fun customOptions => (hbody _ _).trans ?_
  refine bind_congr fun body => ?_
  unfold readResponses
  rw [bind_assoc]
  rfl

theorem eq_map_of_forall₂ {α β : Type} {f : α → β} {l : List α} {l' : List β}
    (h : List.Forall₂ (fun a b => b = f a) l l') : l' = l.map f := by
  induction h with
  | nil => rfl
  | cons hab _ ih => rw [hab, ih, List.map_cons]

/-- The responses of an operation. -/
theorem readResponses_upgrade (doc doc' : Value) {op : Value} (h : Older.IsOperation op) :
    Tally (fun l l' => l' = l.map fun entry => (entry.1, entry.2.translated))
      (readResponses .swagger2 doc op) (readResponses .openapi3 doc' (upgradeOperation op)) := by
  have hkey : upgradeOperationMember "responses" = mapMembers fun _ => upgradeResponse := by
    funext v
    rw [upgradeOperationMember, if_neg (by decide), if_pos rfl]
  unfold readResponses
  rw [member?_upgradeOperation (by decide), hkey]
  rcases hmember : op.member? "responses" with _ | v
  · exact rfl
  · obtain ⟨entries, rfl, hresponses⟩ := h.responses v hmember
    rw [Option.map_some, mapMembers, entriesWith_object, entriesWith_object]
    have hpairs : List.Forall₂ (fun x y => y = (x.1, upgradeResponse x.2)) entries
        (entries.map fun entry => (entry.1, upgradeResponse entry.2)) := by
      rw [List.forall₂_map_right_iff, List.forall₂_same]
      exact fun _ _ => rfl
    refine (Tally.mapM (R := fun x y => y = (x.1, x.2.translated)) hpairs ?_).mono
      fun _ _ => eq_map_of_forall₂
    rintro ⟨code, response⟩ hentry _ rfl
    refine (readResponse_upgrade doc doc' (hresponses _ hentry)).map fun r r' hr => ?_
    rw [hr]

theorem mapM_readParameter_upgrade (doc doc' : Value) {l : List Value}
    (h : ∀ p ∈ l, Older.IsParameter p) :
    Tally (List.Forall₂ Parameter.Translates) (l.mapM (readParameter doc))
      ((l.map upgradeParameter).mapM (readParameter doc')) := by
  have hpairs : List.Forall₂ (fun p p' => p' = upgradeParameter p) l (l.map upgradeParameter) := by
    rw [List.forall₂_map_right_iff, List.forall₂_same]
    exact fun _ _ => rfl
  refine .mapM hpairs ?_
  rintro p hp _ rfl
  exact (readParameter_upgrade doc doc' (h p hp)).mono fun _ _ hp => hp.toTranslates

/-- The parameter in the body of an operation, if there is one. -/
theorem readOperationBody_upgrade (doc doc' : Value) {body : Option Value}
    (h : ∀ b ∈ body, Older.IsBody b) :
    Tally (List.Forall₂ Parameter.Translates) (body.toList.mapM (readParameter doc))
      (readOperationBody .openapi3 doc' (body.map upgradeBody)) := by
  cases body with
  | none => exact .nil
  | some b =>
    have hread : readOperationBody .openapi3 doc' (some (upgradeBody b)) =
        readBody doc' (upgradeBody b) := by
      rcases b with _ | _ | _ | _ | _ | _ | _ | _ | _ | entries <;> try cases (h _ rfl).location
      rfl
    have hsingle : [b].mapM (readParameter doc) = (readParameter doc b).map fun p => [p] := by
      rw [List.mapM_cons, List.mapM_nil]
      rcases readParameter doc b with e | p <;> rfl
    rw [Option.map_some, Option.toList_some, hread, hsingle]
    have hbody := readBody_upgrade doc doc' (h b rfl)
    generalize readParameter doc b = r at hbody ⊢
    generalize readBody doc' (upgradeBody b) = r' at hbody ⊢
    rcases r with e | p <;> rcases r' with e' | l
    · trivial
    · exact hbody.elim
    · exact hbody.elim
    · obtain ⟨p', rfl, hp⟩ := hbody
      exact .cons hp .nil

/-- An operation. -/
theorem readEndpoint_upgrade (doc doc' : Value) (path : String) (verb : Verb) {op : Value}
    (h : Older.IsOperation op) :
    Tally (fun e e' => e.1.Translates e'.1) (readEndpoint .swagger2 doc path verb op)
      (readEndpoint .openapi3 doc' path verb (upgradeOperation op)) := by
  rcases op with _ | _ | _ | _ | _ | _ | _ | _ | _ | entries <;> try trivial
  obtain ⟨outside, body, hlist, houtside, hbody, hbodyOf, hlist'⟩ := h.parameters_split
  have hresponses := readResponses_upgrade doc doc' h
  have hsame : ∀ key, key ∉ ["requestBody", "parameters", "responses"] →
      (upgradeOperation (.object entries)).member? key = (Value.object entries).member? key :=
    fun _ hkey => member?_upgradeOperation_of_same hkey _
  have hrequest : (upgradeOperation (.object entries)).member? "requestBody" =
      body.map upgradeBody := by
    unfold upgradeOperation
    rw [hbodyOf]
    cases body with
    | none => exact (member?_mapMembers _ _ _).trans (by rw [h.requestBody]; rfl)
    | some b => exact member?_addMember_self _
  obtain ⟨upgraded, hupgraded⟩ :
      ∃ upgraded, upgradeOperation (.object entries) = .object upgraded := by
    unfold upgradeOperation
    rcases bodyOf? (.object entries) with _ | b <;> exact ⟨_, rfl⟩
  rw [hupgraded] at hlist' hresponses hsame hrequest ⊢
  have hoptions := hsame "x-options" (by decide)
  rw [readEndpoint_object, readEndpoint_object, readParameters, readParameters, hlist, hlist',
    hrequest, hoptions]
  show Tally _ ((outside ++ body.toList).mapM (readParameter doc) >>= _)
    ((outside.map upgradeParameter).mapM (readParameter doc') >>= _)
  rw [List.mapM_append]
  simp only [bind_assoc, pure_bind]
  refine (mapM_readParameter_upgrade doc doc' houtside).bind fun ps ps' hps => ?_
  refine .bind_swap (readOperationBody_upgrade doc doc' hbody)
    fun inside inside' options hinside => ?_
  show Tally _ (readResponses .swagger2 doc (.object entries) >>= _) _
  refine hresponses.bind fun rs rs' hrs => ?_
  subst hrs
  refine ⟨?_, ?_⟩
  · simp only [endpointOf, textMember_congr (hsame "summary" (by decide)),
      textMember_congr (hsame "description" (by decide)),
      textMember_congr (hsame "operationId" (by decide)), hsame "deprecated" (by decide)]
  · show List.Forall₂ _ (ps ++ inside ++ []) (ps' ++ inside')
    rw [List.append_nil]
    exact List.rel_append hps hinside

end ApiProto.Document
