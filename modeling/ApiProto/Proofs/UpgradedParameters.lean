import ApiProto.Proofs.OperationTranslation
import ApiProto.Proofs.Upgrade

/-!
# Parameters of both versions

What is read of a parameter in both versions is the same but for the references.

* `Tally` — two readings that come to related results, or both fail.
* `Parameter.read_upgrade_reference`, `Parameter.read_upgrade_given` — references to shared
  parameters, and parameters that are given in place.
* `readParameter_upgrade` — what is read of a parameter that is not in the body.
-/

namespace ApiProto.Document

open Text

/-! ## Readings -/

/-- Two readings that come to related results, or both fail. -/
def Tally {α β : Type} (R : α → β → Prop) : Except Error α → Except Error β → Prop
  | .ok a, .ok b => R a b
  | .error _, .error _ => True
  | _, _ => False

namespace Tally

variable {α β γ δ : Type} {R : α → β → Prop} {S : γ → δ → Prop} {r : Except Error α}
  {r' : Except Error β}

theorem of_map {k : α → β} (hR : ∀ a, R a (k a)) (h : r' = r.map k) : Tally R r r' := by
  subst h
  cases r with
  | ok a => exact hR a
  | error e => trivial

theorem refl {R : α → α → Prop} (hR : ∀ a, R a a) (r : Except Error α) : Tally R r r := by
  cases r with
  | ok a => exact hR a
  | error e => trivial

theorem mono {R' : α → β → Prop} (h : Tally R r r') (hR : ∀ a b, R a b → R' a b) :
    Tally R' r r' := by
  rcases r with e | a <;> rcases r' with e' | b
  · trivial
  · exact h.elim
  · exact h.elim
  · exact hR a b h

theorem bind {f : α → Except Error γ} {f' : β → Except Error δ} (h : Tally R r r')
    (hf : ∀ a b, R a b → Tally S (f a) (f' b)) : Tally S (r >>= f) (r' >>= f') := by
  rcases r with e | a <;> rcases r' with e' | b
  · trivial
  · exact h.elim
  · exact h.elim
  · exact hf a b h

/-- Two readings one after the other, and in the other order. -/
theorem bind_swap {ε : Type} {s : Except Error ε} {f : α → ε → Except Error γ}
    {f' : ε → β → Except Error δ} (h : Tally R r r')
    (hf : ∀ a b c, R a b → Tally S (f a c) (f' c b)) :
    Tally S (r >>= fun a => s >>= f a) (s >>= fun c => r' >>= f' c) := by
  rcases r with e | a <;> rcases r' with e' | b <;> rcases s with e'' | c
  · trivial
  · trivial
  · exact h.elim
  · exact h.elim
  · exact h.elim
  · exact h.elim
  · trivial
  · exact hf a b c h

theorem map {f : α → γ} {f' : β → δ} (h : Tally R r r') (hf : ∀ a b, R a b → S (f a) (f' b)) :
    Tally S (r.map f) (r'.map f') := by
  rcases r with e | a <;> rcases r' with e' | b
  · trivial
  · exact h.elim
  · exact h.elim
  · exact hf a b h

theorem framed (frame frame' : String) (h : Tally R r r') :
    Tally R (framed frame r) (ApiProto.framed frame' r') := by
  rcases r with e | a <;> rcases r' with e' | b
  · trivial
  · exact h.elim
  · exact h.elim
  · exact h

theorem mapM {ι κ : Type} {l : List ι} {l' : List κ} {Q : ι → κ → Prop} {f : ι → Except Error α}
    {f' : κ → Except Error β} (h : List.Forall₂ Q l l')
    (hf : ∀ a ∈ l, ∀ b, Q a b → Tally R (f a) (f' b)) :
    Tally (List.Forall₂ R) (l.mapM f) (l'.mapM f') := by
  induction h with
  | nil => exact .nil
  | @cons a b l l' hab _ ih =>
    rw [List.mapM_cons, List.mapM_cons]
    refine (hf a (List.mem_cons_self ..) b hab).bind fun x y hxy => ?_
    refine (ih fun c hc => hf c (List.mem_cons_of_mem _ hc)).bind fun xs ys hall => ?_
    exact .cons hxy hall

end Tally

/-! ## Members -/

section Members

variable {key key' : String} {v member : Value}

theorem member?_keepMembers (keep : String → Bool) (v : Value) (key : String) :
    (keepMembers keep v).member? key = if keep key = true then v.member? key else none := by
  cases v with
  | object entries =>
    show (entries.filter fun entry => keep entry.1).lookup key =
      if keep key = true then entries.lookup key else none
    induction entries with
    | nil => simp
    | cons entry rest ih =>
      obtain ⟨k, v⟩ := entry
      rw [List.filter_cons, List.lookup_cons]
      by_cases hk : key = k
      · subst hk
        by_cases hkeep : keep key = true
        · simp [hkeep]
        · rw [if_neg hkeep, ih, if_neg hkeep, if_neg hkeep]
      · rw [beq_false_of_ne hk]
        split
        · rw [List.lookup_cons, beq_false_of_ne hk]
          exact ih
        · exact ih
  | _ => simp [keepMembers, Value.member?]

theorem member?_addMember (h : key' ≠ key) :
    (addMember key member v).member? key' = v.member? key' := by
  cases v with
  | object entries =>
    show ((key, member) :: entries).lookup key' = entries.lookup key'
    rw [List.lookup_cons, beq_false_of_ne h]
  | _ => rfl

theorem member?_addMember_self (entries : List (String × Value)) :
    (addMember key member (.object entries)).member? key = some member := by
  show ((key, member) :: entries).lookup key = _
  rw [List.lookup_cons, beq_self_eq_true]

variable {data data' : Value}

theorem readChoices_congr (h : data'.member? "enum" = data.member? "enum") :
    readChoices data' = readChoices data := by
  rw [readChoices, readChoices, h]

theorem readTypes_congr (htype : data'.member? "type" = data.member? "type")
    (hnullable : data'.member? "nullable" = data.member? "nullable") :
    readTypes data' = readTypes data := by
  simp only [readTypes, htype, hnullable]

theorem plainMember_congr (h : data'.member? key = data.member? key) :
    plainMember key data' = plainMember key data := by
  rw [plainMember, plainMember, h]

theorem textMember_congr (h : data'.member? key = data.member? key) :
    textMember key data' = textMember key data := by
  rw [textMember, textMember, h]

end Members

/-! ## Parameters -/

/-- The items of a parameter. -/
def readParameterItems : Option Value → Except Error (Option Schema)
  | some (.object e) => (Schema.read (.object e)).map some
  | _ => .ok none

/-- Items of a parameter are read before what comes next. -/
theorem bind_readParameterItems (o : Option Value) (f : Option Schema → Except Error Parameter) :
    (match o with
      | some (.object e) => (Schema.read (.object e)).map some >>= f
      | _ => pure none >>= f) = readParameterItems o >>= f := by
  rcases o with _ | v
  · rfl
  · cases v <;> rfl

theorem bind_readItems (o : Option Value) (f : Option Schema → Except Error Parameter) :
    (match o with
      | some (.object e) => (Schema.read (.object e)).map some >>= f
      | some (.bool b) => (Schema.read (.bool b)).map some >>= f
      | _ => pure none >>= f) = readItems o >>= f := by
  rcases o with _ | v
  · rfl
  · cases v <;> rfl

/-- A parameter is read member by member. -/
theorem Parameter.read_eq (entries : List (String × Value)) :
    Parameter.read (.object entries) = do
      let choices ← readChoices (.object entries)
      let items ← readParameterItems ((Value.object entries).member? "items")
      let schema ← readItems ((Value.object entries).member? "schema")
      let tag ← readTag ((Value.object entries).member? "x-proto-tag")
      return {
        name := textMember "name" (.object entries)
        location := textMember "in" (.object entries)
        description := textMember "description" (.object entries)
        required := (((Value.object entries).member? "required").map fun v => !v.isEmpty).getD false
        ref := textMember "$ref" (.object entries)
        types := readTypes (.object entries)
        format := plainMember "format" (.object entries)
        choices := choices
        items := items
        schema := schema
        tag := tag } := by
  unfold Parameter.read
  rw [if_neg (by simp [Value.entries?])]
  refine bind_congr fun choices => (bind_readParameterItems _ _).trans ?_
  exact bind_congr fun items => bind_readItems _ _

/-- A reference to a shared parameter is the same in both versions but for its start. -/
theorem Parameter.read_upgrade_reference {data : Value} {ref : String}
    (href : data.member? "$ref" = some (.text ref)) (hne : ref ≠ "") :
    Tally Parameter.SharedTranslates (Parameter.read data)
      (Parameter.read (upgradeParameter data)) := by
  rcases data with _ | _ | _ | _ | _ | _ | _ | _ | _ | entries <;> try cases href
  have hsame : ∀ key, key ≠ "$ref" → (upgradeParameter (.object entries)).member? key =
      (Value.object entries).member? key := by
    intro key hkey
    rw [upgradeParameter, if_pos (by simp [href])]
    exact member?_mapMembers_of_same (fun v => if_neg hkey) _
  have htext : textMember "$ref" (.object entries) = .text ref := by
    simp [textMember, href, Value.isEmpty, hne]
  have htext' : textMember "$ref" (upgradeParameter (.object entries)) =
      .text (translateRef ref) := by
    rw [upgradeParameter, if_pos (by simp [href]),
      textMember_translateValue (funext fun _ => if_pos rfl), htext]
    rfl
  obtain ⟨entries', hentries'⟩ :
      ∃ entries', upgradeParameter (.object entries) = .object entries' := by
    rw [upgradeParameter, if_pos (by simp [href])]
    exact ⟨_, rfl⟩
  rw [hentries'] at hsame htext' ⊢
  rw [read_eq, read_eq, readChoices_congr (hsame "enum" (by decide)), hsame "items" (by decide),
    hsame "schema" (by decide), hsame "x-proto-tag" (by decide), htext, htext']
  refine .bind (.refl (R := Eq) (fun _ => rfl) _) fun choices _ heq => ?_
  subst heq
  refine .bind (.refl (R := Eq) (fun _ => rfl) _) fun items _ heq => ?_
  subst heq
  refine .bind (.refl (R := Eq) (fun _ => rfl) _) fun schema _ heq => ?_
  subst heq
  refine .bind (.refl (R := Eq) (fun _ => rfl) _) fun tag _ heq => ?_
  subst heq
  exact {
    name := textMember_congr (hsame "name" (by decide))
    location := textMember_congr (hsame "in" (by decide))
    tag := rfl
    reference := ⟨ref, rfl, rfl⟩
    property := fun hempty => by simp [Value.isEmpty, hne] at hempty
    isArray := rfl }

/-- What the values of a parameter are is read as a schema of its own. -/
theorem Schema.read_valueMembers {entries : List (String × Value)}
    (h : Older.IsGiven (.object entries)) :
    Schema.read (keepMembers isValueMember (.object entries)) = do
      let choices ← readChoices (.object entries)
      let items ← readParameterItems ((Value.object entries).member? "items")
      return { Schema.blank with
        types := readTypes (.object entries)
        format := plainMember "format" (.object entries)
        choices := choices
        items := items } := by
  obtain ⟨kept, hkept⟩ : ∃ kept, keepMembers isValueMember (.object entries) = .object kept :=
    ⟨_, rfl⟩
  have hmember : ∀ key, kept.lookup key =
      if isValueMember key = true then (Value.object entries).member? key else none := by
    intro key
    have hkeep := member?_keepMembers isValueMember (.object entries) key
    rwa [hkept] at hkeep
  have htext : ∀ key, isValueMember key = false → textMember key (.object kept) = .text "" := by
    intro key hkey
    rw [textMember, show (Value.object kept).member? key = _ from hmember key, hkey]
    rfl
  have hchoices : readChoices (.object kept) = readChoices (.object entries) :=
    readChoices_congr ((hmember "enum").trans (if_pos (by decide)))
  have htypes : readTypes (.object kept) = readTypes (.object entries) :=
    readTypes_congr ((hmember "type").trans (if_pos (by decide)))
      ((hmember "nullable").trans ((if_neg (by decide)).trans h.nullable.symm))
  have hformat : plainMember "format" (.object kept) = plainMember "format" (.object entries) :=
    plainMember_congr ((hmember "format").trans (if_pos (by decide)))
  have hitems : readItems (kept.lookup "items") =
      readParameterItems ((Value.object entries).member? "items") := by
    rw [hmember, if_pos (by decide)]
    rcases hi : (Value.object entries).member? "items" with _ | v
    · rfl
    · obtain ⟨e, rfl⟩ := h.items v hi
      rfl
  rw [hkept, read_eq, hchoices, htypes, hformat, hitems, htext "$ref" (by decide),
    htext "description" (by decide), htext "x-proto-name" (by decide),
    show (Value.object kept).member? "x-proto-tag" = none from
      (hmember "x-proto-tag").trans (if_neg (by decide)),
    (hmember "properties").trans (if_neg (by decide)),
    (hmember "additionalProperties").trans (if_neg (by decide))]
  rfl

/-- What becomes of a parameter that is given in place: what its values are goes into a schema, and
all else stays. -/
structure Parameter.Moved (entries moved : List (String × Value)) : Prop where
  schema : (Value.object moved).member? "schema" =
    some (retarget (keepMembers isValueMember (.object entries)))
  values : ∀ key, key ≠ "schema" → isValueMember key = true →
    (Value.object moved).member? key = none
  others : ∀ key, key ≠ "schema" → isValueMember key = false →
    (Value.object moved).member? key = (Value.object entries).member? key

theorem Parameter.upgrade_given {entries : List (String × Value)}
    (h : Older.IsGiven (.object entries)) :
    ∃ moved, upgradeParameter (.object entries) = .object moved ∧ Moved entries moved := by
  have hupgrade : upgradeParameter (.object entries) =
      addMember "schema" (retarget (keepMembers isValueMember (.object entries)))
        (keepMembers (fun key => !isValueMember key) (.object entries)) := by
    rw [upgradeParameter, if_neg (by simp [h.reference])]
  obtain ⟨moved, hmoved⟩ : ∃ moved, upgradeParameter (.object entries) = .object moved :=
    hupgrade ▸ ⟨_, rfl⟩
  refine ⟨moved, hmoved, ?_, fun key hkey hvalue => ?_, fun key hkey hvalue => ?_⟩
  · rw [← hmoved, hupgrade]
    exact member?_addMember_self _
  · rw [← hmoved, hupgrade, member?_addMember hkey, member?_keepMembers, hvalue]
    rfl
  · rw [← hmoved, hupgrade, member?_addMember hkey, member?_keepMembers, hvalue]
    rfl

/-- Items that have been read are there if and only if the parameter is an array. -/
theorem Parameter.isSome_items_given {entries : List (String × Value)}
    (h : Older.IsGiven (.object entries)) {items : Option Schema}
    (hitems : readParameterItems ((Value.object entries).member? "items") = .ok items) :
    items.isSome = (readTypes (.object entries)).contains "array" := by
  rw [← h.array]
  rcases hi : (Value.object entries).member? "items" with _ | v
  · rw [hi] at hitems
    obtain rfl := Except.ok.inj hitems
    rfl
  · obtain ⟨e, rfl⟩ := h.items v hi
    rw [hi] at hitems
    obtain ⟨s, -, rfl⟩ := map_eq_ok_iff.1 hitems
    rfl

/-- A parameter that is given in place is read as the parameter of its schema. -/
theorem Parameter.read_upgrade_given {data : Value} (h : Older.IsGiven data) :
    Tally Parameter.SharedTranslates (Parameter.read data)
      (Parameter.read (upgradeParameter data)) := by
  rcases data with _ | _ | _ | _ | _ | _ | _ | _ | _ | entries <;> try trivial
  obtain ⟨moved, hmoved, hmembers⟩ := upgrade_given h
  have hsame := hmembers.others
  have hread : readItems ((Value.object moved).member? "schema") =
      ((Schema.read (keepMembers isValueMember (.object entries))).map Schema.translated).map
        some := by
    rw [hmembers.schema, ← Schema.read_retarget]
    rfl
  have hchoices : readChoices (.object moved) = .ok [] := by
    rw [readChoices, hmembers.values "enum" (by decide) (by decide)]
    rfl
  rw [hmoved, read_eq, read_eq, hread, Schema.read_valueMembers h, hchoices,
    hmembers.values "items" (by decide) (by decide), hsame "x-proto-tag" (by decide) (by decide),
    h.schema]
  rcases readChoices (.object entries) with e | choices
  · trivial
  rcases hitems : readParameterItems ((Value.object entries).member? "items") with e | items
  · trivial
  rcases readTag ((Value.object entries).member? "x-proto-tag") with e | tag
  · trivial
  have href : textMember "$ref" (.object entries) = .text "" := by
    rw [textMember, h.reference]
  have href' : textMember "$ref" (.object moved) = .text "" := by
    rw [textMember, hsame "$ref" (by decide) (by decide), h.reference]
  exact {
    name := textMember_congr (hsame "name" (by decide) (by decide))
    location := textMember_congr (hsame "in" (by decide) (by decide))
    tag := rfl
    reference := ⟨"", href, href'⟩
    property := by
      intro _ key
      have htag : (if tag = 0 then (0 : Int) else tag) = tag := by
        split
        · next hzero => exact hzero.symm
        · rfl
      have hdescription : textMember "description" (.object moved) =
          textMember "description" (.object entries) :=
        textMember_congr (hsame "description" (by decide) (by decide))
      simp only [property, Schema.translated, Schema.blank, translatedEntries, translatedOption,
        hdescription, htag]
    isArray := by
      simp [isArray, isSome_items_given h hitems] }

theorem beginsWith_append (start rest : String) : beginsWith start (start ++ rest) = true := by
  rw [beginsWith, String.toList_append, dropStart?_append]
  rfl

theorem readParameter_shared (doc : Value) {data : Value} {ref : String}
    (href : data.member? "$ref" = some (.text ref))
    (hstart : (beginsWith Version.swagger2.parametersPrefix ref ||
      beginsWith Version.openapi3.parametersPrefix ref) = true) :
    readParameter doc data = Parameter.read data := by
  unfold readParameter
  rw [href]
  exact if_pos hstart

theorem readParameter_given (doc : Value) {data : Value} (h : data.member? "$ref" = none) :
    readParameter doc data = Parameter.read data := by
  unfold readParameter
  rw [h]

/-- A parameter that is not in the body. -/
theorem readParameter_upgrade (doc doc' : Value) {data : Value} (h : Older.IsParameter data) :
    Tally Parameter.SharedTranslates (readParameter doc data)
      (readParameter doc' (upgradeParameter data)) := by
  cases h with
  | @reference name href =>
    have href' : (upgradeParameter data).member? "$ref" =
        some (.text (Version.openapi3.parametersPrefix ++ name)) := by
      rw [upgradeParameter, if_pos (by simp [href]), member?_mapMembers, href]
      exact congrArg (fun ref => some (Value.text ref)) (translateRef_append (by decide) name)
    rw [readParameter_shared doc href (by rw [beginsWith_append, Bool.true_or]),
      readParameter_shared doc' href' (by rw [beginsWith_append, Bool.or_true])]
    refine Parameter.read_upgrade_reference href ?_
    simp [Version.parametersPrefix]
  | given h =>
    have href : (upgradeParameter data).member? "$ref" = none := by
      rw [upgradeParameter, if_neg (by simp [h.reference]), member?_addMember (by decide),
        member?_keepMembers, if_pos (by decide), h.reference]
    rw [readParameter_given doc h.reference, readParameter_given doc' href]
    exact Parameter.read_upgrade_given h

end ApiProto.Document
