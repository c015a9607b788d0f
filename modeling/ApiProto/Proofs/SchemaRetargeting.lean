import ApiProto.Proofs.SpecReading
import ApiProto.Proofs.Translation
import Mathlib.Data.List.Forall2

/-!
# Written schemas in the other version

In a written schema the references are members of objects, at any depth. With each of them in the
other version, the schema that is read is the one that was read before, in the other version.

* `retarget` — a written schema with all references in it in the other version.
* `Schema.read_eq` — a schema is read member by member.
* `Schema.read_retarget` — what is read of it.
-/

namespace ApiProto.Document

open Text

/-! ## Members -/

/-- A change of all values of an object, each of which may depend on the key. -/
def mapMembers (f : String → Value → Value) : Value → Value
  | .object entries => .object (entries.map fun entry => (entry.1, f entry.1 entry.2))
  | v => v

theorem lookup_mapMembers (f : String → Value → Value) (entries : List (String × Value))
    (key : String) : (entries.map fun entry => (entry.1, f entry.1 entry.2)).lookup key =
      (entries.lookup key).map (f key) := by
  induction entries with
  | nil => rfl
  | cons entry rest ih =>
    rw [List.map_cons, List.lookup_cons, List.lookup_cons, ih]
    split
    · next heq => rw [beq_iff_eq.1 heq, Option.map_some]
    · rfl

theorem member?_mapMembers (f : String → Value → Value) (v : Value) (key : String) :
    (mapMembers f v).member? key = (v.member? key).map (f key) := by
  cases v with
  | object entries => exact lookup_mapMembers f entries key
  | _ => rfl

/-- Members that are left alone can be read as before. -/
theorem member?_mapMembers_of_same {f : String → Value → Value} {key : String}
    (h : ∀ v, f key v = v) (v : Value) : (mapMembers f v).member? key = v.member? key := by
  rw [member?_mapMembers, show f key = id from funext h, Option.map_id, id]

/-! ## References -/

mutual

/-- A written schema with all references in it in the other version. -/
def retarget : Value → Value
  | .object entries => .object (retargetMembers entries)
  | v => v
termination_by structural v => v

/-- The members of a written schema: references, and schemas or objects of schemas. -/
def retargetMembers : List (String × Value) → List (String × Value)
  | [] => []
  | (key, v) :: rest =>
    (key,
      if key = "$ref" then translateValue v
      else if key = "properties" then retargetEach v
      else if key = "items" ∨ key = "additionalProperties" then retarget v
      else v) :: retargetMembers rest
termination_by structural entries => entries

/-- An object of written schemas. -/
def retargetEach : Value → Value
  | .object entries => .object (retargetEntries entries)
  | v => v
termination_by structural v => v

def retargetEntries : List (String × Value) → List (String × Value)
  | [] => []
  | (key, v) :: rest => (key, retarget v) :: retargetEntries rest
termination_by structural entries => entries

end

/-- A member of a written schema in the other version. -/
def retargetMember (key : String) (v : Value) : Value :=
  if key = "$ref" then translateValue v
  else if key = "properties" then retargetEach v
  else if key = "items" ∨ key = "additionalProperties" then retarget v
  else v

theorem retargetMembers_eq_map (entries : List (String × Value)) :
    retargetMembers entries = entries.map fun entry => (entry.1, retargetMember entry.1 entry.2) := by
  induction entries with
  | nil => rfl
  | cons entry rest ih => rw [retargetMembers, ih, List.map_cons, retargetMember]

theorem retarget_eq_mapMembers (v : Value) : retarget v = mapMembers retargetMember v := by
  cases v with
  | object entries => exact congrArg Value.object (retargetMembers_eq_map entries)
  | _ => rfl

theorem retargetEach_eq_mapMembers (v : Value) :
    retargetEach v = mapMembers (fun _ => retarget) v := by
  cases v with
  | object entries =>
    refine congrArg Value.object ?_
    induction entries with
    | nil => rfl
    | cons entry rest ih => rw [retargetEntries, ih, List.map_cons]
  | _ => rfl

/-- Members that hold neither a reference nor schemas are left alone. -/
theorem retargetMember_of_ne {key : String}
    (h : key ∉ ["$ref", "properties", "items", "additionalProperties"]) (v : Value) :
    retargetMember key v = v := by
  simp only [List.mem_cons, List.not_mem_nil, or_false, not_or] at h
  rw [retargetMember, if_neg h.1, if_neg h.2.1, if_neg (by simp [h.2.2])]

/-! ## Schemas -/

/-- The properties of a schema. -/
def readProperties : Option Value → Except Error (List (String × Schema))
  | none => .ok []
  | some (.object entries) => entries.mapM fun (name, prop) =>
    (Schema.read prop).map fun s => (name, s)
  | some v => if v.isEmpty then .ok [] else fail (.noMember v "items")

/-- The items of a schema. -/
def readItems : Option Value → Except Error (Option Schema)
  | some (.object e) => (Schema.read (.object e)).map some
  | some (.bool b) => (Schema.read (.bool b)).map some
  | _ => .ok none

/-- What a schema says of members that it does not list. -/
def readAdditional : Option Value → Except Error (Option Schema)
  | none | some .null | some (.bool false) => .ok none
  | some v => (Schema.read v).map some

/-- A schema is read member by member. -/
theorem Schema.read_eq (entries : List (String × Value)) :
    Schema.read (.object entries) = do
      let choices ← readChoices (.object entries)
      let properties ← readProperties (entries.lookup "properties")
      let items ← readItems (entries.lookup "items")
      let additional ← readAdditional (entries.lookup "additionalProperties")
      let tag ← readTag ((Value.object entries).member? "x-proto-tag")
      return {
        ref := textMember "$ref" (.object entries)
        types := readTypes (.object entries)
        format := plainMember "format" (.object entries)
        choices := choices
        description := textMember "description" (.object entries)
        properties := properties
        items := items
        additional := additional
        tag := tag
        protoName := textMember "x-proto-name" (.object entries) } := by
  rw [Schema.read]
  refine bind_congr fun choices => ?_
  refine congrArg₂ Bind.bind ?properties (funext fun properties => ?_)
  case properties =>
    split
    · next h => rw [h, readProperties]
    · next props h =>
      rw [h, readProperties]
      refine (List.mapM_subtype fun entry _ => rfl).trans ?_
      rw [List.unattach_attach]
      rfl
    · next v hobject h =>
      rw [h]
      cases v with
      | object props => exact (hobject props rfl).elim
      | _ => rfl
  refine congrArg₂ Bind.bind ?items (funext fun items => congrArg₂ Bind.bind ?additional rfl)
  case items =>
    split
    · next h => rw [h, readItems]
    · next h => rw [h, readItems]
    · next hobject hbool =>
      rcases h : entries.lookup "items" with _ | v
      · rfl
      · cases v with
        | object e => exact absurd h (hobject e)
        | bool b => exact absurd h (hbool b)
        | _ => rfl
  case additional =>
    split
    · next h => rw [h, readAdditional]
    · next h => rw [h, readAdditional]
    · next h => rw [h, readAdditional]
    · next v hnull hfalse h =>
      rw [h, readAdditional]
      · exact hnull
      · exact hfalse

/-! ## References in schemas -/

theorem mapM_except_map {α β γ δ ε : Type} {f : α → Except ε β} {f' : γ → Except ε δ} {g : α → γ}
    {k : β → δ} {l : List α} (h : ∀ a ∈ l, f' (g a) = (f a).map k) :
    (l.map g).mapM f' = (l.mapM f).map (List.map k) := by
  induction l with
  | nil => rfl
  | cons a rest ih =>
    rw [List.map_cons, List.mapM_cons, List.mapM_cons, h a (List.mem_cons_self ..),
      ih fun b hb => h b (List.mem_cons_of_mem _ hb)]
    rcases f a with e | b
    · rfl
    · rcases rest.mapM f with e | bs <;> rfl

/-- With its references in the other version, a value is read as the schema in the other version. -/
def ReadsRetargeted (v : Value) : Prop :=
  Schema.read (retarget v) = (Schema.read v).map Schema.translated

theorem readProperties_retarget {o : Option Value}
    (h : ∀ entries, o = some (.object entries) → ∀ entry ∈ entries, ReadsRetargeted entry.2) :
    readProperties (o.map retargetEach) = (readProperties o).map (List.map translateEntry) := by
  rcases o with _ | v
  · rfl
  · cases v with
    | object entries =>
      rw [Option.map_some, retargetEach_eq_mapMembers]
      refine mapM_except_map fun entry hentry => ?_
      have hread := h entries rfl entry hentry
      show (Schema.read (retarget entry.2)).map _ = ((Schema.read entry.2).map _).map translateEntry
      rw [hread]
      rcases Schema.read entry.2 with e | s <;> rfl
    | _ =>
      simp only [Option.map_some, retargetEach, readProperties]
      split <;> rfl

theorem readItems_retarget {o : Option Value} (h : ∀ v, o = some v → ReadsRetargeted v) :
    readItems (o.map retarget) = (readItems o).map (Option.map Schema.translated) := by
  rcases o with _ | v
  · rfl
  · have hread : ∀ r r' : Except Error Schema, r' = r.map Schema.translated →
        r'.map some = (r.map some).map (Option.map Schema.translated) := by
      rintro (e | s) _ rfl <;> rfl
    cases v with
    | object entries => exact hread _ _ (h _ rfl)
    | bool b => exact hread _ _ (h _ rfl)
    | _ => rfl

theorem readAdditional_retarget {o : Option Value} (h : ∀ v, o = some v → ReadsRetargeted v) :
    readAdditional (o.map retarget) = (readAdditional o).map (Option.map Schema.translated) := by
  rcases o with _ | v
  · rfl
  · have hread : ∀ r r' : Except Error Schema, r' = r.map Schema.translated →
        r'.map some = (r.map some).map (Option.map Schema.translated) := by
      rintro (e | s) _ rfl <;> rfl
    cases v with
    | null => rfl
    | bool b => cases b <;> first | rfl | exact hread _ _ (h _ rfl)
    | _ => exact hread _ _ (h _ rfl)

/-- A reference is read in the other version if it is written so. -/
theorem textMember_translateValue {f : String → Value → Value} (hf : f "$ref" = translateValue)
    (v : Value) : textMember "$ref" (mapMembers f v) = translateValue (textMember "$ref" v) := by
  have hempty : translateValue (.text "") = .text "" :=
    congrArg Value.text (show translateRef "" = "" by decide)
  rw [textMember, textMember, member?_mapMembers, hf]
  rcases v.member? "$ref" with _ | ref
  · exact hempty.symm
  · rw [Option.map_some]
    dsimp only
    rw [isEmpty_translateValue]
    split
    · exact hempty.symm
    · rfl

theorem Schema.read_object_retarget {entries : List (String × Value)}
    (h : ∀ key v, entries.lookup key = some v → ReadsRetargeted v)
    (hproperties : ∀ props, entries.lookup "properties" = some (.object props) →
      ∀ entry ∈ props, ReadsRetargeted entry.2) : ReadsRetargeted (.object entries) := by
  have hlookup : ∀ key, (retargetMembers entries).lookup key =
      (entries.lookup key).map (retargetMember key) := by
    intro key
    rw [retargetMembers_eq_map, lookup_mapMembers]
  have hsame : ∀ key, key ∉ ["$ref", "properties", "items", "additionalProperties"] →
      (Value.object (retargetMembers entries)).member? key = (Value.object entries).member? key := by
    intro key hkey
    refine (hlookup key).trans ?_
    rw [show retargetMember key = id from funext (retargetMember_of_ne hkey), Option.map_id]
    rfl
  have hchoices : readChoices (.object (retargetMembers entries)) = readChoices (.object entries) := by
    rw [readChoices, readChoices, hsame "enum" (by decide)]
  have htypes : readTypes (.object (retargetMembers entries)) = readTypes (.object entries) := by
    simp only [readTypes, hsame "type" (by decide), hsame "nullable" (by decide)]
  have hformat : plainMember "format" (.object (retargetMembers entries)) =
      plainMember "format" (.object entries) := by
    simp only [plainMember, hsame "format" (by decide)]
  have htext : ∀ key, key ∉ ["$ref", "properties", "items", "additionalProperties"] →
      textMember key (.object (retargetMembers entries)) = textMember key (.object entries) := by
    intro key hkey
    rw [textMember, textMember, hsame key hkey]
  have href := textMember_translateValue (f := retargetMember) (funext fun _ => if_pos rfl)
    (.object entries)
  unfold ReadsRetargeted
  rw [← retarget_eq_mapMembers, retarget] at href
  rw [retarget]
  rw [Schema.read_eq, Schema.read_eq, hchoices, htypes, hformat, href, hsame "x-proto-tag" (by decide),
    htext "description" (by decide), htext "x-proto-name" (by decide), hlookup, hlookup, hlookup,
    show retargetMember "properties" = retargetEach by funext v; simp [retargetMember],
    show retargetMember "items" = retarget by funext v; simp [retargetMember],
    show retargetMember "additionalProperties" = retarget by funext v; simp [retargetMember],
    readProperties_retarget hproperties, readItems_retarget (h "items"),
    readAdditional_retarget (h "additionalProperties")]
  rcases readChoices (.object entries) with e | choices
  · rfl
  rcases readProperties (entries.lookup "properties") with e | properties
  · rfl
  rcases readItems (entries.lookup "items") with e | items
  · rfl
  rcases readAdditional (entries.lookup "additionalProperties") with e | additional
  · rfl
  rcases readTag ((Value.object entries).member? "x-proto-tag") with e | tag
  · rfl
  refine congrArg Except.ok ?_
  rw [Schema.translated, translatedOption_eq_map, translatedOption_eq_map, translatedEntries_eq_map]

/-- A written schema with its references in the other version is read as the schema in the other
version. -/
theorem Schema.read_retarget (v : Value) :
    Schema.read (retarget v) = (Schema.read v).map Schema.translated := by
  induction hsize : sizeOf v using Nat.strongRecOn generalizing v with
  | ind n ih =>
    subst hsize
    cases v with
    | object entries =>
      refine read_object_retarget (fun key v hv => ih _ ?_ v rfl) fun props hprops entry hentry =>
        ih _ ?_ entry.2 rfl
      · have hlt := sizeOf_lt_of_lookup hv
        simp only [Value.object.sizeOf_spec]
        omega
      · have hlt := sizeOf_lt_of_lookup hprops
        have hmem := List.sizeOf_lt_of_mem hentry
        obtain ⟨key, v⟩ := entry
        simp only [Value.object.sizeOf_spec, Prod.mk.sizeOf_spec] at hlt hmem ⊢
        omega
    | _ =>
      simp only [retarget, Schema.read]
      rfl

end ApiProto.Document
