import ApiProto.Proofs.UpgradedOperations
import ApiProto.Proofs.UrlText
import Mathlib.Data.List.DropRight

/-!
# Documents of both versions

What is read of a document and of the same document in the newer version is the same but for the
references, and for slashes at the end of what stands before every path.

* `readPathItem_upgrade`, `readBasePath_upgrade`, `readShared_upgrade` — the parts of a document.
* `Spec.read_upgrade` — what is read of a document.
-/

namespace ApiProto.Document

open Text

/-! ## Paths -/

/-- A value that is no object has no entries. -/
theorem entriesWith_of_entries?_eq_none {v : Value} (h : v.entries? = none) (member : String) :
    entriesWith member (some v) = .ok [] ∨
      ∃ cause, entriesWith member (some v) = fail cause := by
  unfold entriesWith
  rcases Bool.eq_false_or_eq_true v.isEmpty with hempty | hempty <;> simp [hempty, h]

theorem entriesWith_mapMembers (member : String) (f : String → Value → Value) (v : Value) :
    entriesWith member (some (mapMembers f v)) = (entriesWith member (some v)).map fun entries =>
      entries.map fun entry => (entry.1, f entry.1 entry.2) := by
  rcases hentries : v.entries? with _ | entries
  · have hsame : mapMembers f v = v := by
      cases v <;> first | rfl | cases hentries
    rw [hsame]
    rcases entriesWith_of_entries?_eq_none hentries member with h | ⟨cause, h⟩ <;> rw [h] <;> rfl
  · obtain rfl : v = .object entries := by
      cases v <;> cases hentries
      rfl
    rw [mapMembers, entriesWith_object, entriesWith_object]
    rfl

/-- What is read from the entries of a value is what is read from its members. -/
theorem member?_of_entriesWith {member : String} {v : Value} {entries : List (String × Value)}
    (h : entriesWith member (some v) = .ok entries) (key : String) :
    (Value.object entries).member? key = v.member? key := by
  cases v with
  | object entries' =>
    rw [entriesWith_object] at h
    rw [Except.ok.inj h]
  | _ =>
    simp only [entriesWith] at h
    split at h
    · obtain rfl := Except.ok.inj h
      rfl
    · cases h

theorem upgradePathMember_verb (verb : Verb) :
    upgradePathMember verb.word = upgradeOperation := by
  funext op
  have hne : ∀ verb : Verb, verb.word ≠ "parameters" := by
    intro verb
    cases verb <;> decide
  have hmem : ∀ verb : Verb, (Verb.all.map Verb.word).contains verb.word = true := by
    intro verb
    cases verb <;> decide
  rw [upgradePathMember, if_neg (hne verb), if_pos (hmem verb)]

/-- The operation of a verb. -/
theorem readOperation?_upgrade (doc doc' : Value) (path : String) (verb : Verb) {o : Option Value}
    (h : ∀ op, o = some op → Older.IsOperation op) :
    Tally (Option.Rel fun e e' => e.1.Translates e'.1) (readOperation? .swagger2 doc path verb o)
      (readOperation? .openapi3 doc' path verb (o.map upgradeOperation)) := by
  rcases o with _ | op
  · exact .none
  · by_cases hnull : op = .null
    · subst hnull
      exact .none
    · have hop : upgradeOperation op ≠ .null := by
        unfold upgradeOperation
        rcases bodyOf? op with _ | b <;> cases op <;> first | exact absurd rfl hnull | exact nofun
      have hread : ∀ version doc (op : Value), op ≠ .null →
          readOperation? version doc path verb (some op) =
            (readEndpoint version doc path verb op).map some := by
        intro version doc op hop
        cases op <;> first | exact absurd rfl hop | rfl
      rw [Option.map_some, hread _ _ _ hnull, hread _ _ _ hop]
      exact (readEndpoint_upgrade doc doc' path verb (h op rfl)).map fun _ _ he => .some he

/-- The operations under some verbs. -/
theorem readEndpoints_upgrade (doc doc' : Value) (path : String) {item item' : Value}
    (h : ∀ verb : Verb, Tally (Option.Rel fun e e' => e.1.Translates e'.1)
      (readOperation? .swagger2 doc path verb (item.member? verb.word))
      (readOperation? .openapi3 doc' path verb (item'.member? verb.word))) (verbs : List Verb) :
    Tally (fun es es' => List.Forall₂ Endpoint.Translates es.1 es'.1)
      (readEndpoints .swagger2 doc path item verbs)
      (readEndpoints .openapi3 doc' path item' verbs) := by
  induction verbs with
  | nil => exact .nil
  | cons verb rest ih =>
    refine (h verb).bind fun found found' hfound => ih.bind fun es es' hes => ?_
    cases hfound with
    | none => exact hes
    | some he => exact .cons he hes

/-- The operations of a path. -/
theorem readPathItem_upgrade (doc doc' : Value) (path : String) {data : Value}
    (h : Older.IsPathItem data) :
    Tally PathItem.Translates (readPathItem .swagger2 doc path data)
      (readPathItem .openapi3 doc' path (upgradePathItem data)) := by
  rw [readPathItem, readPathItem, upgradePathItem, entriesWith_mapMembers]
  rcases hentries : entriesWith "get" (some data) with e | entries
  · trivial
  · have hmember := member?_of_entriesWith hentries
    have hmember' : ∀ key, (Value.object (entries.map fun entry =>
        (entry.1, upgradePathMember entry.1 entry.2))).member? key =
          (data.member? key).map (upgradePathMember key) := by
      intro key
      rw [← hmember]
      exact member?_mapMembers upgradePathMember (.object entries) key
    show Tally _ (readParameters doc (.object entries) >>= _) (readParameters doc' _ >>= _)
    refine .bind (R := List.Forall₂ Parameter.Translates) ?_ fun ps ps' hps => ?_
    · unfold readParameters
      rw [hmember, hmember']
      rcases hparameters : data.member? "parameters" with _ | v
      · exact .nil
      · obtain ⟨items, rfl, hitems⟩ := h.parameters v hparameters
        have hupgraded : upgradePathMember "parameters" (.list items) =
            .list (items.map upgradeParameter) := if_pos rfl
        rw [Option.map_some, hupgraded, listOf_list, listOf_list]
        exact mapM_readParameter_upgrade doc doc' hitems
    · refine (readEndpoints_upgrade doc doc' path (fun verb => ?_) Verb.all).bind
        fun es es' hes => ⟨hps, hes⟩
      rw [hmember, hmember', upgradePathMember_verb]
      exact readOperation?_upgrade doc doc' path verb (h.operations verb)

/-! ## Base paths -/

/-- A path on its own, without characters that have a meaning in URLs. -/
structure IsPlainPath (path : List Char) : Prop where
  plain : ∀ c ∈ path, c.isAlphanum = true ∨ c = '-' ∨ c = '_' ∨ c = '/'
  rooted : path.head? = some '/'
  single : path.tail.head? ≠ some '/'

theorem IsPlainPath.not_mem {path : List Char} (h : IsPlainPath path) {c : Char}
    (hc : (c.isAlphanum || c == '-' || c == '_' || c == '/') = false) : c ∉ path := by
  intro hmem
  rcases h.plain c hmem with halpha | rfl | rfl | rfl
  · simp [halpha] at hc
  all_goals simp at hc

theorem cutFirst_of_not_mem {c : Char} {cs : List Char} (h : c ∉ cs) : cutFirst c cs = none := by
  rcases hcut : cutFirst c cs with _ | ⟨a, b⟩
  · rfl
  · exact absurd (by simp [eq_append_of_cutFirst hcut]) h

theorem cutOr_of_not_mem {c : Char} {cs : List Char} (h : c ∉ cs) : cutOr c cs = (cs, []) := by
  rw [cutOr, cutFirst_of_not_mem h, Option.getD_none]

theorem cutParameters_of_not_mem {path : List Char} (h : ';' ∉ path) :
    Uri.cutParameters path = (path, []) := by
  unfold Uri.cutParameters
  rcases hcut : cutLast '/' path with _ | ⟨before, last⟩
  · exact cutOr_of_not_mem h
  · have hpath := Uri.eq_append_of_cutLast hcut
    have hlast : ';' ∉ last := fun hmem => h (by simp [hpath, hmem])
    dsimp only
    rw [cutOr_of_not_mem hlast, ← hpath]

/-- A plain path is a URL with nothing but a path. -/
theorem parse_plainPath {path : List Char} (h : IsPlainPath path) :
    (Uri.Url.parse path).map (·.path) = .ok path := by
  have hsanitize : Uri.sanitize path = path := by
    obtain ⟨rest, rfl⟩ : ∃ rest, path = '/' :: rest := by
      cases path with
      | nil => cases h.rooted
      | cons c rest => exact ⟨rest, by rw [Option.some.inj h.rooted]⟩
    rw [Uri.sanitize, List.dropWhile_cons_of_neg (by decide)]
    refine List.filter_eq_self.2 fun c hc => ?_
    have hne : ∀ d : Char, (d.isAlphanum || d == '-' || d == '_' || d == '/') = false → c ≠ d :=
      fun d hd heq => h.not_mem hd (heq ▸ hc)
    simp [hne '\t' (by decide), hne '\r' (by decide), hne '\n' (by decide)]
  have hscheme : Uri.cutScheme [] path = ([], path) := by
    rw [Uri.cutScheme, cutFirst_of_not_mem (h.not_mem (by decide))]
  have hauthority : Uri.cutAuthority path = ([], path) := by
    unfold Uri.cutAuthority
    split
    · exact absurd rfl h.single
    · rfl
  unfold Uri.Url.parse Uri.Url.parseWith
  rw [hsanitize, hscheme]
  dsimp only
  rw [hauthority]
  dsimp only
  rw [cutOr_of_not_mem (h.not_mem (by decide))]
  dsimp only
  rw [cutOr_of_not_mem (h.not_mem (by decide)), cutParameters_of_not_mem (h.not_mem (by decide))]
  rfl

theorem dropEndWhile_dropEndWhile (p : Char → Bool) (cs : List Char) :
    dropEndWhile p (dropEndWhile p cs) = dropEndWhile p cs := by
  simp only [dropEndWhile, List.reverse_reverse, List.dropWhile_idempotent]

/-- The path of a server that is given by a plain path. -/
theorem readServerPath_serversOf {path : String} (h : IsPlainPath path.toList) :
    readServerPath (some (serversOf (.text path))) =
      .ok (String.ofList (dropEndWhile (· == '/') path.toList)) := by
  have hne : path ≠ "" := by
    rintro rfl
    exact nomatch h.rooted
  have hurl : textMember "url" (.object [("url", .text path)]) = .text path := by
    simp [textMember, Value.member?, Value.isEmpty, hne]
  obtain ⟨url, hparse, hpath⟩ := map_eq_ok_iff.1 (parse_plainPath h)
  unfold readServerPath serversOf
  dsimp only
  rw [if_neg (by simp [Value.isEmpty]), hurl]
  show (Uri.Url.parse path.toList >>= _) = _
  rw [hparse]
  show Except.ok _ = _
  rw [hpath, dropEndWhile]

/-- What stands before every path is the same but for slashes at the end. -/
theorem readBasePath_upgrade {doc doc' : Value}
    (h : ∀ v, doc.member? "basePath" = some v → Older.IsBasePath v)
    (hservers : doc'.member? "servers" = (doc.member? "basePath").map serversOf) :
    Tally SameBasePath (readBasePath doc .swagger2) (readBasePath doc' .openapi3) := by
  have hnone : readBasePath doc' .openapi3 = (readServerPath (doc'.member? "servers")).map .text := rfl
  rw [hnone, hservers]
  have hempty : SameBasePath (.text "") (.text "") := ⟨"", "", rfl, rfl, rfl, rfl⟩
  rcases hbase : doc.member? "basePath" with _ | v
  · have htext : textMember "basePath" doc = .text "" := by rw [textMember, hbase]
    rw [readBasePath_other (by simp [htext]), htext]
    exact hempty
  · rw [Option.map_some]
    cases h v hbase with
    | empty =>
      have htext : textMember "basePath" doc = .text "" := by rw [textMember, hbase]; rfl
      rw [readBasePath_other (by simp [htext]), htext]
      exact hempty
    | @path rest hrest hplain =>
      have hpath : IsPlainPath ("/" ++ rest).toList := by
        refine ⟨fun c hc => ?_, by simp, by simpa using hrest⟩
        rw [String.toList_append, List.mem_append] at hc
        rcases hc with hc | hc
        · exact .inr (.inr (.inr (by simpa using hc)))
        · exact hplain c hc
      have htext : textMember "basePath" doc = .text ("/" ++ rest) := by
        simp [textMember, hbase, Value.isEmpty]
      rw [readServerPath_serversOf hpath]
      by_cases hroot : rest = ""
      · subst hroot
        rw [readBasePath_root htext]
        exact hempty
      · obtain ⟨c, hc, hslash⟩ : ∃ c ∈ rest.toList, c ≠ '/' := by
          rcases hchars : rest.toList with _ | ⟨c, _⟩
          · exact absurd (String.toList_eq_nil_iff.1 hchars) hroot
          · exact ⟨c, List.mem_cons_self .., fun heq => hrest (by rw [hchars, heq]; rfl)⟩
        have hne : textMember "basePath" doc ≠ .text "/" := by
          rw [htext]
          intro heq
          exact hroot ((String.append_right_inj "/").1 (Value.text.inj heq))
        have hstripped : dropEndWhile (· == '/') ("/" ++ rest).toList ≠ [] := by
          intro hnil
          rw [dropEndWhile, List.reverse_eq_nil_iff, List.dropWhile_eq_nil_iff] at hnil
          exact hslash (by simpa using hnil c (by simp [hc]))
        rw [readBasePath_other hne, htext]
        refine ⟨_, _, rfl, rfl, ?_, ?_⟩
        · rw [Bool.eq_iff_iff, String.isEmpty_iff, String.isEmpty_iff, String.ofList_eq_empty_iff]
          exact iff_of_false hstripped (by simp)
        · rw [String.toList_ofList, dropEndWhile_dropEndWhile]

/-! ## Documents -/

theorem entriesWith_map_mapMembers (member : String) (f : Value → Value) (o : Option Value) :
    entriesWith member (o.map (mapMembers fun _ => f)) = (entriesWith member o).map fun entries =>
      entries.map fun entry => (entry.1, f entry.2) := by
  cases o with
  | none => rfl
  | some v => exact entriesWith_mapMembers member (fun _ => f) v

/-- Entries come from an object. -/
theorem eq_object_of_entriesWith {member : String} {o : Option Value}
    {entries : List (String × Value)} (h : entriesWith member o = .ok entries) :
    entries = [] ∨ o = some (.object entries) := by
  rcases o with _ | v
  · exact .inl (Except.ok.inj h).symm
  · rcases hentries : v.entries? with _ | entries'
    · rcases entriesWith_of_entries?_eq_none hentries member with hok | ⟨cause, hfail⟩
      · exact .inl (Except.ok.inj (h.symm.trans hok))
      · exact nomatch h.symm.trans hfail
    · obtain rfl : v = .object entries' := by
        cases v <;> cases hentries
        rfl
      rw [entriesWith_object] at h
      exact .inr (by rw [Except.ok.inj h])

/-- Tables are read entry by entry. -/
theorem Tally.table {α : Type} {R : α → α → Prop} {member : String} {o : Option Value}
    {f : Value → Value} {read read' : String → Value → Except Error α}
    (h : ∀ entries, o = some (.object entries) → ∀ entry ∈ entries,
      Tally R (read entry.1 entry.2) (read' entry.1 (f entry.2))) :
    Tally (Entrywise R)
      (entriesWith member o >>= List.mapM fun entry =>
        (read entry.1 entry.2).map fun a => (entry.1, a))
      (entriesWith member (o.map (mapMembers fun _ => f)) >>= List.mapM fun entry =>
        (read' entry.1 entry.2).map fun a => (entry.1, a)) := by
  rw [entriesWith_map_mapMembers]
  rcases hentries : entriesWith member o with e | entries
  · trivial
  · have hread : ∀ entry ∈ entries, Tally R (read entry.1 entry.2) (read' entry.1 (f entry.2)) := by
      rcases eq_object_of_entriesWith hentries with rfl | ho
      · nofun
      · exact h entries ho
    have hpairs : List.Forall₂ (fun x y => y = (x.1, f x.2)) entries
        (entries.map fun entry => (entry.1, f entry.2)) := by
      rw [List.forall₂_map_right_iff, List.forall₂_same]
      exact fun _ _ => rfl
    refine (Tally.mapM (R := EntryRel R) hpairs ?_).mono fun _ _ => .of_forall₂
    rintro entry hentry _ rfl
    exact (hread entry hentry).map fun _ _ hab => ⟨rfl, hab⟩

theorem eq_map_of_entrywise {α : Type} {f : α → α} {l l' : List (String × α)}
    (h : Entrywise (fun a b => b = f a) l l') : l' = l.map fun entry => (entry.1, f entry.2) := by
  induction h with
  | nil => rfl
  | cons key hab _ ih => rw [hab, ih, List.map_cons]

/-- The definitions and shared parameters of a document. -/
theorem readShared_upgrade {doc doc' : Value} (h : Older.IsDocument doc) :
    Tally (fun shared shared' => shared'.1 = shared.1.map translateEntry ∧
        Entrywise Parameter.SharedTranslates shared.2 shared'.2)
      (readShared doc (doc, "definitions")) (readShared doc' (componentsOf doc, "schemas")) := by
  have hschemas : (componentsOf doc).member? "schemas" =
      (doc.member? "definitions").map (mapMembers fun _ => retarget) := by
    unfold componentsOf optionalMember
    cases doc.member? "definitions" <;> cases doc.member? "parameters" <;> rfl
  have hparameters : (componentsOf doc).member? "parameters" =
      (doc.member? "parameters").map (mapMembers fun _ => upgradeParameter) := by
    unfold componentsOf optionalMember
    cases doc.member? "definitions" <;> cases doc.member? "parameters" <;> rfl
  unfold readShared
  refine .framed _ _ ?_
  dsimp only
  rw [hschemas, hparameters, ← bind_assoc, ← bind_assoc]
  refine (@Tally.table _ (fun s s' => s' = s.translated) _ _ _ (fun _ => Schema.read)
    (fun _ => Schema.read) fun _ _ entry _ => ?_).bind fun definitions definitions' hd => ?_
  · rw [Schema.read_retarget]
    exact .of_map (fun _ => rfl) rfl
  · rw [← bind_assoc, ← bind_assoc]
    refine (@Tally.table _ Parameter.SharedTranslates _ _ _ (fun _ => readParameter doc)
      (fun _ => readParameter doc') fun entries ho entry hentry => ?_).bind
        fun parameters parameters' hp => ?_
    · exact readParameter_upgrade doc doc' (h.parameters entries ho entry hentry)
    · exact ⟨eq_map_of_entrywise hd, hp⟩

/-- The paths of a document. -/
theorem readPaths_upgrade {doc doc' : Value} (h : Older.IsDocument doc)
    (hpaths : doc'.member? "paths" =
      (doc.member? "paths").map (mapMembers fun _ => upgradePathItem)) :
    Tally (Entrywise PathItem.Translates) (readPaths .swagger2 doc) (readPaths .openapi3 doc') := by
  unfold readPaths
  rw [hpaths]
  refine @Tally.table _ PathItem.Translates _ _ _
    (fun path item => framed ("failed to read path " ++ path)
      (readPathItem .swagger2 doc path item))
    (fun path item => framed ("failed to read path " ++ path)
      (readPathItem .openapi3 doc' path item)) fun entries ho entry hentry => ?_
  exact (readPathItem_upgrade doc doc' entry.1 (h.paths entries ho entry hentry)).framed _ _

/-- Whether a member stays where it is in the newer version. -/
def staysInPlace (key : String) : Bool :=
  !(["swagger", "definitions", "parameters", "basePath"].contains key)

/-- A member that stays where it is. -/
def upgradeMember (key : String) (v : Value) : Value :=
  if key = "paths" then mapMembers (fun _ => upgradePathItem) v else v

section Members

variable (entries : List (String × Value))

theorem lookup_optionalMember (key key' : String) (member : Option Value) :
    (optionalMember key member).lookup key' = if key' = key then member else none := by
  cases member with
  | none => simp [optionalMember]
  | some v =>
    rw [optionalMember, Option.toList_some, List.map_singleton, List.lookup_cons]
    by_cases h : key' = key
    · simp [h]
    · simp [h, beq_false_of_ne h]

theorem member?_upgrade (key : String) (hversion : key ≠ "openapi") (hshared : key ≠ "components") :
    (upgrade (.object entries)).member? key =
      (if key = "servers" then ((Value.object entries).member? "basePath").map serversOf
        else none).or
      (if staysInPlace key = true then
        ((Value.object entries).member? key).map (upgradeMember key) else none) := by
  have hkept : ((entries.filter fun entry => staysInPlace entry.1).map fun entry =>
      (entry.1, upgradeMember entry.1 entry.2)).lookup key =
        if staysInPlace key = true then
          ((Value.object entries).member? key).map (upgradeMember key) else none := by
    have hkeep := member?_keepMembers staysInPlace (.object entries) key
    rw [lookup_mapMembers upgradeMember, show (entries.filter fun entry => staysInPlace entry.1).lookup
      key = _ from hkeep]
    split <;> rfl
  rw [← hkept, ← lookup_optionalMember, ← List.lookup_append]
  show (("openapi", _) :: ("components", _) :: _).lookup key = _
  rw [List.lookup_cons, beq_false_of_ne hversion, List.lookup_cons, beq_false_of_ne hshared]
  rfl

end Members

/-- What is read of a document and of the same document in the newer version. -/
theorem Spec.read_upgrade {doc : Value} (h : Older.IsDocument doc) :
    Tally Spec.Translates (Spec.read doc) (Spec.read (upgrade doc)) := by
  rcases doc with _ | _ | _ | _ | _ | _ | _ | _ | _ | entries <;> try trivial
  have hversion : versionOf (.object entries) = .swagger2 := by
    rw [versionOf, h.version "openapi" (by simp)]
    rfl
  have hversion' : versionOf (upgrade (.object entries)) = .openapi3 := rfl
  have hmember : ∀ key, key ∉ ["openapi", "components", "servers"] → staysInPlace key = true →
      (upgrade (.object entries)).member? key =
        ((Value.object entries).member? key).map (upgradeMember key) := by
    intro key hkey hstays
    simp only [List.mem_cons, List.not_mem_nil, or_false, not_or] at hkey
    rw [member?_upgrade entries key hkey.1 hkey.2.1, if_neg hkey.2.2, if_pos hstays, Option.none_or]
  have hsame : ∀ key, key ∉ ["openapi", "components", "servers"] → staysInPlace key = true →
      key ≠ "paths" →
        (upgrade (.object entries)).member? key = (Value.object entries).member? key := by
    intro key hkey hstays hpaths
    rw [hmember key hkey hstays, show upgradeMember key = id from funext fun v => if_neg hpaths,
      Option.map_id, id]
  have hservers : (upgrade (.object entries)).member? "servers" =
      ((Value.object entries).member? "basePath").map serversOf := by
    rw [member?_upgrade entries "servers" (by decide) (by decide), if_pos rfl,
      h.version "servers" (by simp), Option.map_none, ite_self, Option.or_none]
  have hpaths : (upgrade (.object entries)).member? "paths" =
      ((Value.object entries).member? "paths").map (mapMembers fun _ => upgradePathItem) :=
    hmember "paths" (by decide) (by decide)
  have hholder : readHolder (upgrade (.object entries)) .openapi3 =
      .ok (componentsOf (.object entries), "schemas") := by
    show (entriesWith "get" (some (componentsOf (.object entries)))).map _ = _
    unfold componentsOf
    rw [entriesWith_object]
    rfl
  rw [Spec.read_eq rfl, Spec.read_eq rfl, hversion, hversion', hholder,
    hsame "info" (by decide) (by decide) (by decide),
    hsame "x-global-options" (by decide) (by decide) (by decide),
    hsame "x-extensions" (by decide) (by decide) (by decide)]
  refine .bind (.refl (R := Eq) (fun _ => rfl) _) fun info _ heq => ?_
  subst heq
  show Tally _ (readBasePath _ _ >>= _) (readBasePath _ _ >>= _)
  refine (readBasePath_upgrade h.basePath hservers).bind fun base base' hbase => ?_
  refine (readShared_upgrade h).bind fun shared shared' hshared => ?_
  refine .bind (.refl (R := Eq) (fun _ => rfl) _) fun options _ heq => ?_
  subst heq
  rw [← bind_assoc, ← bind_assoc]
  refine .bind (.refl (R := Eq) (fun _ => rfl) _) fun extensions _ heq => ?_
  subst heq
  refine (readPaths_upgrade h hpaths).bind fun paths paths' hpaths => ?_
  exact {
    title := rfl
    basePath := hbase
    definitions := hshared.1
    parameters := hshared.2
    paths := hpaths
    globalOptions := rfl
    extensions := rfl
    definitionsPrefix := List.mem_cons_self ..
    parametersPrefix := List.mem_cons_of_mem _ (List.mem_cons_self ..) }

end ApiProto.Document
