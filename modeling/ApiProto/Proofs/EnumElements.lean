import ApiProto.Proofs.EnumSources
import ApiProto.Proofs.Ownership

/-!
# Names of enum values in a package

An element that starts with the name of its enum keeps the letters and digits of that name, so it is
no bare number if the name has a letter, and elements of two enums differ if the letters and digits
of neither name begin those of the other.

* `isBare_enumValueName_iff` — the values that become bare numbers.
* `Enumeration.Lists.not_isBare`, `Enumeration.Lists.begins` — elements that start with the name of
  the enum.
* `elements_not_bare` — the elements of an enum whose name has a letter.
* `siblings_share_nothing` — the elements of two enums in one container.
-/

namespace ApiProto.Name

variable {cs : List Char} {a : Char} {s : String}

/-! ## Values that become bare numbers -/

theorem isUpper_of_isDigit (h : a.isDigit = true) : a.isUpper = false := by
  refine Bool.eq_false_iff.2 fun hupper => ?_
  have hlo : 65 ≤ a.val.toNat := (toNat_toLower hupper).1
  have hhi : a.val.toNat ≤ 57 := of_decide_eq_true (Bool.and_eq_true_iff.1 h).2
  omega

theorem toUpper_of_isDigit (h : a.isDigit = true) : a.toUpper = a := by
  refine toUpper_eq_self (Bool.eq_false_iff.2 fun hlower => ?_)
  have hlo : 97 ≤ a.val.toNat := of_decide_eq_true (Bool.and_eq_true_iff.1 hlower).1
  have hhi : a.val.toNat ≤ 57 := of_decide_eq_true (Bool.and_eq_true_iff.1 h).2
  omega

theorem isAlphanum_of_isDigit (h : a.isDigit = true) : a.isAlphanum = true :=
  Bool.or_eq_true_iff.2 (.inr h)

theorem toLower_mem_breakWords (h : a ∈ cs) (before : Option Char) :
    a.toLower ∈ breakWords before cs := by
  induction cs generalizing before with
  | nil => cases h
  | cons b rest ih =>
    have hmem : a.toLower ∈ b.toLower :: breakWords (some b) rest := by
      rcases List.mem_cons.1 h with rfl | h
      · exact List.mem_cons_self ..
      · exact List.mem_cons_of_mem _ (ih h _)
    rw [breakWords]
    split
    · exact List.mem_cons_of_mem _ hmem
    · exact hmem

/-- An enum value is a bare number if what is left of the text it stands for is a row of digits. -/
theorem isBare_enumValueName_iff :
    IsBare (enumValueName s) ↔ ∀ a ∈ wordsOf (decodedValue s), a.isDigit = true := by
  have hmake : enumValueName s =
      String.ofList (allCaps (breakWords none (wordsOf (decodedValue s)))) := rfl
  have hchars := (wordsOf_worded (decodedValue s)).chars
  generalize wordsOf (decodedValue s) = ws at hmake hchars
  unfold IsBare allDigits
  rw [hmake, String.toList_ofList, List.all_eq_true]
  have hcaps : allCaps (breakWords none ws) = (breakWords none ws).map fun a =>
      (if a.isAlphanum then a else '_').toUpper := List.map_map
  rw [hcaps]
  constructor
  · intro h a ha
    have hdigit := h _ (List.mem_map.2 ⟨_, toLower_mem_breakWords ha none, rfl⟩)
    rcases hchars a ha with hword | rfl
    · rw [if_pos (isAlphanum_toLower hword), toUpper_toLower] at hdigit
      rcases Bool.or_eq_true_iff.1 hword with halpha | hnum
      · rw [not_isDigit_toUpper halpha] at hdigit
        cases hdigit
      · exact hnum
    · exact absurd hdigit (by decide)
  · intro h b hb
    rw [breakWords_eq_self fun a ha => isUpper_of_isDigit (h a ha)] at hb
    obtain ⟨a, ha, rfl⟩ := List.mem_map.1 hb
    rw [if_pos (isAlphanum_of_isDigit (h a ha)), toUpper_of_isDigit (h a ha)]
    exact h a ha

/-! ## Letters of names -/

/-- If the capitals of two texts are the same, a letter in one means a letter in the other. -/
theorem exists_letter_of_capitals {ds : List Char} (h : capitals cs = capitals ds) (ha : a ∈ cs)
    (halpha : a.isAlpha = true) : ∃ b ∈ ds, b.isAlpha = true := by
  have hword : a.isAlphanum = true := Bool.or_eq_true_iff.2 (.inl halpha)
  have hmem : a.toUpper ∈ capitals ds :=
    h ▸ List.mem_map.2 ⟨a, List.mem_filter.2 ⟨ha, hword⟩, rfl⟩
  obtain ⟨b, hb, hupper⟩ := List.mem_map.1 hmem
  obtain ⟨hb, hbword⟩ := List.mem_filter.1 hb
  refine ⟨b, hb, (Bool.or_eq_true_iff.1 hbword).resolve_right fun hdigit => ?_⟩
  have hnot := not_isDigit_toUpper halpha
  rw [← hupper, toUpper_of_isDigit hdigit, hdigit] at hnot
  cases hnot

theorem mem_spellAmpersands (ha : a ∈ cs) (hne : a ≠ '&') : a ∈ spellAmpersands cs :=
  List.mem_flatMap.2 ⟨a, ha, by rw [if_neg hne]; exact List.mem_singleton_self a⟩

/-- A key after an underscore ends the name in Pascal case. -/
theorem pascal_suffix (owner key : String) :
    (pascal key).toList <:+ (pascal (owner ++ "_" ++ key)).toList := by
  have hjoin : (owner ++ "_" ++ key).toList = owner.toList ++ '_' :: key.toList := by
    simp [String.toList_append]
  obtain ⟨fresh, h⟩ := pascalFrom_append true owner.toList ('_' :: key.toList)
  unfold pascal pascalChars
  rw [String.toList_ofList, String.toList_ofList, hjoin, h]
  exact List.suffix_append ..

end ApiProto.Name

namespace ApiProto.Compile

open Proto Document Name

variable {options : Options} {spec : Spec} {o : Output} {name : String} {e e' : Enumeration}
  {id id' container : Nat}

/-! ## Signs in names -/

/-- Keys of properties that end a name have none of the signs. -/
def EndsWithout (spec : Spec) (signs : List Char) (name : String) : Prop :=
  ∀ key ∈ spec.propertyKeys, (pascal key).toList <:+ name.toList → ∀ a ∈ signs, a ∉ key.toList

/-- A description in which no key has one of the signs. -/
theorem endsWithout_of_all {signs : List Char}
    (h : (spec.propertyKeys.all fun key => signs.all fun a => !key.toList.contains a) = true)
    (name : String) : EndsWithout spec signs name := by
  intro key hkey _ a ha hmem
  have hsigns := List.all_eq_true.1 (List.all_eq_true.1 h key hkey) a ha
  rw [List.contains_iff_mem.2 hmem] at hsigns
  cases hsigns

theorem IsEnumName.not_mem (h : IsEnumName spec name) {signs : List Char}
    (hends : EndsWithout spec signs (pascal name)) {a : Char} (ha : a ∈ signs)
    (hword : a.isAlphanum = false) (hne : a ≠ '_') : a ∉ name.toList := by
  cases h with
  | own plain => exact plain.not_mem hword
  | @member owner key plain hkey =>
    have hjoin : (owner ++ "_" ++ key).toList = owner.toList ++ '_' :: key.toList := by
      simp [String.toList_append]
    rw [hjoin]
    intro hmem
    rcases List.mem_append.1 hmem with hmem | hmem
    · exact plain.not_mem hword hmem
    rcases List.mem_cons.1 hmem with rfl | hmem
    · exact hne rfl
    rcases hkey with hkey | ⟨given, rfl⟩
    · exact hends key hkey (pascal_suffix owner key) a ha hmem
    · unfold Name.snake at hmem
      rw [String.toList_ofList] at hmem
      rcases (snakeChars_worded _).chars a hmem with h | h
      · rw [hword] at h
        cases h
      · exact hne h

namespace Enumeration.Lists

variable {named : Bool} {choices : List String} (h : Enumeration.Lists spec named name choices e)
include h

theorem capitals_name : capitals e.name.toList = capitals name.toList := by
  rw [h.name_eq, capitals_pascal]

/-- An element that starts with a name with a letter is no bare number. -/
theorem not_isBare (hletter : HasLetter e.name) (hends : EndsWithout spec ['%'] e.name)
    (rest : String) : ¬ IsBare (enumValueName (name ++ rest)) := by
  obtain ⟨a, ha, halpha⟩ := hletter
  obtain ⟨b, hb, hbalpha⟩ := exists_letter_of_capitals h.capitals_name ha halpha
  have hpercent : '%' ∉ name.toList :=
    h.isName.not_mem (h.name_eq ▸ hends) (List.mem_singleton_self _) (by decide) (by decide)
  obtain ⟨more, hmore⟩ := exists_capitals_enumValueName hpercent rest
  have hne : b ≠ '&' := by
    rintro rfl
    exact absurd hbalpha (by decide)
  exact not_isBare_of_letter hmore (mem_spellAmpersands hb hne) hbalpha

/-- An element that starts with the name begins with its letters and digits. -/
theorem begins (hnamed : named = true) (hends : EndsWithout spec ['%', '&'] e.name)
    {element : String} (helement : element ∈ e.elements) :
    capitals e.name.toList <+: capitals element.toList := by
  have hpercent : '%' ∉ name.toList :=
    h.isName.not_mem (h.name_eq ▸ hends) (List.mem_cons_self ..) (by decide) (by decide)
  have hampersand : '&' ∉ name.toList :=
    h.isName.not_mem (h.name_eq ▸ hends) (List.mem_cons_of_mem _ (List.mem_singleton_self _))
      (by decide) (by decide)
  rw [h.elements_eq] at helement
  obtain ⟨choice, -, rfl⟩ := List.mem_map.1 helement
  obtain ⟨more, hmore⟩ := exists_capitals_enumValueName hpercent ("_" ++ choice)
  rw [h.capitals_name]
  unfold elementName
  rw [hnamed, Bool.true_or, if_pos rfl, String.append_assoc, hmore,
    spellAmpersands_eq_self hampersand]
  exact List.prefix_append ..

end Enumeration.Lists

/-! ## Packages -/

/-- The enums of a finished package, and the containers of those without their name in front. -/
theorem exists_lists_of_compile (h : compile options spec = .ok o)
    (he : o.graph.node? id = some (.enumeration e)) :
    ∃ named choices name, Enumeration.Lists spec named name choices e ∧ (named = false →
      options.prefixEnums = false ∧ (IsUncut spec e.name → .node id ∈ o.graph.children o.package ∧
        ∀ container, .node id ∈ o.graph.children container → container = o.package)) := by
  obtain ⟨c, hrun, rfl⟩ := compile_ok_iff.1 h
  obtain ⟨scope, howned⟩ := owned_of_passes (passes_of_ok (compileAll.course _) hrun)
  obtain ⟨named, name, choices, hlists, hnamed⟩ :=
    enumsMade_of_phases (compileAll_ok_iff.1 hrun).1 id e he
  refine ⟨named, choices, name, hlists, fun hfalse => ⟨(hnamed hfalse).1, fun huncut => ?_⟩⟩
  have hdeclared := Graph.isDeclared_of_node? he
  have hlog := (hnamed hfalse).2 huncut
  have hchildren := fun k => howned.registered.children k id hdeclared
  exact ⟨(hchildren _).2 hlog, fun k hk => howned.exclusive k id hlog ((hchildren k).1 hk)⟩

/-- No element of an enum whose name has a letter is a bare number, or else the elements do not start
with the name, which is for enums of the package that the options want so. Then an element is a bare
number where the listed value is none and is left with digits alone. -/
theorem elements_not_bare (h : compile options spec = .ok o)
    (he : o.graph.node? id = some (.enumeration e)) (hletter : HasLetter e.name)
    (hends : EndsWithout spec ['%'] e.name) :
    (∀ element ∈ e.elements, ¬ IsBare element) ∨
      options.prefixEnums = false ∧
        (IsUncut spec e.name → .node id ∈ o.graph.children o.package) ∧
        ∃ choices ∈ spec.choiceLists, List.Forall₂ (fun choice element => IsBare element ↔
          ¬ IsBare choice ∧ ∀ a ∈ wordsOf (decodedValue choice), a.isDigit = true)
            choices e.elements := by
  obtain ⟨named, choices, name, hlists, hnamed⟩ := exists_lists_of_compile h he
  cases named with
  | true =>
    refine .inl fun element helement => ?_
    rw [hlists.elements_eq] at helement
    obtain ⟨choice, -, rfl⟩ := List.mem_map.1 helement
    unfold elementName
    rw [Bool.true_or, if_pos rfl, String.append_assoc]
    exact hlists.not_isBare hletter hends _
  | false =>
    obtain ⟨hplain, hpackage⟩ := hnamed rfl
    refine .inr ⟨hplain, fun huncut => (hpackage huncut).1, choices, hlists.listed, ?_⟩
    rw [hlists.elements_eq, List.forall₂_map_right_iff, List.forall₂_same]
    intro choice _
    unfold elementName
    rw [Bool.false_or]
    by_cases hbare : IsBare choice
    · rw [if_pos (show allDigits choice.toList = true from hbare), String.append_assoc]
      exact iff_of_false (hlists.not_isBare hletter hends _) fun hnot => hnot.1 hbare
    · rw [if_neg (show ¬ allDigits choice.toList = true from hbare), isBare_enumValueName_iff]
      exact (and_iff_right hbare).symm

/-- Whether a node is an enum of a name and elements. -/
def isEnum (id : Nat) (name : String) (elements : List String) (c : Compilation) : Bool :=
  match c.graph.node? id with
  | some (.enumeration e) => e == ⟨name, elements, ""⟩
  | _ => false

theorem node?_of_isEnum {elements : List String} {c : Compilation}
    (h : isEnum id name elements c = true) :
    c.graph.node? id = some (.enumeration ⟨name, elements, ""⟩) := by
  unfold isEnum at h
  split at h
  · next hnode => rw [hnode, beq_iff_eq.1 h]
  · cases h

/-- Levels as numbers, one of them with a sign. -/
def levels : Spec := Spec.ofDefinitions [
  ("Level", { Schema.enumeration ["-1", "0"] with types := ["integer"] })]

theorem elements_not_bare_levels : ∃ o,
    compile ⟨false, false, true, false, "pet"⟩ levels = .ok o ∧
    o.graph.node? 2 = some (.enumeration ⟨"Level", ["LEVEL_1", "LEVEL_0"], ""⟩) ∧
    HasLetter "Level" ∧ EndsWithout levels ['%'] "Level" ∧
    ∀ element ∈ ["LEVEL_1", "LEVEL_0"], ¬ IsBare element := by
  obtain ⟨c, hcompile, htest⟩ := compile_of_compilesTo
    (show compilesTo ⟨false, false, true, false, "pet"⟩ levels
      (isEnum 2 "Level" ["LEVEL_1", "LEVEL_0"]) = true by decide +kernel)
  have hnode := node?_of_isEnum htest
  have hletter : HasLetter "Level" := ⟨'L', by decide, by decide⟩
  have hends : EndsWithout levels ['%'] "Level" := endsWithout_of_all (by decide) "Level"
  refine ⟨_, hcompile, hnode, hletter, hends, ?_⟩
  exact (elements_not_bare hcompile hnode hletter hends).resolve_right fun h => by cases h.1

/-- Without names in front, the sign is lost and the number is left. -/
theorem bare_element_levels : ∃ o,
    compile ⟨false, false, false, false, "pet"⟩ levels = .ok o ∧
    o.graph.node? 2 = some (.enumeration ⟨"Level", ["1", "LEVEL_0"], ""⟩) ∧
    HasLetter "Level" ∧ IsBare "1" := by
  obtain ⟨c, hcompile, htest⟩ := compile_of_compilesTo
    (show compilesTo ⟨false, false, false, false, "pet"⟩ levels
      (isEnum 2 "Level" ["1", "LEVEL_0"]) = true by decide +kernel)
  exact ⟨_, hcompile, node?_of_isEnum htest, ⟨'L', by decide, by decide⟩, by decide⟩

/-- Two enums in one message, or in the package if the options ask for names in front, have no
element in common if the letters and digits of neither name begin those of the other. -/
theorem siblings_share_nothing (h : compile options spec = .ok o)
    (he : o.graph.node? id = some (.enumeration e))
    (he' : o.graph.node? id' = some (.enumeration e'))
    (hchild : .node id ∈ o.graph.children container)
    (hchild' : .node id' ∈ o.graph.children container)
    (hcontainer : options.prefixEnums = true ∨
      container ≠ o.package ∧ IsUncut spec e.name ∧ IsUncut spec e'.name)
    (hends : EndsWithout spec ['%', '&'] e.name) (hends' : EndsWithout spec ['%', '&'] e'.name)
    (hapart : ¬ capitals e.name.toList <+: capitals e'.name.toList)
    (hapart' : ¬ capitals e'.name.toList <+: capitals e.name.toList) :
    e.elements.Disjoint e'.elements := by
  have hbegins : ∀ {id e}, o.graph.node? id = some (.enumeration e) →
      .node id ∈ o.graph.children container → EndsWithout spec ['%', '&'] e.name →
      (options.prefixEnums = true ∨ container ≠ o.package ∧ IsUncut spec e.name) →
      ∀ element ∈ e.elements, capitals e.name.toList <+: capitals element.toList := by
    intro id e he hchild hends hcontainer element helement
    obtain ⟨named, choices, name, hlists, hnamed⟩ := exists_lists_of_compile h he
    refine hlists.begins (Bool.eq_true_of_not_eq_false fun hfalse => ?_) hends helement
    obtain ⟨hplain, hpackage⟩ := hnamed hfalse
    rcases hcontainer with htrue | ⟨hne, huncut⟩
    · rw [hplain] at htrue
      cases htrue
    · exact hne ((hpackage huncut).2 container hchild)
  intro element helement helement'
  have hfirst := hbegins he hchild hends (hcontainer.imp_right fun h => ⟨h.1, h.2.1⟩) _ helement
  have hsecond := hbegins he' hchild' hends' (hcontainer.imp_right fun h => ⟨h.1, h.2.2⟩) _ helement'
  exact (List.prefix_or_prefix_of_prefix hfirst hsecond).elim hapart hapart'

/-- Pets with a size and a color, of which some are the same. -/
def largePets : Spec := Spec.ofDefinitions [
  ("Pet", .object [("size", .enumeration ["large"]), ("color", .enumeration ["large"])])]

theorem siblings_share_nothing_largePets : ∃ o,
    compile ⟨false, false, false, false, "pet"⟩ largePets = .ok o ∧
    o.graph.node? 3 = some (.enumeration ⟨"PetColor", ["PET_COLOR_LARGE"], ""⟩) ∧
    o.graph.node? 4 = some (.enumeration ⟨"PetSize", ["PET_SIZE_LARGE"], ""⟩) ∧
    o.graph.children 2 = [.node 3, .node 4] ∧ 2 ≠ o.package ∧
    IsUncut largePets "PetColor" ∧ IsUncut largePets "PetSize" ∧
    EndsWithout largePets ['%', '&'] "PetColor" ∧ EndsWithout largePets ['%', '&'] "PetSize" ∧
    ¬ capitals "PetColor".toList <+: capitals "PetSize".toList ∧
    ¬ capitals "PetSize".toList <+: capitals "PetColor".toList ∧
    ["PET_COLOR_LARGE"].Disjoint ["PET_SIZE_LARGE"] := by
  obtain ⟨c, hcompile, htest⟩ := compile_of_compilesTo
    (show compilesTo ⟨false, false, false, false, "pet"⟩ largePets (fun c =>
      isEnum 3 "PetColor" ["PET_COLOR_LARGE"] c && isEnum 4 "PetSize" ["PET_SIZE_LARGE"] c &&
        decide (c.graph.children 2 = [.node 3, .node 4] ∧ 2 ≠ c.package)) = true by decide +kernel)
  obtain ⟨hnodes, hchildren⟩ := Bool.and_eq_true_iff.1 htest
  obtain ⟨hcolor, hsize⟩ := Bool.and_eq_true_iff.1 hnodes
  obtain ⟨hchildren, hpackage⟩ := of_decide_eq_true hchildren
  have hcolor := node?_of_isEnum hcolor
  have hsize := node?_of_isEnum hsize
  have hreserved : ∀ reserved ∈ reservedNames largePets, withoutMessage reserved = reserved := by
    decide
  have huncut : ∀ name, IsUncut largePets name := fun _ reserved h _ => hreserved reserved h
  have hends := endsWithout_of_all
    (show (largePets.propertyKeys.all fun key => ['%', '&'].all fun a =>
      !key.toList.contains a) = true by decide)
  refine ⟨_, hcompile, hcolor, hsize, hchildren, hpackage, huncut _, huncut _, hends _, hends _,
    by decide, by decide, ?_⟩
  exact siblings_share_nothing hcompile hcolor hsize (by rw [hchildren]; simp)
    (by rw [hchildren]; simp) (.inr ⟨hpackage, huncut _, huncut _⟩) (hends _) (hends _)
    (by decide) (by decide)

/-- Pets with two properties for sizes, of which the name of one begins that of the other. -/
def sizedPets : Spec := Spec.ofDefinitions [
  ("Pet", .object [("size", .enumeration ["x_large"]), ("size_x", .enumeration ["large"])])]

/-- Where the name ends and the value begins cannot be seen in an element. -/
theorem shared_element_sizedPets : ∃ o,
    compile ⟨false, false, false, false, "pet"⟩ sizedPets = .ok o ∧
    o.graph.node? 3 = some (.enumeration ⟨"PetSize", ["PET_SIZE_X_LARGE"], ""⟩) ∧
    o.graph.node? 4 = some (.enumeration ⟨"PetSizeX", ["PET_SIZE_X_LARGE"], ""⟩) ∧
    (∃ m, o.graph.message? 2 = some m) ∧ o.graph.children 2 = [.node 3, .node 4] := by
  obtain ⟨c, hcompile, htest⟩ := compile_of_compilesTo
    (show compilesTo ⟨false, false, false, false, "pet"⟩ sizedPets (fun c =>
      isEnum 3 "PetSize" ["PET_SIZE_X_LARGE"] c && isEnum 4 "PetSizeX" ["PET_SIZE_X_LARGE"] c &&
        ((c.graph.message? 2).isSome && decide (c.graph.children 2 = [.node 3, .node 4]))) = true by
      decide +kernel)
  obtain ⟨hnodes, hchildren⟩ := Bool.and_eq_true_iff.1 htest
  obtain ⟨hsize, hsizeX⟩ := Bool.and_eq_true_iff.1 hnodes
  obtain ⟨hmessage, hchildren⟩ := Bool.and_eq_true_iff.1 hchildren
  exact ⟨_, hcompile, node?_of_isEnum hsize, node?_of_isEnum hsizeX,
    Option.isSome_iff_exists.1 hmessage, of_decide_eq_true hchildren⟩

end ApiProto.Compile
