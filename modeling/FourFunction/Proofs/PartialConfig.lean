import Mathlib.Data.List.Forall2
import Mathlib.Data.List.Induction
import FourFunction.Config
import FourFunction.Proofs.JsonSpellings

/-!
# Partial configurations

An object gives settings, one with each member whose name is known. It is read as a configuration just if
every name is a text, every known member gives a setting and no known name stands twice, and the
configuration is then the default with these settings. Of other members only the names are looked at, and the
order of the known ones changes nothing, because each setting is looked for by its name.
-/

namespace FourFunction

namespace Config

/-! ### Settings -/

/-- What a member of an object can set. -/
inductive Setting
  | format (value : DisplayFormat)
  | errorIndicator (value : Text)
  | reenterResult (value : Bool)

namespace Setting

def apply (config : Config) : Setting → Config
  | format value => { config with format := value }
  | errorIndicator value => { config with errorIndicator := value }
  | reenterResult value => { config with reenterResult := value }

/-- The members that give a setting. A format is named by a string, or by an object that has just a member
of that name, which is `null`. -/
inductive IsGivenBy : Setting → Option Text × Json → Prop
  | format (value : DisplayFormat) :
      IsGivenBy (.format value) (some formatName, .string (some (nameOfFormat value)))
  | variant (value : DisplayFormat) :
      IsGivenBy (.format value) (some formatName, .object [(some (nameOfFormat value), .null)])
  | errorIndicator (value : Text) :
      IsGivenBy (.errorIndicator value) (some errorIndicatorName, .string (some value))
  | reenterResult (value : Bool) : IsGivenBy (.reenterResult value) (some reenterResultName, .bool value)

end Setting

/-! ### Fields -/

/-- How a value of the configuration is found among members, and in what is made of them. -/
structure Field (α : Type) where
  name : Text
  read : Json → Option α
  stored : Config → α
  given? : Setting → Option α

def formatField : Field DisplayFormat where
  name := formatName
  read := formatOf?
  stored := Config.format
  given?
    | .format value => some value
    | _ => none

def errorIndicatorField : Field Text where
  name := errorIndicatorName
  read := textOf?
  stored := Config.errorIndicator
  given?
    | .errorIndicator value => some value
    | _ => none

def reenterResultField : Field Bool where
  name := reenterResultName
  read := boolOf?
  stored := Config.reenterResult
  given?
    | .reenterResult value => some value
    | _ => none

def knownNames : List (Option Text) :=
  [some formatName, some errorIndicatorName, some reenterResultName]

variable {α : Type} {field : Field α} {members others known : List (Option Text × Json)} {settings : List Setting}

/-- The reader of a field and the settings agree on what is given under its name. -/
structure Field.IsSound (field : Field α) : Prop where
  is_known : some field.name ∈ knownNames
  stored_apply : ∀ config setting,
    field.stored (Setting.apply config setting) = (field.given? setting).getD (field.stored config)
  given_of_name : ∀ {setting member}, Setting.IsGivenBy setting member → member.1 = some field.name →
    ∃ value, field.read member.2 = some value ∧ field.given? setting = some value
  not_given : ∀ {setting member}, Setting.IsGivenBy setting member → member.1 ≠ some field.name →
    field.given? setting = none
  given_of_read : ∀ {json value}, field.read json = some value →
    ∃ setting, Setting.IsGivenBy setting (some field.name, json)

theorem nameOfFormat_of_formatOfName? {name : Text} {format : DisplayFormat}
    (hname : formatOfName? name = some format) : nameOfFormat format = name := by
  have hfound := List.find?_some (show List.find? (nameOfFormat · == name) _ = some format from hname)
  exact beq_iff_eq.mp hfound

theorem isSound_formatField : formatField.IsSound where
  is_known := by decide
  stored_apply config setting := by cases setting <;> rfl
  given_of_name {setting member} hgiven hname := by
    cases hgiven with
    | format value | variant value => exact ⟨value, by cases value <;> rfl, rfl⟩
    | errorIndicator | reenterResult => cases hname
  not_given {setting member} hgiven hname := by
    cases hgiven with
    | format | variant => exact absurd rfl hname
    | errorIndicator | reenterResult => rfl
  given_of_read {json value} hread := by
    obtain ⟨name, hvariant, hformat⟩ := Option.bind_eq_some_iff.mp hread
    obtain rfl := nameOfFormat_of_formatOfName? hformat
    unfold Json.variant? at hvariant
    split at hvariant
    · rw [hvariant]
      exact ⟨_, .format value⟩
    · rw [hvariant]
      exact ⟨_, .variant value⟩
    · cases hvariant

theorem isSound_errorIndicatorField : errorIndicatorField.IsSound where
  is_known := by decide
  stored_apply config setting := by cases setting <;> rfl
  given_of_name {setting member} hgiven hname := by
    cases hgiven with
    | errorIndicator value => exact ⟨value, rfl, rfl⟩
    | format | variant | reenterResult => cases hname
  not_given {setting member} hgiven hname := by
    cases hgiven with
    | errorIndicator => exact absurd rfl hname
    | format | variant | reenterResult => rfl
  given_of_read {json value} hread := by
    change textOf? json = some value at hread
    unfold textOf? at hread
    split at hread
    · rw [hread]
      exact ⟨_, .errorIndicator value⟩
    · cases hread

theorem isSound_reenterResultField : reenterResultField.IsSound where
  is_known := by decide
  stored_apply config setting := by cases setting <;> rfl
  given_of_name {setting member} hgiven hname := by
    cases hgiven with
    | reenterResult value => exact ⟨value, rfl, rfl⟩
    | format | variant | errorIndicator => cases hname
  not_given {setting member} hgiven hname := by
    cases hgiven with
    | reenterResult => exact absurd rfl hname
    | format | variant | errorIndicator => rfl
  given_of_read {json value} hread := by
    change boolOf? json = some value at hread
    unfold boolOf? at hread
    split at hread
    · rename_i given
      exact ⟨_, .reenterResult given⟩
    · cases hread

/-! ### A field among the known members -/

/-- The members that are looked at. -/
def knownMembers (members : List (Option Text × Json)) : List (Option Text × Json) :=
  members.filter (·.1 ∈ knownNames)

theorem length_filter_name (name : Option Text) (members : List (Option Text × Json)) :
    (members.filter (·.1 == name)).length = (members.map Prod.fst).count name := by
  rw [List.count, List.countP_map, List.countP_eq_length_filter]
  rfl

/-- The values read under the name of a field are those that the settings give it. -/
theorem map_read_filter (hfield : field.IsSound) (hgiven : List.Forall₂ Setting.IsGivenBy settings known) :
    (known.filter (·.1 == some field.name)).map (field.read ·.2) = (settings.filterMap field.given?).map some := by
  induction hgiven with
  | nil => rfl
  | @cons setting member _ _ hfirst _ ih =>
    by_cases hname : member.1 = some field.name
    · obtain ⟨value, hread, hvalue⟩ := hfield.given_of_name hfirst hname
      rw [List.filter_cons_of_pos (by simpa using hname), List.filterMap_cons_some hvalue, List.map_cons,
        List.map_cons, hread, ih]
    · have hnone := hfield.not_given hfirst hname
      rw [List.filter_cons_of_neg (by simpa using hname), List.filterMap_cons_none hnone, ih]

/-- The last value that is given to a field stays. -/
theorem stored_foldl_apply (hfield : field.IsSound) (settings : List Setting) (config : Config) :
    field.stored (settings.foldl Setting.apply config) =
      (settings.filterMap field.given?).getLast?.getD (field.stored config) := by
  induction settings using List.reverseRecOn with
  | nil => rfl
  | append_singleton settings setting ih =>
    rw [List.foldl_append, List.foldl_cons, List.foldl_nil, hfield.stored_apply, List.filterMap_append, ih]
    cases hvalue : field.given? setting <;> simp [hvalue]

theorem member?_knownMembers (hname : some field.name ∈ knownNames) (default : α)
    (members : List (Option Text × Json)) :
    member? field.read default field.name (knownMembers members) =
      member? field.read default field.name members := by
  have hfilter : (knownMembers members).filter (·.1 == some field.name) =
      members.filter (·.1 == some field.name) := by
    rw [knownMembers, List.filter_filter]
    apply List.filter_congr
    intro member _
    by_cases hmember : member.1 = some field.name <;> simp [hmember, hname]
  rw [member?, hfilter, ← member?]

/-- Where every known name stands once at most, each field is read as the settings leave it. -/
theorem member?_eq_stored (hfield : field.IsSound)
    (hgiven : List.Forall₂ Setting.IsGivenBy settings (knownMembers members))
    (honce : ((knownMembers members).map Prod.fst).Nodup) (config : Config) :
    member? field.read (field.stored config) field.name members =
      some (field.stored (settings.foldl Setting.apply config)) := by
  have hread := map_read_filter hfield hgiven
  have hlength : ((knownMembers members).filter (·.1 == some field.name)).length ≤ 1 := by
    rw [length_filter_name]
    exact List.nodup_iff_count_le_one.mp honce _
  rw [← member?_knownMembers hfield.is_known, stored_foldl_apply hfield, member?]
  generalize (knownMembers members).filter (·.1 == some field.name) = found at hread hlength
  match found, hlength with
  | [], _ =>
    rw [List.map_eq_nil_iff.mp hread.symm]
    rfl
  | [member], _ =>
    obtain ⟨value, hvalue, hsame⟩ := List.map_eq_singleton_iff.mp hread.symm
    rw [hvalue]
    exact hsame.symm

theorem member?_perm (read : Json → Option α) (default : α) (name : Text) (hperm : members.Perm others) :
    member? read default name others = member? read default name members := by
  have hfound := hperm.filter (·.1 == some name)
  rw [member?, member?]
  generalize members.filter (·.1 == some name) = found at hfound
  match found with
  | [] => rw [hfound.nil_eq]
  | [member] => rw [List.singleton_perm.mp hfound]
  | _ :: _ :: _ =>
    have hlength := hfound.length_eq
    split
    · rename_i hnil
      rw [hnil] at hlength
      cases hlength
    · rename_i hsingle
      rw [hsingle] at hlength
      cases hlength
    · rfl

/-- The name stands once at most, and then with a setting. -/
structure GivesOnce (members : List (Option Text × Json)) (name : Option Text) : Prop where
  once : (members.map Prod.fst).count name ≤ 1
  gives : ∀ json, (name, json) ∈ members → ∃ setting : Setting, setting.IsGivenBy (name, json)

theorem givesOnce_of_member? (hfield : field.IsSound) {default value : α}
    (hread : member? field.read default field.name members = some value) :
    GivesOnce members (some field.name) := by
  have hcount := length_filter_name (some field.name) members
  have hfound : ∀ json, (some field.name, json) ∈ members →
      (some field.name, json) ∈ members.filter (·.1 == some field.name) :=
    fun json hjson => List.mem_filter.mpr ⟨hjson, beq_self_eq_true _⟩
  rw [member?] at hread
  generalize members.filter (·.1 == some field.name) = found at hread hcount hfound
  match found, hread with
  | [], _ =>
    refine ⟨hcount.ge.trans (Nat.zero_le 1), ?_⟩
    intro json hjson
    cases hfound json hjson
  | [_], hread =>
    refine ⟨hcount.ge, ?_⟩
    intro json hjson
    obtain rfl := List.mem_singleton.mp (hfound json hjson)
    exact hfield.given_of_read hread

/-! ### Members as a configuration -/

/-- No name holds half of a surrogate pair. -/
def HasTextNames (members : List (Option Text × Json)) : Prop :=
  ∀ member ∈ members, member.1.isSome = true

theorem ofMembers?_of_isGivenBy (hnames : HasTextNames members)
    (hgiven : List.Forall₂ Setting.IsGivenBy settings (knownMembers members))
    (honce : ((knownMembers members).map Prod.fst).Nodup) :
    ofMembers? members = some (settings.foldl Setting.apply {}) := by
  have hformat : member? formatOf? ({} : Config).format formatName members = _ :=
    member?_eq_stored isSound_formatField hgiven honce {}
  have herror : member? textOf? ({} : Config).errorIndicator errorIndicatorName members = _ :=
    member?_eq_stored isSound_errorIndicatorField hgiven honce {}
  have hreenter : member? boolOf? ({} : Config).reenterResult reenterResultName members = _ :=
    member?_eq_stored isSound_reenterResultField hgiven honce {}
  rw [ofMembers?, if_pos (List.all_eq_true.mpr hnames), hformat, herror, hreenter]
  rfl

theorem givesOnce_of_ofMembers? {config : Config} (hread : ofMembers? members = some config) :
    HasTextNames members ∧ ∀ name ∈ knownNames, GivesOnce members name := by
  obtain ⟨hnames, hfields⟩ := Option.ite_none_right_eq_some.mp hread
  obtain ⟨format, hformat, hrest⟩ := Option.bind_eq_some_iff.mp hfields
  obtain ⟨errorIndicator, herror, hrest⟩ := Option.bind_eq_some_iff.mp hrest
  obtain ⟨reenterResult, hreenter, _⟩ := Option.bind_eq_some_iff.mp hrest
  refine ⟨List.all_eq_true.mp hnames, ?_⟩
  simp only [knownNames, List.forall_mem_cons, List.not_mem_nil, IsEmpty.forall_iff, implies_true, and_true]
  exact ⟨givesOnce_of_member? isSound_formatField hformat,
    givesOnce_of_member? isSound_errorIndicatorField herror,
    givesOnce_of_member? isSound_reenterResultField hreenter⟩

theorem ofMembers?_of_not_hasTextNames (hnames : ¬HasTextNames members) : ofMembers? members = none := by
  cases hread : ofMembers? members with
  | none => rfl
  | some config => exact absurd (givesOnce_of_ofMembers? hread).1 hnames

theorem ofMembers?_eq_none {name : Option Text} (hname : name ∈ knownNames) (hnot : ¬GivesOnce members name) :
    ofMembers? members = none := by
  cases hread : ofMembers? members with
  | none => rfl
  | some config => exact absurd ((givesOnce_of_ofMembers? hread).2 name hname) hnot

theorem ofMembers?_perm (hnames : HasTextNames members) (hothers : HasTextNames others)
    (hperm : (knownMembers members).Perm (knownMembers others)) : ofMembers? others = ofMembers? members := by
  have hfield : ∀ {α : Type} {field : Field α}, field.IsSound → ∀ default,
      member? field.read default field.name others = member? field.read default field.name members := by
    intro α field hfield default
    rw [← member?_knownMembers hfield.is_known, member?_perm _ _ _ hperm, member?_knownMembers hfield.is_known]
  have hformat : ∀ default, member? formatOf? default formatName others = _ := hfield isSound_formatField
  have herror : ∀ default, member? textOf? default errorIndicatorName others = _ :=
    hfield isSound_errorIndicatorField
  have hreenter : ∀ default, member? boolOf? default reenterResultName others = _ :=
    hfield isSound_reenterResultField
  rw [ofMembers?, ofMembers?, if_pos (List.all_eq_true.mpr hnames), if_pos (List.all_eq_true.mpr hothers),
    hformat, herror, hreenter]
  rfl

theorem ofText?_of_spells {text : Text} (htext : Json.Spells (.value (.object members)) text) :
    ofText? text = ofMembers? members := by
  rw [ofText?, Json.ofText?_of_spells htext]
  rfl

theorem not_isGivenBy_null (setting : Setting) (name : Option Text) : ¬setting.IsGivenBy (name, .null) := by
  rintro ⟨⟩

end Config

open Config

/-- What an object is read as. With names that are texts, each known one at most once and a setting under
each, it is the default configuration with these settings. With a name that is no text, with a known name
twice, or with anything else under one, such as `null`, it is refused, whatever the other members are. Among
names that are texts only the known members matter, and not their order. -/
theorem partial_config {text : Text} {members : List (Option Text × Json)}
    (htext : Json.Spells (.value (.object members)) text) :
    (∀ settings, HasTextNames members → ((knownMembers members).map Prod.fst).Nodup →
      List.Forall₂ Setting.IsGivenBy settings (knownMembers members) →
      Config.ofText? text = some (settings.foldl Setting.apply {})) ∧
    (¬HasTextNames members → Config.ofText? text = none) ∧
    (∀ name ∈ knownNames, 2 ≤ (members.map Prod.fst).count name → Config.ofText? text = none) ∧
    (∀ name ∈ knownNames, (name, .null) ∈ members → Config.ofText? text = none) ∧
    (∀ member ∈ knownMembers members, (∀ setting : Setting, ¬setting.IsGivenBy member) →
      Config.ofText? text = none) ∧
    ∀ other others, Json.Spells (.value (.object others)) other → HasTextNames members → HasTextNames others →
      (knownMembers members).Perm (knownMembers others) → Config.ofText? other = Config.ofText? text := by
  rw [ofText?_of_spells htext]
  refine ⟨fun settings hnames honce hgiven => ofMembers?_of_isGivenBy hnames hgiven honce,
    ofMembers?_of_not_hasTextNames, ?_, ?_, ?_, ?_⟩
  · intro name hname htwice
    exact ofMembers?_eq_none hname fun hgives => (htwice.trans hgives.once).not_gt Nat.one_lt_two
  · intro name hname hnull
    apply ofMembers?_eq_none hname
    intro hgives
    obtain ⟨setting, hsetting⟩ := hgives.gives _ hnull
    exact not_isGivenBy_null setting name hsetting
  · intro member hmember hnone
    obtain ⟨hmember, hname⟩ := List.mem_filter.mp hmember
    apply ofMembers?_eq_none (of_decide_eq_true hname)
    intro hgives
    obtain ⟨setting, hsetting⟩ := hgives.gives _ hmember
    exact hnone setting hsetting
  · intro other others hother hnames hothers hperm
    rw [ofText?_of_spells hother]
    exact ofMembers?_perm hnames hothers hperm

/-- An unknown member with a number out of range, and two settings in another order than that of writing, one
of them with an escape in its name. -/
theorem partial_config_escaped :
    let huge : Json := .number ⟨none, ['1'], none, some ⟨false, none, ['4', '0', '0']⟩⟩
    let unknown : Option Text × Json := (some ['x'], .array [.object [(some ['y'], huge)]])
    let reenter : Option Text × Json := (some reenterResultName, .bool false)
    let format : Option Text × Json := (some formatName, .object [(some "compact".toList, .null)])
    let text := "\x7b \"x\" : [\x7b\"y\":1e400\x7d ] ,\"reenter_result\":false,".toList ++
      "\n\"result\\u005fformat\":\x7b\"compact\":null\x7d\x7d".toList
    let spoilt := "\x7b\"x\":[],\"error_indicator\":null\x7d".toList
    (Json.Spells (.value (.object [unknown, reenter, format])) text ∧
      HasTextNames [unknown, reenter, format] ∧ knownMembers [unknown, reenter, format] = [reenter, format] ∧
      List.Forall₂ Setting.IsGivenBy [.reenterResult false, .format .compact] [reenter, format] ∧
      Config.ofText? text = some ⟨.compact, "Error".toList, false⟩) ∧
    Json.Spells (.value (.object [(some ['x'], .array []), (some errorIndicatorName, .null)])) spoilt ∧
      Config.ofText? spoilt = none := by
  intro huge unknown reenter format text spoilt
  have htext : Json.Spells (.value (.object [unknown, reenter, format])) text := by decide +kernel
  have hspoilt :
      Json.Spells (.value (.object [(some ['x'], .array []), (some errorIndicatorName, .null)])) spoilt := by
    decide +kernel
  have hnames : HasTextNames [unknown, reenter, format] := by simp [HasTextNames, unknown, reenter, format]
  have hknown : knownMembers [unknown, reenter, format] = [reenter, format] := rfl
  have hgiven : List.Forall₂ Setting.IsGivenBy [.reenterResult false, .format .compact] [reenter, format] :=
    .cons (.reenterResult false) (.cons (.variant .compact) .nil)
  have hread := (partial_config htext).1 _ hnames (by rw [hknown]; decide) (hknown ▸ hgiven)
  have hrefused := (partial_config hspoilt).2.2.2.1 (some errorIndicatorName) (by decide) (by simp)
  exact ⟨⟨htext, hnames, hknown, hgiven, hread⟩, hspoilt, hrefused⟩

/-- An unknown member whose name is half of a surrogate pair. With it the object is refused, and without it the
default is read. -/
theorem partial_config_half_pair :
    let unknown : Option Text × Json := (none, .number ⟨none, ['0'], none, none⟩)
    let text := "\x7b\"\\ud800\":0\x7d".toList
    (Json.Spells (.value (.object [unknown])) text ∧ knownMembers [unknown] = [] ∧ Config.ofText? text = none) ∧
      Json.Spells (.value (.object [])) "\x7b\x7d".toList ∧ Config.ofText? "\x7b\x7d".toList = some {} := by
  intro unknown text
  exact ⟨⟨by decide +kernel, rfl, by decide +kernel⟩, by decide +kernel, by decide +kernel⟩

end FourFunction
