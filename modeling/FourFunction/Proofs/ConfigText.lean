import FourFunction.Config
import FourFunction.Proofs.JsonGrammar

/-!
# Configurations, read back

A written configuration is read back as it was. It spells an object, in the layout of the writer, and the
object has every name that the reader knows once.
-/

namespace FourFunction

namespace Json

/-! ### Members as they are written -/

theorem spells_quote (text : Text) : Spells (.value (string (some text))) (Quoted.quote text) := by
  obtain ⟨parts, hdecode, hparts⟩ := Quoted.exists_spells_flatMap_escape text
  rw [← hdecode, Quoted.quote, List.cons_append]
  exact .string hparts

theorem spells_boolText (value : Bool) : Spells (.value (bool value)) (Config.boolText value) := by
  cases value
  · exact .false
  · exact .true

theorem spells_memberText (name : Text) {value : Text} {json : Json} (hvalue : Spells (.value json) value) :
    Spells (.member (some name, json)) (Config.memberText name value) := by
  obtain ⟨parts, hdecode, hparts⟩ := Quoted.exists_spells_flatMap_escape name
  have hline : AreBlanks ['\n', ' ', ' '] := by decide
  have hspace : AreBlanks [' '] := by decide
  have hmember := Spells.member hline hparts areBlanks_nil (.padded hspace hvalue areBlanks_nil)
  rw [hdecode] at hmember
  simpa [Config.memberText, Quoted.quote] using hmember

end Json

namespace Config

open Json

/-- The members of a configuration, in the order of writing. -/
def members (config : Config) : List (Option Text × Json) :=
  [(some formatName, .string (some (nameOfFormat config.format))),
    (some errorIndicatorName, .string (some config.errorIndicator)),
    (some reenterResultName, .bool config.reenterResult)]

theorem ofMembers?_members (config : Config) : ofMembers? config.members = some config := by
  obtain ⟨format, errorIndicator, reenterResult⟩ := config
  cases format <;> rfl

theorem spells_toJson (config : Config) : Spells (.value (.object config.members)) config.toJson := by
  have hformat := spells_memberText formatName (spells_quote (nameOfFormat config.format))
  have herror := spells_memberText errorIndicatorName (spells_quote config.errorIndicator)
  have hreenter := spells_memberText reenterResultName (spells_boolText config.reenterResult)
  have hline : AreBlanks ['\n'] := by decide
  have hmembers := Spells.members hformat (.members herror (.lastMember (hreenter.member_append_blanks hline)))
  simpa only [toJson, members, List.append_assoc, List.cons_append, List.nil_append] using Spells.object hmembers

theorem ofText?_toJson (config : Config) : ofText? config.toJson = some config := by
  rw [ofText?, ofText?_of_spells config.spells_toJson]
  exact ofMembers?_members config

end Config

/-- A written configuration is read back as it was, whatever characters the error indicator has. So no
two configurations are written alike. -/
theorem config_round_trip :
    (∀ config : Config, Config.ofText? config.toJson = some config) ∧ Function.Injective Config.toJson := by
  refine ⟨Config.ofText?_toJson, ?_⟩
  intro left right hsame
  have hleft := Config.ofText?_toJson left
  rw [hsame, Config.ofText?_toJson] at hleft
  exact (Option.some.inj hleft).symm

end FourFunction
