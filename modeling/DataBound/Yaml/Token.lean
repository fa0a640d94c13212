-- SUMMARY: The tokens that YAML texts consist of.
import DataBound.Yaml.Tag

/-! # Tokens

A text is a sequence of tokens. Those that open and close block collections and mark their simple keys are not
written but follow from indentation; once they are there, what the text means does not depend on its layout. -/

namespace DataBound.Yaml

inductive Token where
  | directive (d : Directive)
  | documentStart
  | documentEnd
  | openBlockSequence
  | openBlockMapping
  | closeBlock
  | openSequence
  | closeSequence
  | openMapping
  | closeMapping
  | comma
  /-- An item of a sequence follows. -/
  | item
  /-- A key of a mapping follows. -/
  | key
  /-- The value of a key follows. -/
  | value
  | alias (name : String)
  | anchor (name : String)
  | tag (t : Tag)
  | scalar (plain : Bool) (text : String)
  deriving DecidableEq

end DataBound.Yaml
